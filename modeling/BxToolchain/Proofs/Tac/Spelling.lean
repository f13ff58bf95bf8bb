import BxToolchain.Proofs.Flow.Canonical
import BxToolchain.Proofs.Tac.Legibility

namespace BxToolchain.Tac

open Text List

variable {d : Datum} {i : Instr}

def nameKind (s : String) : TokenKind :=
  if isLabel s then .label else if isGlobal s then .gsym else .temp

variable {kind : TokenKind}

theorem nameKind_eq (h : kind.admits s.toList = true)
    (hkind : kind = .temp ∨ kind = .gsym ∨ kind = .label) : nameKind s = kind := by
  unfold nameKind isLabel isGlobal startsWith
  generalize s.toList = cs at h
  unfold TokenKind.admits at h
  split at h
  any_goals simp at hkind
  · rename_i _ c rest
    have hpoint : c ≠ '.' := by
      rintro rfl
      simp [isNumeral,isNonzeroDigit] at h
    simp [hpoint.symm]
  · simp
  · simp
  · have hsign := of_decide_eq_true (Bool.and_eq_true_iff.1 h).2
    unfold sign? at hsign
    split at hsign <;> cases hsign <;> simp at hkind
  · cases h

def Kind.spells : Kind → Operand → Bool
  | .integer, .int n => isWord n
  | .integer, _ => false
  | .variable, .name s | .optional, .name s =>
    TokenKind.temp.admits s.toList || TokenKind.gsym.admits s.toList
  | .label, .name s => TokenKind.label.admits s.toList
  | .global, .name s => TokenKind.gsym.admits s.toList
  | _, _ => true

def Instr.isSpelled (i : Instr) : Bool :=
  i.opcode != .phi && i.check.isOk && i.opcode.kinds.1.spells i.dest &&
    i.opcode.kinds.2.1.spells i.arg1 && i.opcode.kinds.2.2.spells i.arg2

def isParameter : Datum → Bool
  | .str t => TokenKind.temp.admits t.toList
  | _ => false

def isInitial : Datum → Bool
  | .int n => isWord n
  | _ => false

def Declaration.isSpelled : Declaration → Bool
  | .blank => false
  | .global g => TokenKind.gsym.admits g.name.toList && isInitial g.value
  | .procedure p =>
    TokenKind.gsym.admits p.name.toList && p.params.all isParameter && p.body.all Instr.isSpelled

theorem isNumeral_toDigits (n : Nat) : isNumeral (Nat.toDigits 10 n) = true := by
  have hdigits := isDigit_of_mem_toDigits (n := n)
  rcases Nat.eq_zero_or_pos n with rfl | hn
  · decide
  have hzero := head_toDigits_ne_zero hn
  cases hd : Nat.toDigits 10 n with
  | nil => exact absurd hd Nat.toDigits_ne_nil
  | cons c rest =>
    rw [hd,forall_mem_cons] at hdigits
    rw [hd] at hzero
    have hc : c ≠ '0' := fun h => hzero (congrArg some h)
    unfold isNumeral
    split
    · rfl
    · rename_i heq
      cases heq
      simp only [isNonzeroDigit,Bool.and_eq_true,decide_eq_true_eq,all_eq_true]
      exact ⟨⟨hdigits.1,hc⟩,hdigits.2⟩
    · contradiction

theorem decimal_of_isWord (h : isWord n = true) :
    TokenKind.number.admits (decimal n).toList = true ∧ numberOf (decimal n).toList = n := by
  have hbounds := h
  simp only [isWord,Bool.and_eq_true,decide_eq_true_eq] at hbounds
  obtain ⟨n,rfl⟩ := Int.eq_ofNat_of_zero_le hbounds.1
  have hdecimal : (decimal (n : Int)).toList = Nat.toDigits 10 n := by simp [decimal]
  have hnumber : numberOf (Nat.toDigits 10 n) = n := by
    unfold numberOf
    split
    · rename_i heq
      exact absurd (isDigit_of_mem_toDigits (n := n) '-' (heq ▸ mem_cons_self)) (by decide)
    · rw [natOfDigits_toDigits]
  have hlength : (Nat.toDigits 10 n).length ≤ digitLimit := by
    apply Nat.le_trans ((Nat.length_toDigits_le_iff (k := 20) (by decide) (by decide)).2 ?_)
    · decide
    · omega
  rw [hdecimal]
  refine ⟨?_,hnumber⟩
  simp only [TokenKind.admits,hnumber,isNumeral_toDigits,hlength,h,decide_true,Bool.and_self]

def space : Lexeme := .blank ' '

def sign (kind : TokenKind) (c : Char) : Lexeme := .token kind [c]

def word (kind : TokenKind) (s : String) : Lexeme := .token kind s.toList

def Operand.tokenKind : Operand → TokenKind
  | .int _ => .number
  | .name s => nameKind s
  | _ => .opcode

def Operand.lexeme (x : Operand) : Lexeme := word x.tokenKind x.text

namespace Instr

def destLexemes (i : Instr) : List Lexeme :=
  match i.dest with
  | .absent => []
  | d => [d.lexeme,space,sign .eq '=',space]

def argLexemes (i : Instr) : List Lexeme :=
  match i.arg1, i.arg2 with
  | .absent, _ => []
  | a, .absent => [space,a.lexeme]
  | a, b => [space,a.lexeme,sign .comma ',',space,b.lexeme]

theorem argLexemes_single (ha : i.arg1 ≠ .absent) (hb : i.arg2 = .absent) :
    i.argLexemes = [space,i.arg1.lexeme] := by
  unfold argLexemes
  split <;> simp_all

theorem argLexemes_pair (ha : i.arg1 ≠ .absent) (hb : i.arg2 ≠ .absent) :
    i.argLexemes = [space,i.arg1.lexeme,sign .comma ',',space,i.arg2.lexeme] := by
  unfold argLexemes
  split <;> simp_all

def lexemes (i : Instr) : List Lexeme :=
  match i.opcode with
  | .label => [i.arg1.lexeme,sign .colon ':',.newline]
  | o => space :: space :: i.destLexemes ++ word .opcode o.name :: i.argLexemes ++
      [sign .semicolon ';',.newline]

theorem text_destLexemes (i : Instr) : i.destLexemes.flatMap Lexeme.text = i.destText.toList := by
  unfold destLexemes destText
  cases i.dest <;> simp [Operand.lexeme,word,space,sign,Lexeme.text]

theorem text_argLexemes (i : Instr) : i.argLexemes.flatMap Lexeme.text = i.argsText.toList := by
  unfold argLexemes argsText
  cases i.arg1 <;> cases i.arg2 <;> simp [Operand.lexeme,word,space,sign,Lexeme.text]

theorem text_lexemes (h : i.opcode ≠ .phi) :
    i.lexemes.flatMap Lexeme.text = (i.text ++ "\n").toList := by
  unfold lexemes text
  split
  · rename_i ho
    simp [ho,Operand.lexeme,word,sign,Lexeme.text]
  · rename_i ho
    split
    · contradiction
    · contradiction
    · simp [text_destLexemes,text_argLexemes,word,space,sign,Lexeme.text]

end Instr

def Operand.isSpelled : Operand → Bool
  | .absent => true
  | .int n => isWord n
  | .name s => (nameKind s).admits s.toList
  | _ => false

variable {x : Operand}

theorem Kind.isSpelled_of_spells {k : Kind} (hk : k ≠ .phi) (h : k.accepts x = true)
    (hspells : k.spells x = true) : x.isSpelled = true := by
  have hadmits : ∀ {kind : TokenKind} {s : String}, kind = .temp ∨ kind = .gsym ∨ kind = .label →
      kind.admits s.toList = true → (nameKind s).admits s.toList = true := by
    intro kind s hkind hs
    rwa [nameKind_eq hs hkind]
  cases k <;> cases x <;> first | contradiction | skip
  case nothing.absent | optional.absent => rfl
  case integer.int n => exact hspells
  case label.name s => exact hadmits (by simp) hspells
  case global.name s => exact hadmits (by simp) hspells
  case variable.name s | optional.name s =>
    obtain hs | hs := Bool.or_eq_true_iff.1 hspells <;> exact hadmits (by simp) hs

theorem Operand.isProper_lexeme (h : x.isSpelled = true) (hx : x ≠ .absent) :
    x.lexeme.isProper = true := by
  cases x with
  | absent => contradiction
  | int n => exact (decimal_of_isWord h).1
  | name s => exact h
  | flag b | phi sources | pairs sources => cases h

theorem isProper_opcode (o : Opcode) : (word .opcode o.name).isProper = true := by
  cases o with
  | branch op | binary op | unary op => cases op <;> decide
  | _ => decide

namespace Instr

structure Spelled (i : Instr) : Prop where
  not_phi : i.opcode ≠ .phi
  check : i.check = .ok ()
  dest : i.dest.isSpelled = true
  arg1 : i.arg1.isSpelled = true
  arg2 : i.arg2.isSpelled = true
  dest_cases : i.dest = .absent ∨ ∃ s, i.dest = .name s ∧ (nameKind s = .temp ∨ nameKind s = .gsym)
  arg2_absent : i.arg1 = .absent → i.arg2 = .absent
  label_cases : i.opcode = .label → i.dest = .absent ∧ i.arg2 = .absent ∧
    ∃ s, i.arg1 = .name s ∧ nameKind s = .label

theorem destKind_cases (o : Opcode) :
    o.kinds.1 = .nothing ∨ o.kinds.1 = .variable ∨ o.kinds.1 = .optional := by
  cases o <;> simp [Opcode.kinds]

theorem accepts_nothing (h : Kind.nothing.accepts x = true) : x = .absent := by
  cases x <;> first | rfl | cases h

theorem dest_cases (h : i.opcode.kinds.1.accepts i.dest = true)
    (hspells : i.opcode.kinds.1.spells i.dest = true) :
    i.dest = .absent ∨ ∃ s, i.dest = .name s ∧ (nameKind s = .temp ∨ nameKind s = .gsym) := by
  generalize i.dest = x at *
  have hname : ∀ s, (TokenKind.temp.admits s.toList || TokenKind.gsym.admits s.toList) = true →
      nameKind s = .temp ∨ nameKind s = .gsym := by
    intro s hs
    obtain hs | hs := Bool.or_eq_true_iff.1 hs
    · exact .inl (nameKind_eq hs (by simp))
    · exact .inr (nameKind_eq hs (by simp))
  obtain hk | hk | hk := destKind_cases i.opcode <;> rw [hk] at h hspells
  · exact .inl (accepts_nothing h)
  · cases x <;> first | cases h | exact .inr ⟨_,rfl,hname _ hspells⟩
  · cases x <;> first | exact .inl rfl | cases h | exact .inr ⟨_,rfl,hname _ hspells⟩

theorem spelled_of_isSpelled (h : i.isSpelled = true) : i.Spelled := by
  simp only [isSpelled,Bool.and_eq_true,bne_iff_ne] at h
  obtain ⟨⟨⟨⟨hphi,hcheck⟩,hdest⟩,harg1⟩,harg2⟩ := h
  have hok : i.check = .ok () := by
    cases hc : i.check with
    | ok u => rfl
    | error e =>
      rw [hc] at hcheck
      cases hcheck
  obtain ⟨hd,ha,hb⟩ := Flow.check_eq_ok.1 hok
  have hkinds : i.opcode.kinds.1 ≠ .phi ∧ i.opcode.kinds.2.1 ≠ .phi ∧ i.opcode.kinds.2.2 ≠ .phi := by
    cases ho : i.opcode <;> simp_all [Opcode.kinds]
  refine ⟨hphi,hok,Kind.isSpelled_of_spells hkinds.1 hd hdest,
    Kind.isSpelled_of_spells hkinds.2.1 ha harg1,Kind.isSpelled_of_spells hkinds.2.2 hb harg2,
    Instr.dest_cases hd hdest,?_,?_⟩
  · intro habsent
    rw [habsent] at ha
    cases ho : i.opcode <;> rw [ho] at ha hb <;>
      first | exact accepts_nothing hb | cases ha
  · intro ho
    rw [ho] at hd ha hb harg1
    obtain ⟨s,hs,-⟩ := Flow.exists_name_of_label ha
    rw [hs] at harg1
    exact ⟨accepts_nothing hd,accepts_nothing hb,s,hs,nameKind_eq harg1 (by simp)⟩

end Instr

theorem legible_space (h : Legible ls) : Legible (space :: ls) :=
  .loose rfl rfl h

theorem legible_sign (hc : sign? c = some kind) (h : Legible ls) : Legible (sign kind c :: ls) := by
  unfold sign? at hc
  split at hc <;> cases hc <;> exact .loose rfl rfl h

theorem legible_newline : Legible [.newline] := .loose rfl rfl .nil

theorem legible_stop : Legible [sign .semicolon ';',.newline] :=
  legible_sign rfl legible_newline

namespace Instr

theorem Spelled.legible_args (h : i.Spelled) : ∃ l rest,
    i.argLexemes ++ [sign .semicolon ';',.newline] = l :: rest ∧ l.isSolid = false ∧
      Legible (l :: rest) := by
  by_cases ha : i.arg1 = .absent
  · exact ⟨_,_,by simp [argLexemes,ha],rfl,legible_stop⟩
  have harg1 := Operand.isProper_lexeme h.arg1 ha
  by_cases hb : i.arg2 = .absent
  · refine ⟨_,_,by rw [argLexemes_single ha hb]; rfl,rfl,legible_space ?_⟩
    exact .word harg1 rfl legible_stop
  · have harg2 := Operand.isProper_lexeme h.arg2 hb
    refine ⟨_,_,by rw [argLexemes_pair ha hb]; rfl,rfl,legible_space ?_⟩
    refine .word harg1 rfl (legible_sign rfl (legible_space ?_))
    exact .word harg2 rfl legible_stop

theorem Spelled.legible_dest (h : i.Spelled) (hls : Legible ls) :
    Legible (i.destLexemes ++ ls) := by
  unfold destLexemes
  split
  · exact hls
  · rename_i hd
    exact .word (Operand.isProper_lexeme h.dest hd) rfl
      (legible_space (legible_sign rfl (legible_space hls)))

theorem Spelled.legible (h : i.Spelled) : Legible i.lexemes := by
  unfold lexemes
  split
  · rename_i ho
    obtain ⟨-,-,s,hs,-⟩ := h.label_cases ho
    exact .word (Operand.isProper_lexeme h.arg1 (by simp [hs])) rfl
      (legible_sign rfl legible_newline)
  · obtain ⟨l,rest,hargs,hsolid,hlegible⟩ := h.legible_args
    have hdest := h.legible_dest (.word (isProper_opcode i.opcode) hsolid hlegible)
    have hspaces := legible_space (legible_space hdest)
    rw [← hargs] at hspaces
    simpa using hspaces

end Instr

def paramLexemes : List String → List Lexeme
  | [] => []
  | [s] => [word .temp s]
  | s :: rest => word .temp s :: sign .comma ',' :: space :: paramLexemes rest

theorem text_paramLexemes (names : List String) :
    (paramLexemes names).flatMap Lexeme.text = (String.intercalate ", " names).toList := by
  induction names using paramLexemes.induct with
  | case1 => simp [paramLexemes]
  | case2 s => simp [paramLexemes,word,Lexeme.text]
  | case3 s rest hne ih =>
    cases rest with
    | nil => exact absurd rfl (hne · )
    | cons t rest =>
      rw [paramLexemes,String.intercalate_cons_cons]
      · simp [ih,word,sign,space,Lexeme.text]
      · exact hne

theorem legible_params (h : ∀ s ∈ names, TokenKind.temp.admits s.toList = true)
    (hl : l.isSolid = false) (hrest : Legible (l :: rest)) :
    Legible (paramLexemes names ++ l :: rest) := by
  induction names using paramLexemes.induct with
  | case1 => exact hrest
  | case2 s => exact .word (h s mem_cons_self) hl hrest
  | case3 s rest hne ih =>
    obtain ⟨hs,htail⟩ := forall_mem_cons.1 h
    rw [paramLexemes]
    · exact .word hs rfl (legible_sign rfl (legible_space (ih htail)))
    · exact hne

def Declaration.lexemes : Declaration → List Lexeme
  | .blank => []
  | .global g => [word .var "var",space,word .gsym g.name,space,sign .eq '=',space,
      word .number g.value.display,sign .semicolon ';',.newline]
  | .procedure p => word .proc "proc" :: space :: word .gsym p.name :: sign .lparen '(' ::
      paramLexemes (p.params.map Datum.display) ++
      [sign .rparen ')',sign .colon ':',.newline] ++ p.body.flatMap Instr.lexemes

theorem mapM_of_forall {β : Type} {f : α → Except Fault β} {g : α → β} {xs : List α}
    (h : ∀ x ∈ xs, f x = .ok (g x)) : xs.mapM f = .ok (xs.map g) := by
  induction xs with
  | nil => rfl
  | cons x rest ih =>
    obtain ⟨hx,hrest⟩ := forall_mem_cons.1 h
    rw [mapM_cons,hx,ih hrest]
    rfl

theorem isParameter_iff :
    isParameter d = true ↔ ∃ t, d = .str t ∧ TokenKind.temp.admits t.toList = true := by
  cases d <;> simp [isParameter]

theorem isInitial_iff : isInitial d = true ↔ ∃ n, d = .int n ∧ isWord n = true := by
  cases d <;> simp [isInitial]

namespace Procedure

variable {p : Procedure}

theorem paramNames_of_all (h : p.params.all isParameter = true) :
    p.paramNames = .ok (p.params.map Datum.display) := by
  apply mapM_of_forall
  intro d hd
  obtain ⟨t,rfl,-⟩ := isParameter_iff.1 (all_eq_true.1 h d hd)
  rfl

theorem bodyText_of_all (h : p.body.all Instr.isSpelled = true) : ∃ t, p.bodyText = .ok t ∧
    t.toList = (p.body.flatMap Instr.lexemes).flatMap Lexeme.text := by
  have hphi : ∀ i ∈ p.body, i.opcode ≠ .phi := fun i hi =>
    (Instr.spelled_of_isSpelled (all_eq_true.1 h i hi)).not_phi
  have htexts : p.body.mapM Instr.text? = .ok (p.body.map Instr.text) := by
    apply mapM_of_forall
    intro i hi
    unfold Instr.text?
    rw [if_neg]
    unfold Instr.isBroken
    split
    · rename_i ho _
      exact absurd ho (hphi i hi)
    · simp
  refine ⟨_,by rw [bodyText,htexts]; rfl,?_⟩
  rw [String.toList_join,map_map,flatMap_map,flatMap_assoc]
  apply flatMap_congr
  intro i hi
  exact (Instr.text_lexemes (hphi i hi)).symm

end Procedure

theorem legible_flatMap {f : α → List Lexeme} {xs : List α} (h : ∀ x ∈ xs, Legible (f x)) :
    Legible (xs.flatMap f) := by
  induction xs with
  | nil => exact .nil
  | cons x rest ih =>
    obtain ⟨hx,hrest⟩ := forall_mem_cons.1 h
    exact hx.append (ih hrest)

namespace Declaration

variable {d : Declaration}

theorem text_of_isSpelled (h : d.isSpelled = true) : ∃ t, d.text = .ok t ∧
    t.toList = d.lexemes.flatMap Lexeme.text := by
  cases d with
  | blank => cases h
  | global g => exact ⟨_,rfl,by simp [Global.text,lexemes,word,space,sign,Lexeme.text]⟩
  | procedure p =>
    simp only [isSpelled,Bool.and_eq_true] at h
    obtain ⟨t,ht,hbody⟩ := Procedure.bodyText_of_all h.2
    refine ⟨_,by rw [text,Procedure.text,Procedure.paramNames_of_all h.1.2,ht]; rfl,?_⟩
    simp [lexemes,hbody,text_paramLexemes,word,space,sign,Lexeme.text]

theorem legible (h : d.isSpelled = true) : Legible d.lexemes := by
  cases d with
  | blank => cases h
  | global g =>
    simp only [isSpelled,Bool.and_eq_true] at h
    obtain ⟨n,hn,hword⟩ := isInitial_iff.1 h.2
    refine .word rfl rfl (legible_space (.word h.1 rfl (legible_space (legible_sign rfl
      (legible_space (.word ?_ rfl legible_stop))))))
    rw [hn]
    exact (decimal_of_isWord hword).1
  | procedure p =>
    simp only [isSpelled,Bool.and_eq_true] at h
    have hbody : Legible (p.body.flatMap Instr.lexemes) := legible_flatMap fun i hi =>
      (Instr.spelled_of_isSpelled (all_eq_true.1 h.2 i hi)).legible
    have hparams : ∀ s ∈ p.params.map Datum.display, TokenKind.temp.admits s.toList = true := by
      intro s hs
      obtain ⟨d,hd,rfl⟩ := mem_map.1 hs
      obtain ⟨t,rfl,ht⟩ := isParameter_iff.1 (all_eq_true.1 h.1.2 d hd)
      exact ht
    have hend : Legible (sign .rparen ')' :: sign .colon ':' :: .newline ::
        p.body.flatMap Instr.lexemes) := legible_sign rfl (legible_sign rfl (.loose rfl rfl hbody))
    have hsign := legible_sign (c := '(') rfl (legible_params hparams rfl hend)
    have hall : Legible (word .proc "proc" :: space :: word .gsym p.name :: _) :=
      .word rfl rfl (legible_space (.word h.1.1 rfl hsign))
    simpa [lexemes] using hall

end Declaration

def Spells (text : String) (p : Program) : Prop :=
  ∃ ls : List Lexeme, Legible ls ∧ text.toList = ls.flatMap Lexeme.text ∧
    ls.filterMap Lexeme.word? = (p.flatMap Declaration.lexemes).filterMap Lexeme.word?

theorem Spells.append (h : Spells text p) (h' : Spells text' p') :
    Spells (text ++ text') (p ++ p') := by
  obtain ⟨ls,hlegible,htext,hwords⟩ := h
  obtain ⟨ls',hlegible',htext',hwords'⟩ := h'
  refine ⟨ls ++ ls',hlegible.append hlegible',?_,?_⟩
  · rw [String.toList_append,htext,htext',flatMap_append]
  · rw [flatMap_append,filterMap_append,filterMap_append,hwords,hwords']

theorem spells_text {d : Declaration} (h : d.isSpelled = true) :
    ∃ t, d.text = .ok t ∧ Spells t [d] := by
  obtain ⟨t,ht,htext⟩ := Declaration.text_of_isSpelled h
  exact ⟨t,ht,d.lexemes,d.legible h,htext,by rw [flatMap_singleton]⟩

theorem spells_texts {p : Program} (h : ∀ d ∈ p, d.isSpelled = true) :
    ∃ texts, p.mapM Declaration.text = .ok texts ∧ Spells (String.join texts) p := by
  induction p with
  | nil => exact ⟨[],rfl,[],.nil,rfl,rfl⟩
  | cons d rest ih =>
    obtain ⟨hd,hrest⟩ := forall_mem_cons.1 h
    obtain ⟨t,ht,hspells⟩ := spells_text hd
    obtain ⟨texts,htexts,htail⟩ := ih hrest
    have hjoin : String.join (t :: texts) = t ++ String.join texts :=
      String.toList_injective (by simp [String.toList_join])
    exact ⟨t :: texts,by rw [mapM_cons,ht,htexts]; rfl,hjoin ▸ hspells.append htail⟩

theorem Spells.carries (h : Spells text p) :
    Carries (pieces text) ((p.flatMap Declaration.lexemes).filterMap Lexeme.word?) := by
  obtain ⟨ls,hlegible,htext,hwords⟩ := h
  have hcarries := hlegible.carries_pieces
  rwa [← htext,String.ofList_toList,hwords] at hcarries

end BxToolchain.Tac
