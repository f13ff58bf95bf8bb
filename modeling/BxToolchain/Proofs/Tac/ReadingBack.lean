import BxToolchain.Proofs.Run
import BxToolchain.Proofs.Tac.Spelling

namespace BxToolchain.Tac

open Text List

variable {i : Instr} {names : List String} {ws : List Word} {p : Program} {s : String}

def Reads {α : Type} (x : Read α) (ws ws' : List Word) (P : α → Prop) : Prop :=
  ∀ origin ps, Carries ps ws → ∃ a ps', Runs x { origin, pieces := ps } a { origin, pieces := ps' } ∧
    Carries ps' ws' ∧ P a

section

theorem reads_pure (h : P a) : Reads (pure a) ws ws P :=
  fun _ ps hps => ⟨a,ps,runs_pure,hps,h⟩

theorem Reads.bind (h : Reads x ws ws' P) (h' : ∀ a, P a → Reads (f a) ws' ws'' Q) :
    Reads (x >>= f) ws ws'' Q := by
  intro origin ps hps
  obtain ⟨a,ps',hrun,hps',ha⟩ := h origin ps hps
  obtain ⟨b,ps'',hrun',hps'',hb⟩ := h' a ha origin ps' hps'
  exact ⟨b,ps'',hrun.bind hrun',hps'',hb⟩

end

theorem Reads.some (h : Reads x ws ws' fun b => b = a) :
    Reads (do return some (← x)) ws ws' fun r => r = some a := by
  refine h.bind ?_
  rintro _ rfl
  exact reads_pure rfl

def IsToken (w : Word) (t : Token) : Prop := t.kind = w.1 ∧ t.text = String.ofList w.2

namespace Read

theorem reads_peek (w : Word) :
    Reads peek (w :: ws) (w :: ws) fun o => ∃ t, o = some t ∧ IsToken w t := by
  intro origin ps hps
  cases hps with
  | token line pos hps => exact ⟨_,_,rfl,.token line pos hps,_,rfl,rfl,rfl⟩

theorem reads_peek_nil : Reads peek [] [] fun o => o = none := by
  intro origin ps hps
  cases hps with
  | finish line => exact ⟨_,_,rfl,.finish line,rfl⟩

theorem reads_peekKind_nil : Reads peekKind [] [] fun k => k = none := by
  refine (reads_peek_nil).bind ?_
  rintro _ rfl
  exact reads_pure rfl

theorem reads_skip (w : Word) : Reads skip (w :: ws) ws fun _ => True := by
  intro origin ps hps
  cases hps with
  | token line pos hps => exact ⟨_,_,rfl,hps,trivial⟩

theorem reads_peekKind (w : Word) : Reads peekKind (w :: ws) (w :: ws) fun k => k = some w.1 := by
  refine (reads_peek w).bind ?_
  rintro _ ⟨t,rfl,hkind,-⟩
  exact reads_pure (congrArg some hkind)

theorem reads_expect (w : Word) : Reads (expect w.1) (w :: ws) ws (IsToken w) := by
  refine (reads_peek w).bind ?_
  rintro _ ⟨t,rfl,ht⟩
  dsimp only
  rw [if_pos ht.1]
  exact (reads_skip w).bind fun _ _ => reads_pure ht

end Read

theorem Operand.sources?_map (sources : List (String × String)) :
    Operand.sources? (sources.map fun e => (e.1,.str e.2)) = some sources := by
  induction sources with
  | nil => rfl
  | cons e rest ih => simp [Operand.sources?,ih]

theorem ofName?_name (o : Opcode) : Opcode.ofName? o.name = some o := by
  cases o with
  | branch op | binary op | unary op => cases op <;> decide
  | _ => decide

namespace Instr

theorem operandOf_toDatum (h : k.accepts x = true) : operandOf o place k x.toDatum = .ok x := by
  have hx : Operand.ofDatum? x.toDatum = some x := by
    cases x with
    | phi sources => simp [Operand.toDatum,Operand.ofDatum?,Operand.sources?_map]
    | pairs sources => cases k <;> cases h
    | _ => rfl
  unfold operandOf
  rw [hx]
  exact if_pos h

def unmarked (i : Instr) : Instr := { i with mark := 0 }

def Fills (i : Instr) (args : List Datum) : Prop :=
  args.headD .null = i.arg1.toDatum ∧ (args.drop 1).headD .null = i.arg2.toDatum

theorem make_toDatum (h : i.check = .ok ()) (hargs : i.Fills args) :
    make i.dest.toDatum (.str i.opcode.name) args = .ok i.unmarked := by
  obtain ⟨hdest,harg1,harg2⟩ := Flow.check_eq_ok.1 h
  unfold make
  rw [hargs.1,hargs.2,opcodeOf,ofName?_name]
  simp only [bind,Except.bind,operandOf_toDatum hdest,operandOf_toDatum harg1,
    operandOf_toDatum harg2]
  rfl

end Instr

def Operand.word (x : Operand) : Word := (x.tokenKind,x.text.toList)

def stop : Word := (.semicolon,[';'])

namespace Read

variable {i : Instr} {x : Operand} {ws : List Word}

theorem reads_argument (h : x.isSpelled = true) (hx : x ≠ .absent) :
    Reads argument (x.word :: ws) ws fun d => d = x.toDatum := by
  refine (reads_peek x.word).bind ?_
  rintro _ ⟨t,rfl,hkind,htext⟩
  dsimp only
  cases x with
  | absent => contradiction
  | int n =>
    have hnumber : t.number = n := by
      rw [Token.number,htext,String.toList_ofList]
      exact (decimal_of_isWord h).2
    rw [hkind]
    refine (reads_skip _).bind fun _ _ => reads_pure ?_
    rw [hnumber]
    rfl
  | name s =>
    have hread : Reads (do skip; return Datum.str t.text) ((Operand.name s).word :: ws) ws
        fun d => d = .str s := by
      refine (reads_skip _).bind fun _ _ => reads_pure ?_
      rw [htext]
      exact congrArg Datum.str (String.ofList_toList ..)
    have hname : nameKind s = .label ∨ nameKind s = .gsym ∨ nameKind s = .temp := by
      unfold nameKind
      split
      · exact .inl rfl
      · split <;> simp
    change t.kind = nameKind s at hkind
    obtain hs | hs | hs := hname <;> rw [hkind,hs] <;> exact hread
  | flag b | phi sources | pairs sources => cases h

theorem peekKind_operand (h : x.isSpelled = true) : x.tokenKind ≠ .semicolon := by
  cases x with
  | name s =>
    simp only [Operand.tokenKind,nameKind]
    split
    · simp
    · split <;> simp
  | _ => simp [Operand.tokenKind]

theorem reads_arguments (h : i.Spelled) :
    Reads arguments (i.argLexemes.filterMap Lexeme.word? ++ stop :: ws) (stop :: ws) i.Fills := by
  unfold arguments
  by_cases ha : i.arg1 = .absent
  · have hargs : i.argLexemes = [] := by simp [Instr.argLexemes,ha]
    rw [hargs]
    refine (reads_peekKind stop).bind ?_
    rintro _ rfl
    refine reads_pure ⟨?_,?_⟩
    · rw [ha]
      rfl
    · rw [h.arg2_absent ha]
      rfl
  have hfirst := peekKind_operand h.arg1
  by_cases hb : i.arg2 = .absent
  · rw [Instr.argLexemes_single ha hb]
    refine (reads_peekKind i.arg1.word).bind ?_
    rintro _ rfl
    rw [if_neg (by simpa [Operand.word] using hfirst)]
    refine (reads_argument h.arg1 ha).bind ?_
    rintro _ rfl
    refine (reads_peekKind stop).bind ?_
    rintro _ rfl
    rw [if_neg (by simp [stop])]
    refine reads_pure ⟨rfl,?_⟩
    rw [hb]
    rfl
  · rw [Instr.argLexemes_pair ha hb]
    refine (reads_peekKind i.arg1.word).bind ?_
    rintro _ rfl
    rw [if_neg (by simpa [Operand.word] using hfirst)]
    refine (reads_argument h.arg1 ha).bind ?_
    rintro _ rfl
    refine (reads_peekKind (.comma,[','])).bind ?_
    rintro _ rfl
    rw [if_pos rfl]
    refine (reads_skip _).bind fun _ _ => ?_
    refine (reads_argument h.arg2 hb).bind ?_
    rintro _ rfl
    exact reads_pure ⟨rfl,rfl⟩

theorem reads_operation (h : i.Spelled) : Reads (operation i.dest.toDatum)
      ((.opcode,i.opcode.name.toList) :: i.argLexemes.filterMap Lexeme.word? ++ stop :: ws) ws
      fun j => j = i.unmarked := by
  refine (reads_expect (.opcode,i.opcode.name.toList)).bind fun t ht => ?_
  refine (reads_arguments h).bind fun args hargs => ?_
  refine (reads_expect stop).bind fun _ _ => ?_
  rw [ht.2,String.ofList_toList,Instr.make_toDatum h.check hargs]
  exact reads_pure rfl

theorem reads_label (h : i.Spelled) (ho : i.opcode = .label) :
    Reads instruction? (i.lexemes.filterMap Lexeme.word? ++ ws) ws
      fun r => r = some i.unmarked := by
  obtain ⟨hdest,harg2,s,harg1,hs⟩ := h.label_cases ho
  have hwords : i.lexemes.filterMap Lexeme.word? = [(.label,s.toList),(.colon,[':'])] := by
    rw [Instr.lexemes,ho,harg1,← hs]
    rfl
  rw [hwords]
  refine (reads_peek (.label,s.toList)).bind ?_
  rintro _ ⟨t,rfl,hkind,htext⟩
  dsimp only
  rw [hkind]
  refine (reads_skip _).bind fun _ _ => ?_
  refine (reads_expect (.colon,[':'])).bind fun _ _ => reads_pure ?_
  rw [htext,String.ofList_toList]
  obtain ⟨o,d,a,b,m⟩ := i
  cases ho
  cases hdest
  cases harg1
  cases harg2
  rfl

theorem reads_plain (h : i.Spelled) :
    Reads instruction? (i.destLexemes.filterMap Lexeme.word? ++
      ((.opcode,i.opcode.name.toList) :: i.argLexemes.filterMap Lexeme.word? ++ stop :: ws)) ws
      fun r => r = some i.unmarked := by
  have hsome : Reads (do return some (← operation i.dest.toDatum)) _ ws _ :=
    (reads_operation h).some
  obtain hdest | ⟨s,hdest,hs⟩ := h.dest_cases
  · rw [Instr.destLexemes,hdest]
    rw [hdest] at hsome
    refine (reads_peek (.opcode,i.opcode.name.toList)).bind ?_
    rintro _ ⟨t,rfl,hkind,-⟩
    dsimp only
    rw [hkind]
    exact hsome
  · rw [Instr.destLexemes,hdest]
    rw [hdest] at hsome
    refine (reads_peek (nameKind s,s.toList)).bind ?_
    rintro _ ⟨t,rfl,hkind,htext⟩
    have hrest := ((reads_skip (nameKind s,s.toList)).bind fun _ _ =>
      (reads_expect (.eq,['='])).bind fun _ _ => hsome)
    change t.kind = nameKind s at hkind
    dsimp only
    rw [htext,String.ofList_toList]
    obtain hs | hs := hs <;> rw [hkind,hs] <;> rw [hs] at hrest <;> exact hrest

theorem reads_instruction (h : i.Spelled) :
    Reads instruction? (i.lexemes.filterMap Lexeme.word? ++ ws) ws
      fun r => r = some i.unmarked := by
  by_cases ho : i.opcode = .label
  · exact reads_label h ho
  · have hplain : Reads instruction? _ ws _ := reads_plain h
    have hwords : i.lexemes.filterMap Lexeme.word? ++ ws =
        i.destLexemes.filterMap Lexeme.word? ++ ((.opcode,i.opcode.name.toList) ::
          i.argLexemes.filterMap Lexeme.word? ++ stop :: ws) := by
      unfold Instr.lexemes
      split
      · contradiction
      · simp [filterMap_cons,Lexeme.word?,space,sign,word,stop]
    rwa [hwords]

def AtEnd (ws : List Word) : Prop := ∀ w ∈ ws.head?, w.1 = .var ∨ w.1 = .proc

theorem reads_instruction_none (h : AtEnd ws) : Reads instruction? ws ws fun r => r = none := by
  cases ws with
  | nil =>
    refine (reads_peek_nil).bind ?_
    rintro _ rfl
    exact reads_pure rfl
  | cons w ws =>
    refine (reads_peek w).bind ?_
    rintro _ ⟨t,rfl,hkind,-⟩
    dsimp only
    obtain hw | hw := h w rfl <;> rw [hkind,hw] <;> exact reads_pure rfl

theorem reads_instructions {body : List Instr} (h : ∀ i ∈ body, i.Spelled) (hend : AtEnd ws) (hfuel : body.length ≤ fuel) :
    Reads (instructions fuel) ((body.flatMap Instr.lexemes).filterMap Lexeme.word? ++ ws) ws
      fun code => code = body.map Instr.unmarked := by
  induction body generalizing fuel with
  | nil =>
    cases fuel with
    | zero => exact reads_pure rfl
    | succ fuel =>
      refine (reads_instruction_none hend).bind ?_
      rintro _ rfl
      exact reads_pure rfl
  | cons i rest ih =>
    obtain ⟨hi,hrest⟩ := forall_mem_cons.1 h
    cases fuel with
    | zero => simp at hfuel
    | succ fuel =>
      rw [flatMap_cons,filterMap_append,append_assoc]
      refine (reads_instruction hi).bind ?_
      rintro _ rfl
      refine (ih hrest (by simpa using hfuel)).bind ?_
      rintro _ rfl
      exact reads_pure rfl

def moreWords (names : List String) : List Word :=
  names.flatMap fun s => [(.comma,[',']),(.temp,s.toList)]

theorem words_paramLexemes (s : String) (names : List String) :
    (paramLexemes (s :: names)).filterMap Lexeme.word? = (.temp,s.toList) :: moreWords names := by
  induction names generalizing s with
  | nil => rfl
  | cons t rest ih =>
    rw [paramLexemes]
    · simp only [filterMap_cons,ih]
      rfl
    · simp

def close : Word := (.rparen,[')'])

theorem reads_moreParams (hfuel : names.length ≤ fuel) :
    Reads (moreParams fuel) (moreWords names ++ close :: ws) (close :: ws)
      fun ps => ps = names.map Datum.str := by
  induction names generalizing fuel with
  | nil =>
    cases fuel with
    | zero => exact reads_pure rfl
    | succ fuel =>
      refine (reads_peekKind close).bind ?_
      rintro _ rfl
      exact reads_pure rfl
  | cons s rest ih =>
    cases fuel with
    | zero => simp at hfuel
    | succ fuel =>
      refine (reads_peekKind (.comma,[','])).bind ?_
      rintro _ rfl
      refine (reads_skip _).bind fun _ _ => ?_
      refine (reads_expect (.temp,s.toList)).bind fun t ht => ?_
      refine (ih (by simpa using hfuel)).bind ?_
      rintro _ rfl
      refine reads_pure ?_
      rw [ht.2,String.ofList_toList]
      rfl

theorem reads_params (hfuel : names.length ≤ fuel) : Reads (params fuel)
      ((.lparen,['(']) :: (paramLexemes names).filterMap Lexeme.word? ++ close :: ws) ws
      fun ps => ps = names.map Datum.str := by
  refine (reads_peekKind (.lparen,['('])).bind ?_
  rintro _ rfl
  refine (reads_skip _).bind fun _ _ => ?_
  cases names with
  | nil =>
    refine (reads_peekKind close).bind ?_
    rintro _ rfl
    refine (reads_expect close).bind fun _ _ => reads_pure rfl
  | cons s rest =>
    rw [words_paramLexemes]
    refine (reads_peekKind (.temp,s.toList)).bind ?_
    rintro _ rfl
    dsimp only
    rw [if_pos rfl]
    refine (reads_expect (.temp,s.toList)).bind fun t ht => ?_
    refine (reads_moreParams (Nat.le_of_succ_le hfuel)).bind ?_
    rintro _ rfl
    rw [pure_bind]
    refine (reads_expect close).bind fun _ _ => reads_pure ?_
    rw [ht.2,String.ofList_toList]
    rfl

end Read

def Declaration.unmarked : Declaration → Declaration
  | .procedure p => .procedure { p with body := p.body.map Instr.unmarked }
  | d => d

theorem toDatum_unmarked (d : Declaration) : d.unmarked.toDatum = d.toDatum := by
  cases d with
  | procedure p =>
    simp only [Declaration.unmarked,Declaration.toDatum,Procedure.toDatum,map_map]
    rfl
  | _ => rfl

namespace Read

theorem reads_global (h : (Declaration.global g).isSpelled = true) :
    Reads globalVariable ((Declaration.global g).lexemes.filterMap Lexeme.word? ++ ws) ws
      fun d => d = .global g := by
  obtain ⟨name,value⟩ := g
  simp only [Declaration.isSpelled,Bool.and_eq_true] at h
  obtain ⟨n,rfl,hn⟩ := isInitial_iff.1 h.2
  refine (reads_expect (.var,"var".toList)).bind fun _ _ => ?_
  refine (reads_expect (.gsym,name.toList)).bind fun t ht => ?_
  refine (reads_expect (.eq,['='])).bind fun _ _ => ?_
  refine (reads_expect (.number,(decimal n).toList)).bind fun t' ht' => ?_
  refine (reads_expect stop).bind fun _ _ => reads_pure ?_
  rw [ht.2,String.ofList_toList,Token.number,ht'.2,String.toList_ofList,
    (decimal_of_isWord hn).2]

theorem str_display {params : List Datum} (h : params.all isParameter = true) :
    (params.map Datum.display).map Datum.str = params := by
  have hstr : ∀ d ∈ params, (Datum.str ∘ Datum.display) d = id d := by
    intro d hd
    obtain ⟨t,rfl,-⟩ := isParameter_iff.1 (all_eq_true.1 h d hd)
    rfl
  rw [map_map,map_congr_left hstr,map_id]

theorem words_procedure (p : Procedure) :
    (Declaration.procedure p).lexemes.filterMap Lexeme.word? ++ ws =
      (.proc,"proc".toList) :: (.gsym,p.name.toList) :: ((.lparen,['(']) ::
        (paramLexemes (p.params.map Datum.display)).filterMap Lexeme.word? ++ close ::
        (.colon,[':']) :: ((p.body.flatMap Instr.lexemes).filterMap Lexeme.word? ++ ws)) := by
  simp [Declaration.lexemes,filterMap_cons,Lexeme.word?,space,sign,word,close]

theorem reads_procedure {p : Procedure} (h : (Declaration.procedure p).isSpelled = true)
    (hend : AtEnd ws) (hparams : p.params.length ≤ fuel) (hbody : p.body.length ≤ fuel) :
    Reads (procedure fuel) ((Declaration.procedure p).lexemes.filterMap Lexeme.word? ++ ws) ws
      fun d => d = (Declaration.procedure p).unmarked := by
  simp only [Declaration.isSpelled,Bool.and_eq_true] at h
  have hspelled : ∀ i ∈ p.body, i.Spelled := fun i hi =>
    Instr.spelled_of_isSpelled (all_eq_true.1 h.2 i hi)
  rw [words_procedure]
  refine (reads_expect (.proc,"proc".toList)).bind fun _ _ => ?_
  refine (reads_expect (.gsym,p.name.toList)).bind fun t ht => ?_
  refine (reads_params (by simpa using hparams)).bind ?_
  rintro _ rfl
  refine (reads_expect (.colon,[':'])).bind fun _ _ => ?_
  refine (reads_instructions hspelled hend hbody).bind ?_
  rintro _ rfl
  refine reads_pure ?_
  rw [ht.2,String.ofList_toList,str_display h.1.2]
  rfl

theorem length_le_paramWords (names : List String) :
    names.length ≤ ((paramLexemes names).filterMap Lexeme.word?).length := by
  cases names with
  | nil => exact Nat.zero_le _
  | cons s rest =>
    rw [words_paramLexemes,length_cons,length_cons,moreWords,length_flatMap]
    simp
    omega

theorem length_le_bodyWords (body : List Instr) :
    body.length ≤ ((body.flatMap Instr.lexemes).filterMap Lexeme.word?).length := by
  induction body with
  | nil => exact Nat.zero_le _
  | cons i rest ih =>
    have hone : 1 ≤ (i.lexemes.filterMap Lexeme.word?).length := by
      unfold Instr.lexemes
      split
      · exact Nat.le_add_left 1 1
      · simp only [filterMap_append,length_append]
        exact Nat.le_add_left 1 _
    simp only [flatMap_cons,filterMap_append,length_append,length_cons]
    omega

theorem length_le_procedureWords (p : Procedure) :
    p.params.length + p.body.length <
      ((Declaration.procedure p).lexemes.filterMap Lexeme.word?).length := by
  have hwords : ((Declaration.procedure p).lexemes.filterMap Lexeme.word? ++ []).length = _ :=
    congrArg List.length (words_procedure p)
  have hparams := length_le_paramWords (p.params.map Datum.display)
  have hbody := length_le_bodyWords p.body
  simp only [length_append,length_cons,length_nil,length_map] at hwords hparams
  omega

theorem atEnd_words (h : ∀ d ∈ p, d.isSpelled = true) :
    AtEnd ((p.flatMap Declaration.lexemes).filterMap Lexeme.word?) := by
  cases p with
  | nil => rintro w ⟨⟩
  | cons d rest =>
    have hd := h d mem_cons_self
    cases d with
    | blank => cases hd
    | global g =>
      rintro w ⟨⟩
      exact .inl rfl
    | procedure q =>
      rintro w ⟨⟩
      exact .inr rfl

theorem reads_program (h : ∀ d ∈ p, d.isSpelled = true)
    (hfuel : ((p.flatMap Declaration.lexemes).filterMap Lexeme.word?).length < fuel) :
    Reads (program fuel) ((p.flatMap Declaration.lexemes).filterMap Lexeme.word?) []
      fun p' => p' = p.map Declaration.unmarked := by
  induction p generalizing fuel with
  | nil =>
    cases fuel with
    | zero => simp at hfuel
    | succ fuel =>
      refine (reads_peekKind_nil).bind ?_
      rintro _ rfl
      exact reads_pure rfl
  | cons d rest ih =>
    obtain ⟨hd,hrest⟩ := forall_mem_cons.1 h
    have hend := atEnd_words hrest
    cases fuel with
    | zero => simp at hfuel
    | succ fuel =>
      rw [flatMap_cons,filterMap_append] at hfuel ⊢
      rw [length_append] at hfuel
      cases d with
      | blank => cases hd
      | global g =>
        refine (reads_peekKind (.var,"var".toList)).bind ?_
        rintro _ rfl
        refine (reads_global hd).bind ?_
        rintro _ rfl
        have hone : 0 < ((Declaration.global g).lexemes.filterMap Lexeme.word?).length :=
          Nat.succ_pos _
        refine (ih hrest (by omega)).bind ?_
        rintro _ rfl
        exact reads_pure rfl
      | procedure q =>
        have hlength := length_le_procedureWords q
        refine (reads_peekKind (.proc,"proc".toList)).bind ?_
        rintro _ rfl
        refine (reads_procedure hd hend (by omega) (by omega)).bind ?_
        rintro _ rfl
        refine (ih hrest (by omega)).bind ?_
        rintro _ rfl
        exact reads_pure rfl

end Read

theorem Carries.length_eq (h : Carries ps ws) : ps.length = ws.length + 1 := by
  induction h with
  | finish line => rfl
  | token line pos _ ih => exact congrArg (· + 1) ih

theorem Spells.parse_eq (hs : Spells s p) (h : ∀ d ∈ p, d.isSpelled = true) (origin : String) :
    parse origin s = (.ok (p.map Declaration.unmarked),"") := by
  have hlength := hs.carries.length_eq
  obtain ⟨_,ps,hrun,-,rfl⟩ := Read.reads_program h
    (show _ < (pieces s).length + 1 by omega) origin _ hs.carries
  have hresult : (Read.program ((pieces s).length + 1)).run { origin, pieces := pieces s } =
      (.ok (p.map Declaration.unmarked),{ origin, pieces := ps }) := hrun
  unfold parse
  dsimp only
  rw [hresult]

namespace Declaration

theorem isGlobal_of_admits (h : TokenKind.gsym.admits s.toList = true) : isGlobal s = true := by
  have hkind := nameKind_eq h (by simp)
  unfold nameKind at hkind
  split at hkind
  · cases hkind
  · split at hkind
    · assumption
    · cases hkind

theorem truthy_of_isGlobal (h : isGlobal s = true) : (Datum.str s).truthy = true := by
  have hne : s ≠ "" := by
    rintro rfl
    exact absurd h (by decide)
  simpa [Datum.truthy] using hne

theorem ofDatum_toDatum {d : Declaration} (h : d.isSpelled = true) :
    ofDatum d.toDatum = .ok d.unmarked := by
  cases d with
  | blank => cases h
  | global g =>
    simp only [isSpelled,Bool.and_eq_true] at h
    have hname := isGlobal_of_admits h.1
    have htruthy : (g.toDatum.part "var").truthy = true := truthy_of_isGlobal hname
    have hok : globalName (g.toDatum.part "var") = .ok g.name := if_pos hname
    change (if (g.toDatum.part "var").truthy = true then
      (do return Declaration.global ⟨← globalName (g.toDatum.part "var"),g.value⟩) else _) = _
    rw [if_pos htruthy,hok]
    rfl
  | procedure p =>
    simp only [isSpelled,Bool.and_eq_true] at h
    have hname := isGlobal_of_admits h.1.1
    have htruthy : (p.toDatum.part "proc").truthy = true := truthy_of_isGlobal hname
    have hok : globalName (p.toDatum.part "proc") = .ok p.name := if_pos hname
    have hbody : (p.body.map Instr.toDatum).mapM Instr.ofDatum =
        .ok (p.body.map Instr.unmarked) := by
      rw [mapM_map]
      refine mapM_of_forall fun i hi => ?_
      exact Instr.make_toDatum (Instr.spelled_of_isSpelled (all_eq_true.1 h.2 i hi)).check ⟨rfl,rfl⟩
    change (if (p.toDatum.part "proc").truthy = true then (do
      let name ← globalName (p.toDatum.part "proc")
      let body ← (p.body.map Instr.toDatum).mapM Instr.ofDatum
      return Declaration.procedure ⟨name,p.params,body⟩) else _) = _
    rw [if_pos htruthy,hok,hbody]
    rfl

end Declaration

theorem readBack_of_isSpelled {p : Program} (h : ∀ d ∈ p, d.isSpelled = true) (origin : String) :
    ∃ texts p' p'', p.mapM Declaration.text = .ok texts ∧
      parse origin (String.join texts) = (.ok p',"") ∧
      p'.map Declaration.toDatum = p.map Declaration.toDatum ∧
      (p.map Declaration.toDatum).mapM Declaration.ofDatum = .ok p'' ∧
      p''.map Declaration.toDatum = p.map Declaration.toDatum := by
  obtain ⟨texts,htexts,hspells⟩ := spells_texts h
  have hparse := hspells.parse_eq h origin
  have hsame : (p.map Declaration.unmarked).map Declaration.toDatum = p.map Declaration.toDatum := by
    rw [map_map]
    exact map_congr_left fun d _ => toDatum_unmarked d
  refine ⟨texts,_,p.map Declaration.unmarked,htexts,hparse,hsame,?_,hsame⟩
  rw [mapM_map]
  exact mapM_of_forall fun d hd => Declaration.ofDatum_toDatum (h d hd)

def countdown : Program :=
  [.global ⟨"@total",.int (2 ^ 64 - 1)⟩,.procedure ⟨"@main",[.str "%0",.str "%step_1"],
    [.ofLabel "%.L0",{ opcode := .const, dest := .name "%1", arg1 := .int 0, mark := 7 },
     { opcode := .binary .sub, dest := .name "@total", arg1 := .name "%0", arg2 := .name "%step_1" },
     { opcode := .branch .nonzero, arg1 := .name "@total", arg2 := .name "%.L0" },
     { opcode := .param, arg1 := .int 1, arg2 := .name "%1" },
     { opcode := .call, arg1 := .name "@print", arg2 := .int 1 },
     { opcode := .call, dest := .name "%1", arg1 := .name "@main", arg2 := .int 0 },
     { opcode := .nop },{ opcode := .jmp, arg1 := .name "%.L0" },
     { opcode := .ret, arg1 := .name "%1" },{ opcode := .ret }]⟩]

theorem countdown_readBack : (∀ d ∈ countdown, d.isSpelled = true) ∧
    ∃ texts p' p'', countdown.mapM Declaration.text = .ok texts ∧
      parse "countdown.tac" (String.join texts) = (.ok p',"") ∧
      p'.map Declaration.toDatum = countdown.map Declaration.toDatum ∧
      (countdown.map Declaration.toDatum).mapM Declaration.ofDatum = .ok p'' ∧
      p''.map Declaration.toDatum = countdown.map Declaration.toDatum := by
  have hspelled : ∀ d ∈ countdown, d.isSpelled = true := by decide +kernel
  exact ⟨hspelled,readBack_of_isSpelled hspelled "countdown.tac"⟩

end BxToolchain.Tac
