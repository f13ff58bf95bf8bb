import BxToolchain.Proofs.Bx.Reparsing
import BxToolchain.Proofs.Text.Cutting

namespace BxToolchain.Bx

open Text List

variable {c : Char} {cs rest : List Char} {n : Nat} {w : SourceWord} {ls : List Lexeme}
  {ws : List SourceWord}

def isGap (c : Char) : Bool := isBlank c || c = '\n'

inductive Spaced : List SourceWord → List Char → Prop where
  | nil : Spaced [] []
  | gap {c : Char} {ws : List SourceWord} {cs : List Char} : isGap c = true → Spaced ws cs →
      Spaced ws (c :: cs)
  | last (w : SourceWord) : Spaced [w] w.2.toList
  | word (w : SourceWord) {c ws cs} : isGap c = true → Spaced ws cs →
      Spaced (w :: ws) (w.2.toList ++ c :: cs)

def IsProper (w : SourceWord) : Prop :=
  w.1.spelling? = some w.2 ∨ w.1 = .ident ∧ isIdentifier w.2 = true ∨ ∃ n, w = numeral n

def AtGap (cs : List Char) : Prop := ∀ c ∈ cs.head?, isGap c = true

theorem isGap_cases (h : isGap c = true) :
    c = ' ' ∨ c = '\t' ∨ c = '\x0b' ∨ c = '\x0c' ∨ c = '\n' := by
  simp only [isGap,isBlank,Bool.or_eq_true,decide_eq_true_eq] at h
  tauto

theorem AtGap.stops (h : AtGap cs) : Stops isWordPart cs := by
  intro c hc
  obtain rfl | rfl | rfl | rfl | rfl := isGap_cases (h c hc) <;> rfl

theorem cut_word (hc : isLetter c = true) (hs : s.all isWordPart = true)
    (hrest : Stops isWordPart rest) :
    cut c (s ++ rest) = (.token (kindOfWord (String.ofList (c :: s))) (c :: s),rest) := by
  have hblank : isBlank c = false := by
    rw [Bool.eq_false_iff]
    intro hblank
    obtain rfl | rfl | rfl | rfl | rfl := isGap_cases (by rw [isGap,hblank]; rfl) <;> cases hc
  have hline : c ≠ '\n' := by
    rintro rfl
    cases hc
  simp [cut,hblank,hline,hc,takeWhile_of_stops hs hrest,dropWhile_of_stops hs hrest]

variable {x : String}

theorem cutsOff_ident (hx : isIdentifier x = true) (hrest : AtGap rest) :
    CutsOff cut Lexeme.text (.token .ident x.toList) rest := by
  unfold isIdentifier at hx
  split at hx
  · rename_i c s heq
    simp only [Bool.and_eq_true,decide_eq_true_eq] at hx
    have hword : String.ofList (c :: s) = x := by rw [← heq,String.ofList_toList]
    have hcut := cut_word hx.1.1 hx.1.2 hrest.stops
    rw [hword,hx.2] at hcut
    rw [heq]
    exact ⟨c,s,rfl,hcut⟩
  · cases hx

variable {kind : Kind}

theorem cutsOff_sign (h : kind.spelling?.isSome = true) (hrest : AtGap rest) :
    CutsOff cut Lexeme.text (.token kind (sign kind).2.toList) rest := by
  have hreserved : ∀ {c : Char} {s : List Char}, (sign kind).2.toList = c :: s → isLetter c = true →
      s.all isWordPart = true → kindOfWord (String.ofList (c :: s)) = kind →
      CutsOff cut Lexeme.text (.token kind (sign kind).2.toList) rest := by
    intro c s htext hc hs hkind
    have hcut := cut_word hc hs hrest.stops
    rw [hkind] at hcut
    rw [htext]
    exact ⟨c,s,rfl,hcut⟩
  cases kind <;> first
    | exact hreserved rfl rfl rfl rfl
    | cases rest with
      | nil => exact ⟨_,_,rfl,rfl⟩
      | cons c rest =>
        obtain rfl | rfl | rfl | rfl | rfl := isGap_cases (hrest c rfl) <;> exact ⟨_,_,rfl,rfl⟩
    | cases h

theorem cutsOff_number (hrest : AtGap rest) :
    CutsOff cut Lexeme.text (.token .number (numeral n).2.toList) rest := by
  have htext : (numeral n).2.toList = Nat.toDigits 10 n := by simp [numeral,decimal]
  have hdigits := isDigit_of_mem_toDigits (n := n)
  have hstops : Stops Char.isDigit rest := hrest.stops.mono fun c hc => by
    simp [isWordPart,Char.isAlphanum,hc]
  rw [htext]
  rcases Nat.eq_zero_or_pos n with rfl | hn
  · exact ⟨'0',[],rfl,rfl⟩
  have hzero := head_toDigits_ne_zero hn
  cases hd : Nat.toDigits 10 n with
  | nil => exact absurd hd Nat.toDigits_ne_nil
  | cons c s =>
    rw [hd,forall_mem_cons] at hdigits
    rw [hd] at hzero
    have hc : c ≠ '0' := fun h => hzero (congrArg some h)
    have hletter := isLetter_eq_false hdigits.1
    have hs : s.all Char.isDigit = true := all_eq_true.2 hdigits.2
    have hblank : isBlank c = false := by
      rw [Bool.eq_false_iff]
      intro hblank
      obtain rfl | rfl | rfl | rfl | rfl := isGap_cases (by rw [isGap,hblank]; rfl) <;> cases hdigits.1
    have hline : c ≠ '\n' := by
      rintro rfl
      cases hdigits.1
    refine ⟨c,s,rfl,?_⟩
    simp [cut,hblank,hline,hletter,hc,hdigits.1,takeWhile_of_stops hs hstops,
      dropWhile_of_stops hs hstops]

theorem cutsOff_of_isProper (h : IsProper w) (hrest : AtGap rest) :
    CutsOff cut Lexeme.text (.token w.1 w.2.toList) rest := by
  obtain h | ⟨h,hx⟩ | ⟨n,rfl⟩ := h
  · have htext : (sign w.1).2 = w.2 := by rw [sign,h]; rfl
    have hcuts : CutsOff cut Lexeme.text (.token w.1 (sign w.1).2.toList) rest :=
      cutsOff_sign (by rw [h]; rfl) hrest
    rwa [htext] at hcuts
  · rw [h]
    exact cutsOff_ident hx hrest
  · exact cutsOff_number hrest

inductive Spells : List Lexeme → List SourceWord → Prop where
  | nil : Spells [] []
  | blank (c : Char) {ls ws} : Spells ls ws → Spells (.blank c :: ls) ws
  | newline {ls : List Lexeme} {ws : List SourceWord} : Spells ls ws → Spells (.newline :: ls) ws
  | word (w : SourceWord) {ls ws} : Spells ls ws →
      Spells (.token w.1 w.2.toList :: ls) (w :: ws)

def Cuts (ls : List Lexeme) (cs : List Char) : Prop :=
  Separated cut Lexeme.text ls ∧ ls.flatMap Lexeme.text = cs

theorem Cuts.cons (h : Cuts ls cs) (hl : CutsOff cut Lexeme.text l cs) :
    Cuts (l :: ls) (l.text ++ cs) := by
  obtain ⟨hseparated,rfl⟩ := h
  exact ⟨⟨hl,hseparated⟩,rfl⟩

theorem Cuts.gap (h : Cuts ls cs) (hspells : Spells ls ws) (hc : isGap c = true) :
    ∃ ls', Cuts ls' (c :: cs) ∧ Spells ls' ws := by
  have hblank : ∀ c, CutsOff cut Lexeme.text (.blank c) cs →
      ∃ ls', Cuts ls' (c :: cs) ∧ Spells ls' ws :=
    fun c hcut => ⟨_,h.cons hcut,hspells.blank c⟩
  obtain rfl | rfl | rfl | rfl | rfl := isGap_cases hc
  · exact hblank ' ' ⟨_,[],rfl,rfl⟩
  · exact hblank '\t' ⟨_,[],rfl,rfl⟩
  · exact hblank '\x0b' ⟨_,[],rfl,rfl⟩
  · exact hblank '\x0c' ⟨_,[],rfl,rfl⟩
  · have hcut : CutsOff cut Lexeme.text .newline cs := ⟨'\n',[],rfl,rfl⟩
    exact ⟨_,h.cons hcut,hspells.newline⟩

theorem Spaced.exists_lexemes (h : Spaced ws cs) (hproper : ∀ w ∈ ws, IsProper w) :
    ∃ ls, Cuts ls cs ∧ Spells ls ws := by
  induction h with
  | nil => exact ⟨[],⟨trivial,rfl⟩,.nil⟩
  | gap hc _ ih =>
    obtain ⟨ls,hls,hspells⟩ := ih hproper
    exact hls.gap hspells hc
  | last w =>
    have hw := hproper w mem_cons_self
    have hcut : CutsOff cut Lexeme.text (.token w.1 w.2.toList) [] :=
      cutsOff_of_isProper hw (by rintro c ⟨⟩)
    have hnil : Cuts [] [] := ⟨trivial,rfl⟩
    refine ⟨_,?_,.word w .nil⟩
    have hcuts := hnil.cons hcut
    rwa [Lexeme.text,append_nil] at hcuts
  | @word w c ws cs hc _ ih =>
    obtain ⟨hw,hws⟩ := forall_mem_cons.1 hproper
    obtain ⟨ls,hls,hspells⟩ := ih hws
    obtain ⟨ls',hls',hspells'⟩ := hls.gap hspells hc
    have hgap : AtGap (c :: cs) := by
      rintro c ⟨⟩
      exact hc
    exact ⟨_,hls'.cons (cutsOff_of_isProper hw hgap),hspells'.word w⟩

theorem lexemesUpTo_eq_cutUpTo (fuel : Nat) (cs : List Char) :
    lexemesUpTo fuel cs = cutUpTo cut fuel cs := by
  induction fuel generalizing cs with
  | zero => rfl
  | succ fuel ih =>
    cases cs with
    | nil => rfl
    | cons c rest => rw [lexemesUpTo,cutUpTo,ih]

theorem Cuts.lexemes_eq (h : Cuts ls cs) : lexemes cs = ls := by
  obtain ⟨hseparated,rfl⟩ := h
  rw [lexemes,lexemesUpTo_eq_cutUpTo,cutUpTo_flatMap hseparated hseparated.length_le]

def IsShort (w : SourceWord) : Prop := w.1 = .number → w.2.length ≤ digitLimit

theorem placeFrom_word (h : IsShort w) (line pos : Nat) (ls : List Lexeme) :
    placeFrom line pos (.token w.1 w.2.toList :: ls) =
      .token ⟨w.1,w.2,line,pos⟩ :: placeFrom line (pos + w.2.length) ls := by
  rw [placeFrom,if_neg,String.ofList_toList]
  · rfl
  · simp only [Bool.and_eq_true,decide_eq_true_eq,String.length_toList]
    exact fun hlong => Nat.not_lt.2 (h hlong.1) hlong.2

theorem placeFrom_of_spells (h : Spells ls ws) (hshort : ∀ w ∈ ws, IsShort w) (line pos : Nat) :
    ∃ ts : List Token, placeFrom line pos ls = ts.map Piece.token ∧ ts.map Token.word = ws := by
  induction h generalizing line pos with
  | nil => exact ⟨[],rfl,rfl⟩
  | blank c _ ih => exact ih hshort line _
  | newline _ ih => exact ih hshort _ _
  | word w _ ih =>
    obtain ⟨hw,hws⟩ := forall_mem_cons.1 hshort
    obtain ⟨ts,hplace,hwords⟩ := ih hws line (pos + w.2.length)
    refine ⟨⟨w.1,w.2,line,pos⟩ :: ts,?_,congrArg (w :: ·) hwords⟩
    rw [placeFrom_word hw,hplace]
    rfl

theorem placeFrom_overlong (h : Spells ls (ws ++ w :: ws')) (hshort : ∀ v ∈ ws, IsShort v)
    (hw : ¬IsShort w) (line pos : Nat) :
    ∃ ts : List Token, placeFrom line pos ls = ts.map Piece.token ++ [.overlong w.2.length] ∧
      ts.map Token.word = ws := by
  generalize hall : ws ++ w :: ws' = all at h
  induction h generalizing line pos ws with
  | nil => simp at hall
  | blank c _ ih => exact ih hshort line _ hall
  | newline _ ih => exact ih hshort _ _ hall
  | @word v ls all h ih =>
    cases ws with
    | nil =>
      obtain ⟨rfl,-⟩ := List.cons.inj hall
      simp only [IsShort,Classical.not_imp,Nat.not_le] at hw
      refine ⟨[],?_,rfl⟩
      rw [placeFrom,if_pos]
      · rw [String.length_toList]
        rfl
      · simpa only [Bool.and_eq_true,decide_eq_true_eq,String.length_toList] using hw
    | cons u ws =>
      obtain ⟨rfl,htail⟩ := List.cons.inj hall
      obtain ⟨hu,hws⟩ := forall_mem_cons.1 hshort
      obtain ⟨ts,hplace,hwords⟩ := ih hws line (pos + u.2.length) htail
      refine ⟨⟨u.1,u.2,line,pos⟩ :: ts,?_,congrArg (u :: ·) hwords⟩
      rw [placeFrom_word hu,hplace]
      rfl

theorem ofPieces_tokens (ts : List Token) (ps : List Piece) :
    Stream.ofPieces (ts.map Piece.token ++ ps) =
      { Stream.ofPieces ps with tokens := ts ++ (Stream.ofPieces ps).tokens } := by
  induction ts with
  | nil => rfl
  | cons t ts ih =>
    rw [map_cons,cons_append,Stream.ofPieces,ih]
    rfl

theorem length_numeral_le_iff (n : Nat) :
    (numeral n).2.length ≤ digitLimit ↔ n < 10 ^ digitLimit := by
  have hlength : (numeral n).2.length = (Nat.toDigits 10 n).length := by
    rw [← String.length_toList]
    simp [numeral,decimal]
  rw [hlength]
  exact Nat.length_toDigits_le_iff (by decide) (by decide)

def Readable (ws : List SourceWord) : Prop := ∀ w ∈ ws, IsProper w ∧ IsShort w

theorem readable_nil : Readable [] := by rintro w ⟨⟩

theorem Readable.append (h : Readable ws) (h' : Readable ws') :
    Readable (ws ++ ws') := forall_mem_append.2 ⟨h,h'⟩

theorem Readable.sign (h : Readable ws) (hkind : kind.spelling?.isSome = true) :
    Readable (sign kind :: ws) := by
  obtain ⟨text,htext⟩ := Option.isSome_iff_exists.1 hkind
  refine forall_mem_cons.2 ⟨⟨.inl ?_,?_⟩,h⟩
  · rw [Bx.sign,htext]
    rfl
  · intro hnumber
    rw [show kind = .number from hnumber] at hkind
    cases hkind

theorem Readable.ident (h : Readable ws) (hx : isIdentifier x = true) :
    Readable ((.ident,x) :: ws) :=
  forall_mem_cons.2 ⟨⟨.inr (.inl ⟨rfl,hx⟩),nofun⟩,h⟩

theorem readable_numeral (hn : n < 10 ^ digitLimit) : Readable [numeral n] :=
  forall_mem_cons.2 ⟨⟨.inr (.inr ⟨n,rfl⟩),fun _ => (length_numeral_le_iff n).2 hn⟩,readable_nil⟩

theorem readable_one (hkind : kind.spelling?.isSome = true) :
    Readable [sign kind] := readable_nil.sign hkind

theorem spelling?_of_level? (h : kind.level? = some l) : kind.spelling?.isSome = true := by
  cases kind <;> first | rfl | cases h

mutual

theorem OperandWrites.readable {e ws} : OperandWrites e ws → Readable ws
  | .var _ hx => readable_nil.ident hx
  | .number _ hn => readable_numeral hn
  | .boolean _ hkind => readable_one (by obtain rfl | rfl := hkind <;> rfl)
  | .call _ hx h => ((h.readable.append (readable_one rfl)).sign rfl).ident hx
  | .unary _ hkind h => h.readable.sign (by obtain rfl | rfl | rfl := hkind <;> rfl)
  | .parens h => (h.readable.append (readable_one rfl)).sign rfl

theorem ExprWrites.readable {level e ws} : ExprWrites level e ws → Readable ws
  | .operand _ h => h.readable
  | .binary _ hl _ ha hb => ha.readable.append (hb.readable.sign (spelling?_of_level? hl))

theorem ArgumentsWrite.readable {args ws} : ArgumentsWrite args ws → Readable ws
  | .nil => readable_nil
  | .last h => h.readable
  | .cons h hs => h.readable.append (hs.readable.sign rfl)

end

theorem TypeWrites.readable (h : TypeWrites type w) (hws : Readable ws) : Readable (w :: ws) := by
  obtain ⟨line,hkind⟩ := h
  exact hws.sign (by obtain rfl | rfl := hkind <;> rfl)

theorem InitializersWrite.readable {inits} (h : InitializersWrite inits ws) : Readable ws := by
  induction h with
  | last line hx he => exact (he.readable.sign rfl).ident hx
  | cons line hx he _ ih => exact ((he.readable.append (ih.sign rfl)).sign rfl).ident hx

theorem VariablesWrite.readable {n} (h : VariablesWrite n ws) : Readable ws := by
  obtain ⟨line,hinits,htype⟩ := h
  have htail : Readable [sign .colon,_,sign .semicolon] :=
    (htype.readable (readable_one rfl)).sign rfl
  exact (hinits.readable.append htail).sign rfl

mutual

theorem BlockWrites.readable {n ws} : BlockWrites n ws → Readable ws
  | .block _ h => (h.readable.append (readable_one rfl)).sign rfl

theorem StatementsWrite.readable {ns ws} : StatementsWrite ns ws → Readable ws
  | .nil => readable_nil
  | .cons h hs => h.readable.append hs.readable

theorem StatementWrites.readable {n ws} : StatementWrites n ws → Readable ws
  | .declared h => h.readable
  | .block h => h.readable
  | .conditional h => h.readable
  | .loop _ he h => ((he.readable.append (h.readable.sign rfl)).sign rfl).sign rfl
  | .jump _ hkind => (readable_one rfl).sign (by obtain rfl | rfl := hkind <;> rfl)
  | .returnNothing _ => (readable_one rfl).sign rfl
  | .returnValue _ he => (he.readable.append (readable_one rfl)).sign rfl
  | .raise _ hx => ((readable_one rfl).ident hx).sign rfl
  | .tryExcept _ h hs => (h.readable.append hs.readable).sign rfl
  | .assign _ hx he => ((he.readable.append (readable_one rfl)).sign rfl).ident hx
  | .eval _ he => he.readable.append (readable_one rfl)

theorem ConditionalWrites.readable {n ws} : ConditionalWrites n ws → Readable ws
  | .noElse _ _ he h => ((he.readable.append (h.readable.sign rfl)).sign rfl).sign rfl
  | .elseBlock _ he h h' | .elseIf _ he h h' =>
    ((he.readable.append ((h.readable.append (h'.readable.sign rfl)).sign rfl)).sign rfl).sign rfl

theorem CatchesWrite.readable {ns ws} : CatchesWrite ns ws → Readable ws
  | .nil => readable_nil
  | .cons _ hx h hs => ((h.readable.append hs.readable).ident hx).sign rfl

end

theorem NamesWrite.readable (h : NamesWrite names ws) : Readable ws := by
  induction h with
  | last hx => exact readable_nil.ident hx
  | cons hx _ ih => exact (ih.sign rfl).ident hx

theorem ParamsWrite.readable (h : ParamsWrite params ws) : Readable ws := by
  induction h with
  | nil => exact readable_nil
  | last line hnames htype =>
    exact hnames.readable.append ((htype.readable readable_nil).sign rfl)
  | cons line hnames htype _ ih =>
    exact hnames.readable.append ((htype.readable (ih.sign rfl)).sign rfl)

theorem RaisesWrite.readable (h : RaisesWrite clause ws) : Readable ws := by
  induction h with
  | nil => exact readable_nil
  | last line hx => exact readable_nil.ident hx
  | cons line hx _ ih => exact (ih.sign rfl).ident hx

theorem DeclarationWrites.readable {n} (h : DeclarationWrites n ws) : Readable ws := by
  cases h with
  | declared h => exact h.readable
  | exception line hx => exact ((readable_one rfl).ident hx).sign rfl
  | @procedure line x body result params clause ps rs xs ws hx hparams hresult hclause hbody =>
    have hresults : Readable rs := by
      cases hresult with
      | none => exact readable_nil
      | type htype => exact (htype.readable readable_nil).sign rfl
    have hraises : Readable xs := by
      cases hclause with
      | none => exact readable_nil
      | raises h => exact h.readable.sign rfl
    have htail : Readable (sign .rparen :: (rs ++ (xs ++ ws))) :=
      (hresults.append (hraises.append hbody.readable)).sign rfl
    exact (((hparams.readable.append htail).sign rfl).ident hx).sign rfl

theorem ProgramWrites.readable (h : ProgramWrites p ws) : Readable ws := by
  induction h with
  | last h => exact h.readable
  | cons h _ ih => exact h.readable.append ih

theorem exists_stream (h : Spaced ws source.toList) (hws : Readable ws) :
    ∃ ts : List Token, ts.map Token.word = ws ∧
      Stream.ofPieces (pieces source) = ⟨ts,[],none⟩ := by
  obtain ⟨ls,hcuts,hspells⟩ := h.exists_lexemes fun w hw => (hws w hw).1
  obtain ⟨ts,hplace,hwords⟩ := placeFrom_of_spells hspells (fun w hw => (hws w hw).2) 1 0
  refine ⟨ts,hwords,?_⟩
  have htokens := ofPieces_tokens ts []
  rw [append_nil] at htokens
  rw [pieces,hcuts.lexemes_eq,hplace,htokens]
  exact congrArg (Stream.mk · [] none) (append_nil ts)

theorem parse_written {p : List Node} (hp : isProgram p = true)
    (hfresh : p.all Node.isFresh = true) : (∃ ws, ProgramWrites p ws) ∧
      ∀ ws source, ProgramWrites p ws → Spaced ws source.toList → ∀ r : Reporter,
        ∃ tree, Runs (parse source) r (some tree) r ∧
          Node.unlinedAll tree = Node.unlinedAll p := by
  refine ⟨exists_programWrites hp hfresh,fun ws source hws hsource r => ?_⟩
  obtain ⟨ts,hts,hstream⟩ := exists_stream hsource hws.readable
  have hfuel : 4 * ws.length + 1 ≤ depthBound ts := by
    rw [← hts,length_map,depthBound]
    omega
  obtain ⟨tree,rest,hparse,-,htree⟩ := hws.parses hfuel ts hts
  refine ⟨tree,?_,htree⟩
  unfold parse
  rw [hstream,parseFrom,hparse]
  rfl

theorem spaced_intercalate (ws : List SourceWord) :
    Spaced ws (String.intercalate " " (ws.map Prod.snd)).toList := by
  induction ws with
  | nil => exact .nil
  | cons w rest ih =>
    cases rest with
    | nil =>
      rw [map_singleton,String.intercalate_singleton]
      exact .last w
    | cons w' rest =>
      rw [map_cons,map_cons,String.intercalate_cons_cons,String.append_assoc,
        String.toList_append,String.toList_append]
      exact .word w rfl ih

def raisingProgram : List Node :=
  [.exceptionDecl 1 "E",.procDecl 2 "f"
    (.block 2
      [.ifElse 3 (.binary 0 Node.undefined (.var 3 Node.undefined "x")
          (.number 3 Node.undefined (.int 1)) "<")
        (.block 3 [.raise 3 "E"]) (.block 3 []),.return' 4 (.binary 0 Node.undefined
        (.binary 0 Node.undefined (.var 4 Node.undefined "x") (.number 4 Node.undefined (.int 1)) "-")
        (.binary 0 Node.undefined
          (.binary 0 Node.undefined
            (.unary 4 Node.undefined (.number 4 Node.undefined (.int 2)) "-")
            (.var 4 Node.undefined "x") "-")
          (.number 4 Node.undefined (.int 3)) "*") "-")])
    [.param 0 ["x"] (.ty 2 "int")] (.ty 2 "int") [.raises 2 "E"]]

def raisingWords : List SourceWord :=
  [sign .exception,(.ident,"E"),sign .semicolon,sign .def',(.ident,"f"),sign .lparen,
   (.ident,"x"),sign .colon,sign .int,sign .rparen,sign .colon,sign .int,sign .raises,
   (.ident,"E"),sign .lbrace,sign .if',sign .lparen,(.ident,"x"),sign .lt,numeral 1,
   sign .rparen,sign .lbrace,sign .raise,(.ident,"E"),sign .semicolon,sign .rbrace,
   sign .return',(.ident,"x"),sign .minus,numeral 1,sign .minus,sign .lparen,sign .minus,
   numeral 2,sign .minus,(.ident,"x"),sign .rparen,sign .star,numeral 3,sign .semicolon,
   sign .rbrace]

theorem raisingProgram_writes : ProgramWrites raisingProgram raisingWords := by
  have hx : ∀ line, OperandWrites (.var line Node.undefined "x") [(.ident,"x")] :=
    fun line => .var line rfl
  have hnumber : ∀ line n, n < 10 →
      OperandWrites (.number line Node.undefined (.int (n : Nat))) [numeral n] :=
    fun line n hn => .number line (Nat.lt_of_lt_of_le hn (Nat.le_self_pow (by decide) 10))
  have hcondition : ExprWrites 0 _ _ := @ExprWrites.binary 0 0 7 .lt _ _ _ _ rfl (by decide)
    (.operand _ (hx 3)) (.operand _ (hnumber 3 1 (by decide)))
  have hleft : ExprWrites 9 _ _ := @ExprWrites.binary 0 9 9 .minus _ _ _ _ rfl (by decide)
    (.operand _ (hx 4)) (.operand _ (hnumber 4 1 (by decide)))
  have hinner : ExprWrites 0 _ _ := @ExprWrites.binary 0 0 9 .minus _ _ _ _ rfl (by decide)
    (.operand _ (@OperandWrites.unary 4 .minus _ _ (.inl rfl) (hnumber 4 2 (by decide))))
    (.operand _ (hx 4))
  have hright : ExprWrites 10 _ _ := @ExprWrites.binary 0 10 10 .star _ _ _ _ rfl (by decide)
    (.operand _ (.parens hinner)) (.operand _ (hnumber 4 3 (by decide)))
  have hvalue : ExprWrites 0 _ _ := @ExprWrites.binary 0 0 9 .minus _ _ _ _ rfl (by decide)
    hleft hright
  have hbody := BlockWrites.block 2 (.cons (.conditional (.noElse 3 3 hcondition
    (.block 3 (.cons (.raise 3 (x := "E") rfl) .nil)))) (.cons (.returnValue 4 hvalue) .nil))
  exact .cons (.exception 1 rfl) (.last (.procedure 2 rfl
    (.last 0 (.last rfl) (@TypeWrites.ty 2 .int (.inl rfl)))
    (.type (@TypeWrites.ty 2 .int (.inl rfl))) (.raises (.last 2 rfl)) hbody))

theorem raisingProgram_parsed : isProgram raisingProgram = true ∧
    raisingProgram.all Node.isFresh = true ∧ ProgramWrites raisingProgram raisingWords ∧
      ∀ r : Reporter, ∃ tree,
        Runs (parse (String.intercalate " " (raisingWords.map Prod.snd))) r (some tree) r ∧
          Node.unlinedAll tree = Node.unlinedAll raisingProgram := by
  have hp : isProgram raisingProgram = true := by decide +kernel
  have hfresh : raisingProgram.all Node.isFresh = true := by decide +kernel
  exact ⟨hp,hfresh,raisingProgram_writes,(parse_written hp hfresh).2 _ _ raisingProgram_writes
    (spaced_intercalate raisingWords)⟩

def literalSource (n : Nat) : String := "var x = " ++ decimal n ++ " : int ;"

def literalProgram (n : Nat) : List Node :=
  [.varDecl 1 [.varInit "x" (.number 1 Node.undefined (.int n)) 1] (.ty 1 "int")]

def literalWords (n : Nat) : List SourceWord :=
  [sign .var,(.ident,"x"),sign .equal] ++ numeral n :: [sign .colon,sign .int,sign .semicolon]

theorem spaced_literalSource (n : Nat) : Spaced (literalWords n) (literalSource n).toList := by
  have htext : (literalSource n).toList = "var".toList ++ ' ' :: ("x".toList ++ ' ' ::
      ("=".toList ++ ' ' :: ((decimal n).toList ++ ' ' :: (":".toList ++ ' ' ::
        ("int".toList ++ ' ' :: ";".toList))))) := by
    simp [literalSource,String.toList_append]
  rw [htext]
  exact .word (sign .var) rfl (.word (.ident,"x") rfl (.word (sign .equal) rfl (.word (numeral n) rfl
    (.word (sign .colon) rfl (.word (sign .int) rfl (.last (sign .semicolon)))))))

theorem isProgram_literalProgram (n : Nat) : isProgram (literalProgram n) = true := by
  have hident : isIdentifier "x" = true := rfl
  simp [literalProgram,isProgram,Node.isDeclaration,Node.areInitializers,Node.isExpr,
    Node.isType,hident]

theorem not_runs_literalSource (hn : 10 ^ digitLimit ≤ n) :
    ¬Runs (parse (literalSource n)) r tree r' := by
  have hbefore : Readable [sign .var,(.ident,"x"),sign .equal] :=
    ((readable_one rfl).ident rfl).sign rfl
  have hafter : Readable [sign .colon,sign .int,sign .semicolon] :=
    ((readable_one rfl).sign rfl).sign rfl
  have hproper : ∀ w ∈ literalWords n, IsProper w := forall_mem_append.2
    ⟨fun w hw => (hbefore w hw).1,forall_mem_cons.2 ⟨.inr (.inr ⟨n,rfl⟩),
      fun w hw => (hafter w hw).1⟩⟩
  have hlong : ¬IsShort (numeral n) := fun hshort =>
    Nat.not_lt.2 hn ((length_numeral_le_iff n).1 (hshort rfl))
  obtain ⟨ls,hcuts,hspells⟩ := (spaced_literalSource n).exists_lexemes hproper
  obtain ⟨ts,hplace,hwords⟩ :=
    placeFrom_overlong hspells (fun w hw => (hbefore w hw).2) hlong 1 0
  obtain ⟨⟨_,_,_,_⟩,_,rfl,ht,hwords⟩ := map_eq_cons_iff.1 hwords
  obtain ⟨⟨_,_,_,_⟩,_,rfl,ht',hwords⟩ := map_eq_cons_iff.1 hwords
  obtain ⟨⟨_,_,_,_⟩,_,rfl,ht'',hwords⟩ := map_eq_cons_iff.1 hwords
  obtain rfl := map_eq_nil_iff.1 hwords
  intro h
  unfold parse at h
  rw [pieces,hcuts.lexemes_eq,hplace,ofPieces_tokens,parseFrom] at h
  cases ht
  cases ht'
  cases ht''
  cases h

theorem literalProgram_unread : isProgram (literalProgram (10 ^ digitLimit)) = true ∧
    Spaced (literalWords (10 ^ digitLimit)) (literalSource (10 ^ digitLimit)).toList ∧
      ∀ r tree r', ¬Runs (parse (literalSource (10 ^ digitLimit))) r tree r' :=
  ⟨isProgram_literalProgram _,spaced_literalSource _,fun _ _ _ =>
    not_runs_literalSource (Nat.le_refl _)⟩

end BxToolchain.Bx
