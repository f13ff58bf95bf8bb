import BxToolchain.Bx.Parse
import BxToolchain.Proofs.Run

namespace BxToolchain.Bx

open List

variable {c : Char} {r text rest : List Char} {i p line pos : Nat} {kind : Kind} {x : Lexeme}
  {ls : List Lexeme}

def Kind.spelling? : Kind → Option String
  | ident | number => none
  | plus => some "+" | minus => some "-" | star => some "*" | slash => some "/" | mod => some "%"
  | and => some "&" | or => some "|" | xor => some "^" | lshift => some "<<" | rshift => some ">>"
  | equalEqual => some "==" | notEqual => some "!=" | lt => some "<" | ltEqual => some "<="
  | gt => some ">" | gtEqual => some ">=" | boolAnd => some "&&" | boolOr => some "||"
  | not => some "!" | complement => some "~" | equal => some "=" | lparen => some "("
  | rparen => some ")" | lbrace => some "\x7b" | rbrace => some "\x7d" | semicolon => some ";"
  | colon => some ":" | comma => some "," | def' => some "def" | int => some "int"
  | bool => some "bool" | var => some "var" | if' => some "if" | else' => some "else"
  | while' => some "while" | break' => some "break" | continue' => some "continue"
  | true' => some "true" | false' => some "false" | return' => some "return"
  | exception => some "exception" | raise => some "raise" | try' => some "try"
  | except => some "except" | raises => some "raises"

def isIdentifier (word : String) : Bool :=
  match word.toList with
  | c :: rest => isLetter c && rest.all isWordPart && decide (kindOfWord word = .ident)
  | [] => false

def Kind.Admits (kind : Kind) (text : String) : Prop :=
  kind.spelling? = some text ∨ kind = .ident ∧ isIdentifier text = true ∨ kind = .number

theorem admits_kindOfWord (hc : isLetter c = true) (hrest : rest.all isWordPart = true) :
    (kindOfWord (String.ofList (c :: rest))).Admits (String.ofList (c :: rest)) := by
  have hreserved : ∀ p ∈ reservedWords, p.2.spelling? = some p.1 := by decide
  cases hlookup : reservedWords.lookup (String.ofList (c :: rest)) with
  | none =>
    have hident : kindOfWord (String.ofList (c :: rest)) = .ident := by
      rw [kindOfWord,hlookup]
      rfl
    refine .inr (.inl ⟨hident,?_⟩)
    simp only [isIdentifier,String.toList_ofList,hc,hrest,hident,decide_true,Bool.and_self]
  | some kind =>
    have hkind : kindOfWord (String.ofList (c :: rest)) = kind := by
      rw [kindOfWord,hlookup]
      rfl
    obtain ⟨before,after,heq,-⟩ := lookup_eq_some_iff.1 hlookup
    have hmem : (String.ofList (c :: rest),kind) ∈ reservedWords := by simp [heq]
    rw [hkind]
    exact .inl (hreserved _ hmem)

theorem spelling?_operator? {after} (h : operator? c rest = some (kind,text,after)) :
    kind.spelling? = some (String.ofList text) := by
  unfold operator? at h
  split at h <;> cases h <;> rfl

def operatorParts : List Char :=
  ['+','-','*','/','%','&','|','^','=','<','>','!','~','(',')','\x7b','\x7d',';',':',',']

def isTokenPart (c : Char) : Bool := isWordPart c || operatorParts.contains c

def IsComplete (text : List Char) (next : Option Char) : Prop :=
  ∀ c ∈ next, text ++ [c] ≠ ['/','/'] ∧
    ∀ kind : Kind, kind.spelling? ≠ some (String.ofList (text ++ [c]))

def Lexeme.Fits (rest : List Char) : Lexeme → Prop
  | .blank c => isBlank c = true
  | .newline => True
  | .comment text => (∃ more, text = '/' :: '/' :: more) ∧ '\n' ∉ text ∧ ∀ c ∈ rest.head?, c = '\n'
  | .token kind text => kind.Admits (String.ofList text) ∧ text ≠ [] ∧ (∀ c ∈ text, isTokenPart c = true) ∧
      ((∀ c ∈ text, c ∈ operatorParts) → IsComplete text rest.head?)
  | .illegal c => isBlank c = false ∧ c ≠ '\n' ∧ isTokenPart c = false

theorem operator?_of_spelling (h : kind.spelling? = some (String.ofList (c :: d :: more))) :
    isLetter c = true ∨ more = [] ∧ ∀ rest, operator? c (d :: rest) = some (kind,[c,d],rest) := by
  replace h : kind.spelling?.map String.toList = some (c :: d :: more) := by rw [h]; simp
  cases kind <;> cases h <;> first
    | exact .inl rfl
    | exact .inr ⟨rfl,fun _ => rfl⟩

theorem text_operator? {after} (h : operator? c rest = some (kind,text,after)) :
    text ++ after = c :: rest ∧ text ≠ [] ∧ ∀ c ∈ text, c ∈ operatorParts := by
  unfold operator? at h
  split at h <;> cases h <;> simp [operatorParts]

theorem isComplete_operator? {after} (hcomment : ¬(c = '/' ∧ rest.head? = some '/'))
    (hletter : isLetter c = false) (h : operator? c rest = some (kind,text,after)) :
    IsComplete text after.head? := by
  intro d hd
  obtain ⟨htext,hne,-⟩ := text_operator? h
  match text, hne with
  | [e], _ =>
    obtain ⟨rfl,rfl⟩ := List.cons.inj htext
    obtain ⟨rest,rfl⟩ : ∃ rest, after = d :: rest := by
      cases after with
      | nil => cases hd
      | cons => cases hd; exact ⟨_,rfl⟩
    refine ⟨fun heq => hcomment ?_,fun kind' hspelling => ?_⟩
    · obtain ⟨rfl,hslash⟩ := List.cons.inj heq
      exact ⟨rfl,by simpa using hslash⟩
    · obtain hspelling | ⟨-,hspelling⟩ := operator?_of_spelling hspelling
      · cases hletter.symm.trans hspelling
      · cases h.symm.trans (hspelling rest)
  | e :: e' :: more, _ =>
    obtain ⟨rfl,-⟩ := List.cons.inj htext
    refine ⟨by simp,fun kind' hspelling => ?_⟩
    obtain hspelling | ⟨hspelling,-⟩ := operator?_of_spelling hspelling
    · cases hletter.symm.trans hspelling
    · simp at hspelling

theorem isWordPart_of_mem : ∀ c ∈ operatorParts, isWordPart c = false := by
  simp [operatorParts,isWordPart]

theorem fits_word (hadmits : kind.Admits (String.ofList (c :: text)))
    (hword : ∀ d ∈ c :: text, isWordPart d = true) :
    Lexeme.Fits rest (.token kind (c :: text)) := by
  refine ⟨hadmits,cons_ne_nil _ _,fun d hd => by rw [isTokenPart,hword d hd]; rfl,
    fun hoperator => ?_⟩
  cases (isWordPart_of_mem c (hoperator c mem_cons_self)).symm.trans (hword c mem_cons_self)

theorem not_mem_operatorParts (h : operator? c rest = none) : c ∉ operatorParts := by
  unfold operator? at h
  split at h <;> cases h
  simp only [operatorParts,mem_cons,not_mem_nil,or_false,not_or]
  and_intros <;> assumption

theorem fits_cut (c : Char) (rest : List Char) :
    (cut c rest).1.text ++ (cut c rest).2 = c :: rest ∧ (cut c rest).1.Fits (cut c rest).2 := by
  unfold cut
  split
  · exact ⟨rfl,‹_›⟩
  rename_i hblank
  split
  · rename_i hc
    exact ⟨by rw [hc]; rfl,trivial⟩
  rename_i hline
  split
  · rename_i hc
    refine ⟨by simp [Lexeme.text],fits_word (admits_kindOfWord hc all_takeWhile) ?_⟩
    refine forall_mem_cons.2 ⟨?_,fun d hd => all_eq_true.1 all_takeWhile d hd⟩
    grind [isLetter,isWordPart,Char.isAlphanum]
  rename_i hletter
  split
  · rename_i hc
    subst hc
    exact ⟨rfl,fits_word (.inr (.inr rfl)) (by simp [isWordPart])⟩
  split
  · rename_i hc
    have hword : ∀ d : Char, d.isDigit = true → isWordPart d = true := fun d hd => by
      simp [isWordPart,Char.isAlphanum,hd]
    exact ⟨by simp [Lexeme.text],fits_word (.inr (.inr rfl))
      (forall_mem_cons.2 ⟨hword c hc,fun d hd => hword d (all_eq_true.1 all_takeWhile d hd)⟩)⟩
  rename_i hdigit
  split
  · rename_i hcomment
    rw [Bool.and_eq_true,decide_eq_true_eq,decide_eq_true_eq,head?_eq_some_iff] at hcomment
    obtain ⟨rfl,more,rfl⟩ := hcomment
    refine ⟨by simp [Lexeme.text],⟨_,rfl⟩,fun hmem => ?_,fun d hd => ?_⟩
    · obtain hmem | hmem := mem_cons.1 hmem
      · cases hmem
      · simpa using all_eq_true.1 all_takeWhile _ hmem
    · have hstop := head?_dropWhile_not (· != '\n') ('/' :: more)
      rw [Option.mem_def.1 hd] at hstop
      simpa using hstop
  rename_i hcomment
  split
  · rename_i kind text after hoperator
    obtain ⟨htext,hne,hparts⟩ := text_operator? hoperator
    exact ⟨htext,.inl (spelling?_operator? hoperator),hne,
      fun d hd => by simp [isTokenPart,hparts d hd],
      fun _ => isComplete_operator? (by simpa using hcomment) (by simpa using hletter) hoperator⟩
  · rename_i hnone
    refine ⟨rfl,by simpa using hblank,hline,?_⟩
    have hmem := not_mem_operatorParts hnone
    grind [isTokenPart,isLetter,isWordPart,Char.isAlphanum]

theorem Lexeme.Fits.length_pos (h : x.Fits rest) : 0 < x.text.length := by
  cases x with
  | blank | newline | illegal => exact Nat.one_pos
  | comment =>
    obtain ⟨⟨more,rfl⟩,-⟩ := h
    exact Nat.succ_pos _
  | token => exact length_pos_iff.2 h.2.1

inductive Fitted : List Lexeme → List Char → Prop where
  | nil : Fitted [] []
  | cons {x : Lexeme} {ls r} : x.Fits r → Fitted ls r → Fitted (x :: ls) (x.text ++ r)

theorem fitted_lexemesUpTo (h : s.length ≤ fuel) : Fitted (lexemesUpTo fuel s) s := by
  induction fuel generalizing s with
  | zero =>
    obtain rfl := length_eq_zero_iff.1 (Nat.le_zero.1 h)
    exact .nil
  | succ fuel ih =>
    cases s with
    | nil => exact .nil
    | cons c rest =>
      obtain ⟨htext,hfits⟩ := fits_cut c rest
      have hlength := congrArg length htext
      have hpos := hfits.length_pos
      rw [length_append,length_cons] at hlength
      rw [length_cons] at h
      have hfitted := Fitted.cons hfits (ih (by omega))
      rwa [htext] at hfitted

inductive At : List Lexeme → Nat → Lexeme → Prop where
  | head {x : Lexeme} {ls : List Lexeme} : At (x :: ls) 0 x
  | tail {x y : Lexeme} {ls : List Lexeme} {i : Nat} : At ls i x → At (y :: ls) (y.text.length + i) x

theorem At.fits (h : At ls i x) (hls : Fitted ls s) :
    x.text <+: s.drop i ∧ x.Fits (s.drop (i + x.text.length)) := by
  induction h generalizing s with
  | head =>
    cases hls with
    | cons hx => simpa using hx
  | tail _ ih =>
    cases hls with
    | cons _ hrest =>
      rw [Nat.add_assoc,drop_length_add_append,drop_length_add_append]
      exact ih hrest

def Lexeme.piece? (line pos : Nat) : Lexeme → Option Piece
  | .token kind text => some (.token ⟨kind,String.ofList text,line,pos⟩)
  | .illegal c => some (.illegal c line pos)
  | _ => none

def Lexeme.IsShort : Lexeme → Prop
  | .token kind text => kind = .number → text.length ≤ Text.digitLimit
  | _ => True

theorem placeFrom_cons (hx : x.Fits rest) (hshort : x.IsShort) (line pos : Nat) (ls : List Lexeme) :
    placeFrom line pos (x :: ls) = (x.piece? line pos).toList ++
      placeFrom (line + x.text.count '\n') (pos + x.text.length) ls := by
  cases x with
  | newline => rfl
  | blank c =>
    have hc : c ≠ '\n' := by
      rintro rfl
      cases hx
    simp [placeFrom,Lexeme.piece?,Lexeme.text,hc]
  | comment text => simp [placeFrom,Lexeme.piece?,Lexeme.text,count_eq_zero.2 hx.2.1]
  | illegal c => simp [placeFrom,Lexeme.piece?,Lexeme.text,hx.2.1]
  | token kind text =>
    have hline : '\n' ∉ text := fun hmem => by
      cases hx.2.2.1 _ hmem
    have hlong : ¬(kind = .number ∧ text.length > Text.digitLimit) := fun h =>
      Nat.not_lt.2 (hshort h.1) h.2
    simp [placeFrom,Lexeme.piece?,Lexeme.text,count_eq_zero.2 hline,hlong]

theorem mem_placeFrom (hls : Fitted ls s) (hshort : ∀ x ∈ ls, x.IsShort) :
    piece ∈ placeFrom line pos ls ↔
      ∃ i x, At ls i x ∧ x.piece? (line + (s.take i).count '\n') (pos + i) = some piece := by
  induction hls generalizing line pos with
  | nil =>
    constructor
    · rintro ⟨⟩
    · rintro ⟨_,_,⟨⟩,-⟩
  | cons hx hrest ih =>
    rw [forall_mem_cons] at hshort
    rw [placeFrom_cons hx hshort.1,mem_append,ih hshort.2,Option.mem_toList]
    constructor
    · rintro (h | ⟨i,y,hy,h⟩)
      · exact ⟨0,_,.head,by simpa using h⟩
      · refine ⟨_,y,hy.tail,?_⟩
        rwa [take_length_add_append,count_append,← Nat.add_assoc,← Nat.add_assoc]
    · rintro ⟨i,y,hy,h⟩
      cases hy with
      | head => exact .inl (by simpa using h)
      | tail hy =>
        refine .inr ⟨_,y,hy,?_⟩
        rwa [take_length_add_append,count_append,← Nat.add_assoc,← Nat.add_assoc] at h

def Piece.token? : Piece → Option Token
  | .token t => some t
  | _ => none

def Piece.illegal? : Piece → Option (Char × Nat × Nat)
  | .illegal c line pos => some (c,line,pos)
  | _ => none

theorem ofPieces_eq (h : ∀ n, .overlong n ∉ ps) :
    Stream.ofPieces ps = ⟨ps.filterMap Piece.token?,ps.filterMap Piece.illegal?,none⟩ := by
  induction ps with
  | nil => rfl
  | cons p rest ih =>
    have hrest := ih fun n hn => h n (mem_cons_of_mem p hn)
    cases p with
    | overlong n => exact (h n mem_cons_self).elim
    | token | illegal =>
      rw [Stream.ofPieces,hrest]
      rfl

def Piece.span : Piece → Nat × Nat
  | .token t => (t.pos,t.text.length)
  | .illegal _ _ pos => (pos,1)
  | .overlong n => (0,n)

def Precedes (a b : Nat × Nat) : Prop := a.1 < b.1 ∧ a.1 + a.2 ≤ b.1

theorem span_of_piece? (h : x.piece? line pos = some piece) : piece.span = (pos,x.text.length) := by
  cases x with
  | token | illegal => cases h; simp [Piece.span,Lexeme.text]
  | _ => cases h

theorem pairwise_placeFrom (hls : Fitted ls s) (hshort : ∀ x ∈ ls, x.IsShort) :
    (placeFrom line pos ls).Pairwise fun p q => Precedes p.span q.span := by
  induction hls generalizing line pos with
  | nil => exact .nil
  | @cons x ls r hx hrest ih =>
    rw [forall_mem_cons] at hshort
    rw [placeFrom_cons hx hshort.1,pairwise_append]
    refine ⟨?_,ih hshort.2,fun p hp q hq => ?_⟩
    · cases x.piece? line pos <;> simp
    · obtain ⟨i,y,-,hq⟩ := (mem_placeFrom hrest hshort.2).1 hq
      have hpos := hx.length_pos
      rw [span_of_piece? (Option.mem_toList.1 hp),span_of_piece? hq]
      constructor <;> dsimp only <;> omega

def illegalReport (met : Char × Nat × Nat) : Report :=
  ⟨.str ("Illegal character '" ++ String.ofList [met.1] ++ "'"),met.2.1,.str "Lexing"⟩

theorem runs_reportIllegal (met : List (Char × Nat × Nat)) (r : Reporter) :
    Runs (reportIllegal met) r () { r with reports := r.reports ++ met.map illegalReport } := by
  induction met generalizing r with
  | nil =>
    rw [map_nil,append_nil]
    rfl
  | cons x rest ih =>
    have hrest := ih { r with reports := r.reports ++ [illegalReport x] }
    rw [append_assoc] at hrest
    exact runs_bind.2 ⟨(),_,rfl,hrest⟩

section

variable {source : String} (hls : Fitted (lexemes source.toList) source.toList)
  (hshort : ∀ x ∈ lexemes source.toList, x.IsShort)

include hls hshort

theorem mem_pieces : piece ∈ pieces source ↔ ∃ i x, At (lexemes source.toList) i x ∧
    x.piece? (1 + (source.toList.take i).count '\n') i = some piece := by
  rw [pieces,mem_placeFrom hls hshort]
  simp only [Nat.zero_add]

theorem ofPieces_pieces : Stream.ofPieces (pieces source) =
    ⟨(pieces source).filterMap Piece.token?,(pieces source).filterMap Piece.illegal?,none⟩ := by
  refine ofPieces_eq fun n hn => ?_
  obtain ⟨i,x,-,hx⟩ := (mem_pieces hls hshort).1 hn
  cases x <;> cases hx

theorem mem_tokens : t ∈ (pieces source).filterMap Piece.token? ↔ ∃ i kind text,
    At (lexemes source.toList) i (.token kind text) ∧
      t = ⟨kind,String.ofList text,1 + (source.toList.take i).count '\n',i⟩ := by
  simp only [mem_filterMap,mem_pieces hls hshort]
  constructor
  · rintro ⟨piece,⟨i,x,hx,hpiece⟩,ht⟩
    cases x with
    | token kind text =>
      cases hpiece
      cases ht
      exact ⟨i,kind,text,hx,rfl⟩
    | illegal =>
      cases hpiece
      cases ht
    | _ => cases hpiece
  · rintro ⟨i,kind,text,hx,rfl⟩
    exact ⟨_,⟨i,_,hx,rfl⟩,rfl⟩

theorem mem_illegal : (c,line,p) ∈ (pieces source).filterMap Piece.illegal? ↔
    At (lexemes source.toList) p (.illegal c) ∧ line = 1 + (source.toList.take p).count '\n' := by
  simp only [mem_filterMap,mem_pieces hls hshort]
  constructor
  · rintro ⟨piece,⟨i,x,hx,hpiece⟩,ht⟩
    cases x with
    | illegal =>
      cases hpiece
      cases ht
      exact ⟨hx,rfl⟩
    | token =>
      cases hpiece
      cases ht
    | _ => cases hpiece
  · rintro ⟨hx,rfl⟩
    exact ⟨_,⟨p,_,hx,rfl⟩,rfl⟩

end

theorem tokens_account_for_source (source : String)
    (hshort : ∀ text, .token .number text ∈ lexemes source.toList → text.length ≤ Text.digitLimit) :
    let s := source.toList
    let stream := Stream.ofPieces (pieces source)
    Fitted (lexemes s) s ∧ stream.overlong = none ∧
    (∀ t, t ∈ stream.tokens ↔ ∃ i kind text, At (lexemes s) i (.token kind text) ∧
      t = ⟨kind,String.ofList text,1 + (s.take i).count '\n',i⟩) ∧
    stream.tokens.Pairwise (fun t t' => t.pos < t'.pos ∧ t.pos + t.text.length ≤ t'.pos) ∧
    (∀ t ∈ stream.tokens, t.text.toList <+: s.drop t.pos ∧
      ((∀ c ∈ t.text.toList, c ∈ operatorParts) →
        IsComplete t.text.toList s[t.pos + t.text.length]?)) ∧
    (∀ c line p, (c,line,p) ∈ stream.illegal ↔
      At (lexemes s) p (.illegal c) ∧ line = 1 + (s.take p).count '\n') ∧
    stream.illegal.Pairwise (fun x y => x.2.2 < y.2.2) ∧
    ∀ r, Runs (reportIllegal stream.illegal) r ()
      { r with reports := r.reports ++ stream.illegal.map illegalReport } := by
  intro s stream
  have hls : Fitted (lexemes s) s := fitted_lexemesUpTo (Nat.le_refl _)
  have hshort : ∀ x ∈ lexemes s, x.IsShort := by
    intro x hx
    cases x with
    | token kind text =>
      rintro rfl
      exact hshort text hx
    | _ => trivial
  have hstream : stream = _ := ofPieces_pieces hls hshort
  have hpairwise : (pieces source).Pairwise fun p q => Precedes p.span q.span :=
    pairwise_placeFrom hls hshort
  rw [hstream]
  refine ⟨hls,rfl,fun t => mem_tokens hls hshort,?_,?_,fun c line p => mem_illegal hls hshort,
    ?_,runs_reportIllegal _⟩
  · refine hpairwise.filterMap _ fun p q hpq t ht t' ht' => ?_
    cases p <;> cases ht
    cases q <;> cases ht'
    exact hpq
  · intro t ht
    obtain ⟨i,kind,text,hx,rfl⟩ := (mem_tokens hls hshort).1 ht
    obtain ⟨htext,-,-,-,hcomplete⟩ := hx.fits hls
    rw [head?_drop] at hcomplete
    simp only [String.toList_ofList,String.length_ofList]
    exact ⟨htext,hcomplete⟩
  · refine hpairwise.filterMap _ fun p q hpq t ht t' ht' => ?_
    cases p <;> cases ht
    cases q <;> cases ht'
    exact hpq.1

def commentedSource : String := "x<=12//y\n$z"

theorem commentedSource_accounted :
    (∀ text, .token .number text ∈ lexemes commentedSource.toList → text.length ≤ Text.digitLimit) ∧
    ∀ c line p, (c,line,p) ∈ (Stream.ofPieces (pieces commentedSource)).illegal ↔
      At (lexemes commentedSource.toList) p (.illegal c) ∧
      line = 1 + (commentedSource.toList.take p).count '\n' := by
  have hall : (lexemes commentedSource.toList).all (·.text.length ≤ Text.digitLimit) = true := by
    decide +kernel
  have hshort : ∀ text, .token .number text ∈ lexemes commentedSource.toList →
      text.length ≤ Text.digitLimit := fun _ h => of_decide_eq_true (all_eq_true.1 hall _ h)
  exact ⟨hshort,(tokens_account_for_source commentedSource hshort).2.2.2.2.2.1⟩

end BxToolchain.Bx
