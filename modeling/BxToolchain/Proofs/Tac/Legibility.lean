import BxToolchain.Proofs.Numeral
import BxToolchain.Proofs.Text.Cutting
import BxToolchain.Tac.Parse

namespace BxToolchain.Tac

open Text

variable {c : Char} {s rest : List Char} {l : Lexeme} {ls : List Lexeme}

def isNumeral : List Char → Bool
  | ['0'] => true
  | c :: rest => isNonzeroDigit c && rest.all Char.isDigit
  | [] => false

def TokenKind.admits : TokenKind → List Char → Bool
  | .number, s => isNumeral s && s.length ≤ digitLimit && isWord (numberOf s)
  | .temp, '%' :: c :: s => isNumeral (c :: s) || (c.isAlpha && s.all isWordPart)
  | .gsym, '@' :: c :: s => isLetter c && s.all isWordPart
  | .label, '%' :: '.' :: 'L' :: s => s.all isWordPart
  | .opcode, c :: s => isLetter c && s.all isWordPart && kindOfWord (String.ofList (c :: s)) = .opcode
  | .var, s => s = "var".toList
  | .proc, s => s = "proc".toList
  | kind, c :: s => s.isEmpty && sign? c = some kind
  | _, [] => false

def TokenKind.isSolid : TokenKind → Bool
  | .eq | .comma | .semicolon | .colon | .lparen | .rparen => false
  | _ => true

def Lexeme.isSolid : Lexeme → Bool
  | .token kind _ => kind.isSolid
  | _ => false

def Lexeme.isProper : Lexeme → Bool
  | .blank c => c = ' '
  | .newline => true
  | .token kind text => kind.admits text
  | _ => false

theorem isWordPart_of_isDigit (h : c.isDigit = true) : isWordPart c = true := by
  simp [isWordPart,Char.isAlphanum,h]

theorem isWordPart_of_isLetter (h : isLetter c = true) : isWordPart c = true := by
  simp only [isLetter,Bool.or_eq_true,decide_eq_true_eq] at h
  rcases h with h | rfl
  · simp [isWordPart,Char.isAlphanum,h]
  · rfl

theorem isDigit_of_isNonzeroDigit (h : isNonzeroDigit c = true) : c.isDigit = true := by
  simp only [isNonzeroDigit,Bool.and_eq_true] at h
  exact h.1

theorem ne_zero_of_isNonzeroDigit (h : isNonzeroDigit c = true) : c ≠ '0' := by
  simp only [isNonzeroDigit,Bool.and_eq_true,decide_eq_true_eq] at h
  exact h.2

theorem ne_of_class {p : Char → Bool} {d : Char} (hc : p c = true) (hd : p d = false) : c ≠ d := by
  rintro rfl
  rw [hc] at hd
  cases hd

theorem isBlank_eq_false (h : isWordPart c = true) : isBlank c = false := by
  have hne : ∀ d, isWordPart d = false → c ≠ d := fun d => ne_of_class h
  simp only [isBlank,Bool.or_eq_false_iff,decide_eq_false_iff_not]
  exact ⟨⟨⟨⟨hne _ (by decide),hne _ (by decide)⟩,hne _ (by decide)⟩,hne _ (by decide)⟩,
    hne _ (by decide)⟩

theorem cut_word (hc : isLetter c = true) (hs : s.all isWordPart = true)
    (hrest : Stops isWordPart rest) :
    cut c (s ++ rest) = (.token (kindOfWord (String.ofList (c :: s))) (c :: s),rest) := by
  have hword := isWordPart_of_isLetter hc
  have hline : c ≠ '\n' := ne_of_class hword (by decide)
  have hslash : c ≠ '/' := ne_of_class hword (by decide)
  simp [cut,isBlank_eq_false hword,hline,hslash,hc,takeWhile_of_stops hs hrest,
    dropWhile_of_stops hs hrest]

theorem cut_number (h : isNumeral (c :: s) = true) (hrest : Stops isWordPart rest) :
    cut c (s ++ rest) = (.token .number (c :: s),rest) := by
  have hdigits := hrest.mono fun _ => isWordPart_of_isDigit
  unfold isNumeral at h
  split at h
  · rename_i heq
    cases heq
    rfl
  · rename_i heq
    cases heq
    simp only [Bool.and_eq_true] at h
    have hdigit := isDigit_of_isNonzeroDigit h.1
    have hword := isWordPart_of_isDigit hdigit
    have hline : c ≠ '\n' := ne_of_class hword (by decide)
    have hslash : c ≠ '/' := ne_of_class hword (by decide)
    have hletter : isLetter c = false := Bx.isLetter_eq_false hdigit
    simp [cut,isBlank_eq_false hword,hline,hslash,hletter,hdigit,ne_zero_of_isNonzeroDigit h.1,
      takeWhile_of_stops h.2 hdigits,dropWhile_of_stops h.2 hdigits]
  · cases h

theorem cut_temp (h : isNumeral (c :: s) = true ∨ c.isAlpha = true ∧ s.all isWordPart = true)
    (hrest : Stops isWordPart rest) :
    cut '%' (c :: s ++ rest) = (.token .temp ('%' :: c :: s),rest) := by
  change cutPercent (c :: (s ++ rest)) = _
  have hdigits := hrest.mono fun _ => isWordPart_of_isDigit
  obtain h | ⟨hc,hs⟩ := h
  · unfold isNumeral at h
    split at h
    · rename_i heq
      cases heq
      rfl
    · rename_i heq
      cases heq
      simp only [Bool.and_eq_true] at h
      have hpoint : c ≠ '.' := ne_of_class h.1 (by decide)
      rw [cutPercent]
      · simp [h.1,takeWhile_of_stops h.2 hdigits,dropWhile_of_stops h.2 hdigits]
      · simp [hpoint]
      · simp [ne_zero_of_isNonzeroDigit h.1]
    · cases h
  · have hnumeral : isNonzeroDigit c = false := by
      rw [Bool.eq_false_iff]
      intro hdigit
      have hletter := Bx.isLetter_eq_false (isDigit_of_isNonzeroDigit hdigit)
      simp [Bx.isLetter,hc] at hletter
    have hpoint : c ≠ '.' := ne_of_class hc (by decide)
    have hzero : c ≠ '0' := ne_of_class hc (by decide)
    rw [cutPercent]
    · simp [hnumeral,hc,takeWhile_of_stops hs hrest,dropWhile_of_stops hs hrest]
    · simp [hpoint]
    · simp [hzero]

theorem cut_gsym (hc : isLetter c = true) (hs : s.all isWordPart = true)
    (hrest : Stops isWordPart rest) :
    cut '@' (c :: s ++ rest) = (.token .gsym ('@' :: c :: s),rest) := by
  change cutAt (c :: (s ++ rest)) = _
  simp [cutAt,hc,takeWhile_of_stops hs hrest,dropWhile_of_stops hs hrest]

theorem cut_label (hs : s.all isWordPart = true) (hrest : Stops isWordPart rest) :
    cut '%' ('.' :: 'L' :: s ++ rest) = (.token .label ('%' :: '.' :: 'L' :: s),rest) := by
  change cutPercent ('.' :: 'L' :: (s ++ rest)) = _
  simp [cutPercent,takeWhile_of_stops hs hrest,dropWhile_of_stops hs hrest]

theorem cutsOff_token (h : kind.admits s = true)
    (hrest : kind.isSolid = true → Stops isWordPart rest) :
    CutsOff cut Lexeme.text (.token kind s) rest := by
  unfold TokenKind.admits at h
  split at h
  · simp only [Bool.and_eq_true] at h
    cases s with
    | nil => cases h.1.1
    | cons c s => exact ⟨c,s,rfl,cut_number h.1.1 (hrest rfl)⟩
  · rename_i c s
    simp only [Bool.or_eq_true,Bool.and_eq_true] at h
    exact ⟨'%',c :: s,rfl,cut_temp h (hrest rfl)⟩
  · rename_i c s
    simp only [Bool.and_eq_true] at h
    exact ⟨'@',c :: s,rfl,cut_gsym h.1 h.2 (hrest rfl)⟩
  · rename_i s
    exact ⟨'%','.' :: 'L' :: s,rfl,cut_label h (hrest rfl)⟩
  · rename_i c s
    simp only [Bool.and_eq_true,decide_eq_true_eq] at h
    have hcut := cut_word h.1.1 h.1.2 (hrest rfl)
    rw [h.2] at hcut
    exact ⟨c,s,rfl,hcut⟩
  · obtain rfl := of_decide_eq_true h
    exact ⟨'v',['a','r'],rfl,cut_word (by decide) (by decide) (hrest rfl)⟩
  · obtain rfl := of_decide_eq_true h
    exact ⟨'p',['r','o','c'],rfl,cut_word (by decide) (by decide) (hrest rfl)⟩
  · obtain ⟨hempty,hsign⟩ := Bool.and_eq_true_iff.1 h
    obtain rfl := List.isEmpty_iff.1 hempty
    have hsign := of_decide_eq_true hsign
    unfold sign? at hsign
    split at hsign <;> cases hsign <;> exact ⟨_,[],rfl,rfl⟩
  · cases h

theorem cutsOff_of_isProper (h : l.isProper = true)
    (hrest : l.isSolid = true → Stops isWordPart rest) : CutsOff cut Lexeme.text l rest := by
  cases l with
  | blank c =>
    obtain rfl := of_decide_eq_true h
    exact ⟨' ',[],rfl,rfl⟩
  | newline => exact ⟨'\n',[],rfl,rfl⟩
  | token kind s => exact cutsOff_token h hrest
  | comment s => cases h
  | illegal c => cases h

theorem stops_text (h : l.isProper = true) (hsolid : l.isSolid = false) (rest : List Char) :
    Stops isWordPart (l.text ++ rest) := by
  cases l with
  | blank c =>
    obtain rfl := of_decide_eq_true h
    rintro c ⟨⟩
    rfl
  | newline =>
    rintro c ⟨⟩
    rfl
  | token kind s =>
    have h : kind.admits s = true := h
    change kind.isSolid = false at hsolid
    unfold TokenKind.admits at h
    split at h
    any_goals simp [TokenKind.isSolid] at hsolid
    · obtain ⟨hempty,hsign⟩ := Bool.and_eq_true_iff.1 h
      obtain rfl := List.isEmpty_iff.1 hempty
      have hsign := of_decide_eq_true hsign
      unfold sign? at hsign
      split at hsign <;> cases hsign <;> rintro d ⟨⟩ <;> rfl
    · cases h
  | comment s => cases h
  | illegal c => cases h

inductive Legible : List Lexeme → Prop where
  | nil : Legible []
  | loose {l : Lexeme} {rest : List Lexeme} : l.isProper = true → l.isSolid = false →
      Legible rest → Legible (l :: rest)
  | word {l l' rest} : l.isProper = true → l'.isSolid = false →
      Legible (l' :: rest) → Legible (l :: l' :: rest)

theorem Legible.append (h : Legible ls) (h' : Legible ls') : Legible (ls ++ ls') := by
  induction h with
  | nil => exact h'
  | loose hl hsolid _ ih => exact .loose hl hsolid ih
  | word hl hsolid _ ih => exact .word hl hsolid ih

theorem Legible.isProper (h : Legible ls) : ∀ l ∈ ls, l.isProper = true := by
  induction h with
  | nil => simp
  | loose hl _ _ ih | word hl _ _ ih => exact List.forall_mem_cons.2 ⟨hl,ih⟩

theorem Legible.separated (h : Legible ls) : Separated cut Lexeme.text ls := by
  induction h with
  | nil => trivial
  | loose hl hsolid _ ih =>
    refine ⟨cutsOff_of_isProper hl fun hsolid' => ?_,ih⟩
    rw [hsolid] at hsolid'
    cases hsolid'
  | word hl hsolid hrest ih =>
    have hl' := hrest.isProper _ List.mem_cons_self
    exact ⟨cutsOff_of_isProper hl fun _ => stops_text hl' hsolid _,ih⟩

theorem lexemesUpTo_eq_cutUpTo (fuel : Nat) (cs : List Char) :
    lexemesUpTo fuel cs = cutUpTo cut fuel cs := by
  induction fuel generalizing cs with
  | zero => rfl
  | succ fuel ih =>
    cases cs with
    | nil => rfl
    | cons c rest => rw [lexemesUpTo,cutUpTo,ih]

theorem Legible.lexemes_flatMap (h : Legible ls) : lexemes (ls.flatMap Lexeme.text) = ls := by
  have h := h.separated
  rw [lexemes,lexemesUpTo_eq_cutUpTo,cutUpTo_flatMap h h.length_le]

abbrev Word := TokenKind × List Char

def Lexeme.word? : Lexeme → Option Word
  | .token kind text => some (kind,text)
  | _ => none

inductive Carries : List Piece → List Word → Prop where
  | finish (line : Nat) : Carries [.finish line] []
  | token (line pos : Nat) :
      Carries ps ws → Carries (.token ⟨kind,String.ofList text,line,pos⟩ :: ps) ((kind,text) :: ws)

theorem carries_placeFrom (h : ∀ l ∈ ls, l.isProper = true) (line pos : Nat) :
    Carries (placeFrom line pos ls) (ls.filterMap Lexeme.word?) := by
  induction ls generalizing line pos with
  | nil => exact .finish line
  | cons l rest ih =>
    obtain ⟨hl,hrest⟩ := List.forall_mem_cons.1 h
    cases l with
    | blank | newline => exact ih hrest _ _
    | comment | illegal => cases hl
    | token kind text =>
      rw [placeFrom]
      by_cases hkind : kind = .number
      · subst hkind
        unfold Lexeme.isProper TokenKind.admits at hl
        simp only [Bool.and_eq_true,decide_eq_true_eq] at hl
        have hdigits : digitCount text ≤ _ := Nat.le_trans (List.length_filter_le _ _) hl.1.2
        simp only [decide_true,Bool.true_and,hl.2,Bool.not_true,Bool.false_eq_true,if_false,
          decide_eq_true_eq,if_neg (Nat.not_lt.2 hdigits)]
        exact .token line pos (ih hrest _ _)
      · simp only [hkind,decide_false,Bool.false_and,Bool.false_eq_true,if_false]
        exact .token line pos (ih hrest _ _)

theorem Legible.carries_pieces (h : Legible ls) :
    Carries (pieces (String.ofList (ls.flatMap Lexeme.text))) (ls.filterMap Lexeme.word?) := by
  rw [pieces,String.toList_ofList,h.lexemes_flatMap]
  exact carries_placeFrom h.isProper 1 0

end BxToolchain.Tac
