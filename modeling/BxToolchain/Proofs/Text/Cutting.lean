import Mathlib.Data.List.Basic

namespace BxToolchain.Text

open List

section

variable {L : Type} (cut : Char → List Char → L × List Char) (text : L → List Char)

def cutUpTo : Nat → List Char → List L
  | 0, _ => []
  | _ + 1, [] => []
  | fuel + 1, c :: rest => (cut c rest).1 :: cutUpTo fuel (cut c rest).2

def CutsOff (l : L) (rest : List Char) : Prop :=
  ∃ c tail, text l = c :: tail ∧ cut c (tail ++ rest) = (l,rest)

def Separated : List L → Prop
  | [] => True
  | l :: rest => CutsOff cut text l (rest.flatMap text) ∧ Separated rest

end

theorem Separated.length_le (h : Separated cut text ls) : ls.length ≤ (ls.flatMap text).length := by
  induction ls with
  | nil => exact Nat.le_refl 0
  | cons l rest ih =>
    obtain ⟨⟨c,tail,htext,-⟩,hrest⟩ := h
    have := ih hrest
    simp only [flatMap_cons,htext,length_append,length_cons]
    omega

theorem cutUpTo_flatMap (h : Separated cut text ls) (hfuel : ls.length ≤ fuel) :
    cutUpTo cut fuel (ls.flatMap text) = ls := by
  induction ls generalizing fuel with
  | nil => cases fuel <;> rfl
  | cons l rest ih =>
    obtain ⟨⟨c,tail,htext,hcut⟩,hrest⟩ := h
    cases fuel with
    | zero => simp at hfuel
    | succ fuel =>
      rw [flatMap_cons,htext,cons_append,cutUpTo,hcut,ih hrest (by simpa using hfuel)]

def Stops (p : Char → Bool) (rest : List Char) : Prop := ∀ c ∈ rest.head?, p c = false

theorem Stops.mono (h : Stops p rest) (hpq : ∀ c, q c = true → p c = true) : Stops q rest := by
  intro c hc
  have hp := h c hc
  rw [Bool.eq_false_iff] at hp ⊢
  exact fun hq => hp (hpq c hq)

theorem takeWhile_of_stops (hs : s.all p = true) (hrest : Stops p rest) :
    (s ++ rest).takeWhile p = s := by
  rw [takeWhile_append_of_pos (all_eq_true.1 hs)]
  cases rest with
  | nil => simp
  | cons c rest => rw [takeWhile_cons_of_neg (by simp [hrest c rfl]),append_nil]

theorem dropWhile_of_stops (hs : s.all p = true) (hrest : Stops p rest) :
    (s ++ rest).dropWhile p = rest := by
  rw [dropWhile_append_of_pos (all_eq_true.1 hs)]
  cases rest with
  | nil => rfl
  | cons c rest => rw [dropWhile_cons_of_neg (by simp [hrest c rfl])]

end BxToolchain.Text
