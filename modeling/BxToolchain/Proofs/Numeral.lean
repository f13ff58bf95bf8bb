import BxToolchain.Bx.Lexeme
import BxToolchain.Bx.Lower
import Mathlib.Data.List.Basic

namespace BxToolchain

variable {n : Nat}

theorem toDigits_injective (h : Nat.toDigits 10 m = Nat.toDigits 10 n) : m = n := by
  have hm := Nat.ofDigitChars_ten_toDigits (n := m)
  rw [h,Nat.ofDigitChars_ten_toDigits] at hm
  exact hm.symm

theorem toString_injective (h : toString m = toString n) : m = n := by
  apply toDigits_injective
  have hl := congrArg String.toList h
  simpa [Nat.toString_eq_ofList_toDigits] using hl

theorem append_left_cancel {p s t : String} (h : p ++ s = p ++ t) : s = t := by
  have hl := congrArg String.toList h
  simp only [String.toList_append] at hl
  exact String.toList_inj.1 (List.append_cancel_left hl)

theorem isDigit_of_mem_toDigits : ∀ c ∈ Nat.toDigits 10 n, c.isDigit = true :=
  fun _ h => Nat.isDigit_of_mem_toDigits (by decide) (by decide) h

theorem head_toDigits_ne_zero (hn : 0 < n) : (Nat.toDigits 10 n).head? ≠ some '0' := by
  induction n using Nat.strongRecOn with
  | _ n ih =>
    by_cases hlt : n < 10
    · rw [Nat.toDigits_of_lt_base hlt]
      have hdigits : ∀ m < 10, 0 < m → [m.digitChar].head? ≠ some '0' := by decide
      exact hdigits n hlt hn
    · have hrest := ih (n / 10) (by omega) (by omega)
      rw [Nat.toDigits_of_base_le (by decide) (Nat.not_lt.1 hlt)]
      cases hd : Nat.toDigits 10 (n / 10) with
      | nil => exact absurd hd Nat.toDigits_ne_nil
      | cons c rest => rwa [hd] at hrest

theorem natOfDigits_toDigits (n : Nat) :
    Text.natOfDigits ((Nat.toDigits 10 n).map fun c => c.toNat - '0'.toNat) = n := by
  rw [Text.natOfDigits,List.foldl_map]
  exact Nat.ofDigitChars_ten_toDigits

namespace Bx

theorem isLetter_eq_false (h : c.isDigit = true) : isLetter c = false := by
  simp only [Char.isDigit,Bool.and_eq_true,decide_eq_true_eq,UInt32.le_iff_toNat_le] at h
  have hne : c ≠ '_' := by
    rintro rfl
    exact absurd h.2 (by decide)
  delta isLetter Char.isAlpha Char.isUpper Char.isLower
  simp only [hne,decide_false,Bool.or_false,Bool.or_eq_false_iff,Bool.and_eq_false_iff,
    decide_eq_false_iff_not,UInt32.le_iff_toNat_le]
  have hcodes : '9'.val.toNat = 57 ∧ 'A'.val.toNat = 65 ∧ 'a'.val.toNat = 97 := by decide
  omega

namespace Lower

theorem register_injective (h : register m = register n) : m = n :=
  toString_injective (append_left_cancel h)

theorem head_toString_isDigit (n : Nat) :
    ∃ c rest, (toString n).toList = c :: rest ∧ c.isDigit = true := by
  have hl : (toString n).toList = Nat.toDigits 10 n := by simp
  cases hd : Nat.toDigits 10 n with
  | nil => exact absurd hd Nat.toDigits_ne_nil
  | cons c rest =>
    refine ⟨c,rest,hl.trans hd,?_⟩
    exact isDigit_of_mem_toDigits c (hd ▸ List.mem_cons_self)

end Lower

end Bx

end BxToolchain
