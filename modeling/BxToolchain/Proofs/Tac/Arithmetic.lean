import BxToolchain.Tac.Word
import Mathlib

namespace BxToolchain.Tac

open Set

theorem mem_signed (hn : n ∈ Ico 0 (2 ^ 64)) : signed n ∈ Ico (-2 ^ 63) (2 ^ 63) := by
  obtain ⟨hlow,hhigh⟩ := hn
  simp only [signed,signBit,decide_eq_true_eq,mem_Ico]
  split <;> omega

theorem mem_wrap (n : Int) : wrap n ∈ Ico 0 (2 ^ 64) :=
  ⟨Int.emod_nonneg _ (by decide),Int.emod_lt_of_pos _ (by decide)⟩

theorem wrap_signed (hn : n ∈ Ico 0 (2 ^ 64)) : wrap (signed n) = n := by
  obtain ⟨hlow,hhigh⟩ := hn
  simp only [wrap,signed,signBit,decide_eq_true_eq]
  split <;> omega

variable (u v : BitVec 64)

theorem signed_toNat : signed u.toNat = u.toInt := by
  have hu := u.isLt
  simp only [signed,signBit,BitVec.toInt_eq_toNat_cond,decide_eq_true_eq]
  split <;> split <;> omega

theorem wrap_eq (n : Int) : wrap n = (BitVec.ofInt 64 n).toNat := by
  rw [BitVec.toNat_ofInt,Int.toNat_of_nonneg (Int.emod_nonneg _ (by decide))]
  rfl

theorem signed_wrap (hn : n ∈ Ico (-2 ^ 63) (2 ^ 63)) : signed (wrap n) = n := by
  rw [wrap_eq,signed_toNat,BitVec.toInt_ofInt]
  exact Int.bmod_eq_of_le (by exact_mod_cast hn.1) (by exact_mod_cast hn.2)

theorem wrap_toInt : wrap u.toInt = u.toNat := by rw [wrap_eq,BitVec.ofInt_toInt]

theorem bitwise_toInt (f : Nat → Nat → Nat) :
    BinOp.bitwise f u.toInt v.toInt = f u.toNat v.toNat := by
  simp only [BinOp.bitwise,wrap_toInt,Int.toNat_natCast]

theorem shifted_eq (a : Int) (k : Nat) : BinOp.shifted a k = wrap (a * 2 ^ k) := by
  unfold BinOp.shifted
  split
  case isTrue => rfl
  case isFalse hk =>
    have hdvd : (2 : Int) ^ 64 ∣ a * 2 ^ k := Dvd.dvd.mul_left (pow_dvd_pow 2 (by omega)) a
    exact (Int.emod_eq_zero_of_dvd hdvd).symm

theorem wrap_shiftLeft (k : Nat) : wrap (u.toInt * 2 ^ k) = (u <<< k).toNat := by
  have hmod : wrap (u.toInt * 2 ^ k) = wrap (wrap u.toInt * 2 ^ k) := by
    simp only [wrap,Int.mul_emod,Int.emod_emod]
  rw [hmod,wrap_toInt,BitVec.toNat_shiftLeft,Nat.shiftLeft_eq]
  simp [wrap]

theorem shiftedSize_le_iff (a : Int) (k size : Nat) :
    BinOp.shiftedSize a k ≤ size ↔ (a * 2 ^ k).natAbs < 2 ^ size := by
  rw [Int.natAbs_mul,show ((2 : Int) ^ k).natAbs = 2 ^ k from Int.natAbs_pow 2 k]
  unfold BinOp.shiftedSize
  split
  case isTrue hzero => simp [hzero]
  case isFalse hzero =>
    have ha : a.natAbs ≠ 0 := Int.natAbs_ne_zero.2 hzero
    obtain hle | hlt := le_or_gt k size
    · obtain ⟨m,rfl⟩ := Nat.exists_eq_add_of_le' hle
      rw [pow_add,Nat.mul_lt_mul_right (Nat.two_pow_pos k),← Nat.log2_lt ha]
      omega
    · have hpow : 2 ^ size ≤ a.natAbs * 2 ^ k :=
        (Nat.pow_le_pow_right two_pos hlt.le).trans
          (Nat.le_mul_of_pos_left _ (Nat.pos_of_ne_zero ha))
      exact iff_of_false (by omega) (not_lt.2 hpow)

theorem apply_shl (memory : Nat) : BinOp.shl.apply memory u.toNat v.toNat =
    if v.toInt < 0 then .error .negativeShift
    else if (u.toInt * 2 ^ v.toInt.toNat).natAbs < 2 ^ memory then
      .ok (u <<< v.toInt.toNat).toNat
    else .error .outOfMemory := by
  simp only [BinOp.apply,signed_toNat,shifted_eq,wrap_shiftLeft,← shiftedSize_le_iff,← not_lt,ite_not]

theorem operations_onBits (memory : Nat) :
    (signed u.toNat = u.toInt ∧ MapsTo signed (Ico 0 (2 ^ 64)) (Ico (-2 ^ 63) (2 ^ 63)) ∧
      MapsTo wrap (Ico (-2 ^ 63) (2 ^ 63)) (Ico 0 (2 ^ 64)) ∧
      InvOn wrap signed (Ico 0 (2 ^ 64)) (Ico (-2 ^ 63) (2 ^ 63))) ∧
    (BinOp.add.apply memory u.toNat v.toNat = .ok (u + v).toNat ∧
      BinOp.sub.apply memory u.toNat v.toNat = .ok (u - v).toNat ∧
      BinOp.mul.apply memory u.toNat v.toNat = .ok (u * v).toNat ∧
      BinOp.and.apply memory u.toNat v.toNat = .ok (u &&& v).toNat ∧
      BinOp.or.apply memory u.toNat v.toNat = .ok (u ||| v).toNat ∧
      BinOp.xor.apply memory u.toNat v.toNat = .ok (u ^^^ v).toNat) ∧
    (UnOp.neg.apply u.toNat = (-u).toNat ∧ UnOp.not.apply u.toNat = (~~~u).toNat) ∧
    (BinOp.shl.apply memory u.toNat v.toNat =
        (if v.toInt < 0 then .error .negativeShift
        else if (u.toInt * 2 ^ v.toInt.toNat).natAbs < 2 ^ memory then
          .ok (u <<< v.toInt.toNat).toNat
        else .error .outOfMemory) ∧
      BinOp.shr.apply memory u.toNat v.toNat =
        if v.toInt < 0 then .error .negativeShift else .ok (u.sshiftRight v.toInt.toNat).toNat) ∧
    (Cond.negative.holds u.toNat = decide (u.toInt < 0) ∧
      Cond.notPositive.holds u.toNat = decide (u.toInt ≤ 0) ∧
      Cond.notNegative.holds u.toNat = decide (0 ≤ u.toInt) ∧
      Cond.positive.holds u.toNat = decide (0 < u.toInt)) := by
  refine ⟨⟨signed_toNat u,fun _ => mem_signed,fun n _ => mem_wrap n,fun _ => wrap_signed,
    fun _ => signed_wrap⟩,?_,?_,⟨apply_shl u v memory,?_⟩,?_⟩
  · simp only [BinOp.apply,signed_toNat,wrap_eq,bitwise_toInt,Int.sub_eq_add_neg,
      BitVec.ofInt_add,BitVec.ofInt_neg,BitVec.ofInt_mul,BitVec.ofInt_toInt,
      BitVec.sub_eq_add_neg,BitVec.toNat_and,BitVec.toNat_or,BitVec.toNat_xor,and_self]
  · simp only [UnOp.apply,signed_toNat,wrap_eq,Int.sub_eq_add_neg,
      BitVec.ofInt_add,BitVec.ofInt_neg,BitVec.ofInt_toInt,BitVec.not_eq_neg_add,
      BitVec.sub_eq_add_neg]
    trivial
  · simp only [BinOp.apply,signed_toNat,wrap_eq]
    rfl
  · simp only [Cond.holds,signed_toNat,and_self]

theorem oversize_shift_fails : BinOp.shl.apply (2 ^ 32) 1 (2 ^ 62) = .error .outOfMemory ∧
    (1 : BitVec 64) <<< (2 ^ 62) = 0 :=
  ⟨rfl,BitVec.shiftLeft_eq_zero (by decide)⟩

section

variable {a b : Nat}

theorem roundHalfEven_bounds (a : Nat) (hb : 0 < b) :
    a / b ≤ roundHalfEven a b ∧ 2 * (roundHalfEven a b * b) ≤ 2 * a + b := by
  have hdiv : a / b * b + a % b = a := Nat.div_add_mod' a b
  have hmod := Nat.mod_lt a hb
  have hnext : (a / b + 1) * b = a / b * b + b := Nat.succ_mul _ _
  simp only [roundHalfEven]
  split_ifs with hlow hhigh
  · exact ⟨le_rfl,by omega⟩
  · exact ⟨by omega,by omega⟩
  · rcases Nat.mod_two_eq_zero_or_one (a / b) with hpar | hpar
    · rw [hpar,Nat.add_zero]
      exact ⟨le_rfl,by omega⟩
    · rw [hpar]
      exact ⟨by omega,by omega⟩

theorem roundHalfEven_of_dvd (h : b ∣ a) (hb : 0 < b) : roundHalfEven a b = a / b := by
  simp [roundHalfEven,Nat.mod_eq_zero_of_dvd h,hb]

theorem mul_two_pow_le {m n : Nat} (ha : 0 < a) (h : quotientLog a b = m - n) :
    b * 2 ^ m ≤ a * 2 ^ n := by
  have hbelow (hm : b.log2 + 1 + m = a.log2 + n) : b * 2 ^ m ≤ a * 2 ^ n :=
    calc b * 2 ^ m ≤ 2 ^ (b.log2 + 1) * 2 ^ m := Nat.mul_le_mul_right _ Nat.lt_log2_self.le
      _ = 2 ^ a.log2 * 2 ^ n := by rw [← pow_add,hm,pow_add]
      _ ≤ a * 2 ^ n := Nat.mul_le_mul_right _ (Nat.log2_self_le ha.ne')
  simp only [quotientLog] at h
  split_ifs at h with hle hfits hfits
  · obtain rfl : m = (a.log2 - b.log2 : Int).toNat + n := by omega
    rw [pow_add,← mul_assoc]
    exact Nat.mul_le_mul_right _ hfits
  · exact hbelow (by omega)
  · obtain rfl : n = (-(a.log2 - b.log2 : Int)).toNat + m := by omega
    rw [pow_add,← mul_assoc]
    exact Nat.mul_le_mul_right _ hfits
  · exact hbelow (by omega)

theorem scaled_roundHalfEven (hb : 0 < b) (ha : a ≤ 2 ^ 53) (hs : b * 2 ^ 52 ≤ a * 2 ^ s) :
    roundHalfEven (a * 2 ^ s) b / 2 ^ s = a / b := by
  obtain ⟨hlow,hhigh⟩ := roundHalfEven_bounds (a * 2 ^ s) hb
  have hpow : 0 < 2 ^ s := Nat.two_pow_pos s
  have hdiv : a / b * b + a % b = a := Nat.div_add_mod' a b
  refine Nat.div_eq_of_lt_le ?_ ?_
  · refine ((Nat.le_div_iff_mul_le hb).2 ?_).trans hlow
    calc a / b * 2 ^ s * b = a / b * b * 2 ^ s := Nat.mul_right_comm _ _ _
      _ ≤ a * 2 ^ s := Nat.mul_le_mul_right _ (Nat.div_mul_le_self a b)
  · by_contra hnot
    obtain ⟨d,hd⟩ : ∃ d, (a / b + 1) * b = a + (d + 1) :=
      ⟨b - a % b - 1,by have := Nat.mod_lt a hb; rw [Nat.succ_mul]; omega⟩
    have hmul : (a + (d + 1)) * 2 ^ s ≤ roundHalfEven (a * 2 ^ s) b * b := by
      rw [← hd,Nat.mul_right_comm]
      exact Nat.mul_le_mul_right b (not_lt.1 hnot)
    have hle : a * 2 ^ s ≤ 2 ^ 53 * 2 ^ s := Nat.mul_le_mul_right _ ha
    rw [add_mul,Nat.succ_mul] at hmul
    -- half a unit is at least `1 / b` only where `b` is even and `a` the largest number
    have hd0 : d * 2 ^ s = 0 := by omega
    have hmax : 2 ^ 53 * 2 ^ s ≤ a * 2 ^ s := by omega
    have hbig : 2 ^ 53 ≤ a := Nat.le_of_mul_le_mul_right hmax hpow
    have hodd : (a / b + 1) * b = 2 ^ 53 + 1 := by
      have : d = 0 := (Nat.mul_eq_zero.1 hd0).resolve_right hpow.ne'
      omega
    have heven : b = 2 * 2 ^ s := by omega
    rw [heven,Nat.mul_left_comm] at hodd
    omega

theorem roundedQuotient_eq (hb : 0 < b) (ha : a ≤ 2 ^ 53) : roundedQuotient a b = a / b := by
  simp only [roundedQuotient]
  split_ifs with hzero hlog
  · rw [hzero,Nat.zero_div]
  · obtain ⟨e,he⟩ := Int.eq_ofNat_of_zero_le hlog
    have hlow : b * 2 ^ (e + 52) ≤ a * 2 ^ 0 := mul_two_pow_le (Nat.pos_of_ne_zero hzero) (by omega)
    have hpos : 0 < b * 2 ^ e := Nat.mul_pos hb (Nat.two_pow_pos e)
    rw [pow_add,← mul_assoc,pow_zero,mul_one] at hlow
    rw [he,Int.toNat_natCast]
    obtain ⟨c,rfl⟩ : b * 2 ^ e ∣ a := by
      obtain hunit | hunit : b * 2 ^ e = 1 ∨ b * 2 ^ e = 2 := by omega
      · rw [hunit]
        exact one_dvd a
      · rw [hunit]
        omega
    rw [roundHalfEven_of_dvd (dvd_mul_right _ c) hpos,Nat.mul_div_cancel_left c hpos,mul_assoc,
      Nat.mul_div_cancel_left _ hb,mul_comm]
  · obtain ⟨s,hs⟩ := Int.eq_ofNat_of_zero_le (show 0 ≤ -(quotientLog a b - 52) by omega)
    rw [hs,Int.toNat_natCast]
    exact scaled_roundHalfEven hb ha (mul_two_pow_le (Nat.pos_of_ne_zero hzero) (by omega))

theorem quotient_eq {a b : Int} (hb : b ≠ 0) (ha : a.natAbs ≤ 2 ^ 53) :
    quotient a b = .ok (a.tdiv b) := by
  have hbound : ¬2 ^ 1024 ≤ a.natAbs / b.natAbs := by
    have hself := Nat.div_le_self a.natAbs b.natAbs
    have hpow (n : Nat) (hn : 53 < n) : 2 ^ 53 < 2 ^ n := Nat.pow_lt_pow_right Nat.one_lt_two hn
    exact not_le.2 ((hself.trans ha).trans_lt (hpow 1024 (by decide)))
  simp only [quotient,if_neg hb,roundedQuotient_eq (Int.natAbs_pos.2 hb) ha,if_neg hbound]
  congr 1
  cases a with
  | ofNat n =>
    cases b with
    | ofNat m => exact if_pos (propext (iff_of_false (Int.not_ofNat_neg n) (Int.not_ofNat_neg m)))
    | negSucc m => exact if_neg (by simp)
  | negSucc n =>
    cases b with
    | ofNat m => exact if_neg (by simp)
    | negSucc m => exact if_pos (by simp)

end

theorem division_exact (memory : Nat) {u v : BitVec 64} (hv : v ≠ 0) (hu : u.toInt.natAbs ≤ 2 ^ 53) :
    (BinOp.div.apply memory u.toNat v.toNat = .ok (wrap (u.toInt.tdiv v.toInt)) ∧
      BinOp.mod.apply memory u.toNat v.toNat = .ok (wrap (u.toInt.tmod v.toInt)) ∧
      (u.toInt.tmod v.toInt).natAbs < v.toInt.natAbs ∧ 0 ≤ u.toInt.tmod v.toInt * u.toInt) ∧
    BinOp.div.apply memory (2 ^ 53 + 1) 1 = .ok (2 ^ 53) ∧
      BinOp.mod.apply memory (2 ^ 53 + 1) 1 = .ok 1 := by
  have hnext : quotient (signed (2 ^ 53 + 1)) (signed 1) = .ok (2 ^ 53) := by decide +kernel
  have hv' : v.toInt ≠ 0 := by
    rwa [Ne,← BitVec.toInt_zero,BitVec.toInt_inj]
  simp only [BinOp.apply,signed_toNat,quotient_eq hv' hu,hnext]
  refine ⟨⟨rfl,?_,?_,?_⟩,rfl,rfl⟩
  · rw [Int.tmod_def]
    rfl
  · rw [Int.natAbs_tmod]
    exact Nat.mod_lt _ (Int.natAbs_pos.2 hv')
  · obtain hsign | hsign := le_total 0 u.toInt
    · exact Int.mul_nonneg (Int.tmod_nonneg _ hsign) hsign
    · have hneg : 0 ≤ -u.toInt := Int.neg_nonneg_of_nonpos hsign
      rw [← Int.neg_mul_neg,← Int.neg_tmod]
      exact Int.mul_nonneg (Int.tmod_nonneg _ hneg) hneg

theorem division_exact_lowest :
    BinOp.div.apply (2 ^ 32) (2 ^ 64 - 2 ^ 53) 3 = .ok (2 ^ 64 - 3002399751580330) ∧
      BinOp.mod.apply (2 ^ 32) (2 ^ 64 - 2 ^ 53) 3 = .ok (2 ^ 64 - 2) := by
  obtain ⟨⟨hdiv,hmod,-⟩,-⟩ :=
    division_exact (2 ^ 32) (u := BitVec.ofInt 64 (-2 ^ 53)) (v := 3) (by decide) (by decide)
  exact ⟨hdiv,hmod⟩

end BxToolchain.Tac
