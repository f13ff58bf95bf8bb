import BxToolchain.Proofs.Bx.Emitted
import BxToolchain.Proofs.Bx.Reachability
import BxToolchain.Proofs.Bx.Registers

namespace BxToolchain.Bx

open Lower

variable {α β : Type} {names : Declared} {σ : Surroundings} {k k' : Counters} {v : Datum}
  {code c : List Instr} {n : Node} {τ τ' : Store} {pc pc' limit no yes : Nat}

def Kept (limit : Nat) (τ τ' : Store) : Prop := ∀ q, Old limit q → τ' q = τ q

theorem Kept.trans (h : Kept limit τ τ') (hm : limit ≤ m) (h' : Kept m τ' τ'') : Kept limit τ τ'' :=
  fun q hq => (h' q (hq.mono hm)).trans (h q hq)

theorem kept_set (t : Nat) (w : Word) : Kept t τ (τ.set (register t) w) :=
  fun _ hq => if_neg hq.ne_register

def Tries (code : List Instr) (pc : Nat) (τ : Store) (P : α → Nat → Store → Prop) :
    Option α → Prop
  | some a => ∃ n pc' τ', Goes code n pc τ pc' τ' ∧ P a pc' τ'
  | none => Halts code pc τ .stuck

namespace Tries

theorem prepend {n} (hgo : Goes code n pc τ pc' τ') (h : Tries code pc' τ' P o) :
    Tries code pc τ P o := by
  cases o with
  | none => exact hgo.halts h
  | some a =>
    obtain ⟨m,pc1,τ1,hm,ha⟩ := h
    exact ⟨n + m,pc1,τ1,hgo.trans hm,ha⟩

theorem bind (h : Tries code pc τ P o)
    (hnext : ∀ a pc' τ', P a pc' τ' → Tries code pc' τ' Q (f a)) :
    Tries code pc τ Q (o.bind f) := by
  cases o with
  | none => exact h
  | some a =>
    obtain ⟨n,pc1,τ1,hgo,ha⟩ := h
    exact (hnext a pc1 τ1 ha).prepend hgo

theorem assign {P o i operation r} (hi : code[pc]? = some i) (ho : i.operation? = some operation)
    (h : ∀ d, Machine.perform code { store := τ, compared := d, pc } operation =
      Machine.assign { store := τ, compared := d, pc } r o)
    (hP : ∀ w, P w (pc + 1) (τ.set r w)) : Tries code pc τ P o := by
  cases o with
  | none => exact halts_one hi ho h
  | some w => exact ⟨1,_,_,goes_assign hi ho h,hP w⟩

end Tries

structure Computes (names : Declared) (σ : Surroundings) (k : Counters) (v : Datum)
    (c : List Instr) (k' : Counters) (value : Scopes → Option Word) : Prop where
  le : k.temps ≤ k'.temps
  tries : ∃ r, v = .str r ∧ Old k'.temps r ∧
    ∀ {code pc τ env}, CodeAt code pc c → Holds τ env names σ.scopes →
      Tries code pc τ (fun w pc' τ' => pc' = pc + c.length ∧ τ' r = some w ∧ Kept k.temps τ τ')
        (value env)

theorem computes_const (n : Int) :
    Computes names σ k k.register [.make "const" [.int n] k.register] k.addTemp
      (fun _ => some (BitVec.ofInt 64 n)) := by
  refine ⟨Nat.le_succ _,register k.temps,rfl,old_register _,fun hcode _ => ?_⟩
  exact .assign hcode.head rfl (fun _ => rfl) fun w => ⟨rfl,if_pos rfl,kept_set _ w⟩

theorem computes_var (ha : Allocated k.temps names σ.scopes) (hx : x ∈ names.flatten) :
    Computes names σ k (σ.registerOf x) [] k (fun env => env.lookup x) := by
  obtain ⟨r,hreg,hold⟩ := ha.lookup hx
  refine ⟨Nat.le_refl _,r,by simp [Surroundings.registerOf,hreg],hold,fun _ hholds => ?_⟩
  obtain ⟨w,hw,hτ⟩ := hholds.lookup ha hx hreg
  rw [hw]
  exact ⟨0,_,_,.refl,rfl,hτ,fun _ _ => rfl⟩

theorem operation?_binaryOpcode (h : arithmetic? op = some o) (a b r : String) :
    Instr.operation? ⟨binaryOpcode op,.list [.str a,.str b],.str r,.opcodeFirst⟩ =
      some (.binary o r a b) := by
  unfold arithmetic? at h
  split at h <;> cases h <;> rfl

theorem operation?_unaryOpcode (h : sign? op = some o) (a r : String) :
    Instr.operation? ⟨unaryOpcode op,.list [.str a],.str r,.opcodeFirst⟩ =
      some (.unary o r a) := by
  unfold sign? at h
  split at h <;> cases h <;> rfl

theorem ExprEmits.computes_integer (h : ExprEmits σ n k v c k')
    (hn : n.isInteger names.flatten = true) (ha : Allocated k.temps names σ.scopes) :
    Computes names σ k v c k' (fun env => n.value? env) := by
  induction n using Node.isInteger.induct generalizing k v c k' with
  | case1 line type x =>
    cases h with
    | var => exact computes_var ha (by simpa [Node.isInteger] using hn)
    | other _ hterm => cases hterm
  | case2 line type value =>
    cases h with
    | number => exact computes_const value
    | other _ hterm => cases hterm
  | case3 line type a b op iha ihb =>
    simp only [Node.isInteger,Bool.and_eq_true,Option.isSome_iff_exists] at hn
    obtain ⟨⟨⟨o,ho⟩,hna⟩,hnb⟩ := hn
    cases h with
    | other _ hterm => cases hterm
    | @binary _ _ _ _ _ _ k1 k2 _ _ c1 c2 hx hy =>
      obtain ⟨hle1,p,rfl,hp,hfirst⟩ := iha hx hna ha
      obtain ⟨hle2,q,rfl,-,hsecond⟩ := ihb hy hnb (ha.mono hle1)
      have hle := Nat.le_trans hle1 hle2
      refine ⟨Nat.le_succ_of_le hle,register k2.temps,rfl,old_register _,
        fun {code pc τ env} hcode hholds => ?_⟩
      have hlast := hcode.right.head
      have hvalue : (Node.binary line type a b op).value? env =
          (a.value? env).bind fun x => (b.value? env).bind fun y => o.onWords x y := by
        simp [Node.value?,ho]
      rw [List.length_append,← Nat.add_assoc] at hlast
      rw [hvalue]
      refine (hfirst hcode.left.left hholds).bind fun x _ τ1 ⟨hpc,hτp,hkept1⟩ => ?_
      subst hpc
      refine (hsecond hcode.left.right (hholds.frame ha hkept1)).bind fun y _ τ2 ⟨hpc,hτq,hkept2⟩ => ?_
      subst hpc
      have hτp' : τ2 p = some x := (hkept2 p hp).trans hτp
      refine .assign hlast (operation?_binaryOpcode ho p q _)
        (fun _ => by simp [Machine.perform,hτp',hτq]) fun w => ⟨?_,if_pos rfl,?_⟩
      · simp [Nat.add_assoc]
      · exact (hkept1.trans hle1 hkept2).trans hle (kept_set _ w)
  | case4 line type a op ih =>
    simp only [Node.isInteger,Bool.and_eq_true,Option.isSome_iff_exists] at hn
    obtain ⟨⟨o,ho⟩,hna⟩ := hn
    cases h with
    | other _ hterm => cases hterm
    | @unary _ _ _ _ _ k1 _ c1 hx =>
      obtain ⟨hle,p,rfl,-,hfirst⟩ := ih hx hna ha
      refine ⟨Nat.le_succ_of_le hle,register k1.temps,rfl,old_register _,
        fun {code pc τ env} hcode hholds => ?_⟩
      have hvalue : (Node.unary line type a op).value? env =
          (a.value? env).bind fun x => some (o.onWords x) := by
        simp [Node.value?,ho]
      rw [hvalue]
      refine (hfirst hcode.left hholds).bind fun x _ τ1 ⟨hpc,hτp,hkept⟩ => ?_
      subst hpc
      refine .assign hcode.right.head (operation?_unaryOpcode ho p _)
        (fun _ => by simp [Machine.perform,hτp]) fun w => ⟨?_,if_pos rfl,?_⟩
      · simp [Nat.add_assoc]
      · exact hkept.trans hle (kept_set _ w)
  | case5 n h1 h2 h3 h4 => simp [Node.isInteger] at hn

theorem ExprEmits.computes (h : ExprEmits σ n k v c k') (hn : n.isValue names.flatten = true)
    (ha : Allocated k.temps names σ.scopes) :
    Computes names σ k v c k' (fun env => n.value? env) := by
  unfold Node.isValue at hn
  split at hn
  · cases h with
    | boolean =>
      unfold truth? at hn
      split at hn
      · exact computes_const 1
      · exact computes_const 0
      · cases hn
    | other _ hterm => cases hterm
  · exact h.computes_integer hn ha

def labelName (n : Nat) : String := (label n).display

structure Branches (names : Declared) (σ : Surroundings) (yes no : Nat) (k : Counters)
    (c : List Instr) (k' : Counters) (holds : Scopes → Option Bool) : Prop where
  le : k.temps ≤ k'.temps
  tries : ∀ {code pc τ env p q}, CodeAt code pc c → Holds τ env names σ.scopes →
    labelIndex code (labelName yes) = some p → labelIndex code (labelName no) = some q →
    Tries code pc τ (fun b pc' τ' => pc' = (if b then p else q) ∧ Kept k.temps τ τ') (holds env)

theorem comparisonJump?_of_comparison? {compare} (h : comparison? op = some compare) :
    ∃ jump, comparisonJump? op = some jump ∧
      ∀ l, (branchTo jump l).operation? = some (.branch compare (labelName l)) := by
  unfold comparison? at h
  split at h <;> cases h <;> exact ⟨_,rfl,fun _ => rfl⟩

theorem tries_comparison {compare jump x y yes no p q u w}
    (hjump : ∀ l, (branchTo jump l).operation? = some (.branch compare (labelName l)))
    (hcode : CodeAt code pc [.act "cmpq" [.str x,.str y],branchTo jump yes,jumpTo no])
    (hx : τ x = some u) (hy : τ y = some w) (hp : labelIndex code (labelName yes) = some p)
    (hq : labelIndex code (labelName no) = some q) (hkept : Kept limit τ' τ) :
    Tries code pc τ (fun b pc' τ'' => pc' = (if b then p else q) ∧ Kept limit τ' τ'')
      (some (compare.holds u w)) := by
  obtain ⟨n,hgo⟩ := goes_branch hcode.head rfl hcode.tail.head (hjump yes) hcode.tail.tail.head rfl
    hx hy hp hq
  exact ⟨n,_,τ,hgo,rfl,hkept⟩

theorem branches_jump (b : Bool) (hl : l = if b then yes else no) :
    Branches names σ yes no k [jumpTo l] k (fun _ => some b) := by
  refine ⟨Nat.le_refl _,fun {code pc τ env p q} hcode _ hp hq => ⟨1,_,τ,
    goes_jump hcode.head rfl ?_,rfl,fun _ _ => rfl⟩⟩
  change labelIndex code (labelName l) = _
  cases b <;> simp_all

theorem branches_var (ha : Allocated k.temps names σ.scopes) (hx : x ∈ names.flatten) :
    Branches names σ yes no k [.make "const" [.int 0] k.register,
      .act "cmpq" [k.register,σ.registerOf x],branchTo "jnz" yes,jumpTo no] k.addTemp
      (fun env => (env.lookup x).map (· != 0)) := by
  obtain ⟨r,hreg,hold⟩ := ha.lookup hx
  have hregister : σ.registerOf x = .str r := by simp [Surroundings.registerOf,hreg]
  rw [hregister]
  refine ⟨Nat.le_succ _,fun {code pc τ env p q} hcode hholds hp hq => ?_⟩
  obtain ⟨w,hw,hτ⟩ := hholds.lookup ha hx hreg
  have hzero : Goes code 1 pc τ (pc + 1) (τ.set (register k.temps) 0) :=
    goes_assign hcode.head rfl fun _ => rfl
  have hholds : Comparison.notEqual.holds 0 w = (w != 0) := by
    simp [Comparison.holds,bne,Bool.beq_comm]
  rw [hw,Option.map_some,← hholds]
  exact (tries_comparison (fun _ => rfl) hcode.tail (if_pos rfl)
    ((kept_set k.temps 0 r hold).trans hτ) hp hq (kept_set _ 0)).prepend hzero

theorem Branches.swap (h : Branches names σ no yes k c k' holds) :
    Branches names σ yes no k c k' (fun env => (holds env).map not) := by
  refine ⟨h.le,fun {code pc τ env p q} hcode hholds hp hq => ?_⟩
  rw [Option.map_eq_bind]
  refine (h.tries hcode hholds hq hp).bind fun b pc' τ' ⟨hpc,hkept⟩ => ⟨0,_,_,.refl,?_,hkept⟩
  cases b <;> exact hpc

theorem CondEmits.branches (h : CondEmits σ n yes no k c k')
    (hn : n.isCondition names.flatten = true) (ha : Allocated k.temps names σ.scopes) :
    Branches names σ yes no k c k' (fun env => n.holds? env) := by
  induction h with
  | @isTrue line type value yes no k htrue =>
    simp only [Node.isCondition] at hn
    unfold truth? at hn
    split at hn
    · exact branches_jump true rfl
    · cases htrue
    · cases hn
  | @isFalse line type value yes no k hfalse =>
    simp only [Node.isCondition] at hn
    unfold truth? at hn
    split at hn
    · cases hfalse
    · exact branches_jump false rfl
    · cases hn
  | var line type x yes no k => exact branches_var ha (by simpa [Node.isCondition] using hn)
  | @comparison line type op jump yes no a b k k1 k2 _ _ c1 c2 hjump hx hy =>
    simp only [Node.isCondition,Bool.and_eq_true,Option.isSome_iff_exists] at hn
    obtain ⟨⟨⟨compare,hcompare⟩,hna⟩,hnb⟩ := hn
    obtain ⟨_,hjump',hoperation⟩ := comparisonJump?_of_comparison? hcompare
    cases hjump.symm.trans hjump'
    obtain ⟨hle1,p,rfl,hp,hfirst⟩ := hx.computes_integer hna ha
    obtain ⟨hle2,q,rfl,-,hsecond⟩ := hy.computes_integer hnb (ha.mono hle1)
    refine ⟨Nat.le_trans hle1 hle2,fun {code pc τ env _ _} hcode hholds hyes hno => ?_⟩
    have hlast := hcode.right
    have hholds? : (Node.binary line type a b op).holds? env = (a.value? env).bind fun x =>
        (b.value? env).bind fun y => some (compare.holds x y) := by
      unfold comparison? at hcompare
      split at hcompare <;> cases hcompare <;> rfl
    rw [List.length_append,← Nat.add_assoc] at hlast
    rw [hholds?]
    refine (hfirst hcode.left.left hholds).bind fun x _ τ1 ⟨hpc,hτp,hkept1⟩ => ?_
    subst hpc
    refine (hsecond hcode.left.right (hholds.frame ha hkept1)).bind fun y _ τ2 ⟨hpc,hτq,hkept2⟩ => ?_
    subst hpc
    exact tries_comparison hoperation hlast ((hkept2 p hp).trans hτp) hτq hyes hno
      (hkept1.trans hle1 hkept2)
  | and | or => simp [Node.isCondition,comparison?] at hn
  | not line type h ih =>
    simp only [Node.isCondition,Bool.and_eq_true] at hn
    exact (ih hn.2 ha).swap
  | @other n yes no k htest hcall =>
    unfold Node.isCondition at hn
    split at hn
    · cases htest
    · rename_i value
      unfold truth? at hn
      split at hn
      · cases htest
      · cases htest
      · cases hn
    · rename_i op
      simp only [Bool.and_eq_true,Option.isSome_iff_exists] at hn
      obtain ⟨⟨⟨compare,hcompare⟩,-⟩,-⟩ := hn
      obtain ⟨jump,hjump,-⟩ := comparisonJump?_of_comparison? hcompare
      simp [Node.isTest,hjump] at htest
    · simp only [Bool.and_eq_true] at hn
      simp [Node.isTest,hn.1] at htest
    · cases hn

end BxToolchain.Bx
