import BxToolchain.Proofs.Bx.Machine

namespace BxToolchain.Bx

variable {m m' : Machine} {n fuel pc : Nat} {v : Option Word} {l : String} {i : Instr}

namespace Machine

def Reach (code : List Instr) : Nat → Machine → Machine → Prop
  | 0, m, m' => m = m'
  | n + 1, m, m' => ∃ next, m.step code = .running next ∧ Reach code n next m'

variable {code : List Instr}

theorem Reach.trans (h : Reach code a m m') (h' : Reach code b m' m'') :
    Reach code (a + b) m m'' := by
  induction a generalizing m with
  | zero =>
    cases h
    rwa [Nat.zero_add]
  | succ a ih =>
    obtain ⟨next,hstep,hreach⟩ := h
    rw [Nat.succ_add]
    exact ⟨next,hstep,ih hreach⟩

theorem run_of_reach (h : Reach code n m m') : run code (n + k) m = run code k m' := by
  induction n generalizing m with
  | zero =>
    cases h
    rw [Nat.zero_add]
  | succ n ih =>
    obtain ⟨next,hstep,hreach⟩ := h
    rw [Nat.succ_add,run,hstep]
    exact ih hreach

theorem run_reach_none (h : Reach code n m m') (hf : fuel ≤ n) : run code fuel m = none := by
  induction n generalizing m fuel with
  | zero =>
    cases Nat.le_zero.1 hf
    rfl
  | succ n ih =>
    obtain ⟨next,hstep,hreach⟩ := h
    cases fuel with
    | zero => rfl
    | succ fuel =>
      rw [run,hstep]
      exact ih hreach (Nat.le_of_succ_le_succ hf)

end Machine

def Goes (code : List Instr) (n pc : Nat) (σ : Store) (pc' : Nat) (σ' : Store) : Prop :=
  ∀ c, ∃ c', Machine.Reach code n { store := σ, compared := c, pc }
    { store := σ', compared := c', pc := pc' }

def Halts (code : List Instr) (pc : Nat) (σ : Store) (p : Progress) : Prop :=
  ∀ c, ∃ n m, Machine.Reach code n { store := σ, compared := c, pc } m ∧ m.step code = p

section

variable {code : List Instr} {pc pc' pc'' a b : Nat} {σ σ' σ'' : Store} {p : Progress}

theorem Goes.refl : Goes code 0 pc σ pc σ := fun c => ⟨c,rfl⟩

theorem Goes.trans (h : Goes code a pc σ pc' σ') (h' : Goes code b pc' σ' pc'' σ'') :
    Goes code (a + b) pc σ pc'' σ'' := by
  intro c
  obtain ⟨c',hc⟩ := h c
  obtain ⟨c'',hc'⟩ := h' c'
  exact ⟨c'',hc.trans hc'⟩

theorem Goes.halts (h : Goes code a pc σ pc' σ') (h' : Halts code pc' σ' p) :
    Halts code pc σ p := by
  intro c
  obtain ⟨c',hc⟩ := h c
  obtain ⟨n,m,hn,hm⟩ := h' c'
  exact ⟨a + n,m,hc.trans hn,hm⟩

theorem Halts.run_returned (h : Halts code pc σ (.returned v)) :
    ∃ fuel, Machine.run code fuel { store := σ, pc } = some v := by
  obtain ⟨n,m,hn,hm⟩ := h none
  refine ⟨n + 1,?_⟩
  rw [Machine.run_of_reach hn,Machine.run,hm]

theorem Halts.run_eq (h : Halts code pc σ p)
    (hrun : Machine.run code fuel { store := σ, pc } = some v) (hp : ∀ m, p ≠ .running m) :
    p = .returned v := by
  obtain ⟨n,m,hn,hm⟩ := h none
  rcases Nat.lt_or_ge n fuel with hlt | hle
  · obtain ⟨k,rfl⟩ := Nat.exists_eq_add_of_lt hlt
    rw [Nat.add_assoc,Machine.run_of_reach hn,Machine.run,hm] at hrun
    cases p with
    | running m => exact absurd rfl (hp m)
    | returned u =>
      simp only [Option.some.injEq] at hrun
      rw [hrun]
    | stuck => simp at hrun
  · rw [Machine.run_reach_none hn hle] at hrun
    exact absurd hrun (by simp)

theorem Goes.run_none (h : Goes code n pc σ pc' σ') (hf : fuel ≤ n) :
    Machine.run code fuel { store := σ, pc } = none := by
  obtain ⟨c',hc⟩ := h none
  exact Machine.run_reach_none hc hf

end

section

variable {code : List Instr} {pc pc' : Nat} {σ σ' : Store} {i : Instr} {o : Operation}

theorem Machine.step_eq (hi : code[m.pc]? = some i) (ho : i.operation? = some o) :
    m.step code = m.perform code o := by
  simp only [step,hi,ho]

section

variable (hi : code[pc]? = some i) (ho : i.operation? = some o)
include hi ho

theorem goes_one
    (h : ∀ c, ∃ c', Machine.perform code { store := σ, compared := c, pc } o =
      .running { store := σ', compared := c', pc := pc' }) : Goes code 1 pc σ pc' σ' := by
  intro c
  obtain ⟨c',hc⟩ := h c
  exact ⟨c',_,(Machine.step_eq hi ho).trans hc,rfl⟩

theorem goes_assign {r : String} {v : Word}
    (h : ∀ c, Machine.perform code { store := σ, compared := c, pc } o =
      Machine.assign { store := σ, compared := c, pc } r (some v)) :
    Goes code 1 pc σ (pc + 1) (σ.set r v) :=
  goes_one hi ho fun c => ⟨none,h c⟩

theorem halts_one (h : ∀ c, Machine.perform code { store := σ, compared := c, pc } o = p) :
    Halts code pc σ p :=
  fun c => ⟨0,_,rfl,(Machine.step_eq hi ho).trans (h c)⟩

end

theorem goes_label (hi : code[pc]? = some i) (ho : i.operation? = some (.label l)) :
    Goes code 1 pc σ (pc + 1) σ :=
  goes_one hi ho fun _ => ⟨none,rfl⟩

theorem goes_jump (hi : code[pc]? = some i) (ho : i.operation? = some (.jump l))
    (hl : labelIndex code l = some pc') : Goes code 1 pc σ pc' σ :=
  goes_one hi ho fun c => ⟨none,by simp [Machine.perform,Machine.goto,hl]⟩

theorem goes_test {a b l u v c j p} (hi : code[pc]? = some i)
    (ho : i.operation? = some (.compare a b)) (hj : code[pc + 1]? = some j)
    (hjo : j.operation? = some (.branch c l)) (ha : σ a = some u) (hb : σ b = some v)
    (hl : labelIndex code l = some p) :
    Goes code 2 pc σ (if c.holds u v then p else pc + 2) σ := by
  have hcompare : ∀ d, Machine.step code { store := σ, compared := d, pc } =
      .running { store := σ, compared := some (u,v), pc := pc + 1 } := by
    intro d
    rw [Machine.step_eq hi ho]
    simp [Machine.perform,ha,hb]
  have hbranch : Machine.step code { store := σ, compared := some (u,v), pc := pc + 1 } =
      .running { store := σ, pc := if c.holds u v then p else pc + 2 } := by
    rw [Machine.step_eq hj hjo]
    simp only [Machine.perform,Machine.goto,Machine.next,hl]
    split <;> rfl
  exact fun d => ⟨none,_,hcompare d,_,hbranch,rfl⟩

theorem goes_branch {a b yes no u v c j k p q}
    (hi : code[pc]? = some i) (ho : i.operation? = some (.compare a b))
    (hj : code[pc + 1]? = some j) (hjo : j.operation? = some (.branch c yes))
    (hk : code[pc + 2]? = some k) (hko : k.operation? = some (.jump no))
    (ha : σ a = some u) (hb : σ b = some v)
    (hyes : labelIndex code yes = some p) (hno : labelIndex code no = some q) :
    ∃ n, Goes code n pc σ (if c.holds u v then p else q) σ := by
  have htest := goes_test hi ho hj hjo ha hb hyes
  by_cases hc : c.holds u v
  · rw [if_pos hc] at htest ⊢
    exact ⟨2,htest⟩
  · rw [if_neg hc] at htest ⊢
    exact ⟨2 + 1,htest.trans (goes_jump hk hko hno)⟩

end

def CodeAt (code : List Instr) (pc : Nat) (part : List Instr) : Prop :=
  ∃ before after, code = before ++ part ++ after ∧ before.length = pc

section

variable {code part first second : List Instr} {i : Instr} {pc : Nat}

theorem CodeAt.left (h : CodeAt code pc (first ++ second)) : CodeAt code pc first := by
  obtain ⟨before,after,rfl,hpc⟩ := h
  exact ⟨before,second ++ after,by simp,hpc⟩

theorem CodeAt.right (h : CodeAt code pc (first ++ second)) :
    CodeAt code (pc + first.length) second := by
  obtain ⟨before,after,rfl,hpc⟩ := h
  exact ⟨before ++ first,after,by simp,by simp [hpc]⟩

theorem CodeAt.tail (h : CodeAt code pc (i :: part)) : CodeAt code (pc + 1) part :=
  @CodeAt.right code [i] part pc h

theorem CodeAt.head (h : CodeAt code pc (i :: part)) : code[pc]? = some i := by
  obtain ⟨before,after,rfl,hpc⟩ := h
  simp [← hpc]

theorem codeAt_self : CodeAt code 0 code := ⟨[],[],by simp,rfl⟩

end

end BxToolchain.Bx
