import BxToolchain.Proofs.X64.Listing

namespace BxToolchain.Bx

open X64 (Line Location)

variable {x y r : String} {v : Word}

def locationAt (frame : Word) (names : List String) (x : String) : Location :=
  if isGlobalName x then .global (String.ofList x.toList.tail)
  else .stack (frame.toNat + -8 * ((names.idxOf x : Int) + 1))

theorem eq_of_isGlobalName (h : isGlobalName x = true) :
    "@" ++ String.ofList x.toList.tail = x := by
  obtain ⟨rest,hrest⟩ := List.head?_eq_some_iff.1 (of_decide_eq_true h)
  rw [← String.toList_inj,hrest]
  simp

theorem locationAt_injective (hx : Placed names x)
    (h : locationAt frame names x = locationAt frame names y) : x = y := by
  unfold locationAt at h
  by_cases hgx : isGlobalName x = true
  · by_cases hgy : isGlobalName y = true
    · rw [if_pos hgx,if_pos hgy] at h
      rw [← eq_of_isGlobalName hgx,Location.global.inj h,eq_of_isGlobalName hgy]
    · rw [if_pos hgx,if_neg hgy] at h
      cases h
  · by_cases hgy : isGlobalName y = true
    · rw [if_neg hgx,if_pos hgy] at h
      cases h
    · rw [if_neg hgx,if_neg hgy] at h
      have hindex := Location.stack.inj h
      exact (List.idxOf_inj (hx.resolve_left hgx)).1 (by omega)

theorem locationAt_ne_frame (frame : Word) (names : List String) (x : String) :
    locationAt frame names x ≠ .stack frame.toNat := by
  unfold locationAt
  split
  · simp
  · simp only [ne_eq,Location.stack.injEq]
    omega

section Access

open X64.State

variable {frame : Word} {names : List String} {s : X64.State}

attribute [local grind] perform

@[simp] theorem registers_setRegister (s : X64.State) (q r : X64.Register) (v : Word) :
    (s.setRegister r v).registers q = if q = r then v else s.registers q := rfl

@[simp] theorem memory_setMemory (s : X64.State) (k l : Location) (v : Word) :
    (s.setMemory l v).memory k = if k = l then v else s.memory k := rfl

theorem isImmediate_operandAt (x : String) : (operandAt names x).isImmediate = false := by
  unfold operandAt
  split <;> rfl

theorem wide_extend (s : X64.State) :
    (s.setRegister .rdx (if (s.registers .rax).msb then BitVec.allOnes 64 else 0)).wide =
      (s.registers .rax).toInt := by
  rw [wide,BitVec.toInt_eq_msb_cond (s.registers .rax)]
  simp only [registers_setRegister,if_true,reduceCtorEq,if_false]
  split
  · rw [BitVec.toInt_allOnes]
    omega
  · simp

variable (h : s.registers .rbp = frame)
include h

theorem read_operandAt (x : String) :
    s.read (operandAt names x) = s.memory (locationAt frame names x) := by
  unfold operandAt locationAt
  split
  · rfl
  · rw [← h]
    rfl

theorem write_operandAt (x : String) (v : Word) :
    s.write v (operandAt names x) = some (s.setMemory (locationAt frame names x) v) := by
  unfold operandAt locationAt
  split
  · rfl
  · rw [← h]
    rfl

theorem perform_load (x : String) (r : X64.Register) :
    s.perform (.move (operandAt names x) (.register r)) =
      some (s.setRegister r (s.memory (locationAt frame names x))) := by
  rw [perform,read_operandAt h]
  simp [X64.Operand.isMemory,write]

theorem perform_store (x : String) (r : X64.Register) :
    s.perform (.move (.register r) (operandAt names x)) =
      some (s.setMemory (locationAt frame names x) (s.registers r)) := by
  rw [perform,write_operandAt h]
  simp [X64.Operand.isMemory,X64.State.read]

theorem perform_arithmetic (f : X64.Arithmetic) (y : String) (q : X64.Register) :
    s.perform (.arithmetic f (operandAt names y) (.register q)) =
      some (({ s with flags := none } : X64.State).setRegister q
        (f.onWords (s.registers q) (s.memory (locationAt frame names y)))) := by
  rw [perform,read_operandAt h]
  simp [X64.Operand.isMemory,X64.State.read,write]

theorem perform_multiply (y : String) :
    s.perform (.multiply (operandAt names y)) =
      some (({ s with flags := none } : X64.State).setWide
        ((s.registers .rax).toInt * (s.memory (locationAt frame names y)).toInt)
        ((s.registers .rax).toInt * (s.memory (locationAt frame names y)).toInt / 2 ^ 64)) := by
  rw [perform,read_operandAt h,isImmediate_operandAt]
  rfl

theorem perform_divide (y : String) (ha : s.wide = a.toInt)
    (hb : s.memory (locationAt frame names y) = b) (hzero : b ≠ 0)
    (hword : a ≠ BitVec.intMin 64 ∨ b ≠ -1) :
    s.perform (.divide (operandAt names y)) =
      some ((({ s with flags := none } : X64.State).setRegister .rax (a.sdiv b)).setRegister .rdx
        (a.srem b)) := by
  have hquotient := BitVec.toInt_sdiv_of_ne_or_ne a b hword
  have hlow := BitVec.le_toInt (a.sdiv b)
  have hhigh := BitVec.toInt_lt (x := a.sdiv b)
  rw [perform,read_operandAt h,isImmediate_operandAt,hb,ha,← hquotient,← BitVec.toInt_srem,
    if_neg (by simpa using ⟨⟨hzero,hlow⟩,hhigh⟩),setWide,BitVec.ofInt_toInt,BitVec.ofInt_toInt]

theorem perform_compare (q : X64.Register) (x : String) :
    s.perform (.compare (.register q) (operandAt names x)) =
      some { s with flags := some (.ofDifference (s.memory (locationAt frame names x))
        (s.registers q)) } := by
  rw [perform,read_operandAt h,isImmediate_operandAt]
  rfl

end Access

structure Scratch (s s' : X64.State) : Prop where
  memory : s'.memory = s.memory
  base : s'.registers .rbp = s.registers .rbp

section Effects

open X64.State Operation

variable {frame : Word} {names : List String} {s : X64.State} {x r : String}

attribute [local grind] perform Operation.lines

theorem performAll_nil : s.performAll [] = some s := rfl

theorem performAll_cons (line : Line) (rest : List Line) :
    s.performAll (line :: rest) = (s.perform line).bind fun s => s.performAll rest := rfl

theorem performAll_append (lines rest : List Line) :
    s.performAll (lines ++ rest) = (s.performAll lines).bind fun s => s.performAll rest := by
  rw [performAll,List.foldlM_append]
  rfl

def Assigns (frame : Word) (names : List String) (s : X64.State) (lines : List Line) (r : String)
    (v : Word) : Prop :=
  ∃ s', Scratch s s' ∧ s.performAll lines = some (s'.setMemory (locationAt frame names r) v)

theorem divides_of_onWords {f : Word → Word → Word}
    (h : (if b = 0 ∨ a = BitVec.intMin 64 ∧ b = -1 then none else some (f a b)) = some v) :
    b ≠ 0 ∧ (a ≠ BitVec.intMin 64 ∨ b ≠ -1) ∧ f a b = v := by
  split at h
  · cases h
  · rename_i hcases
    rw [not_or,not_and_or] at hcases
    exact ⟨hcases.1,hcases.2,Option.some.inj h⟩

variable (h : s.registers .rbp = frame)
include h

theorem assigns_const {procedure} (n : Int) :
    Assigns frame names s ((Operation.const r n).lines (operandAt names) procedure) r
      (BitVec.ofInt 64 n) := by
  refine ⟨s,⟨rfl,rfl⟩,?_⟩
  rw [Operation.lines,performAll_cons,perform,write_operandAt h]
  rfl

theorem assigns_copy {procedure} :
    Assigns frame names s ((Operation.copy r x).lines (operandAt names) procedure) r
      (s.memory (locationAt frame names x)) := by
  unfold Assigns Operation.lines r11
  rw [performAll_cons,perform_load h,Option.bind_some,performAll_cons,perform_store (by exact h)]
  refine ⟨_,?_,rfl⟩
  exact ⟨rfl,rfl⟩

theorem assigns_unary {procedure} (op : Tac.UnOp) :
    Assigns frame names s ((Operation.unary op r x).lines (operandAt names) procedure) r
      (op.onWords (s.memory (locationAt frame names x))) := by
  unfold Assigns Operation.lines r11
  rw [performAll_cons,perform_load h,Option.bind_some,performAll_cons,perform,write,
    Option.bind_some,performAll_cons,perform_store (by exact h)]
  refine ⟨_,?_,rfl⟩
  exact ⟨rfl,rfl⟩

theorem assigns_arithmetic (f : X64.Arithmetic) :
    Assigns frame names s [.move (operandAt names x) r11,.arithmetic f (operandAt names y) r11,
      .move r11 (operandAt names r)] r
      (f.onWords (s.memory (locationAt frame names x)) (s.memory (locationAt frame names y))) := by
  unfold Assigns r11
  rw [performAll_cons,perform_load h,Option.bind_some,performAll_cons,
    perform_arithmetic (by exact h),Option.bind_some,performAll_cons,perform_store (by exact h)]
  refine ⟨_,?_,rfl⟩
  exact ⟨rfl,rfl⟩

theorem assigns_shift (f : X64.Shift) :
    Assigns frame names s [.move (operandAt names x) r11,.move (operandAt names y) rcx,
      .shift f r11,.move r11 (operandAt names r)] r
      (f.onWords (s.memory (locationAt frame names x)) (s.memory (locationAt frame names y))) := by
  unfold Assigns r11 rcx
  rw [performAll_cons,perform_load h,Option.bind_some,performAll_cons,perform_load (by exact h),
    Option.bind_some,performAll_cons,perform,write,Option.bind_some,performAll_cons,
    perform_store (by exact h)]
  refine ⟨_,?_,rfl⟩
  exact ⟨rfl,rfl⟩

theorem assigns_multiply :
    Assigns frame names s [.move (operandAt names x) rax,.multiply (operandAt names y),
      .move rax (operandAt names r)] r
      (s.memory (locationAt frame names x) * s.memory (locationAt frame names y)) := by
  have hproduct : ∀ a b : Word, BitVec.ofInt 64 (a.toInt * b.toInt) = a * b := by
    intro a b
    rw [BitVec.ofInt_mul,BitVec.ofInt_toInt,BitVec.ofInt_toInt]
  unfold Assigns rax
  rw [performAll_cons,perform_load h,Option.bind_some,performAll_cons,
    perform_multiply (by exact h),Option.bind_some,performAll_cons,perform_store (by exact h),
    ← hproduct]
  refine ⟨_,?_,rfl⟩
  exact ⟨rfl,rfl⟩

theorem performAll_divide (ha : s.memory (locationAt frame names x) = a)
    (hb : s.memory (locationAt frame names y) = b) (hb' : b ≠ 0)
    (hword : a ≠ BitVec.intMin 64 ∨ b ≠ -1) :
    ∃ s', Scratch s s' ∧
      s.performAll [.move (operandAt names x) rax,.extend,.divide (operandAt names y)] = some s' ∧
      s'.registers .rax = a.sdiv b ∧ s'.registers .rdx = a.srem b := by
  have hwide := wide_extend (s.setRegister .rax a)
  rw [registers_setRegister,if_pos rfl] at hwide
  rw [performAll_cons,rax,perform_load h,ha,Option.bind_some,performAll_cons,perform,
    Option.bind_some,performAll_cons,registers_setRegister,if_pos rfl,
    perform_divide (by exact h) y hwide hb hb' hword]
  refine ⟨_,?_,rfl,rfl,rfl⟩
  exact ⟨rfl,rfl⟩

theorem assigns_of_register {s' lines q} (hs' : Scratch s s')
    (hlines : s.performAll lines = some s') (hq : s'.registers q = v) :
    Assigns frame names s (lines ++ [.move (.register q) (operandAt names r)]) r v := by
  refine ⟨s',hs',?_⟩
  rw [performAll_append,hlines,Option.bind_some,performAll_cons,
    perform_store (hs'.base.trans h),hq]
  rfl

theorem assigns_binary {procedure}
    (hv : op.onWords (s.memory (locationAt frame names x)) (s.memory (locationAt frame names y)) =
      some v) :
    Assigns frame names s ((Operation.binary op r x y).lines (operandAt names) procedure) r v := by
  cases op with
  | add | sub | and | or | xor =>
    cases hv
    exact assigns_arithmetic h _
  | mul =>
    cases hv
    exact assigns_multiply h
  | shl | shr =>
    cases hv
    exact assigns_shift h _
  | div =>
    obtain ⟨hzero,hword,rfl⟩ := divides_of_onWords hv
    obtain ⟨s',hs',hlines,hrax,-⟩ := performAll_divide h rfl rfl hzero hword
    exact assigns_of_register h hs' hlines hrax
  | mod =>
    obtain ⟨hzero,hword,rfl⟩ := divides_of_onWords hv
    obtain ⟨s',hs',hlines,-,hrdx⟩ := performAll_divide h rfl rfl hzero hword
    exact assigns_of_register h hs' hlines hrdx

end Effects

structure Represents (names : List String) (frame saved : Word) (σ : Store) (s : X64.State) :
    Prop where
  base : s.registers .rbp = frame
  saved : s.memory (.stack frame.toNat) = saved
  holds : ∀ x v, σ x = some v → Placed names x ∧ s.memory (locationAt frame names x) = v
  globals : ∀ x, isGlobalName x = true → (σ x).isSome = true

namespace Represents

variable {names : List String} {frame saved : Word} {σ : Store} {s s' : X64.State}
  (h : Represents names frame saved σ s)
include h

theorem scratch (hs : Scratch s s') :
    Represents names frame saved σ s' where
  base := hs.base.trans h.base
  saved := by
    rw [hs.memory]
    exact h.saved
  holds := by
    rw [hs.memory]
    exact h.holds
  globals := h.globals

theorem set (hr : Placed names r) (v : Word) :
    Represents names frame saved (σ.set r v) (s.setMemory (locationAt frame names r) v) where
  base := h.base
  saved := by
    rw [memory_setMemory,if_neg (locationAt_ne_frame frame names r).symm]
    exact h.saved
  holds := by
    intro x w hx
    by_cases hxr : x = r
    · subst hxr
      rw [Store.set,if_pos rfl] at hx
      exact ⟨hr,by rw [memory_setMemory,if_pos rfl]; exact Option.some.inj hx⟩
    · rw [Store.set,if_neg hxr] at hx
      obtain ⟨hplaced,hmemory⟩ := h.holds x w hx
      have hne : locationAt frame names x ≠ locationAt frame names r :=
        fun heq => hxr (locationAt_injective hplaced heq)
      exact ⟨hplaced,by rw [memory_setMemory,if_neg hne]; exact hmemory⟩
  globals := by
    intro x hx
    unfold Store.set
    split
    · rfl
    · exact h.globals x hx

theorem assign (hr : Placed names r) (hlines : Assigns frame names s lines r v) :
    ∃ s', s.performAll lines = some s' ∧ Represents names frame saved (σ.set r v) s' := by
  obtain ⟨s1,hs1,hrun⟩ := hlines
  exact ⟨_,hrun,(h.scratch hs1).set hr v⟩

theorem value (hx : σ x = some v) :
    s.memory (locationAt frame names x) = v := (h.holds x v hx).2

end Represents

namespace Machine

variable {m : Machine} {s : X64.State}

def FlagsAgree (m : Machine) (s : X64.State) : Prop :=
  ∀ u v, m.compared = some (u,v) → s.flags = some (.ofDifference u v)

theorem assign_eq_running (h : m.assign r result = .running m') :
    ∃ v, result = some v ∧ m' = { store := m.store.set r v, pc := m.pc + 1 } := by
  cases result with
  | none => cases h
  | some v => exact ⟨v,rfl,(Progress.running.inj h).symm⟩

theorem compare_eq_running (h : m.perform code (.compare x y) = .running m') :
    ∃ u v, m.store x = some u ∧ m.store y = some v ∧
      m' = { store := m.store, compared := some (u,v), pc := m.pc + 1 } := by
  rw [perform] at h
  split at h
  · rename_i u v hu hv
    exact ⟨u,v,hu,hv,(Progress.running.inj h).symm⟩
  · cases h

theorem ret_ne_running (source : Option String) : m.perform code (.ret source) ≠ .running m' := by
  intro h
  cases source with
  | none => cases h
  | some x =>
    rw [perform] at h
    split at h <;> cases h

theorem performAll_lines {procedure} (h : Represents names frame saved m.store s)
    (hnames : ∀ x ∈ o.operands, Placed names x) (hjump : ∀ l, o ≠ .jump l)
    (hbranch : ∀ c l, o ≠ .branch c l) (hstep : m.perform code o = .running m') :
    m'.pc = m.pc + 1 ∧ ∃ s', s.performAll (o.lines (operandAt names) procedure) = some s' ∧
      Represents names frame saved m'.store s' ∧ m'.FlagsAgree s' := by
  have hassign : ∀ {r : String} {v : Word}, r ∈ o.operands →
      m' = { store := m.store.set r v, pc := m.pc + 1 } →
      Assigns frame names s (o.lines (operandAt names) procedure) r v →
      m'.pc = m.pc + 1 ∧ ∃ s', s.performAll (o.lines (operandAt names) procedure) = some s' ∧
        Represents names frame saved m'.store s' ∧ m'.FlagsAgree s' := by
    rintro r v hr rfl hlines
    obtain ⟨s',hrun,hs'⟩ := h.assign (hnames r hr) hlines
    exact ⟨rfl,s',hrun,hs',fun _ _ hcompared => by cases hcompared⟩
  cases o with
  | nop | label =>
    obtain rfl := (Progress.running.inj hstep).symm
    exact ⟨rfl,s,rfl,h,fun _ _ hcompared => by cases hcompared⟩
  | const r n =>
    obtain rfl := (Progress.running.inj hstep).symm
    exact hassign (by simp [Operation.operands]) rfl (assigns_const h.base n)
  | copy r x =>
    obtain ⟨v,hv,hm'⟩ := assign_eq_running hstep
    refine hassign (by simp [Operation.operands]) hm' ?_
    rw [← h.value hv]
    exact assigns_copy h.base
  | binary op r x y =>
    obtain ⟨v,hv,hm'⟩ := assign_eq_running hstep
    simp only [Option.bind_eq_bind,Option.bind_eq_some_iff] at hv
    obtain ⟨u,hu,w,hw,hv⟩ := hv
    rw [← h.value hu,← h.value hw] at hv
    exact hassign (by simp [Operation.operands]) hm' (assigns_binary h.base hv)
  | unary op r x =>
    obtain ⟨v,hv,hm'⟩ := assign_eq_running hstep
    obtain ⟨u,hu,rfl⟩ := Option.map_eq_some_iff.1 hv
    refine hassign (by simp [Operation.operands]) hm' ?_
    rw [← h.value hu]
    exact assigns_unary h.base op
  | compare x y =>
    obtain ⟨u,v,hu,hv,rfl⟩ := compare_eq_running hstep
    rw [Operation.lines,performAll_cons,Operation.r11,perform_load h.base,Option.bind_some,
      performAll_cons,perform_compare (by exact h.base)]
    refine ⟨rfl,_,rfl,h.scratch ⟨rfl,rfl⟩,?_⟩
    rintro _ _ hcompared
    obtain ⟨rfl,rfl⟩ := Prod.mk.inj (Option.some.inj hcompared)
    rw [← h.value hu,← h.value hv]
    rfl
  | jump l => exact absurd rfl (hjump l)
  | branch c l => exact absurd rfl (hbranch c l)
  | ret source => exact absurd hstep (ret_ne_running source)

end Machine

end BxToolchain.Bx
