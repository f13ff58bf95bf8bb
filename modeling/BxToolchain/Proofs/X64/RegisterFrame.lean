import BxToolchain.Proofs.X64.Simulation

namespace BxToolchain.X64

def Line.writes (r : Register) : Line → Bool
  | .move _ b | .arithmetic _ _ b | .unary _ b | .shift _ b => b = .register r
  | .multiply _ | .divide _ => r = .rax || r = .rdx
  | .extend => r = .rdx
  | .push _ | .ret => r = .rsp
  | .pop b => b = .register r || r = .rsp
  | .text | .global _ | .label _ | .compare _ _ | .jump _ | .branch _ _ => false

namespace State

variable {s s' : State} {r : Register}

theorem write_register (h : s.write v o = some s') (ho : o ≠ .register r) :
    s'.registers r = s.registers r := by
  cases o with
  | register q =>
    cases h
    have hne : r ≠ q := fun heq => ho (heq ▸ rfl)
    simp [setRegister,hne]
  | immediate n => cases h
  | slot | symbol =>
    cases h
    rfl

theorem perform_register (h : s.perform l = some s') (hl : l.writes r = false) :
    s'.registers r = s.registers r := by
  cases l with
  | text | global | label =>
    cases h
    rfl
  | move a b | arithmetic op a b =>
    rw [perform] at h
    split at h
    · cases h
    · exact (write_register h (by simpa [Line.writes] using hl) :)
  | unary op b | shift op b => exact (write_register h (by simpa [Line.writes] using hl) :)
  | multiply a | divide a =>
    simp only [Line.writes,Bool.or_eq_false_iff,decide_eq_false_iff_not] at hl
    simp only [perform] at h
    split at h
    · cases h
    · cases h
      simp [setWide,setRegister,hl]
  | extend =>
    cases h
    simp only [Line.writes,decide_eq_false_iff_not] at hl
    simp [setRegister,hl]
  | compare a b =>
    rw [perform] at h
    split at h
    · cases h
    · cases h
      rfl
  | push a =>
    cases h
    simp only [Line.writes,decide_eq_false_iff_not] at hl
    simp [setRegister,setMemory,hl]
  | pop b =>
    simp only [Line.writes,Bool.or_eq_false_iff,decide_eq_false_iff_not] at hl
    rw [write_register h hl.1]
    simp [setRegister,hl.2]
  | jump | branch | ret => cases h

theorem performAll_register (h : s.performAll lines = some s')
    (hlines : lines.any (Line.writes r) = false) : s'.registers r = s.registers r := by
  induction lines generalizing s with
  | nil =>
    cases h
    rfl
  | cons l rest ih =>
    rw [List.any_cons,Bool.or_eq_false_iff] at hlines
    rw [Bx.performAll_cons,Option.bind_eq_some_iff] at h
    obtain ⟨s1,hl,hrest⟩ := h
    rw [ih hrest hlines.2,perform_register hl hlines.1]

end State

def Arithmetic.constant? : Arithmetic → Operand → Option Int
  | .add, .immediate k => some k
  | _, _ => none

def Line.stackShift : Line → Int
  | .push _ => -8
  | .arithmetic op a b => if b = .register .rsp then (op.constant? a).getD 0 else 0
  | _ => 0

def Line.isSteady : Line → Bool
  | .push _ => true
  | .arithmetic op a b => b ≠ .register .rsp || (op.constant? a).isSome
  | l => !l.writes .rsp

theorem Line.steady_of_not_writes {l : Line} (h : l.writes .rsp = false) :
    l.stackShift = 0 ∧ l.isSteady = true := by
  cases l with
  | push a => cases h
  | arithmetic op a b =>
    have hb : b ≠ .register .rsp := by simpa [writes] using h
    exact ⟨if_neg hb,by simp [isSteady,hb]⟩
  | _ => exact ⟨rfl,congrArg not h⟩

namespace State

variable {s s' : State}

theorem perform_stackPointer (h : s.perform l = some s') (hl : l.isSteady = true) :
    s'.registers .rsp = s.registers .rsp + BitVec.ofInt 64 l.stackShift := by
  by_cases hwrites : l.writes .rsp = false
  · rw [(Line.steady_of_not_writes hwrites).1,perform_register h hwrites]
    simp
  · cases l with
    | push a =>
      cases h
      rw [Line.stackShift,BitVec.ofInt_neg,← BitVec.sub_eq_add_neg]
      rfl
    | arithmetic op a b =>
      have hb : b = .register .rsp := by simpa [Line.writes] using hwrites
      obtain ⟨k,hk⟩ : ∃ k, op.constant? a = some k := by
        simpa [Line.isSteady,hb,Option.isSome_iff_exists] using hl
      obtain ⟨rfl,rfl⟩ : op = .add ∧ a = .immediate k := by
        unfold Arithmetic.constant? at hk
        split at hk
        · exact ⟨rfl,by rw [Option.some.inj hk]⟩
        · cases hk
      subst hb
      cases h
      rfl
    | _ => simp_all [Line.isSteady]

theorem performAll_stackPointer (h : s.performAll lines = some s')
    (hlines : lines.all Line.isSteady = true) :
    s'.registers .rsp = s.registers .rsp + BitVec.ofInt 64 (lines.map Line.stackShift).sum := by
  induction lines generalizing s with
  | nil =>
    cases h
    simp
  | cons l rest ih =>
    rw [List.all_cons,Bool.and_eq_true] at hlines
    rw [Bx.performAll_cons,Option.bind_eq_some_iff] at h
    obtain ⟨s1,hl,hrest⟩ := h
    rw [ih hrest hlines.2,perform_stackPointer hl hlines.1,List.map_cons,List.sum_cons,
      BitVec.ofInt_add,BitVec.add_assoc]

end State

end BxToolchain.X64

