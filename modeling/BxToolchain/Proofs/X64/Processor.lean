import BxToolchain.Proofs.Bx.Machine

namespace BxToolchain.X64

inductive Register where
  | rax | rcx | rdx | rsi | rdi | rsp | rbp | r8 | r9 | r11
  deriving DecidableEq, Repr

inductive Operand where
  | register (r : Register)
  | immediate (n : Int)
  | slot (offset : Int)
  | symbol (name : String)
  deriving DecidableEq, Repr

namespace Operand

def isMemory : Operand → Bool
  | slot _ | symbol _ => true
  | register _ | immediate _ => false

def isImmediate : Operand → Bool
  | immediate _ => true
  | register _ | slot _ | symbol _ => false

end Operand

inductive Arithmetic where
  | add | sub | and | or | xor
  deriving DecidableEq, Repr

def Arithmetic.onWords (op : Arithmetic) (a b : Word) : Word :=
  match op with
  | add => a + b
  | sub => a - b
  | and => a &&& b
  | or => a ||| b
  | xor => a ^^^ b

inductive Shift where
  | left | right
  deriving DecidableEq, Repr

def Shift.onWords (op : Shift) (a count : Word) : Word :=
  match op with
  | left => a <<< (count.toNat % 64)
  | right => a.sshiftRight (count.toNat % 64)

inductive Line where
  | text
  | global (name : String)
  | label (name : String)
  | move (source dest : Operand)
  | arithmetic (op : Arithmetic) (source dest : Operand)
  | unary (op : Tac.UnOp) (dest : Operand)
  | shift (op : Shift) (dest : Operand)
  | multiply (source : Operand)
  | extend
  | divide (source : Operand)
  | compare (source dest : Operand)
  | jump (target : String)
  | branch (c : Bx.Comparison) (target : String)
  | push (source : Operand)
  | pop (dest : Operand)
  | ret
  deriving DecidableEq, Repr

structure Flags where
  zero : Bool
  sign : Bool
  overflow : Bool
  deriving DecidableEq, Repr

namespace Flags

def ofDifference (a b : Word) : Flags :=
  { zero := a - b = 0, sign := (a - b).msb, overflow := BitVec.ssubOverflow a b }

def meets (f : Flags) : Bx.Comparison → Bool
  | .less => f.sign != f.overflow
  | .greater => !f.zero && f.sign == f.overflow
  | .lessEq => f.zero || f.sign != f.overflow
  | .greaterEq => f.sign == f.overflow
  | .equal => f.zero
  | .notEqual => !f.zero

theorem sign_ne_overflow (a b : Word) : ((a - b).msb != BitVec.ssubOverflow a b) = a.slt b := by
  have ha := BitVec.le_toInt a
  have ha' := BitVec.toInt_lt (x := a)
  have hb := BitVec.le_toInt b
  have hb' := BitVec.toInt_lt (x := b)
  rw [Bool.eq_iff_iff,bne_iff_ne,ne_eq,Bool.eq_iff_iff,BitVec.slt_iff_toInt_lt,
    BitVec.msb_eq_toInt,decide_eq_true_iff,BitVec.toInt_sub,BitVec.ssubOverflow]
  simp only [Int.bmod_def,Bool.or_eq_true,decide_eq_true_eq,ge_iff_le]
  omega

theorem meets_ofDifference (c : Bx.Comparison) (a b : Word) :
    (ofDifference a b).meets c = c.holds a b := by
  have hless : ((ofDifference a b).sign != (ofDifference a b).overflow) = a.slt b :=
    sign_ne_overflow a b
  have hzero : (ofDifference a b).zero = (a == b) := by
    rw [Bool.eq_iff_iff,beq_iff_eq,ofDifference,decide_eq_true_iff,BitVec.sub_eq_iff_eq_add]
    simp
  have hnotLess : ((ofDifference a b).sign == (ofDifference a b).overflow) = b.sle a := by
    rw [BitVec.sle_eq_not_slt,← hless,bne,Bool.not_not]
  cases c with
  | less => exact hless
  | greater =>
    rw [meets,hzero,hnotLess,Bx.Comparison.holds,BitVec.slt_eq_sle_and_ne,Bool.and_comm]
    simp [bne,BEq.comm (a := a)]
  | lessEq => rw [meets,hzero,hless,Bx.Comparison.holds,BitVec.sle_eq_slt_or_eq,Bool.or_comm]
  | greaterEq => exact hnotLess
  | equal => exact hzero
  | notEqual => rw [meets,hzero,Bx.Comparison.holds,bne]

end Flags

inductive Location where
  | stack (address : Int)
  | global (name : String)
  deriving DecidableEq, Repr

structure State where
  registers : Register → Word
  memory : Location → Word
  flags : Option Flags := none

namespace State

def setRegister (s : State) (r : Register) (v : Word) : State :=
  { s with registers := fun q => if q = r then v else s.registers q }

def setMemory (s : State) (l : Location) (v : Word) : State :=
  { s with memory := fun k => if k = l then v else s.memory k }

def slotLocation (s : State) (offset : Int) : Location :=
  .stack ((s.registers .rbp).toNat + offset)

def read (s : State) : Operand → Word
  | .register r => s.registers r
  | .immediate n => BitVec.ofInt 64 n
  | .slot offset => s.memory (s.slotLocation offset)
  | .symbol name => s.memory (.global name)

def write (s : State) (v : Word) : Operand → Option State
  | .register r => some (s.setRegister r v)
  | .immediate _ => none
  | .slot offset => some (s.setMemory (s.slotLocation offset) v)
  | .symbol name => some (s.setMemory (.global name) v)

def wide (s : State) : Int :=
  (s.registers .rdx).toInt * 2 ^ 64 + (s.registers .rax).toNat

def setWide (s : State) (low high : Int) : State :=
  ((s.setRegister .rax (BitVec.ofInt 64 low)).setRegister .rdx (BitVec.ofInt 64 high))

def perform (s : State) : Line → Option State
  | .text | .global _ | .label _ => some s
  | .move a b => if a.isMemory && b.isMemory then none else s.write (s.read a) b
  | .arithmetic op a b =>
    if a.isMemory && b.isMemory then none
    else { s with flags := none }.write (op.onWords (s.read b) (s.read a)) b
  | .unary op b => { s with flags := none }.write (op.onWords (s.read b)) b
  | .shift op b => { s with flags := none }.write (op.onWords (s.read b) (s.registers .rcx)) b
  | .multiply a =>
    let product := (s.registers .rax).toInt * (s.read a).toInt
    if a.isImmediate then none
    else some ({ s with flags := none }.setWide product (product / 2 ^ 64))
  | .extend =>
    some (s.setRegister .rdx (if (s.registers .rax).msb then BitVec.allOnes 64 else 0))
  | .divide a =>
    let q := s.wide.tdiv (s.read a).toInt
    if a.isImmediate || s.read a = 0 || q < -2 ^ 63 || 2 ^ 63 ≤ q then none
    else some ({ s with flags := none }.setWide q (s.wide.tmod (s.read a).toInt))
  | .compare a b =>
    if a.isMemory && b.isMemory || b.isImmediate then none
    else some { s with flags := some (.ofDifference (s.read b) (s.read a)) }
  | .push a =>
    let top := s.registers .rsp - 8
    some ((s.setRegister .rsp top).setMemory (.stack top.toNat) (s.read a))
  | .pop b =>
    let top := s.registers .rsp
    (s.setRegister .rsp (top + 8)).write (s.memory (.stack top.toNat)) b
  | .jump _ | .branch _ _ | .ret => none

def performAll (s : State) (lines : List Line) : Option State := lines.foldlM perform s

end State

inductive Outcome where
  | running (pc : Nat) (s : State)
  | returned (s : State)
  | stuck

def labelIndex (program : List Line) (l : String) : Option Nat :=
  program.findIdx? fun line => line = .label l

def goto (program : List Line) (s : State) (l : String) : Outcome :=
  match labelIndex program l with
  | some pc => .running pc s
  | none => .stuck

def step (program : List Line) (pc : Nat) (s : State) : Outcome :=
  match program[pc]? with
  | some .ret => .returned s
  | some (.jump l) => goto program s l
  | some (.branch c l) =>
    match s.flags with
    | some f => if f.meets c then goto program s l else .running (pc + 1) s
    | none => .stuck
  | some line =>
    match s.perform line with
    | some s => .running (pc + 1) s
    | none => .stuck
  | none => .stuck

def run (program : List Line) : Nat → Nat → State → Option State
  | 0, _, _ => none
  | fuel + 1, pc, s =>
    match step program pc s with
    | .running pc s => run program fuel pc s
    | .returned s => some s
    | .stuck => none

inductive Reaches (program : List Line) : Nat → State → Nat → State → Prop where
  | refl {pc : Nat} {s : State} : Reaches program pc s pc s
  | step {pc pc' pc'' : Nat} {s s' s'' : State} : step program pc s = .running pc' s' →
      Reaches program pc' s' pc'' s'' → Reaches program pc s pc'' s''

namespace Reaches

theorem single (h : X64.step program pc s = .running pc' s') : Reaches program pc s pc' s' :=
  .step h .refl

theorem trans (h : Reaches program pc s pc' s') (h' : Reaches program pc' s' pc'' s'') :
    Reaches program pc s pc'' s'' := by
  induction h with
  | refl => exact h'
  | step hstep _ ih => exact .step hstep (ih h')

theorem run_eq (h : Reaches program pc s pc' s') (hret : program[pc']? = some .ret) :
    ∃ fuel, run program fuel pc s = some s' := by
  induction h with
  | refl => exact ⟨1,by simp [run,X64.step,hret]⟩
  | step hstep _ ih =>
    obtain ⟨fuel,hrun⟩ := ih hret
    exact ⟨fuel + 1,by rw [run,hstep]; exact hrun⟩

end Reaches

theorem step_of_perform (hline : program[pc]? = some line) (h : s.perform line = some s') :
    step program pc s = .running (pc + 1) s' := by
  unfold step
  rw [hline]
  cases line with
  | jump l => cases h
  | branch c l => cases h
  | ret => cases h
  | _ => simp only [h]

theorem reaches_performAll (hprogram : program = before ++ lines ++ after)
    (h : s.performAll lines = some s') :
    Reaches program before.length s (before ++ lines).length s' := by
  induction lines generalizing before s with
  | nil =>
    cases h
    rw [List.append_nil]
    exact .refl
  | cons line rest ih =>
    rw [State.performAll,List.foldlM_cons,Option.bind_eq_bind,Option.bind_eq_some_iff] at h
    obtain ⟨s1,hline,hrest⟩ := h
    have hget : program[before.length]? = some line := by simp [hprogram]
    have hsplit : program = (before ++ [line]) ++ rest ++ after := by simp [hprogram]
    have hreach := ih hsplit hrest
    rw [List.length_append,List.append_assoc] at hreach
    exact .step (step_of_perform hget hline) hreach

end BxToolchain.X64
