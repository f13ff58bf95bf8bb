import BxToolchain.Bx.Code
import BxToolchain.Tac.Word

namespace BxToolchain

abbrev Word := BitVec 64

def Tac.BinOp.onWords (op : Tac.BinOp) (a b : Word) : Option Word :=
  match op with
  | .add => some (a + b)
  | .sub => some (a - b)
  | .mul => some (a * b)
  | .div => if b = 0 ∨ a = BitVec.intMin 64 ∧ b = -1 then none else some (a.sdiv b)
  | .mod => if b = 0 ∨ a = BitVec.intMin 64 ∧ b = -1 then none else some (a.srem b)
  | .and => some (a &&& b)
  | .or => some (a ||| b)
  | .xor => some (a ^^^ b)
  | .shl => some (a <<< (b.toNat % 64))
  | .shr => some (a.sshiftRight (b.toNat % 64))

def Tac.UnOp.onWords (op : Tac.UnOp) (a : Word) : Word :=
  match op with
  | .neg => -a
  | .not => ~~~a

namespace Bx

inductive Comparison where
  | less | greater | lessEq | greaterEq | equal | notEqual
  deriving DecidableEq, Repr

def Comparison.holds (c : Comparison) (a b : Word) : Bool :=
  match c with
  | less => a.slt b
  | greater => b.slt a
  | lessEq => a.sle b
  | greaterEq => b.sle a
  | equal => a == b
  | notEqual => a != b

inductive Operation where
  | nop
  | const (dest : String) (n : Int)
  | copy (dest source : String)
  | binary (op : Tac.BinOp) (dest left right : String)
  | unary (op : Tac.UnOp) (dest source : String)
  | compare (left right : String)
  | label (l : String)
  | jump (l : String)
  | branch (c : Comparison) (l : String)
  | ret (source : Option String)
  deriving DecidableEq, Repr

def binaryNamed? (s : String) : Option Tac.BinOp := Tac.BinOp.all.find? fun o => o.name == s

def unaryNamed? (s : String) : Option Tac.UnOp := Tac.UnOp.all.find? fun o => o.name == s

def branchNamed? : String → Option Comparison
  | "jl" => some .less
  | "jg" => some .greater
  | "jle" => some .lessEq
  | "jge" => some .greaterEq
  | "jz" => some .equal
  | "jnz" => some .notEqual
  | _ => none

def Instr.operation? (i : Instr) : Option Operation :=
  match i.opcode, i.args, i.result with
  | .str "nop", _, _ => some .nop
  | .str "const", .list [.int n], .str r => some (.const r n)
  | .str "copy", .list [.str a], .str r => some (.copy r a)
  | .str o, .list [.str a,.str b], .str r => (binaryNamed? o).map (.binary · r a b)
  | .str o, .list [.str a], .str r => (unaryNamed? o).map (.unary · r a)
  | .str "cmpq", .list [.str a,.str b], .null => some (.compare a b)
  | .str "label", .list [l], .null => some (.label l.display)
  | .str "jmp", .list [l], .null => some (.jump l.display)
  | .str "ret", .list [], .null => some (.ret none)
  | .str "ret", .list [.str a], .null => some (.ret (some a))
  | .str o, .list [l], .null => (branchNamed? o).map (.branch · l.display)
  | _, _, _ => none

def labelIndex (code : List Instr) (l : String) : Option Nat :=
  code.findIdx? fun i => i.operation? = some (.label l)

abbrev Store := String → Option Word

def Store.set (σ : Store) (r : String) (v : Word) : Store := fun q => if q = r then some v else σ q

structure Machine where
  store : Store
  compared : Option (Word × Word) := none
  pc : Nat := 0

inductive Progress where
  | running (m : Machine)
  | returned (v : Option Word)
  | stuck

namespace Machine

def next (m : Machine) (σ : Store) : Progress := .running { store := σ, pc := m.pc + 1 }

def goto (code : List Instr) (m : Machine) (l : String) : Progress :=
  match labelIndex code l with
  | some pc => .running { store := m.store, pc }
  | none => .stuck

def assign (m : Machine) (r : String) : Option Word → Progress
  | some v => m.next (m.store.set r v)
  | none => .stuck

def perform (code : List Instr) (m : Machine) : Operation → Progress
  | .nop | .label _ => m.next m.store
  | .const r n => m.assign r (some (BitVec.ofInt 64 n))
  | .copy r a => m.assign r (m.store a)
  | .binary op r a b => m.assign r do op.onWords (← m.store a) (← m.store b)
  | .unary op r a => m.assign r ((m.store a).map op.onWords)
  | .compare a b =>
    match m.store a, m.store b with
    | some u, some v => .running { store := m.store, compared := some (u,v), pc := m.pc + 1 }
    | _, _ => .stuck
  | .jump l => m.goto code l
  | .branch c l =>
    match m.compared with
    | some (u,v) => if c.holds u v then m.goto code l else m.next m.store
    | none => .stuck
  | .ret none => .returned none
  | .ret (some a) =>
    match m.store a with
    | some v => .returned (some v)
    | none => .stuck

def step (code : List Instr) (m : Machine) : Progress :=
  match code[m.pc]? with
  | some i =>
    match i.operation? with
    | some o => m.perform code o
    | none => .stuck
  | none => .stuck

def run (code : List Instr) : Nat → Machine → Option (Option Word)
  | 0, _ => none
  | fuel + 1, m =>
    match m.step code with
    | .running m => run code fuel m
    | .returned v => some v
    | .stuck => none

end Machine

end Bx

end BxToolchain
