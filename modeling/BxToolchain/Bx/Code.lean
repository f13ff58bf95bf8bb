import BxToolchain.Bx.Node
import BxToolchain.Fault

namespace BxToolchain.Bx

inductive Layout where
  | opcodeFirst
  | alphabetical
  deriving DecidableEq, Repr

structure Instr where
  opcode : Datum
  args : Datum
  result : Datum
  layout : Layout := .opcodeFirst

namespace Instr

def make (opcode : String) (args : List Datum) (result : Datum) : Instr :=
  { opcode := .str opcode, args := .list args, result }

def act (opcode : String) (args : List Datum) : Instr := make opcode args .null

def toDatum (i : Instr) : Datum :=
  match i.layout with
  | .opcodeFirst => .record [("opcode",i.opcode),("args",i.args),("result",i.result)]
  | .alphabetical => .record [("args",i.args),("opcode",i.opcode),("result",i.result)]

def hasOpcode (i : Instr) (name : String) : Bool := i.opcode.same (.str name)

def isJump (i : Instr) : Except Fault Bool :=
  match i.opcode with
  | .str s =>
    match s.toList with
    | [] => .error .outOfRange
    | c :: _ => .ok (c == 'j')
  | _ => .error .wrongKind

def arg (i : Instr) (n : Nat) : Except Fault Datum :=
  match i.args with
  | .list xs =>
    match xs[n]? with
    | some x => .ok x
    | none => .error .outOfRange
  | .str s =>
    match s.toList[n]? with
    | some c => .ok (.str (String.ofList [c]))
    | none => .error .outOfRange
  | _ => .error .wrongKind

def target (i : Instr) : Except Fault String := (i.arg 0).map Datum.display

def retarget (i : Instr) (label : String) : Except Fault Instr :=
  match i.args with
  | .list (_ :: rest) => .ok { i with args := .list (.str label :: rest) }
  | .list [] => .error .outOfRange
  | _ => .error .wrongKind

end Instr

inductive Init where
  | value (d : Datum)
  | tree (n : Node)

inductive Item where
  | global (name : String) (init : Init)
  | procedure (name : String) (params : List String) (body : List Instr)

end BxToolchain.Bx
