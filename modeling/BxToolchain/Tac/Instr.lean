import BxToolchain.Data.Access
import BxToolchain.Tac.Word

namespace BxToolchain.Tac

inductive Opcode where
  | nop
  | jmp
  | branch (c : Cond)
  | binary (op : BinOp)
  | unary (op : UnOp)
  | const
  | copy
  | label
  | param
  | call
  | ret
  | phi
  deriving DecidableEq, Repr

inductive Kind where
  | nothing
  | integer
  | variable
  | label
  | global
  | phi
  | optional
  deriving DecidableEq, Repr

namespace Opcode

def name : Opcode → String
  | nop => "nop"
  | jmp => "jmp"
  | branch c => c.name
  | binary op => op.name
  | unary op => op.name
  | const => "const"
  | copy => "copy"
  | label => "label"
  | param => "param"
  | call => "call"
  | ret => "ret"
  | phi => "phi"

def all : List Opcode :=
  [nop,jmp,const,copy,label,param,call,ret,phi] ++ Cond.all.map branch ++
    BinOp.all.map binary ++ UnOp.all.map unary

def ofName? (s : String) : Option Opcode := all.find? fun o => o.name == s

def kinds : Opcode → Kind × Kind × Kind
  | nop => (.nothing,.nothing,.nothing)
  | jmp | label => (.nothing,.label,.nothing)
  | branch _ => (.nothing,.variable,.label)
  | binary _ => (.variable,.variable,.variable)
  | unary _ | copy => (.variable,.variable,.nothing)
  | const => (.variable,.integer,.nothing)
  | param => (.nothing,.integer,.variable)
  | call => (.optional,.global,.integer)
  | ret => (.nothing,.optional,.nothing)
  | phi => (.variable,.phi,.nothing)

def readsFirst : Opcode → Bool
  | binary _ | unary _ | copy | ret | branch _ => true
  | _ => false

def readsSecond : Opcode → Bool
  | binary _ | param => true
  | _ => false

def writes : Opcode → Bool
  | binary _ | unary _ | const | copy | phi | call => true
  | _ => false

def isBranch : Opcode → Bool
  | branch _ => true
  | _ => false

def isFinal (o : Opcode) : Bool := o = jmp || o = ret

def endsBlock (o : Opcode) : Bool := o.isBranch || o.isFinal

end Opcode

inductive Operand where
  | absent
  | int (n : Int)
  | flag (b : Bool)
  | name (s : String)
  | phi (sources : List (String × String))
  | pairs (sources : List (String × String))
  deriving DecidableEq, Repr

def startsWith (mark name : String) : Bool := mark.toList.isPrefixOf name.toList

def isVariable (s : String) : Bool := startsWith "%" s || startsWith "@" s

def isLabel (s : String) : Bool := startsWith "%.L" s

def isGlobal (s : String) : Bool := startsWith "@" s

def isTemp (s : String) : Bool := startsWith "%" s && !isLabel s

namespace Operand

def toDatum : Operand → Datum
  | absent => .null
  | int n => .int n
  | flag b => .bool b
  | name s => .str s
  | phi sources => .record (sources.map fun e => (e.1,.str e.2))
  | pairs sources => .tuple (sources.map fun e => .tuple [.str e.1,.str e.2])

def sources? : List (String × Datum) → Option (List (String × String))
  | [] => some []
  | (l,.str t) :: rest => (sources? rest).map ((l,t) :: ·)
  | _ :: _ => none

def ofDatum? : Datum → Option Operand
  | .null => some .absent
  | .int n => some (.int n)
  | .bool b => some (.flag b)
  | .str s => some (.name s)
  | .record fields => (sources? fields).map .phi
  | _ => none

def int? : Operand → Option Int
  | int n => some n
  | flag b => some (if b then 1 else 0)
  | _ => none

def name? : Operand → Option String
  | name s => some s
  | _ => none

def text (o : Operand) : String := o.toDatum.display

def temp? : Operand → Option String
  | name s => if isTemp s then some s else none
  | _ => none

def read? : Operand → Option String
  | name s => if s.isEmpty then none else some s
  | _ => none

def mapName (f : String → String) : Operand → Operand
  | name s => name (f s)
  | o => o

def mapTemp (f : String → String) (o : Operand) : Operand :=
  match o.temp? with
  | some t => name (f t)
  | none => o

def mapRead (f : String → String) (o : Operand) : Operand :=
  match o.read? with
  | some t => name (f t)
  | none => o

end Operand

def Kind.accepts : Kind → Operand → Bool
  | .nothing, .absent => true
  | .integer, .int _ | .integer, .flag _ => true
  | .variable, .name s => isVariable s
  | .label, .name s => isLabel s
  | .global, .name s => isGlobal s
  | .phi, .phi sources => sources.all fun e => isVariable e.2
  | .optional, .absent => true
  | .optional, .name s => isVariable s
  | _, _ => false

structure Instr where
  opcode : Opcode
  dest : Operand := .absent
  arg1 : Operand := .absent
  arg2 : Operand := .absent
  mark : Nat := 0
  deriving DecidableEq, Repr

inductive Use where
  | plain (temp : String)
  | along (label temp : String)
  deriving DecidableEq, Repr

def Use.temp : Use → String
  | plain t => t
  | along _ t => t

namespace Instr

def ofLabel (l : String) : Instr := { opcode := .label, arg1 := .name l }

def jumpTo (l : String) : Instr := { opcode := .jmp, arg1 := .name l }

def isLabel (i : Instr) : Bool := i.opcode = .label

def isBroken (i : Instr) : Bool :=
  match i.opcode, i.arg1 with
  | .phi, .pairs _ => true
  | _, _ => false

def sources (i : Instr) : List (String × String) :=
  match i.arg1 with
  | .phi sources => sources
  | _ => []

def sourceText (e : String × String) : String := e.1 ++ ":" ++ e.2

def argsText (i : Instr) : String :=
  match i.arg1, i.arg2 with
  | .absent, _ => ""
  | a, .absent => " " ++ a.text
  | a, b => " " ++ a.text ++ ", " ++ b.text

def destText (i : Instr) : String :=
  match i.dest with
  | .absent => ""
  | d => d.text ++ " = "

def text (i : Instr) : String :=
  match i.opcode with
  | .label => i.arg1.text ++ ":"
  | .phi =>
    "  " ++ i.dest.text ++ " = phi(" ++ String.intercalate ", " (i.sources.map sourceText) ++ ");"
  | o => "  " ++ i.destText ++ o.name ++ i.argsText ++ ";"

def text? (i : Instr) : Except Fault String :=
  if i.isBroken then .error .missingPart else .ok i.text

def toDatum (i : Instr) : Datum :=
  .record [("opcode",.str i.opcode.name),("args",.tuple [i.arg1.toDatum,i.arg2.toDatum]),
    ("result",i.dest.toDatum)]

def loadText (i : Instr) : String := "Instr.load(" ++ i.toDatum.render ++ ")"

def check (i : Instr) : Except Fault Unit :=
  let (d,a,b) := i.opcode.kinds
  if !d.accepts i.dest then .error (.badOperand i.opcode.name "destination" i.dest.text)
  else if !a.accepts i.arg1 then .error (.badOperand i.opcode.name "arg1" i.arg1.text)
  else if !b.accepts i.arg2 then .error (.badOperand i.opcode.name "arg2" i.arg2.text)
  else .ok ()

def operandOf (o : Opcode) (place : String) (k : Kind) (d : Datum) : Except Fault Operand :=
  match Operand.ofDatum? d with
  | some x => if k.accepts x then .ok x else .error (.badOperand o.name place d.display)
  | none => .error (.badOperand o.name place d.display)

def opcodeOf : Datum → Except Fault Opcode
  | .str s =>
    match Opcode.ofName? s with
    | some o => .ok o
    | none => .error (.badOpcode s)
  | .list _ | .record _ => .error .wrongKind
  | d => .error (.badOpcode d.display)

def argumentsOf : Datum → Except Fault (List Datum)
  | .list xs | .tuple xs => .ok xs
  | .str s => .ok (s.toList.map fun c => .str (String.ofList [c]))
  | .record [] => .ok []
  | .record _ => .error (.missingKey "0")
  | _ => .error .wrongKind

def make (dest opcode : Datum) (args : List Datum) : Except Fault Instr := do
  let o ← opcodeOf opcode
  let (d,a,b) := o.kinds
  return { opcode := o
           dest := ← operandOf o "destination" d dest
           arg1 := ← operandOf o "arg1" a (args.headD .null)
           arg2 := ← operandOf o "arg2" b ((args.drop 1).headD .null) }

def ofDatum : Datum → Except Fault Instr
  | .record fields => do
    let d := Datum.record fields
    match d.part "opcode" with
    | .null => throw .refused
    | opcode =>
      make (d.part "result") opcode (← argumentsOf ((d.field? "args").getD (.tuple [])))
  | _ => .error .missingPart

def uses (i : Instr) : List Use :=
  (i.arg1.temp?.toList ++ i.arg2.temp?.toList).map .plain ++
    (if i.opcode = .phi then (i.sources.filter fun e => isTemp e.2).map fun e => .along e.1 e.2
      else [])

def defs (i : Instr) : List String := i.dest.temp?.toList

def mapSources (f : String → String) (i : Instr) : Instr :=
  match i.opcode, i.arg1 with
  | .phi, .phi sources => { i with arg1 := .phi (sources.map fun e => (e.1,f e.2)) }
  | _, _ => i

def renameTemps (f : String → String) (i : Instr) : Instr :=
  { i with dest := i.dest.mapTemp f, arg1 := i.arg1.mapTemp f, arg2 := i.arg2.mapTemp f }.mapSources f

def reads (i : Instr) : List String :=
  (if i.opcode.readsFirst then i.arg1.read?.toList else []) ++
    (if i.opcode.readsSecond then i.arg2.read?.toList else []) ++
    (if i.opcode = .phi then i.sources.map Prod.snd else [])

def written (i : Instr) : List String :=
  if i.opcode.writes then i.dest.read?.toList else []

def renameReads (f : String → String) (i : Instr) : Instr :=
  { i with
    arg1 := if i.opcode.readsFirst then i.arg1.mapRead f else i.arg1
    arg2 := if i.opcode.readsSecond then i.arg2.mapRead f else i.arg2 }

def renameVariables (f : String → String) (i : Instr) : Instr :=
  let i := (i.renameReads f).mapSources f
  { i with dest := if i.opcode.writes then i.dest.mapRead f else i.dest }

def target (i : Instr) : Operand :=
  match i.opcode with
  | .jmp => i.arg1
  | .ret => .absent
  | _ => i.arg2

def renameLabel (labels : List (String × String)) (l : String) : String := (labels.lookup l).getD l

def renameLabels (labels : List (String × String)) (i : Instr) : Instr :=
  match i.opcode, i.arg1 with
  | .jmp, _ => { i with arg1 := i.arg1.mapName (renameLabel labels) }
  | .phi, .phi sources =>
    { i with arg1 := .pairs (sources.map fun e => (renameLabel labels e.1,e.2)) }
  | .phi, _ | .ret, _ => i
  | _, _ => { i with arg2 := i.arg2.mapName (renameLabel labels) }

end Instr

def rootOf (s : String) : String :=
  match s.toList.reverse.dropWhile (· ≠ '.') with
  | [] => s
  | _ :: rest => String.ofList rest.reverse

def versionOf (s : String) : String :=
  let tail := s.toList.reverse.takeWhile (· ≠ '.')
  if tail.length = s.length then "" else String.ofList tail.reverse

end BxToolchain.Tac
