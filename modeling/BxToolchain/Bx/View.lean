import BxToolchain.Bx.Assembly
import BxToolchain.Bx.Lower
import BxToolchain.Bx.Tree

namespace BxToolchain.Bx

def namesToDatum (t : Table String String) : Datum := .record (t.entries.map fun e => (e.1,.str e.2))

def sortedToDatum (xs : List String) : Datum := .texts (xs.mergeSort (· ≤ ·))

def Scope.toDatum (s : Scope) : Datum :=
  .record [("variables",namesToDatum s.types),("exceptions",sortedToDatum s.exceptions)]

def Checker.functionsToDatum (c : Checker) : Datum :=
  .record [("Function",.texts c.functions),("Subroutine",.texts c.subroutines)]

def Checker.toFields (c : Checker) : List (String × Datum) :=
  [("procedures",.record (c.procedures.entries.map fun e => (e.1,.str e.2.text))),
   ("exceptions",sortedToDatum c.exceptions),
   ("scopes",.list (c.scopes.reverse.map Scope.toDatum)),
   ("errors",c.reporter.toDatum)]

def lastVariables (depth : Nat) (now : Table String String) : List Checker → Table String String
  | [] => now
  | c :: rest =>
    match c.scopes.reverse[depth]? with
    | none => now
    | some s => lastVariables depth s.types rest

def Checker.settle (c : Checker) (later : List Checker) : Checker :=
  { c with
    scopes := (c.scopes.reverse.zipIdx.map fun (s,depth) =>
      { s with types := lastVariables depth s.types later }).reverse }

def Item.toDatum : Item → Datum
  | .global name (.value d) => .record [("var",.str name),("init",d)]
  | .global name (.tree n) => .record [("var",.str name),("init",n.toDatum)]
  | .procedure name params body =>
    .record [("proc",.str name),("args",.texts params),
      ("body",.list (body.map Instr.toDatum))]

def Lowering.bodyToDatum (s : Lowering) : Datum := .list (s.body.toList.map Instr.toDatum)

def Lowering.countersToFields (s : Lowering) : List (String × Datum) :=
  [("tmp_counter",.nat s.temps),("label_counter",.nat s.labels),("errors",s.reporter.toDatum)]

def Condition.toDatum : Condition → Datum
  | .always => .bool true
  | .test a j b => .list [a,j,b]

def Block.toDatum (key : String) (b : Block) : Datum :=
  .record [("label",.str b.label),("key",.str key),
    ("content",.list (b.content.map Instr.toDatum)),("next",.texts b.next),
    ("prev",.texts b.prev)]

def Edge.toDatum (e : Edge) : Datum := .list [.str e.source,.str e.target,e.condition.toDatum]

def Graph.toFields (g : Graph) : List (String × Datum) :=
  [("blocks",.list (g.blocks.entries.map fun e => e.2.toDatum e.1)),
   ("edges",.list (g.edges.map Edge.toDatum)),("label_counter",.nat g.labels),
   ("errors",g.reporter.toDatum),("stdout",.str g.output)]

def Assembly.toFields (a : Assembly) : List (String × Datum) :=
  [("temps",namesToDatum a.slots),("body",.texts a.body.toList),("asm",.texts a.lines.toList),
   ("errors",a.reporter.toDatum)]

end BxToolchain.Bx
