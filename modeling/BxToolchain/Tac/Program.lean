import BxToolchain.Data.Table
import BxToolchain.Tac.Instr

namespace BxToolchain.Tac

structure Global where
  name : String
  value : Datum

structure Procedure where
  name : String
  params : List Datum := []
  body : List Instr := []

inductive Declaration where
  | blank
  | global (g : Global)
  | procedure (p : Procedure)

abbrev Program := List Declaration

def Global.text (g : Global) : String := "var " ++ g.name ++ " = " ++ g.value.display ++ ";\n"

def Global.toDatum (g : Global) : Datum := .record [("var",.str g.name),("init",g.value)]

namespace Procedure

def paramNames (p : Procedure) : Except Fault (List String) :=
  p.params.mapM fun d =>
    match d with
    | .str s => .ok s
    | _ => .error .wrongKind

def bodyText (p : Procedure) : Except Fault String := do
  return String.join ((← p.body.mapM Instr.text?).map (· ++ "\n"))

def text (p : Procedure) : Except Fault String := do
  let params ← p.paramNames
  return "proc " ++ p.name ++ "(" ++ String.intercalate ", " params ++ "):\n" ++ (← p.bodyText)

def toDatum (p : Procedure) : Datum :=
  .record [("proc",.str p.name),("args",.list p.params),
    ("body",.list (p.body.map Instr.toDatum))]

end Procedure

namespace Declaration

def text : Declaration → Except Fault String
  | blank => .ok "None"
  | global g => .ok g.text
  | procedure p => p.text

def toDatum : Declaration → Datum
  | blank => .null
  | global g => g.toDatum
  | procedure p => p.toDatum

def name : Declaration → Except Fault String
  | blank => .error .missingPart
  | global g => .ok g.name
  | procedure p => .ok p.name

def membersOf : Datum → Except Fault (List Datum)
  | .list xs | .tuple xs => .ok xs
  | .str s => .ok (s.toList.map fun c => .str (String.ofList [c]))
  | .record fields => .ok (fields.map fun e => .str e.1)
  | _ => .error .wrongKind

def globalName : Datum → Except Fault String
  | .str s => if isGlobal s then .ok s else .error .refused
  | _ => .error .refused

def ofDatum : Datum → Except Fault Declaration
  | .record fields => do
    let d := Datum.record fields
    if (d.part "var").truthy then
      return .global ⟨← globalName (d.part "var"),(d.field? "init").getD (.tuple [])⟩
    else if (d.part "proc").truthy then
      let name ← globalName (d.part "proc")
      let body ← (← membersOf ((d.field? "body").getD (.list []))).mapM Instr.ofDatum
      return .procedure ⟨name,← membersOf ((d.field? "args").getD (.tuple [])),body⟩
    else return .blank
  | _ => .error .missingPart

end Declaration

def Program.ofDatum (d : Datum) : Except Fault Program := do
  (← Declaration.membersOf d).mapM Declaration.ofDatum

def Program.globals : Program → Table String Datum → Table String Datum
  | [], t => t
  | .global g :: rest, t => Program.globals rest (t.insert g.name g.value)
  | _ :: rest, t => Program.globals rest t

def Program.procedures : Program → Table String Procedure → Table String Procedure
  | [], t => t
  | .procedure p :: rest, t => Program.procedures rest (t.insert p.name p)
  | _ :: rest, t => Program.procedures rest t

end BxToolchain.Tac
