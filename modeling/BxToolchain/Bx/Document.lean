import BxToolchain.Bx.Optimize
import BxToolchain.Data.Json

namespace BxToolchain.Bx

def field (key : String) : Datum → Except Fault Datum
  | .record fields =>
    match fields.lookup key with
    | some d => .ok d
    | none => .error (.missingKey (Text.quote key))
  | _ => .error .wrongKind

def sequenceOf : Datum → Except Fault (List Datum)
  | .list xs => .ok xs
  | .str s => .ok (s.toList.map fun c => .str (String.ofList [c]))
  | _ => .error .wrongKind

def bareName : Datum → Except Fault String
  | .str s => .ok (String.ofList (s.toList.drop 1))
  | _ => .error .wrongKind

def layoutOf : Datum → Layout
  | .record (("args",_) :: _) => .alphabetical
  | _ => .opcodeFirst

def Instr.ofDatum (d : Datum) : Except Fault Instr := do
  return { opcode := ← field "opcode" d, args := ← field "args" d, result := ← field "result" d,
           layout := layoutOf d }

def Instr.ofPartial (d : Datum) : Except Fault Instr := do
  let opcode ← field "opcode" d
  let i : Instr :=
    { opcode, args := (d.field? "args").getD .null, result := (d.field? "result").getD .null,
      layout := layoutOf d }
  if (d.field? "args").isNone then
    if i.hasOpcode "label" || (← i.isJump) then throw (.missingKey (Text.quote "args"))
  return i

def Item.toDatum? : Item → Option Datum
  | .global name (.value d) => some (.record [("var",.str name),("init",d)])
  | .global _ (.tree _) => none
  | .procedure name params body =>
    some (.record [("proc",.str name),("args",.list (params.map .str)),
      ("body",.list (body.map Instr.toDatum))])

def isRecord : Datum → Bool
  | .record _ => true
  | _ => false

namespace Shape

def optimizeRecord (d : Datum) : Shape Datum := do
  let name ← lift (field "proc" d)
  let procedure ← lift (bareName name)
  modify fun g => { g with procedure }
  let body ← lift (sequenceOf (← lift (field "body" d)))
  optimizeBody (← lift (body.mapM Instr.ofPartial))
  let params ← lift (field "args" d)
  let result ← serialize
  modify fun g => { g with blocks := {}, edges := [], procedure := "", labels := 0 }
  return .record [("proc",name),("args",params),("body",.list (result.map Instr.toDatum))]

def optimizeDocument : List Datum → Shape (List Datum)
  | [] => return []
  | d :: rest => do
    if !isRecord d then throw .missingPart
    let d ← if (d.field? "var").isSome then pure d else optimizeRecord d
    return d :: (← optimizeDocument rest)

end Shape

end BxToolchain.Bx
