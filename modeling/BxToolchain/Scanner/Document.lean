import BxToolchain.Grammar.Document
import BxToolchain.Scanner.Description
import BxToolchain.Scanner.Session

namespace BxToolchain.Scanner

def Step.ofDatum (d : Datum) : Step :=
  let given := (d.asList[1]?).getD .null
  match (d.asList.headD .null).asText with
  | "type" => .setKind given.asText
  | "int" => .toInteger
  | "value" => .setValue given
  | "reserved" => .reserved given.asFields
  | "lines" => .countLines
  | "skip" => .skip given.asInt
  | "begin" => .begin given.asText
  | "push" => .push given.asText
  | "pop" => .pop
  | "log" => .record
  | _ => .drop

def Definition.pattern? : Definition → Option String
  | .function _ p _ _ => p
  | .pattern p => some p
  | .other => none

def Definition.ofDatum (earlier : List (String × Definition)) (d : Datum) : Definition :=
  let text (key : String) := (d.field? key).bind Datum.str?
  match d.field? "value" with
  | some (.str s) => .pattern s
  | some _ => .other
  | none =>
    if ["do","nargs","token","token_of"].any fun k => (d.field? k).isSome then
      let pattern :=
        match text "token_of" with
        | some name => (earlier.lookup name).bind Definition.pattern?
        | none => if (d.field? "token").isSome then text "token" else text "re"
      .function (d.intPart "line" 1) pattern (d.intPart "nargs" 1)
        ((d.part "do").asList.map Step.ofDatum)
    else
      match text "re" with
      | some s => .pattern s
      | none => .other

def definitionsOf : List (String × Definition) → List Datum → List (String × Definition)
  | earlier, [] => earlier
  | earlier, d :: rest =>
    definitionsOf ((d.textPart "name" "",.ofDatum earlier d) :: earlier) rest

def Description.ofDatum (d : Datum) : Description :=
  { tokens := d.field? "tokens"
    literals := d.field? "literals"
    states := d.field? "states"
    definitions := (definitionsOf [] (d.part "rules").asList).reverse
    givenOrder := (d.part "how").asText == "caller"
    oneLog := (d.part "how").asText == "object"
    debug := d.flagPart "debug" false
    moduleText := (d.field? "module_text").bind Datum.str? }

def Session.toFields (s : Session) : List (String × Datum) :=
  [("pos",.int s.now.pos),("line",.int s.now.line),("state",.str s.now.state)]

def Session.callsToDatum (s : Session) : Datum := .list (s.calls.toList.map Grammar.Token.toDatum)

end BxToolchain.Scanner
