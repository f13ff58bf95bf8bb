import BxToolchain.Data.Access
import BxToolchain.Grammar.Description

namespace BxToolchain.Grammar

def Token.toDatum (t : Token) : Datum :=
  .list [.str t.kind,t.value,(t.line.map Datum.int).getD .null,.int t.pos]

def Token.ofDatum (place : Nat) (d : Datum) : Token :=
  let parts := d.asList
  { kind := (parts.headD .null).asText
    value := (parts[1]?).getD .null
    line :=
      match (parts[2]? : Option Datum) with
      | some .null => none
      | some n => some n.asInt
      | none => some 1
    pos :=
      match parts[3]? with
      | some n => n.asInt
      | none => place }

mutual

def Value.toDatum : Value → Datum
  | .datum d => d
  | .token t => .record [("token",.list [.str t.kind,t.value])]
  | .list vs => .list (Value.toData vs)
  | .tuple vs => .list (Value.toData vs)

def Value.toData : List Value → List Datum
  | [] => []
  | v :: rest => v.toDatum :: Value.toData rest

end

def Precedence.toDatum (p : Precedence) : Datum := .list [.str p.assoc.name,.int p.level]

def Action.toDatum : Action → Datum
  | .shift n => .nat n
  | .reduce n => .int (-(n : Int))
  | .accept => .int 0
  | .refuse => .null

def Row.actionsToDatum (r : Row) : Datum :=
  .record (r.actions.entries.map fun e => (e.1,e.2.toDatum))

def Row.targetsToDatum (r : Row) : Datum :=
  .record (r.targets.entries.map fun e => (e.1,.nat e.2))

def Production.toDatum (p : Production) : Datum :=
  .list [.nat p.number,.str p.text,p.prec.toDatum,.nat p.symbols.length,
    .texts p.distinctSymbols]

def Production.shown (p : Production) : String := "Production(" ++ p.text ++ ")"

def usesToDatum (t : Table String (List Nat)) : Datum :=
  .record (t.entries.map fun e => (e.1,.list (e.2.map .nat)))

def setsToDatum (t : Table String (List String)) : Datum :=
  .record (t.entries.map fun e => (e.1,.texts e.2))

def rowsToFields (rows : Array Row) : List (String × Datum) :=
  [("action",.list (rows.toList.map Row.actionsToDatum)),
   ("goto",.list (rows.toList.map Row.targetsToDatum))]

def Progress.toFields (t : Progress) : List (String × Datum) :=
  rowsToFields t.rows ++
    [("sr",.list (t.shiftReduce.toList.map fun c =>
      .list [.nat c.state,.str c.terminal,.str c.resolution.name])),
     ("rr",.list (t.reduceReduce.toList.map fun c =>
      .list [.nat c.state,.str c.chosen.text,.str c.rejected.text]))]

def Built.toFields (b : Built) : List (String × Datum) :=
  ("productions",.list (b.parser.productions.map fun p =>
    .list [.str p.text,p.prec.toDatum,.int (b.tables.reduced.getD p.number 0)])) ::
  rowsToFields b.tables.rows ++
    [("defaulted",.record (b.parser.defaults.entries.map fun e =>
      (toString e.1,.int (-(e.2 : Int)))))]

def Machine.toFields {σ : Type} (m : Machine σ) : List (String × Datum) :=
  [("reduced",.texts m.reduced.toList),
   ("errors",.list (m.errors.toList.map fun e =>
     match e with
     | none => .null
     | some (kind,v,line) => .list [.str kind,v.toDatum,(line.map Datum.int).getD .null]))] ++
    (if m.output.isEmpty then [] else [("stderr",.texts (Text.splitOnChar '\n' m.output))])

def Semantics.ofDatum (d : Datum) : Semantics :=
  let on := d.part "on"
  match d.textPart "action" "tree" with
  | "raise" => .refuse
  | "raise_on" => .refuseOn on
  | "errok" => .recover
  | "first" => .first
  | "spans" => .spans
  | "setpos" => .place on
  | "inherit" => .inherit
  | _ => .tree

def Definition.ofDatum (d : Datum) : Definition :=
  if d.flagPart "not_function" false then .text
  else .function (d.intPart "line" 1) ((d.field? "doc").bind Datum.str?) (d.intPart "nargs" 1)
    (.ofDatum d)

def HandlerDefinition.ofDatum (d : Datum) : HandlerDefinition :=
  match d.textPart "on_error" "report" with
  | "errok" => .function .resume
  | "skip" => .function (.skipTo (d.part "sync").asTexts)
  | "restart" => .function .restart
  | "none" => .missing
  | "bad_args" => .noParameters
  | "not_function" => .notFunction
  | _ => .function .report

def Description.ofDatum (d : Datum) : Description :=
  { tokens := d.field? "tokens"
    precedence := d.field? "precedence"
    start := d.field? "start"
    definitions := (d.part "rules").asList.map fun r => (r.textPart "name" "",.ofDatum r)
    handler := .ofDatum d
    startOverride :=
      match d.part "start_arg" with
      | .null => none
      | name => some name
    checkRecursion := d.flagPart "check_recursion" true
    debug := d.flagPart "debug" false
    listingFile := (d.field? "debugfile").bind Datum.str?
    moduleText := (d.field? "module_text").bind Datum.str? }

end BxToolchain.Grammar
