import BxToolchain.Data.Datum
import BxToolchain.Fault

namespace BxToolchain.Grammar

structure Token where
  kind : String
  value : Datum
  line : Option Int
  pos : Int

def Token.text (t : Token) : Except Fault String :=
  match t.line with
  | some n => .ok ("LexToken(" ++ t.kind ++ "," ++ t.value.render ++ "," ++ Text.decimal n ++ "," ++
      Text.decimal t.pos ++ ")")
  | none => .error .missingPart

inductive Value where
  | datum (d : Datum)
  | token (t : Token)
  | list (items : List Value)
  | tuple (items : List Value)

namespace Value

def null : Value := .datum .null

def int (n : Int) : Value := .datum (.int n)

def str (s : String) : Value := .datum (.str s)

mutual

def render : Value → Except Fault String
  | .datum d => .ok d.render
  | .token t => t.text
  | .list items => do return "[" ++ (← renderItems items) ++ "]"
  | .tuple [v] => do return "(" ++ (← v.render) ++ ",)"
  | .tuple items => do return "(" ++ (← renderItems items) ++ ")"

def renderItems : List Value → Except Fault String
  | [] => .ok ""
  | [v] => v.render
  | v :: rest => do return (← v.render) ++ ", " ++ (← renderItems rest)

end

def kind : Value → String
  | .datum d => d.kind
  | .token _ => "LexToken"
  | .list _ => "list"
  | .tuple _ => "tuple"

mutual

def isDatum : Value → Datum → Bool
  | .datum d, e => d.same e
  | .list items, .list es => areData items es
  | _, _ => false

def areData : List Value → List Datum → Bool
  | [], [] => true
  | v :: vs, d :: ds => v.isDatum d && areData vs ds
  | _, _ => false

end

def brief (v : Value) : Except Fault String := do
  let s ← v.render
  return if s.length < 16 then s else "<" ++ v.kind ++ " @ 0x>"

def summary (v : Value) : Except Fault String := do
  let s ← v.render
  let s := if s.length > 40 then String.ofList (s.toList.take 40) ++ " ..." else s
  return "<" ++ v.kind ++ " @ 0x> (" ++ s ++ ")"

end Value

end BxToolchain.Grammar
