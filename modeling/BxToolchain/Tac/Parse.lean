import BxToolchain.Data.Json
import BxToolchain.Files
import BxToolchain.Tac.Lexeme
import BxToolchain.Tac.Program

namespace BxToolchain.Tac

structure Reading where
  origin : String
  pieces : List Piece
  output : String := ""

abbrev Read := Run Reading

namespace Reading

def say (r : Reading) (line : Nat) (message : String) : Reading :=
  { r with output := r.output ++ r.origin ++ ":" ++ toString line ++ ":" ++ message ++ "\n" }

end Reading

namespace Read

def advance : List Piece → Reading → Except Fault Unit × Reading
  | .illegal c line :: rest, r =>
    advance rest (r.say line ("Warning: skipping illegal character: " ++ String.ofList [c]))
  | .tooLarge n line :: _, r =>
    (.error .literalTooLarge,r.say line ("Error: numerical literal " ++ Text.decimal n ++
      " not in [-9223372036854775808, 9223372036854775808)"))
  | .overlong digits :: _, r => (.error (.badInteger (.tooLong digits)),r)
  | pieces, r => (.ok (),{ r with pieces })

def peek : Read (Option Token) := do
  let r ← get
  let (e,r) := advance r.pieces r
  set r
  match e with
  | .error f => throw f
  | .ok _ =>
    match r.pieces with
    | .token t :: _ => return some t
    | _ => return none

def skip : Read Unit := modify fun r => { r with pieces := r.pieces.drop 1 }

def refuse {α : Type} : Read α := do
  if let some t ← peek then
    modify fun r => r.say t.line ("Error:syntax error at token " ++ t.kind.name)
  throw .badSyntax

def peekKind : Read (Option TokenKind) := return (← peek).map Token.kind

def expect (kind : TokenKind) : Read Token := do
  match ← peek with
  | some t =>
    if t.kind = kind then
      skip
      return t
    refuse
  | none => refuse

def argument : Read Datum := do
  match ← peek with
  | some t =>
    match t.kind with
    | .number =>
      skip
      return .int t.number
    | .temp | .label | .gsym =>
      skip
      return .str t.text
    | _ => refuse
  | none => refuse

def arguments : Read (List Datum) := do
  if (← peekKind) = some .semicolon then return []
  let a ← argument
  if (← peekKind) = some .comma then
    skip
    return [a,← argument]
  return [a]

def operation (dest : Datum) : Read Instr := do
  let o ← expect .opcode
  let args ← arguments
  let _ ← expect .semicolon
  match Instr.make dest (.str o.text) args with
  | .ok i => return i
  | .error e => throw e

def instruction? : Read (Option Instr) := do
  match ← peek with
  | some t =>
    match t.kind with
    | .label =>
      skip
      let _ ← expect .colon
      return some (.ofLabel t.text)
    | .temp | .gsym =>
      skip
      let _ ← expect .eq
      return some (← operation (.str t.text))
    | .opcode => return some (← operation .null)
    | _ => return none
  | none => return none

def instructions : Nat → Read (List Instr)
  | 0 => return []
  | fuel + 1 => do
    match ← instruction? with
    | some i => return i :: (← instructions fuel)
    | none => return []

def moreParams : Nat → Read (List Datum)
  | 0 => return []
  | fuel + 1 => do
    if (← peekKind) = some .comma then
      skip
      let t ← expect .temp
      return .str t.text :: (← moreParams fuel)
    return []

def params (fuel : Nat) : Read (List Datum) := do
  if (← peekKind) = some .lparen then
    skip
    let ps ←
      if (← peekKind) = some .temp then do
        let t ← expect .temp
        pure (Datum.str t.text :: (← moreParams fuel))
      else pure []
    let _ ← expect .rparen
    return ps
  return []

def globalVariable : Read Declaration := do
  let _ ← expect .var
  let name ← expect .gsym
  let _ ← expect .eq
  let n ← expect .number
  let _ ← expect .semicolon
  return .global ⟨name.text,.int n.number⟩

def procedure (fuel : Nat) : Read Declaration := do
  let _ ← expect .proc
  let name ← expect .gsym
  let ps ← params fuel
  let _ ← expect .colon
  return .procedure ⟨name.text,ps,← instructions fuel⟩

def program : Nat → Read Program
  | 0 => return []
  | fuel + 1 => do
    match ← peekKind with
    | none => return []
    | some .var =>
      let d ← globalVariable
      return d :: (← program fuel)
    | some .proc =>
      let d ← procedure fuel
      return d :: (← program fuel)
    | some _ => refuse

end Read

def parse (origin source : String) : Except Fault Program × String :=
  let pieces := pieces source
  let (p,r) := (Read.program (pieces.length + 1)).run { origin, pieces }
  (p,r.output)

def tokensFrom : List Piece → Reading → List Token × Except Fault Nat × String
  | .token t :: rest, r =>
    let (ts,e,out) := tokensFrom rest r
    (t :: ts,e,out)
  | .illegal c line :: rest, r =>
    tokensFrom rest (r.say line ("Warning: skipping illegal character: " ++ String.ofList [c]))
  | .finish line :: _, r => ([],.ok line,r.output)
  | pieces, r =>
    let (e,r) := Read.advance pieces r
    ([],e.map fun _ => 0,r.output)

def tokenize (origin source : String) : List Token × Except Fault Nat × String :=
  tokensFrom (pieces source) { origin, pieces := [] }

def endsWith (ending name : String) : Bool := ending.toList.isSuffixOf name.toList

def load (files : Files) (name : String) : Except Fault Program × String :=
  match files.read name with
  | .error e => (.error e,"")
  | .ok text =>
    if endsWith ".tac" name then parse name text
    else if endsWith ".tac.json" name then
      match Json.read? text with
      | some d => (Program.ofDatum d,"")
      | none => (.error .badDocument,"")
    else (.error .wrongFileName,"")

end BxToolchain.Tac
