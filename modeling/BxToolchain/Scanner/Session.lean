import BxToolchain.Data.Integer
import BxToolchain.Grammar.Machine
import BxToolchain.Scanner.Basic

namespace BxToolchain.Scanner

open Grammar (Token)

structure Session where
  now : Position
  earlier : List Position := []
  stack : List String := []
  calls : Array Token := #[]

abbrev Scan := Run Session

def update (f : Position → Position) : Scan Unit := modify fun s => { s with now := f s.now }

def setInput (text : String) : Scan Unit :=
  update fun p => { p with text := some text.toList.toArray, pos := 0 }

def begin (state : String) : Scan Unit := do
  let p := (← get).now
  let t := p.tables
  match t.rules.get? state with
  | none => throw (.undefinedState state)
  | some groups =>
    update fun p =>
      { p with
        groups
        state
        ignored := (t.ignored.get? state).getD ""
        onIllegal := (t.onIllegal.get? state).join
        atEnd := t.atEnd.get? state }

def pushState (state : String) : Scan Unit := do
  modify fun s => { s with stack := s.now.state :: s.stack }
  begin state

def popState : Scan Unit := do
  match (← get).stack with
  | [] => throw .outOfRange
  | state :: rest =>
    modify fun s => { s with stack := rest }
    begin state

def skip (n : Int) : Scan Unit := update fun p => { p with pos := p.pos + n }

def perform (token : Token) : List Step → Scan (Option Token)
  | [] => return some token
  | step :: rest => do
    match step with
    | .setKind kind => perform { token with kind } rest
    | .toInteger =>
      match token.value.integer with
      | .ok n => perform { token with value := .int n } rest
      | .error e => throw e
    | .setValue value => perform { token with value } rest
    | .reserved kinds =>
      match token.value with
      | .str s =>
        match kinds.lookup s with
        | some (.str kind) => perform { token with kind } rest
        | some d => perform { token with kind := d.display } rest
        | none => perform token rest
      | .list _ | .record _ => throw .wrongKind
      | _ => perform token rest
    | .countLines =>
      match token.value with
      | .str s =>
        update fun p => { p with line := p.line + (s.toList.count '\n' : Nat) }
        perform token rest
      | _ => throw .missingPart
    | .skip n =>
      skip n
      perform token rest
    | .begin state =>
      begin state
      perform token rest
    | .push state =>
      pushState state
      perform token rest
    | .pop =>
      popState
      perform token rest
    | .record =>
      modify fun s => { s with calls := s.calls.push token }
      perform token rest
    | .drop => return none

def charAt? (text : Array Char) (pos : Int) : Option Char :=
  let n := if pos < 0 then pos + text.size else pos
  if n < 0 then none else text[n.toNat]?

def textFrom (text : Array Char) (pos : Int) : List Char :=
  let n := if pos < 0 then pos + text.size else pos
  text.toList.drop n.toNat

def scanFrom (text : Array Char) : Nat → Int → String → Scan (Option Token)
  | 0, _, _ => return none
  | fuel + 1, pos, ignored => do
    let now := (← get).now
    if pos ≥ text.size then
      update fun p => { p with pos }
      match now.atEnd with
      | some steps => perform { kind := "eof", value := .str "", line := some now.line, pos } steps
      | none =>
        skip 1
        return none
    else
      match charAt? text pos with
      | none => throw .outOfRange
      | some c =>
        if ignored.contains c then scanFrom text fuel (pos + 1) ignored
        else
          let start := pos.toNat
          let rest := text.toList.drop start
          match now.groups.findSome? fun g => firstMatch? g rest with
          | some (after,outcome) =>
            let size := rest.length - after.length
            let stop : Int := start + size
            let token (kind : String) : Token :=
              { kind, value := .str (String.ofList (rest.take size)), line := some now.line, pos }
            match outcome with
            | .emit kind =>
              update fun p => { p with pos := stop }
              return some (token kind)
            | .ignore => scanFrom text fuel stop ignored
            | .perform kind steps =>
              update fun p => { p with pos := stop }
              match ← perform (token kind) steps with
              | some t => return some t
              | none =>
                let now := (← get).now
                scanFrom text fuel now.pos now.ignored
          | none =>
            if now.tables.literals.contains c then
              update fun p => { p with pos := pos + 1 }
              let kind := String.ofList [c]
              return some { kind, value := .str kind, line := some now.line, pos }
            else
              update fun p => { p with pos }
              match now.onIllegal with
              | none => throw (.illegalCharacter c pos)
              | some steps =>
                let value := Datum.str (String.ofList (textFrom text pos))
                let t ← perform { kind := "error", value, line := some now.line, pos } steps
                let now := (← get).now
                if now.pos = pos then throw (.stuckAt c)
                match t with
                | some t => return some t
                | none => scanFrom text fuel now.pos ignored

def next : Scan (Option Token) := do
  let p := (← get).now
  match p.text with
  | none =>
    match p.atEnd with
    | some steps =>
      perform { kind := "eof", value := .str "", line := some p.line, pos := p.pos } steps
    | none =>
      skip 1
      throw .noInput
  | some text => scanFrom text (text.size + p.pos.natAbs + 2) p.pos p.ignored

def allFrom : Nat → Array Token → Scan (Array Token × Option Fault)
  | 0, acc => return (acc,none)
  | fuel + 1, acc => do
    let (r,s) := next.run (← get)
    set s
    match r with
    | .ok (some t) => allFrom fuel (acc.push t)
    | .ok none => return (acc,none)
    | .error e => return (acc,some e)

def all : Scan (Array Token × Option Fault) := do
  let p := (← get).now
  allFrom ((p.text.getD #[]).size + p.pos.natAbs + 2) #[]

def allTokens : Scan (List Token) := do
  let (tokens,failure) ← all
  match failure with
  | some e => throw e
  | none => return tokens.toList

def copy : Scan Unit := modify fun s => { s with earlier := s.now :: s.earlier }

def rebind : Scan Unit := do
  let t := (← get).now.tables
  if t.onIllegal.values.any Option.isNone then throw .missingPart
  copy
  let tables := { t with rules := t.rules.mapValues fun groups => groups.getLast?.toList }
  update fun p => { p with tables }

def back : Scan Unit := modify fun s =>
  match s.earlier with
  | [] => s
  | p :: rest => { s with now := p, earlier := rest }

def tokenLine (t : Token) : String :=
  "(" ++ t.kind ++ "," ++ t.value.render ++ "," ++ Text.decimal (t.line.getD 0) ++ "," ++
    Text.decimal t.pos ++ ")\n"

def listing (text : String) : Scan String := do
  setInput text
  return String.join ((← allTokens).map tokenLine)

def onFirst {α : Type} (act : Scan α) : Scan α := do
  let s ← get
  match s.earlier.getLast? with
  | none => act
  | some first =>
    let (r,s') := act.run { s with now := first, earlier := [] }
    set { s with earlier := s.earlier.dropLast ++ [s'.now], stack := s'.stack, calls := s'.calls }
    match r with
    | .ok a => return a
    | .error e => throw e

def source : Grammar.Source Session where
  next := next
  line s := s.now.line
  pos s := s.now.pos

end BxToolchain.Scanner
