import BxToolchain.Grammar.Tables
import BxToolchain.Grammar.Value

namespace BxToolchain.Grammar

inductive Semantics where
  | tree
  | first
  | spans
  | inherit
  | place (n : Datum)
  | recover
  | refuse
  | refuseOn (d : Datum)

inductive Handler where
  | report
  | resume
  | skipTo (kinds : List String)
  | restart
  | absent

structure Rule where
  name : String
  semantics : Semantics := .tree

structure Parser where
  productions : List Production
  rows : Array Row
  defaults : Table Nat Nat
  handler : Handler
  rules : Table String Rule

structure Source (σ : Type) where
  next : Run σ (Option Token)
  line : σ → Int
  pos : σ → Int

structure Symbol where
  kind : String
  value : Option Value := none
  line : Option Int := none
  pos : Option Int := none
  endLine : Option Int := none
  endPos : Option Int := none
  token : Option Token := none

def Symbol.ofToken (t : Token) : Symbol :=
  { kind := t.kind, value := some (.datum t.value), line := t.line, pos := some t.pos,
    token := some t }

def Symbol.end : Symbol := { kind := endMark }

def Symbol.text (s : Symbol) : Except Fault String :=
  match s.token with
  | some t => t.text
  | none => .ok s.kind

structure Machine (σ : Type) where
  source : σ
  states : List Nat := [0]
  symbols : List Symbol := [Symbol.end]
  state : Nat := 0
  lookahead : Option Symbol := none
  pushed : List (Option Symbol) := []
  silent : Nat := 0
  errorOk : Bool := true
  output : String := ""
  reduced : Array String := #[]
  errors : Array (Option (String × Value × Option Int)) := #[]

def recoveryLength : Nat := 3

structure Options where
  tracking : Bool := false
  debug : Bool := false

namespace Machine

variable {σ : Type}

abbrev Op (σ : Type) := Run (Machine σ)

def lift {α : Type} : Except Fault α → Op σ α
  | .ok a => pure a
  | .error e => throw e

def need {α : Type} (e : Fault) : Option α → Op σ α
  | some a => pure a
  | none => throw e

def write (s : String) : Op σ Unit := modify fun m => { m with output := m.output ++ s }

def trace (o : Options) (line : Op σ String) : Op σ Unit := do
  if o.debug then write ((← line) ++ "\n")

def readToken (src : Source σ) : Op σ (Option Token) := do
  let m ← get
  let (r,s) := src.next.run m.source
  set { m with source := s }
  lift r

def fetch (src : Source σ) : Op σ Symbol := do
  let m ← get
  match m.lookahead with
  | some s => return s
  | none =>
    let s ← match m.pushed with
      | s :: rest =>
        set { m with pushed := rest }
        pure s
      | [] => return ← keep ((← readToken src).map Symbol.ofToken)
    keep s
where
  keep (s : Option Symbol) : Op σ Symbol := do
    let s := s.getD Symbol.end
    modify fun m => { m with lookahead := some s }
    return s

def stackText : Op σ String := do
  let m ← get
  let below := (m.symbols.reverse.drop 1).map Symbol.kind
  let ahead ← match m.lookahead with
    | some s => lift s.text
    | none => pure "None"
  let text := " ".intercalate below ++ " . " ++ ahead
  return String.ofList (text.toList.dropWhile Text.isBlank)

def values (right : List Symbol) : Op σ (List Value) :=
  right.mapM fun s => need .missingPart s.value

def node (left : Symbol) (right : List Symbol) : Op σ Value := do
  return .list (.str left.kind :: (← values right))

def spanOf (s : Symbol) : Value :=
  let line := s.line.getD 0
  let pos := s.pos.getD 0
  .list [.tuple [.int line,.int (s.endLine.getD line)],.tuple [.int pos,.int (s.endPos.getD pos)],
    .int line,.int pos]

inductive Outcome where
  | ok (left : Symbol)
  | refused

def evaluate (rule : Rule) (left : Symbol) (right : List Symbol) : Op σ Outcome := do
  modify fun m => { m with reduced := m.reduced.push rule.name }
  let tree : Op σ Outcome := do return .ok { left with value := some (← node left right) }
  match rule.semantics with
  | .tree => tree
  | .first => do
    let s ← need .outOfRange right.head?
    return .ok { left with value := some (← need .missingPart s.value) }
  | .spans => do
    let vs ← values right
    return .ok { left with value := some (.list [.str left.kind,.int (left.line.getD 0),
      .int (left.pos.getD 0),.list (right.map spanOf),.list vs]) }
  | .inherit => do
    let s ← need .outOfRange (← get).symbols.head?
    let below ← need .missingPart s.value
    return .ok { left with value := some (.list (.str left.kind :: below :: (← values right))) }
  | .place d => do
    let n ← need .wrongKind d.int?
    let left := { left with line := some n, pos := some (n + 1) }
    return .ok { left with value := some (← node left right) }
  | .recover => do
    modify fun m => { m with errorOk := true }
    tree
  | .refuse => return .refused
  | .refuseOn d => do
    let vs ← values right
    if vs.any (·.isDatum d) then return .refused
    tree

def goto (p : Parser) (state : Nat) (name : String) : Op σ Nat := do
  let row ← need (.missingKey (toString state)) p.rows[state]?
  need (.missingKey (Text.quote name)) (row.targets.get? name)

def top : Op σ Nat := do need .outOfRange (← get).states.head?

def pushSymbol (p : Parser) (s : Symbol) : Op σ Unit := do
  modify fun m => { m with symbols := s :: m.symbols }
  let n ← goto p (← top) s.kind
  modify fun m => { m with state := n, states := n :: m.states }

def refuse (left : Symbol) : Op σ Unit := do
  modify fun m => { m with pushed := m.lookahead :: m.pushed, states := m.states.drop 1 }
  let n ← top
  modify fun m => { m with
    state := n
    lookahead := some { left with kind := "error", value := some (.str "error") }
    silent := recoveryLength
    errorOk := false }

def track (left : Symbol) (right : List Symbol) : Op σ Symbol := do
  match right.head?, right.getLast? with
  | some a, some b => do
    let line ← need .missingPart a.line
    let pos ← need .missingPart a.pos
    let endLine ← need .missingPart (b.endLine <|> b.line)
    let endPos ← need .missingPart (b.endPos <|> b.pos)
    if b.line.isNone || b.pos.isNone then throw .missingPart
    return { left with line, pos, endLine, endPos }
  | _, _ => throw .outOfRange

def showReduction (p : Parser) (o : Options) (prod : Production) : Op σ Unit :=
  trace o do
    let m ← get
    let n := prod.symbols.length
    let shown ← (m.symbols.take n).reverse.mapM fun s => do
      lift (← need .missingPart s.value).brief
    let below ← need .outOfRange m.states[n]?
    let target ← goto p below prod.name
    return "Action : Reduce rule [" ++ prod.text ++ "] with [" ++ ",".intercalate shown ++
      "] and goto state " ++ toString target

def showResult (o : Options) (s : Symbol) : Op σ Unit :=
  trace o do return "Result : " ++ (← lift (s.value.getD .null).summary)

def reduce (src : Source σ) (p : Parser) (o : Options) (number : Nat) : Op σ Unit := do
  let prod ← need .outOfRange (p.productions[number]?)
  let rule ← need .wrongKind (p.rules.get? prod.rule)
  showReduction p o prod
  let n := prod.symbols.length
  let left : Symbol := { kind := prod.name, value := some .null }
  let m ← get
  if n = 0 then
    let left := if o.tracking then
      { left with line := some (src.line m.source), pos := some (src.pos m.source) } else left
    match ← evaluate rule left [] with
    | .ok s =>
      showResult o s
      pushSymbol p s
    | .refused => refuse left
  else
    let right := ((m.symbols.take (n + 1)).reverse).drop 1
    let left ← if o.tracking then track left right else pure left
    modify fun m => { m with symbols := m.symbols.drop n }
    match ← evaluate rule left right with
    | .ok s =>
      modify fun m => { m with states := m.states.drop n }
      showResult o s
      pushSymbol p s
    | .refused =>
      modify fun m => { m with symbols := right.dropLast.reverse ++ m.symbols }
      refuse left

def skipTo (src : Source σ) (kinds : List String) : Nat → Op σ (Option Token)
  | 0 => return none
  | fuel + 1 => do
    match ← readToken src with
    | none => return none
    | some t => if kinds.contains t.kind then return some t else skipTo src kinds fuel

def stepLimit : Nat := 10000000

def allowErrors : Op σ Unit := modify fun m => { m with errorOk := true }

def handle (src : Source σ) (h : Handler) (ahead : Symbol) : Op σ (Option Token) := do
  let atEnd := ahead.kind == endMark
  let entry ← if atEnd then pure none
    else do
      let v ← need .missingPart ahead.value
      pure (some (ahead.kind,v,ahead.line))
  modify fun m => { m with errors := m.errors.push entry }
  match h with
  | .resume =>
    if atEnd then return none
    allowErrors
    readToken src
  | .skipTo kinds =>
    if atEnd then return none
    let t ← skipTo src kinds stepLimit
    allowErrors
    return t
  | .restart =>
    modify fun m => { m with states := [0], symbols := [Symbol.end] }
    return none
  | _ => return none

def complaint (ahead : Symbol) : String :=
  if ahead.kind == endMark then "yacc: Parse error in input. EOF\n"
  else
    match ahead.line with
    | some n =>
      if n ≠ 0 then "yacc: Syntax error at line " ++ Text.decimal n ++ ", token=" ++ ahead.kind ++ "\n"
      else "yacc: Syntax error, token=" ++ ahead.kind
    | none => "yacc: Syntax error, token=" ++ ahead.kind

inductive Verdict where
  | goOn
  | stop (result : Value)

def recover (o : Options) (ahead : Symbol) : Op σ Verdict := do
  let m ← get
  if m.states.length ≤ 1 && ahead.kind != endMark then
    set { m with lookahead := none, state := 0, pushed := [] }
    return .goOn
  if ahead.kind == endMark then return .stop .null
  if ahead.kind != "error" then
    match m.symbols with
    | [] => throw .outOfRange
    | s :: below =>
      if s.kind == "error" then
        let s ← if o.tracking then do
            let endLine ← need .missingPart (ahead.line <|> s.line)
            let endPos ← need .missingPart (ahead.pos <|> s.pos)
            if s.line.isNone || s.pos.isNone then throw .missingPart
            pure { s with endLine := some endLine, endPos := some endPos }
          else pure s
        set { m with symbols := s :: below, lookahead := none }
      else
        let e : Symbol :=
          { kind := "error", value := ahead.token.map .token, line := ahead.line, pos := ahead.pos,
            endLine := ahead.line, endPos := ahead.pos }
        set { m with pushed := some ahead :: m.pushed, lookahead := some e }
      return .goOn
  else
    match m.symbols with
    | [] => throw .outOfRange
    | s :: below =>
      set { m with symbols := below }
      if o.tracking then
        let line ← need .missingPart s.line
        let moved := { ahead with line := some line }
        modify fun m => { m with lookahead := some moved }
        let pos ← need .missingPart s.pos
        let moved := { ahead with line := some line, pos := some pos }
        modify fun m => { m with lookahead := some moved }
      modify fun m => { m with states := m.states.drop 1 }
      let n ← top
      modify fun m => { m with state := n }
      return .goOn

def error (src : Source σ) (p : Parser) (o : Options) : Op σ Verdict := do
  let m ← get
  let ahead := m.lookahead.getD Symbol.end
  trace o do return "ERROR: Error  : " ++ (← stackText)
  if m.silent = 0 || m.errorOk then
    modify fun m => { m with silent := recoveryLength, errorOk := false }
    match p.handler with
    | .absent =>
      write (complaint ahead)
      if ahead.kind == endMark then return .stop .null
    | h =>
      let t ← handle src h ahead
      if (← get).errorOk then
        modify fun m => { m with lookahead := t.map Symbol.ofToken }
        return .goOn
  else
    modify fun m => { m with silent := recoveryLength }
  recover o ahead

def step (src : Source σ) (p : Parser) (o : Options) : Op σ Verdict := do
  let state := (← get).state
  trace o (pure ("State  : " ++ toString state))
  let action ← match p.defaults.get? state with
    | some n => do
      trace o (pure ("Defaulted state " ++ toString state ++ ": Reduce using " ++ toString n))
      pure (some (Action.reduce n))
    | none => do
      let ahead ← fetch src
      let row ← need (.missingKey (toString state)) p.rows[state]?
      pure (row.actions.get? ahead.kind)
  trace o do return "Stack  : " ++ (← stackText)
  match action with
  | some (.shift n) =>
    trace o (pure ("Action : Shift and goto state " ++ toString n))
    modify fun m => { m with
      states := n :: m.states
      state := n
      symbols := m.lookahead.getD Symbol.end :: m.symbols
      lookahead := none
      silent := m.silent - 1 }
    return .goOn
  | some (.reduce n) =>
    reduce src p o n
    return .goOn
  | some .accept =>
    let s ← need .outOfRange (← get).symbols.head?
    let v := s.value.getD .null
    trace o do return "Done   : Returning " ++ (← lift v.summary)
    trace o (pure "PLY: PARSE DEBUG END")
    return .stop v
  | some .refuse => error src p o
  | none => error src p o

def runSteps (src : Source σ) (p : Parser) (o : Options) : Nat → Op σ Value
  | 0 => return .null
  | fuel + 1 => do
    match ← step src p o with
    | .goOn => runSteps src p o fuel
    | .stop v => return v

end Machine

def Parser.parse {σ : Type} (p : Parser) (src : Source σ) (o : Options) (start : Machine σ) :
    Except Fault Value × Machine σ :=
  (do
    Machine.trace o (pure "PLY: PARSE DEBUG START")
    Machine.runSteps src p o Machine.stepLimit).run start

end BxToolchain.Grammar
