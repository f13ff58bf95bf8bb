import BxToolchain.Grammar.Machine
import BxToolchain.Grammar.Rules
import BxToolchain.Workshop

namespace BxToolchain.Grammar

inductive Definition where
  | function (line : Int) (doc : Option String) (params : Int) (semantics : Semantics)
  | text

inductive HandlerDefinition where
  | function (h : Handler)
  | noParameters
  | notFunction
  | missing

structure Description where
  tokens : Option Datum := none
  precedence : Option Datum := none
  start : Option Datum := none
  definitions : List (String × Definition) := []
  handler : HandlerDefinition := .function .report
  startOverride : Option Datum := none
  checkRecursion : Bool := true
  debug : Bool := false
  listingFile : Option String := none
  moduleText : Option String := none

def moduleFile : String := "gram.py"

open Work

def Description.sorted (d : Description) : List (String × Definition) :=
  (Table.ofList d.definitions).entries.mergeSort fun a b => a.1 ≤ b.1

structure RuleFunction where
  name : String
  line : Int
  doc : Option String
  params : Int
  semantics : Semantics

def startsWith (s start : String) : Bool := start.toList.isPrefixOf s.toList

def ruleFunctions (d : Description) : List RuleFunction :=
  (d.sorted.filterMap fun (name,x) =>
    if !startsWith name "p_" || name == "p_error" then none
    else
      match x with
      | .function line doc params semantics => some ⟨name,line,doc,params,semantics⟩
      | .text => none).mergeSort fun a b => a.line < b.line || (a.line == b.line && a.name ≤ b.name)

def Description.startSymbol (d : Description) : Option Datum := d.startOverride <|> d.start

def tokenNames (d : Description) : Work (List String) := do
  let t := d.tokens.getD .null
  if !t.truthy then
    complain "No token list is defined"
    return []
  match t with
  | .list items =>
    match items.mapM Datum.str? with
    | some names => return names.mergeSort (· ≤ ·)
    | none => throw .wrongKind
  | _ =>
    complain "tokens must be a list or tuple"
    return []

def checkStart (d : Description) : Work Unit := do
  match d.startSymbol with
  | none | some .null | some (.str _) => return ()
  | some _ => modify fun w => { w with log := w.log.push "ERROR: 'start' must be a string" }

def checkHandler (d : Description) : Work Unit := do
  match d.handler with
  | .notFunction => complain "'p_error' defined, but is not a function or method"
  | .noParameters => complain (moduleFile ++ ":1: p_error() requires 1 argument")
  | _ => return ()

def checkTokens : List String → List String → Work Unit
  | _, [] => return ()
  | seen, t :: rest => do
    if seen.contains t then warn ("Token " ++ Text.quote t ++ " multiply defined")
    checkTokens (t :: seen) rest

structure Level where
  assoc : String
  terminals : List String

def precedenceLevels (d : Description) : Work (List Level) := do
  let p := d.precedence.getD .null
  if !p.truthy then return []
  match p with
  | .list levels => readLevels levels
  | _ =>
    complain "precedence must be a list or tuple"
    return []
where
  readLevels : List Datum → Work (List Level)
    | [] => return []
    | level :: rest => do
      match level with
      | .list (assoc :: terms) =>
        if terms.isEmpty then
          malformed level
          return []
        match assoc with
        | .str a =>
          match terms.mapM Datum.str? with
          | some names => return ⟨a,names⟩ :: (← readLevels rest)
          | none =>
            complain "precedence items must be strings"
            return []
        | _ =>
          complain "precedence associativity must be a string"
          return []
      | .list [] =>
        malformed level
        return []
      | _ =>
        complain "Bad precedence table"
        return []
  malformed (level : Datum) : Work Unit :=
    complain ("Malformed precedence entry " ++ level.render ++ ". Must be (assoc, term, ..., term)")

def functionRules (f : RuleFunction) : Work (List (String × Alternative)) := do
  let place := moduleFile ++ ":" ++ Text.decimal f.line
  if f.params > 1 then
    complain (place ++ ": Rule " ++ Text.quote f.name ++ " has too many arguments")
    return []
  if f.params < 1 then
    complain (place ++ ": Rule " ++ Text.quote f.name ++ " requires an argument")
    return []
  match f.doc with
  | none | some "" =>
    warn (place ++ ": No documentation string specified in function " ++ Text.quote f.name ++
      " (ignored)")
    return []
  | some doc =>
    match readRules moduleFile f.line doc with
    | .ok alternatives => return alternatives.map fun a => (f.name,a)
    | .error e =>
      complain e.message
      return []

def checkLookalike (name : String) (x : Definition) : Work Unit := do
  match x with
  | .text =>
    if startsWith name "p_" && name != "p_error" then
      warn (Text.quote name ++ " not defined as a function")
  | .function line doc params _ =>
    if startsWith name "p_" || startsWith name "t_" || params ≠ 1 then return ()
    if (Text.splitOnChar ' ' (doc.getD ""))[1]? = some ":" then
      warn (moduleFile ++ ":" ++ Text.decimal line ++ ": Possible grammar rule " ++
        Text.quote name ++ " defined without p_ prefix")

def collectRules (d : Description) : Work (List (String × Alternative)) := do
  let functions := ruleFunctions d
  if functions.isEmpty then
    complain "no rules of the form p_rulename are defined"
    return []
  let rules ← functions.mapM functionRules
  for (name,x) in d.sorted do checkLookalike name x
  return rules.flatten

def isFunctionChar (c : Char) : Bool := c.isAlphanum || c = '_'

def definedFunction? (line : String) : Option String := do
  let cs := line.toList.dropWhile Text.isBlank
  let rest ← if ['d','e','f'].isPrefixOf cs then some (cs.drop 3) else none
  let body := rest.dropWhile Text.isBlank
  if body.length == rest.length then none
  let name := body.takeWhile isFunctionChar
  if ['p','_'].isPrefixOf name && (body.drop name.length).head? == some '(' then
    some (String.ofList name)
  else none

def checkModule (d : Description) : Work Unit := do
  let mut seen : Table String Nat := {}
  for (line,n) in (Text.fileLines (d.moduleText.getD "")).zipIdx do
    if let some name := definedFunction? line then
      match seen.get? name with
      | none => seen := seen.insert name (n + 1)
      | some previous =>
        warn (moduleFile ++ ":" ++ toString (n + 1) ++ ": Function " ++ name ++
          " redefined. Previously defined on line " ++ toString previous)

def readsModule (d : Description) : Bool :=
  (match d.handler with
    | .function _ | .noParameters => true
    | _ => false) ||
  (ruleFunctions d).any fun f => f.params = 1 && f.doc.any (· != "")

def attempt (g : Grammar) (step : Build Unit) (report : String → Work Unit) : Work Grammar := do
  let (r,g) := step.run g
  match r with
  | .ok _ => return g
  | .error (.grammarDefect d) =>
    report d.message
    return g
  | .error e => throw e

def setStartSymbol (s : Option Datum) : Build Unit :=
  match s with
  | none => setStart none
  | some (.str "") => setStart none
  | some (.str s) => setStart (some s)
  | some d =>
    if !d.truthy then setStart none
    else
      match d with
      | .list _ | .tuple _ | .record _ => throw .wrongKind
      | _ => fail (.undefinedStart d.display)

def joinNumbers (ns : List Nat) : String := " ".intercalate (ns.map toString)

def listGrammar (g : Grammar) : Work Unit := do
  list ""
  list "Terminals, with rules where they appear"
  list ""
  for (t,uses) in g.terminals.entries.mergeSort fun a b => a.1 ≤ b.1 do
    list (Text.padRight 20 t ++ " : " ++ joinNumbers uses)
  list ""
  list "Nonterminals, with rules where they appear"
  list ""
  for (n,uses) in g.nonterminals.entries.mergeSort fun a b => a.1 ≤ b.1 do
    list (Text.padRight 20 n ++ " : " ++ joinNumbers uses)
  list ""

def inspect (d : Description) (g : Grammar) : Work Unit := do
  for (s,p) in g.undefinedSymbols do
    complain (p.place.text ++ ": Symbol " ++ Text.quote s ++
      " used, but not defined as a token or a rule")
  let unused := g.unusedTerminals
  unless unused.isEmpty do
    list ""
    list "Unused terminals:"
    list ""
    for t in unused do
      warn ("Token " ++ Text.quote t ++ " defined, but not used")
      list ("    " ++ t)
  if d.debug then
    list ""
    list "Grammar"
    list ""
    for (p,n) in g.productions.zipIdx do
      list ("Rule " ++ Text.padRight 5 (toString n) ++ " " ++ (p.map Production.text).getD "None")
  let idle := g.unusedRules
  for p in idle do
    warn (p.place.text ++ ": Rule " ++ Text.quote p.name ++ " defined, but not used")
  if unused.length = 1 then warn "There is 1 unused token"
  if unused.length > 1 then warn ("There are " ++ toString unused.length ++ " unused tokens")
  if idle.length = 1 then warn "There is 1 unused rule"
  if idle.length > 1 then warn ("There are " ++ toString idle.length ++ " unused rules")
  if d.debug then listGrammar g
  if d.checkRecursion then
    let (r,_) := (unreachableSymbols g).run g
    for s in (match r with
      | .ok symbols => symbols
      | .error _ => []) do
      warn ("Symbol " ++ Text.quote s ++ " is unreachable")
    for s in g.endlessSymbols do
      complain ("Infinite recursion detected for symbol " ++ Text.quote s)
  for (t,assoc) in g.unusedPrecedence do
    complain ("Precedence rule " ++ Text.quote assoc.name ++ " defined for unknown symbol " ++
      Text.quote t)

def conflictCount (n : Nat) (kind : String) : Work Unit := do
  if n = 1 then warn ("1 " ++ kind ++ " conflict")
  if n > 1 then warn (toString n ++ " " ++ kind ++ " conflicts")

def reportConflicts (t : Progress) : Work Unit := do
  conflictCount t.shiftReduce.size "shift/reduce"
  conflictCount t.reduceReduce.size "reduce/reduce"
  if t.shiftReduce.isEmpty && t.reduceReduce.isEmpty then return ()
  let both (s : String) : Work Unit := do
    list ("WARNING: " ++ s)
    warn s
  list "WARNING: "
  list "WARNING: Conflicts:"
  list "WARNING: "
  for c in t.shiftReduce do
    list ("WARNING: shift/reduce conflict for " ++ c.terminal ++ " in state " ++ toString c.state ++
      " resolved as " ++ c.resolution.name)
  for c in t.reduceReduce.toList.eraseDups do
    both ("reduce/reduce conflict in state " ++ toString c.state ++ " resolved using rule (" ++
      c.chosen.text ++ ")")
    both ("rejected rule (" ++ c.rejected.text ++ ") in state " ++ toString c.state)
  for p in (t.reduceReduce.toList.map ReduceReduce.rejected).eraseDups do
    if t.reduced.getD p.number 0 = 0 then both ("Rule (" ++ p.text ++ ") is never reduced")

structure Built where
  parser : Parser
  tables : Progress

def banner : String := "Created by PLY (http://www.dabeaz.com/ply)"

def openError? (name : String) : Option String :=
  if name.isEmpty || name.toList.contains '/' then
    some ("[Errno 2] No such file or directory: " ++ Text.quote name)
  else none

def readDescription (d : Description) : Work Grammar := do
  let tokens ← tokenNames d
  checkpoint .parserNotBuilt
  if d.debug then
    if let some why := d.listingFile.bind openError? then
      warn ("Couldn't open " ++ Text.quote (d.listingFile.getD "") ++ ". " ++ why)
  list banner
  checkStart d
  checkHandler d
  if tokens.contains "error" then complain "Illegal token name 'error'. Is a reserved word"
  else checkTokens [] tokens
  let levels ← precedenceLevels d
  let rules ← collectRules d
  if readsModule d then checkModule d
  checkpoint .parserNotBuilt
  if let .missing := d.handler then warn "no p_error() function is defined"
  let mut g := ofTerminals tokens
  for (level,n) in levels.zipIdx do
    for t in level.terminals do
      g ← attempt g (setPrecedence t level.assoc (n + 1)) warn
  for (rule,a) in rules do
    g ← attempt g (addProduction a.name a.words rule a.place) complain
  g ← attempt g (setStartSymbol d.startSymbol) complain
  checkpoint .parserNotBuilt
  return g

def ruleTable (d : Description) : Table String Rule :=
  .ofList ((ruleFunctions d).map fun f => (f.name,{ name := f.name, semantics := f.semantics }))

def buildParser (d : Description) : Work Built := do
  let g ← readDescription d
  inspect d g
  checkpoint .parserNotBuilt
  let (r,g) := tables.run g
  match r with
  | .error e => throw e
  | .ok (t,failure) =>
    for line in t.listing do list line
    if let some e := failure then throw e
    if d.debug then reportConflicts t
    match defaultReductions t.rows with
    | .error e => throw e
    | .ok defaults =>
      let handler := match d.handler with
        | .function h => h
        | _ => .absent
      return {
        parser :=
          { productions := g.allProductions, rows := t.rows, defaults, handler, rules := ruleTable d }
        tables := t }

def Description.keepsListing (d : Description) : Bool :=
  d.debug && (d.listingFile.bind openError?).isNone

def Description.build (d : Description) : Except Fault Built × Workshop :=
  let (r,w) := (buildParser d).run {}
  (r,if d.keepsListing then w else { w with listing := #[] })

def joinParts : List (Option String) → String
  | [] => ""
  | none :: _ => ""
  | some s :: rest => s ++ joinParts rest

def levelText? : Datum → Option String
  | .str s => some s
  | .list items => (items.mapM Datum.str?).map String.join
  | _ => none

def Description.signature (d : Description) : Except Fault String × Array String :=
  let (r,w) := (tokenNames d).run {}
  match r with
  | .error e => (.error e,w.log)
  | .ok tokens =>
    let start := match d.startSymbol with
      | some (.str s) => [some s]
      | _ => []
    let prec := match d.precedence with
      | some (.list levels) =>
        if levels.isEmpty then [] else [(levels.mapM levelText?).map String.join]
      | some (.str s) => [some s]
      | some x => if x.truthy then [none] else []
      | none => []
    let names := if tokens.isEmpty then [] else [some (" ".intercalate tokens)]
    let docs := (ruleFunctions d).filterMap fun f =>
      f.doc.bind fun s => if s.isEmpty then none else some (some s)
    (.ok (joinParts (start ++ prec ++ names ++ docs)),w.log)

end BxToolchain.Grammar
