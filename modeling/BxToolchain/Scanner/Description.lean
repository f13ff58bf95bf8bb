import BxToolchain.Regex.Pattern
import BxToolchain.Scanner.Basic
import BxToolchain.Workshop

namespace BxToolchain.Scanner

inductive Definition where
  | pattern (text : String)
  | function (line : Int) (pattern : Option String) (params : Int) (steps : List Step)
  | other

structure Description where
  tokens : Option Datum := none
  literals : Option Datum := none
  states : Option Datum := none
  definitions : List (String × Definition) := []
  givenOrder : Bool := false
  debug : Bool := false
  oneLog : Bool := false
  moduleText : Option String := none

def moduleFile : String := "lexmod.py"

open Work

def Description.effective (d : Description) : List (String × Definition) :=
  let entries := (Table.ofList d.definitions).entries
  if d.givenOrder then entries else entries.mergeSort fun a b => a.1 ≤ b.1

inductive StateKind where
  | inclusive
  | exclusive
  deriving DecidableEq, Repr

def StateKind.name : StateKind → String
  | .inclusive => "inclusive"
  | .exclusive => "exclusive"

def StateKind.ofName? : Datum → Option StateKind
  | .str "inclusive" => some .inclusive
  | .str "exclusive" => some .exclusive
  | _ => none

abbrev States := Table String StateKind

def splitName (states : List String) (name : String) : Except Fault (List String × String) :=
  match Text.splitOnChar '_' name with
  | [] | [_] => .error .unset
  | _ :: parts =>
    let named := parts.dropLast.takeWhile fun p => states.contains p || p == "ANY"
    let chosen := if named.isEmpty then [firstState] else
      if named.contains "ANY" then states else named
    .ok (chosen,"_".intercalate (parts.drop named.length))

structure FunctionRule where
  name : String
  line : Int
  pattern : Option String
  params : Int
  steps : List Step

structure PatternRule where
  name : String
  pattern : String

structure Rules where
  tokenNames : Table String String := {}
  functions : Table String (List FunctionRule) := {}
  patterns : Table String (List PatternRule) := {}
  ignored : Table String String := {}
  onIllegal : Table String FunctionRule := {}
  atEnd : Table String FunctionRule := {}

def Rules.functionsIn (r : Rules) (state : String) : List FunctionRule :=
  (r.functions.get? state).getD []

def Rules.patternsIn (r : Rules) (state : String) : List PatternRule :=
  (r.patterns.get? state).getD []

def setAll {β : Type} (t : Table String β) (states : List String) (v : β) : Table String β :=
  states.foldl (fun t s => t.insert s v) t

def addAll {β : Type} (t : Table String (List β)) (states : List String) (v : β) :
    Table String (List β) :=
  states.foldl (fun t s => t.insert s ((t.get? s).getD [] ++ [v])) t

def readTokens (d : Description) : Work (List Datum) := do
  let t := d.tokens.getD .null
  if !t.truthy then
    complain "No token list is defined"
    return []
  match t with
  | .list names => return names
  | _ =>
    complain "tokens must be a list or tuple"
    return []

def readLiterals (d : Description) : Datum :=
  let l := d.literals.getD .null
  if l.truthy then l else .str ""

def showSpecifier : Datum → String
  | .list [x] => "(" ++ x.render ++ ",)"
  | .list xs => "(" ++ ", ".intercalate (xs.map Datum.render) ++ ")"
  | x => x.render

def addState (known : States) (specifier : Datum) : Work States := do
  match specifier with
  | .list [name,kind] =>
    match name with
    | .str s =>
      match StateKind.ofName? kind with
      | none =>
        complain ("State type for state " ++ Text.quote s ++
          " must be 'inclusive' or 'exclusive'")
        return known
      | some k =>
        if known.contains s then
          complain ("State " ++ Text.quote s ++ " already defined")
          return known
        return known.insert s k
    | _ =>
      complain ("State name " ++ name.render ++ " must be a string")
      return known
  | _ =>
    complain ("Invalid state specifier " ++ showSpecifier specifier ++
      ". Must be a tuple (statename,'exclusive|inclusive')")
    return known

def readStates (d : Description) : Work States := do
  let first : States := .ofList [(firstState,.inclusive)]
  let s := d.states.getD .null
  if !s.truthy then return first
  match s with
  | .list specifiers => specifiers.foldlM addState first
  | _ =>
    complain "states must be defined as a tuple or list"
    return first

def isRuleName (name : String) : Bool := ['t','_'].isPrefixOf name.toList

def place (line : Int) : String := moduleFile ++ ":" ++ Text.decimal line

def addRule (states : List String) (r : Rules) (name : String) (x : Definition) : Work Rules := do
  match splitName states name with
  | .error e => throw e
  | .ok (chosen,token) =>
    let r := { r with tokenNames := r.tokenNames.insert name token }
    match x with
    | .function line pattern params steps =>
      let f : FunctionRule := { name, line, pattern, params, steps }
      match token with
      | "error" => return { r with onIllegal := setAll r.onIllegal chosen f }
      | "eof" => return { r with atEnd := setAll r.atEnd chosen f }
      | "ignore" =>
        complain (place line ++ ": Rule " ++ Text.quote name ++ " must be defined as a string")
        return r
      | _ => return { r with functions := addAll r.functions chosen f }
    | .pattern text =>
      match token with
      | "ignore" =>
        if text.contains '\\' then warn (name ++ " contains a literal backslash '\\'")
        return { r with ignored := setAll r.ignored chosen text }
      | "error" =>
        complain ("Rule " ++ Text.quote name ++ " must be defined as a function")
        return r
      | _ => return { r with patterns := addAll r.patterns chosen ⟨name,text⟩ }
    | .other =>
      complain (name ++ " not defined as a function or string")
      return r

def readRules (d : Description) (states : List String) : Work Rules := do
  let definitions := d.effective.filter fun e => isRuleName e.1
  if definitions.isEmpty then
    complain "No rules of the form t_rulename are defined"
    return {}
  let r ← definitions.foldlM (fun r e => addRule states r e.1 e.2) ({} : Rules)
  return { r with
    functions := r.functions.mapValues fun fs => fs.mergeSort fun a b => a.line ≤ b.line
    patterns := r.patterns.mapValues fun ps =>
      ps.mergeSort fun a b => b.pattern.length ≤ a.pattern.length }

def isNameChar (c : Char) : Bool := c.isAlphanum || c = '_'

def isTokenName (name : String) : Bool :=
  let body := name.toList.takeWhile isNameChar
  let rest := name.toList.drop body.length
  !body.isEmpty && (rest.isEmpty || rest = ['\n'])

def checkTokens : List String → List Datum → Work Unit
  | _, [] => return ()
  | seen, .str t :: rest => do
    unless isTokenName t do complain ("Bad token name " ++ Text.quote t)
    if seen.contains t then warn ("Token " ++ Text.quote t ++ " multiply defined")
    checkTokens (t :: seen) rest
  | _, _ => throw .wrongKind

def checkLiterals (literals : Datum) : Work Unit := do
  match literals with
  | .str _ => return ()
  | .list items =>
    for x in items do
      match x with
      | .str s => if s.length > 1 then bad x
      | _ => bad x
  | .record fields => for (k,_) in fields do if k.length > 1 then bad (.str k)
  | _ => complain "Invalid literals specification. literals must be a sequence of characters"
where
  bad (x : Datum) : Work Unit :=
    complain ("Invalid literal " ++ x.render ++ ". Must be a single character")

def groupText (name pattern : String) : String := "(?P<" ++ name ++ ">" ++ pattern ++ ")"

def groupRegex (name pattern : String) : Except Regex.Defect Regex :=
  Regex.ofPattern (groupText name pattern).toList

def checkParams (f : FunctionRule) : Work Bool := do
  if f.params > 1 then
    complain (place f.line ++ ": Rule " ++ Text.quote f.name ++ " has too many arguments")
    return false
  if f.params < 1 then
    complain (place f.line ++ ": Rule " ++ Text.quote f.name ++ " requires an argument")
    return false
  return true

def checkFunction (f : FunctionRule) : Work Unit := do
  let shown := Text.quote f.name
  if ← checkParams f then
    let pattern := f.pattern.getD ""
    if pattern.isEmpty then
      complain (place f.line ++ ": No regular expression defined for rule " ++ shown)
    else
      match groupRegex f.name pattern with
      | .ok r =>
        if r.matchesEmpty then
          complain (place f.line ++ ": Regular expression for rule " ++ shown ++
            " matches empty string")
      | .error e =>
        complain (place f.line ++ ": Invalid regular expression for rule '" ++ f.name ++ "'. " ++
          e.message (groupText f.name pattern).toList)
        if pattern.contains '#' then
          complain (place f.line ++ ". Make sure '#' in rule " ++ shown ++
            " is escaped with '\\#'")

def occursIn (part : List Char) : List Char → Bool
  | [] => part.isEmpty
  | c :: rest => part.isPrefixOf (c :: rest) || occursIn part rest

def ignoreMark : List Char := "ignore_".toList

def checkPattern (tokens : List Datum) (names : Table String String) (p : PatternRule) :
    Work Unit := do
  let token := (names.get? p.name).getD ""
  let shown := Text.quote p.name
  if !(tokens.any fun t => t.same (.str token)) && !occursIn ignoreMark token.toList then
    complain ("Rule " ++ shown ++ " defined for an unspecified token " ++ token)
  else
    match groupRegex p.name p.pattern with
    | .ok r =>
      if r.matchesEmpty then
        complain ("Regular expression for rule " ++ shown ++ " matches empty string")
    | .error e =>
      complain ("Invalid regular expression for rule " ++ shown ++ ". " ++
        e.message (groupText p.name p.pattern).toList)
      if p.pattern.contains '#' then
        complain ("Make sure '#' in rule " ++ shown ++ " is escaped with '\\#'")

def definedRule? (line : String) : Option String :=
  let cs := line.toList.dropWhile Text.isBlank
  let functionName := do
    let rest ← if ['d','e','f'].isPrefixOf cs then some (cs.drop 3) else none
    let body := rest.dropWhile Text.isBlank
    if body.length == rest.length then none
    named body fun after => after.head? == some '('
  functionName <|> named cs fun after => (after.dropWhile Text.isBlank).head? == some '='
where
  named (cs : List Char) (followed : List Char → Bool) : Option String :=
    let name := cs.takeWhile isNameChar
    if ['t','_'].isPrefixOf name && followed (cs.drop name.length) then some (String.ofList name)
    else none

def checkModule (d : Description) : Work Unit := do
  let mut seen : Table String Nat := {}
  for (line,n) in (Text.fileLines (d.moduleText.getD "")).zipIdx do
    if let some name := definedRule? line then
      match seen.get? name with
      | none => seen := seen.insert name (n + 1)
      | some previous =>
        complain (moduleFile ++ ":" ++ toString (n + 1) ++ ": Rule " ++ name ++
          " redefined. Previously defined on line " ++ toString previous)

def checkRules (d : Description) (states : States) (tokens : List Datum) (r : Rules) :
    Work Unit := do
  let mut readsModule := false
  for state in states.keys do
    let functions := r.functionsIn state
    let patterns := r.patternsIn state
    for f in functions do
      readsModule := true
      checkFunction f
    for p in patterns do checkPattern tokens r.tokenNames p
    if functions.isEmpty && patterns.isEmpty then
      complain ("No rules defined for state " ++ Text.quote state)
    if let some f := r.onIllegal.get? state then
      readsModule := true
      let _ ← checkParams f
  if readsModule then checkModule d

def report (d : Description) (s : String) : Work Unit := do
  if d.debug then
    if d.oneLog then modify fun w => { w with log := w.log.push s } else list s

structure NamedRule where
  name : String
  pattern : String
  rule : Rule

def groupRules : Nat → List NamedRule → Except Fault (List (List NamedRule))
  | 0, _ => .error .endless
  | fuel + 1, rules =>
    if rules.isEmpty then .ok []
    else
      let text := "|".intercalate (rules.map fun r => groupText r.name r.pattern)
      match Regex.ofPattern text.toList with
      | .ok _ => .ok [rules]
      | .error _ => do
        let m := rules.length / 2 + 1
        if m ≥ rules.length then .error .endless
        return (← groupRules fuel (rules.take m)) ++ (← groupRules fuel (rules.drop m))

def ruleOf (name pattern : String) (outcome : Outcome) : NamedRule :=
  let regex := match groupRegex name pattern with
    | .ok r => r
    | .error _ => .empty
  { name, pattern, rule := { regex, outcome } }

def patternOutcome (name token : String) : Outcome :=
  if token.isEmpty || occursIn ignoreMark (name.toList.drop 1) then .ignore else .emit token

def stateRules (d : Description) (r : Rules) (state : String) : Work (List NamedRule) := do
  let token (name : String) := (r.tokenNames.get? name).getD ""
  let functions := (r.functionsIn state).map fun f =>
    ruleOf f.name (f.pattern.getD "") (.perform (token f.name) f.steps)
  let patterns := (r.patternsIn state).map fun p =>
    ruleOf p.name p.pattern (patternOutcome p.name (token p.name))
  let rules := functions ++ patterns
  for x in rules do
    report d ("lex: Adding rule " ++ x.name ++ " -> '" ++ x.pattern ++ "' (state '" ++ state ++ "')")
  return rules

def literalText : Datum → String
  | .str s => s
  | .list items => String.join (items.map Datum.display)
  | .record fields => String.join (fields.map Prod.fst)
  | _ => ""

def showStates (states : States) : String :=
  (Datum.record (states.entries.map fun e => (e.1,.str e.2.name))).render

def includeFirst (states : States) (rules : Table String RuleGroups) : Table String RuleGroups :=
  let first := (rules.get? firstState).getD []
  ⟨rules.entries.map fun e =>
    if e.1 != firstState && states.get? e.1 == some .inclusive then (e.1,e.2 ++ first) else e⟩

def inheritHandlers (states : States) (t : Tables) : Work Tables := do
  let first := (t.ignored.get? firstState).getD ""
  states.entries.foldlM (fun t (s,kind) => do
    match kind with
    | .exclusive =>
      unless t.onIllegal.contains s do
        warn ("No error rule is defined for exclusive state " ++ Text.quote s)
      unless t.ignored.contains s || first.isEmpty do
        warn ("No ignore rule is defined for exclusive state " ++ Text.quote s)
      return t
    | .inclusive =>
      let t := if t.onIllegal.contains s then t else
        { t with onIllegal := t.onIllegal.insert s (t.onIllegal.get? firstState).join }
      return if t.ignored.contains s then t else
        { t with ignored := t.ignored.insert s ((t.ignored.get? firstState).getD "") }) t

def buildTables (d : Description) : Work Tables := do
  let tokens ← readTokens d
  let literals := readLiterals d
  let states ← readStates d
  let r ← readRules d states.keys
  checkTokens [] tokens
  checkLiterals literals
  checkRules d states tokens r
  checkpoint .scannerNotBuilt
  report d ("lex: tokens   = " ++ (Datum.list tokens).render)
  report d ("lex: literals = " ++ literals.render)
  report d ("lex: states   = " ++ showStates states)
  let rules ← states.keys.mapM fun s => return (s,← stateRules d r s)
  report d "lex: ==== MASTER REGEXS FOLLOW ===="
  let groups ← rules.mapM fun (s,rules) => do
    match groupRules (rules.length + 1) rules with
    | .error e => throw e
    | .ok groups =>
      for (g,i) in groups.zipIdx do
        report d ("lex: state '" ++ s ++ "' : regex[" ++ toString i ++ "] = '" ++
          "|".intercalate (g.map fun x => groupText x.name x.pattern) ++ "'")
      return (s,groups.map fun g => g.map NamedRule.rule)
  let t : Tables :=
    { rules := includeFirst states (.ofList groups)
      ignored := r.ignored
      onIllegal := r.onIllegal.mapValues fun f => some f.steps
      atEnd := r.atEnd.mapValues FunctionRule.steps
      literals := literalText literals }
  unless t.onIllegal.contains firstState do warn "No t_error rule is defined"
  inheritHandlers states t

def Description.build (d : Description) : Except Fault Tables × Workshop := (buildTables d).run {}

end BxToolchain.Scanner
