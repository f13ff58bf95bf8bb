import BxToolchain.Grammar.Audit

namespace BxToolchain.Grammar

def emptyMark : String := "<empty>"

def endMark : String := "$end"

def addNew (xs : List String) (x : String) : List String :=
  if xs.contains x then xs else xs ++ [x]

def firstOfWord (first : Table String (List String)) :
    List String → List String → Except Fault (List String)
  | acc, [] => .ok (acc ++ [emptyMark])
  | acc, x :: rest =>
    match first.get? x with
    | none => .error (.missingKey (Text.quote x))
    | some fs =>
      let acc := (fs.filter (· != emptyMark)).foldl addNew acc
      if fs.contains emptyMark then firstOfWord first acc rest else .ok acc

def firstOf (word : List String) : Build (List String) := do
  liftExcept (firstOfWord (← get).first [] word)
where
  liftExcept {α : Type} : Except Fault α → Build α
    | .ok a => pure a
    | .error e => throw e

def firstRound : List String → Build Bool
  | [] => return false
  | s :: rest => do
    let g ← get
    let some rules := g.rulesOf.get? s | throw (.missingKey (Text.quote s))
    let mut grown := false
    for p in rules.filterMap g.production? do
      for f in ← firstOf p.symbols do
        let old := ((← get).first.get? s).getD []
        unless old.contains f do
          modify fun g => { g with first := g.first.insert s (old ++ [f]) }
          grown := true
    return (← firstRound rest) || grown

def firstRounds : Nat → Build Unit
  | 0 => return ()
  | fuel + 1 => do
    if ← firstRound (← get).nonterminals.keys then firstRounds fuel

def setBound (g : Grammar) : Nat :=
  (g.nonterminals.keys.length + 1) * (g.terminals.keys.length + 3) + 1

def computeFirst : Build (Table String (List String)) := do
  let g ← get
  if g.first.isEmpty then
    let known := g.terminals.keys.map (fun t => (t,[t])) ++ [(endMark,[endMark])] ++
      g.nonterminals.keys.map (fun n => (n,[]))
    set { g with first := .ofList known }
    firstRounds g.setBound
  return (← get).first

def addFollow (s : String) (fs : List String) : Build Bool := do
  let g ← get
  let some old := g.follow.get? s | throw (.missingKey (Text.quote s))
  let new := fs.foldl addNew old
  set { g with follow := g.follow.insert s new }
  return new.length != old.length

def followProduction (name : String) : List String → Build Bool
  | [] => return false
  | s :: rest => do
    let mut grown := false
    if (← get).isNonterminal s then
      let fs ← firstOf rest
      if ← addFollow s (fs.filter (· != emptyMark)) then grown := true
      if fs.contains emptyMark || rest.isEmpty then
        let some after := (← get).follow.get? name | throw (.missingKey (Text.quote name))
        if ← addFollow s after then grown := true
    return (← followProduction name rest) || grown

def followRounds (productions : List Production) : Nat → Build Unit
  | 0 => return ()
  | fuel + 1 => do
    let mut grown := false
    for p in productions do
      if ← followProduction p.name p.symbols then grown := true
    if grown then followRounds productions fuel

def computeFollow (start : Option String) : Build (Table String (List String)) := do
  if (← get).follow.isEmpty then
    if (← get).first.isEmpty then let _ ← computeFirst
    modify fun g => { g with follow := .ofList (g.nonterminals.keys.map fun n => (n,[])) }
    let g ← get
    let s ← match start with
      | some s => pure s
      | none =>
        match g.productions[1]? with
        | some (some p) => pure p.name
        | _ => throw .outOfRange
    set { g with follow := g.follow.insert s [endMark] }
    followRounds (g.productions.drop 1 |>.filterMap id) g.setBound
  return (← get).follow

end BxToolchain.Grammar
