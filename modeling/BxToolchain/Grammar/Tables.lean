import BxToolchain.Grammar.Lookahead

namespace BxToolchain.Grammar

inductive Action where
  | shift (state : Nat)
  | reduce (production : Nat)
  | accept
  | refuse
  deriving DecidableEq, Repr

inductive Resolution where
  | shift
  | reduce
  deriving DecidableEq, Repr

def Resolution.name : Resolution → String
  | .shift => "shift"
  | .reduce => "reduce"

structure ShiftReduce where
  state : Nat
  terminal : String
  resolution : Resolution
  deriving DecidableEq, Repr

structure ReduceReduce where
  state : Nat
  chosen : Production
  rejected : Production
  deriving DecidableEq, Repr

structure Row where
  actions : Table String Action := {}
  targets : Table String Nat := {}

structure Progress where
  listing : Array String := #[]
  rows : Array Row := #[]
  reduced : Array Int
  shiftReduce : Array ShiftReduce := #[]
  reduceReduce : Array ReduceReduce := #[]

abbrev Tabulate := Run Progress

namespace Progress

def note (line : String) : Tabulate Unit :=
  modify fun s => { s with listing := s.listing.push line }

def count (p : Production) (d : Int) : Tabulate Unit :=
  modify fun s => { s with reduced := s.reduced.modify p.number (· + d) }

end Progress

open Progress

abbrev Entries := Table String (Action × Item)

def Entries.current? (e : Entries) (a : String) : Option (Action × Item) :=
  match e.get? a with
  | some (.refuse,_) => none
  | r => r

def noteShiftReduce (state : Nat) (a : String) (r : Resolution) : Tabulate Unit := do
  note ("  ! shift/reduce conflict for " ++ a ++ " resolved as " ++ r.name)
  modify fun s => { s with shiftReduce := s.shiftReduce.push ⟨state,a,r⟩ }

def enterReduce (g : Grammar) (state : Nat) (i : Item) (e : Entries) (a : String) :
    Tabulate Entries := do
  let p := i.production
  let chosen : Action × Item := (.reduce p.number,i)
  match e.current? a with
  | none =>
    count p 1
    return e.insert a chosen
  | some (.shift _,old) =>
    let token := g.precedenceOf a
    if token.level < p.prec.level || (token.level = p.prec.level && p.prec.assoc = .left) then
      if token.level = 0 && p.prec.level = 0 then noteShiftReduce state a .reduce
      count p 1
      return e.insert a chosen
    else if token.level = p.prec.level && p.prec.assoc = .nonassoc then
      return e.insert a (.refuse,old)
    else
      if p.prec.level = 0 then noteShiftReduce state a .shift
      return e
  | some (.reduce _,old) =>
    let q := old.production
    let newer := q.place.line > p.place.line
    let (winner,loser) := if newer then (p,q) else (q,p)
    let e := if newer then e.insert a chosen else e
    if newer then
      count p 1
      count q (-1)
    modify fun s => { s with reduceReduce := s.reduceReduce.push ⟨state,winner,loser⟩ }
    let shown := if newer then i else old
    note ("  ! reduce/reduce conflict for " ++ a ++ " resolved using rule " ++
      toString shown.production.number ++ " (" ++ shown.text ++ ")")
    return e
  | some _ => throw (.unknownConflict state)

def enterShift (g : Grammar) (state : Nat) (i : Item) (e : Entries) (a : String) (target : Nat) :
    Tabulate Entries := do
  match e.current? a with
  | none => return e.insert a (.shift target,i)
  | some (.shift t,_) => if t = target then return e else throw (.shiftConflict state)
  | some (.reduce _,old) =>
    let token := g.precedenceOf a
    let rule := old.production.prec
    if token.level > rule.level || (token.level = rule.level && rule.assoc = .right) then
      count old.production (-1)
      if rule.level = 0 then noteShiftReduce state a .shift
      return e.insert a (.shift target,i)
    else if token.level = rule.level && rule.assoc = .nonassoc then
      return e.insert a (.refuse,old)
    else
      if token.level = 0 && rule.level = 0 then noteShiftReduce state a .reduce
      return e
  | some _ => throw (.unknownConflict state)

structure Candidate where
  terminal : String
  item : Item
  text : String

def enterItem (g : Grammar) (las : Lookaheads) (state : Nat) (st : State)
    (acc : Entries × Array Candidate) (i : Item) : Tabulate (Entries × Array Candidate) := do
  let (e,candidates) := acc
  match i.next? with
  | none =>
    if i.production.number = 0 then return (e.insert endMark (.accept,i),candidates)
    let some symbols := las.get? (state,i.key) | throw (.missingKey (toString state))
    let mut e := e
    let mut candidates := candidates
    for a in symbols do
      candidates := candidates.push
        ⟨a,i,"reduce using rule " ++ toString i.production.number ++ " (" ++ i.text ++ ")"⟩
      e ← enterReduce g state i e a
    return (e,candidates)
  | some a =>
    if !g.isTerminal a then return (e,candidates)
    match st.target? a with
    | none => return (e,candidates)
    | some target =>
      let candidates := candidates.push ⟨a,i,"shift and go to state " ++ toString target⟩
      return (← enterShift g state i e a target,candidates)

def listCandidates (e : Entries) (candidates : Array Candidate) : Tabulate Unit := do
  let mut shown : List (String × String) := []
  for c in candidates do
    if let some (_,i) := e.get? c.terminal then
      if i.key = c.item.key then
        note ("    " ++ Text.padRight 15 c.terminal ++ " " ++ c.text)
        shown := (c.terminal,c.text) :: shown
  note ""
  let mut unused := false
  for c in candidates do
    if let some (_,i) := e.get? c.terminal then
      if i.key ≠ c.item.key && !shown.contains (c.terminal,c.text) then
        note ("  ! " ++ Text.padRight 15 c.terminal ++ " [ " ++ c.text ++ " ]")
        unused := true
        shown := (c.terminal,c.text) :: shown
  if unused then note ""

def tabulateState (g : Grammar) (las : Lookaheads) (state : Nat) (st : State) :
    Tabulate Unit := do
  note ""
  note ("state " ++ toString state)
  note ""
  for i in st.items do
    note ("    (" ++ toString i.production.number ++ ") " ++ i.text)
  note ""
  let (e,candidates) ← st.items.foldlM (enterItem g las state st) ({},#[])
  listCandidates e candidates
  let mut targets : Table String Nat := {}
  for s in (stateSymbols st.items).filter g.isNonterminal do
    if let some target := st.target? s then
      targets := targets.insert s target
      note ("    " ++ Text.padRight 30 s ++ " shift and go to state " ++ toString target)
  modify fun p => { p with rows := p.rows.push { actions := e.mapValues Prod.fst, targets } }

def tabulate (g : Grammar) (states : Array State) (start : String) : Tabulate Unit := do
  let las := g.lookaheads states start
  for (st,n) in states.toList.zipIdx do
    tabulateState g las n st

def tables : Build (Progress × Option Fault) := do
  layOutItems
  let _ ← computeFirst
  let _ ← computeFollow none
  let g ← get
  match g.production? 0 with
  | none => throw .wrongKind
  | some startRule =>
    let m := g.automaton startRule
    set { g with marks := m.marks }
    let (r,progress) := (tabulate g m.states (startRule.symbols.headD "")).run
      ({ reduced := Array.replicate g.productions.length 0 } : Progress)
    return (progress,match r with
      | .ok _ => none
      | .error e => some e)

def defaultReductions (rows : Array Row) : Except Fault (Table Nat Nat) :=
  rows.toList.zipIdx.foldlM (fun (t : Table Nat Nat) (row,n) =>
    match row.actions.values with
    | [.reduce p] => .ok (t.insert n p)
    | [.refuse] => .error .wrongKind
    | _ => .ok t) {}

end BxToolchain.Grammar
