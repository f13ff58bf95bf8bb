import BxToolchain.Grammar.Item

namespace BxToolchain.Grammar

structure Transition where
  state : Nat
  symbol : String
  deriving DecidableEq, Repr

def nullableRound (g : Grammar) (known : List String) : List String :=
  (g.productions.drop 1 |>.filterMap id).foldl (fun known p =>
    if p.symbols.all known.contains then addNew known p.name else known) known

def nullableFrom (g : Grammar) : Nat → List String → List String
  | 0, known => known
  | fuel + 1, known =>
    let next := g.nullableRound known
    if next.length = known.length then known else nullableFrom g fuel next

def nullable (g : Grammar) : List String :=
  g.nullableFrom (g.nonterminals.keys.length + 1) []

def transitions (g : Grammar) (states : Array State) : List Transition :=
  (states.toList.zipIdx.flatMap fun (st,n) =>
    (st.items.filterMap Item.next?).filter g.isNonterminal |>.eraseDups.map fun s => ⟨n,s⟩)

def State.target? (st : State) (s : String) : Option Nat := st.targets.get? s

def entered? (states : Array State) (t : Transition) : Option (Nat × State) := do
  let st ← states[t.state]?
  let n ← st.target? t.symbol
  let target ← states[n]?
  return (n,target)

def directReads (g : Grammar) (states : Array State) (start : String) (t : Transition) :
    List String :=
  let terms := match entered? states t with
    | some (_,st) => ((st.items.filterMap Item.next?).filter g.isTerminal).eraseDups
    | none => []
  if t.state = 0 && t.symbol == start then terms ++ [endMark] else terms

def reads (nullable : List String) (states : Array State) (t : Transition) : List Transition :=
  match entered? states t with
  | some (n,st) =>
    ((st.items.filterMap Item.next?).filter nullable.contains).map fun s => ⟨n,s⟩
  | none => []

structure Walk where
  numbers : Array Nat
  stack : List Nat := []
  cellOf : Array Nat
  cells : Array (List String)

def Walk.setOf (w : Walk) (x : Nat) : List String := w.cells.getD (w.cellOf.getD x 0) []

def Walk.addAll (w : Walk) (x : Nat) (xs : List String) : Walk :=
  { w with cells := w.cells.modify (w.cellOf.getD x 0) fun old => xs.foldl addNew old }

def Walk.close (closed x : Nat) : List Nat → Walk → Walk
  | [], w => { w with stack := [] }
  | y :: rest, w =>
    let w := { w with
      numbers := w.numbers.setIfInBounds y closed
      cellOf := w.cellOf.setIfInBounds y (w.cellOf.getD x 0) }
    if y = x then { w with stack := rest } else close closed x rest w

mutual

def Walk.visit (edges : Array (List Nat)) (closed : Nat) : Nat → Nat → Walk → Walk
  | 0, _, w => w
  | fuel + 1, x, w =>
    let depth := w.stack.length + 1
    let w := { w with stack := x :: w.stack, numbers := w.numbers.setIfInBounds x depth }
    let w := Walk.visitAll edges closed fuel x (edges.getD x []) w
    if w.numbers.getD x 0 = depth then Walk.close closed x w.stack w else w

def Walk.visitAll (edges : Array (List Nat)) (closed : Nat) :
    Nat → Nat → List Nat → Walk → Walk
  | _, _, [], w => w
  | fuel, x, y :: rest, w =>
    let w := if w.numbers.getD y 0 = 0 then Walk.visit edges closed fuel y w else w
    let w := { w with numbers := w.numbers.setIfInBounds x (min (w.numbers.getD x 0) (w.numbers.getD y 0)) }
    Walk.visitAll edges closed fuel x rest (w.addAll x (w.setOf y))

end

def propagate (edges : Array (List Nat)) (cellOf : Array Nat) (cells : Array (List String)) :
    Array Nat × Array (List String) :=
  let n := cellOf.size
  let w := (List.range n).foldl (fun w x =>
    if w.numbers.getD x 0 = 0 then Walk.visit edges (n + 1) (n + 1) x w else w)
    ({ numbers := Array.replicate n 0, cellOf, cells } : Walk)
  (w.cellOf,w.cells)

structure Lookback where
  state : Nat
  item : Item

def runWord (g : Grammar) (states : Array State) (nullable : List String)
    (known : Transition → Bool) : Nat → List String → List Transition → Nat × List Transition
  | n, [], acc => (n,acc)
  | n, s :: rest, acc =>
    let t : Transition := ⟨n,s⟩
    let acc := if known t && rest.all (fun r => !g.isTerminal r && nullable.contains r)
      then acc ++ [t] else acc
    let m := ((states[n]?).bind fun st => st.target? s).getD (states.size - 1)
    runWord g states nullable known m rest acc

def Item.leadsTo (p r : Item) : Bool :=
  r.production.name == p.production.name && r.symbols.length == p.symbols.length &&
    (List.range r.dot).all fun i => r.marked[i]? == p.marked[i + 1]?

def lookbackIncludes (g : Grammar) (states : Array State) (nullable : List String)
    (known : Transition → Bool) (t : Transition) : List Lookback × List Transition :=
  match states[t.state]? with
  | none => ([],[])
  | some st =>
    (st.items.filter fun p => p.production.name == t.symbol).foldl (fun (backs,included) p =>
      let (n,more) := runWord g states nullable known t.state (p.symbols.drop p.dot) []
      let ends := match states[n]? with
        | some last => (last.items.filter p.leadsTo).map fun r => ⟨n,r⟩
        | none => []
      (backs ++ ends,included ++ more)) ([],[])

abbrev Lookaheads := Table (Nat × Nat × Nat) (List String)

def lookaheads (g : Grammar) (states : Array State) (start : String) : Lookaheads :=
  let nullable := g.nullable
  let trans := g.transitions states
  let index (t : Transition) : Option Nat := trans.findIdx? (· == t)
  let known (t : Transition) : Bool := (index t).isSome
  let n := trans.length
  let readEdges := (trans.map fun t => (reads nullable states t).filterMap index).toArray
  let direct := (trans.map (directReads g states start)).toArray
  let (cellOf,cells) := propagate readEdges (Array.range n) direct
  let relations := trans.map (lookbackIncludes g states nullable known)
  let includeEdges := (relations.zipIdx).foldl (fun (edges : Array (List Nat)) (r,x) =>
    (r.2.filterMap index).foldl (fun edges y => edges.modify y (· ++ [x])) edges)
    (Array.replicate n [])
  let (cellOf,cells) := propagate includeEdges cellOf cells
  (relations.zipIdx).foldl (fun (table : Lookaheads) (r,x) =>
    let follow := cells.getD (cellOf.getD x 0) []
    r.1.foldl (fun table back =>
      let old := (table.get? (back.state,back.item.key)).getD []
      table.insert (back.state,back.item.key) (follow.foldl addNew old)) table) {}

end BxToolchain.Grammar
