import BxToolchain.Grammar.Sets

namespace BxToolchain.Grammar

structure Item where
  production : Production
  dot : Nat
  deriving DecidableEq, Repr

namespace Item

def symbols (i : Item) : List String := i.production.symbols

def marked (i : Item) : List String := i.symbols.take i.dot ++ "." :: i.symbols.drop i.dot

def text (i : Item) : String := i.production.name ++ " -> " ++ " ".intercalate i.marked

def next? (i : Item) : Option String := i.symbols[i.dot]?

def isComplete (i : Item) : Bool := i.dot == i.symbols.length

def advance (i : Item) : Item := { i with dot := i.dot + 1 }

def key (i : Item) : Nat × Nat := (i.production.number,i.dot)

end Item

def Production.items (p : Production) : List Item :=
  (List.range (p.symbols.length + 1)).map fun d => ⟨p,d⟩

structure Closed where
  items : List Item
  marks : Array Nat

def markOf (marks : Array Nat) (n : Nat) : Nat := marks.getD n 0

def setMark (number : Nat) (marks : Array Nat) (n : Nat) : Array Nat :=
  (if n < marks.size then marks else marks ++ Array.replicate (n + 1 - marks.size) 0).setIfInBounds
    n number

def closeItems (g : Grammar) (number : Nat) :
    Nat → List Item → Array Nat → List Item → Closed
  | 0, _, marks, acc => ⟨acc.reverse,marks⟩
  | _ + 1, [], marks, acc => ⟨acc.reverse,marks⟩
  | fuel + 1, i :: todo, marks, acc =>
    let fresh : List Production := match i.next? with
      | some s => (g.productionsOf s).filter fun p => markOf marks p.number != number
      | none => []
    closeItems g number fuel (todo ++ fresh.map fun p => ⟨p,0⟩)
      ((fresh.map Production.number).foldl (setMark number) marks) (i :: acc)

def closure (g : Grammar) (number : Nat) (marks : Array Nat) (kernel : List Item) : Closed :=
  closeItems g number (kernel.length + g.productions.length + 1) kernel marks []

def layOutItems : Build Unit := do
  let g ← get
  if g.productions.any Option.isNone then throw .wrongKind
  set { g with itemized := g.allProductions.map Production.number }

structure State where
  kernel : List (Nat × Nat)
  items : List Item
  targets : Table String Nat := {}

def kernelOn (items : List Item) (s : String) : List Item :=
  (items.filter fun i => i.next? == some s).map Item.advance

def stateSymbols (items : List Item) : List String :=
  (items.flatMap Item.symbols).eraseDups

structure Automaton where
  states : Array State
  marks : Array Nat

def Automaton.add (g : Grammar) (m : Automaton) (kernel : List Item) : Automaton :=
  let closed := g.closure (m.states.size + 1) m.marks kernel
  { states := m.states.push { kernel := kernel.map Item.key, items := closed.items }
    marks := closed.marks }

def Automaton.enter (g : Grammar) (m : Automaton) (kernel : List Item) : Automaton × Nat :=
  let keys := kernel.map Item.key
  match m.states.findIdx? fun s => s.kernel == keys with
  | some n => (m,n)
  | none => (m.add g kernel,m.states.size)

def Automaton.expand (g : Grammar) (m : Automaton) (n : Nat) : Automaton :=
  match m.states[n]? with
  | none => m
  | some st =>
    let (m,targets) := (stateSymbols st.items).foldl (fun (m,targets) s =>
      let kernel := kernelOn st.items s
      if kernel.isEmpty then (m,targets)
      else
        let (m,k) := m.enter g kernel
        (m,targets.insert s k)) (m,({} : Table String Nat))
    { m with states := m.states.modify n fun st => { st with targets := targets } }

def Automaton.expandFrom (g : Grammar) : Nat → Nat → Automaton → Automaton
  | 0, _, m => m
  | fuel + 1, n, m =>
    if n < m.states.size then expandFrom g fuel (n + 1) (m.expand g n) else m

def stateLimit : Nat := 1000000

def automaton (g : Grammar) (startRule : Production) : Automaton :=
  Automaton.expandFrom g stateLimit 0
    (({ states := #[], marks := g.marks } : Automaton).add g [⟨startRule,0⟩])

end BxToolchain.Grammar
