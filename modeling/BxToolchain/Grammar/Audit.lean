import BxToolchain.Grammar.Basic

namespace BxToolchain.Grammar

def allProductions (g : Grammar) : List Production := g.productions.filterMap id

def productionsOf (g : Grammar) (s : String) : List Production :=
  ((g.rulesOf.get? s).getD []).filterMap g.production?

def isDefined (g : Grammar) (s : String) : Bool := g.rulesOf.contains s || g.isTerminal s

def undefinedSymbols (g : Grammar) : List (String × Production) :=
  g.allProductions.flatMap fun p =>
    (p.symbols.filter fun s => !g.isDefined s).map fun s => (s,p)

def unusedTerminals (g : Grammar) : List String :=
  (g.terminals.entries.filter fun e => e.1 != "error" && e.2.isEmpty).map Prod.fst

def unusedRules (g : Grammar) : List Production :=
  (g.nonterminals.entries.filter fun e => e.2.isEmpty).filterMap fun e =>
    (g.productionsOf e.1).head?

def unusedPrecedence (g : Grammar) : List (String × Assoc) :=
  (g.precedence.entries.filter fun e =>
    !(g.isTerminal e.1 || g.usedPrecedence.contains e.1)).map fun e => (e.1,e.2.assoc)

def reachFrom (g : Grammar) : Nat → List String → List String → List String
  | 0, _, seen => seen
  | _ + 1, [], seen => seen
  | fuel + 1, s :: todo, seen =>
    if seen.contains s then reachFrom g fuel todo seen
    else reachFrom g fuel ((g.productionsOf s).flatMap Production.symbols ++ todo) (s :: seen)

def symbolCount (g : Grammar) : Nat :=
  (g.allProductions.map fun p => p.symbols.length).sum

def reachable (g : Grammar) (s : String) : List String :=
  reachFrom g (g.symbolCount + g.productions.length + 2) [s] []

def unreachableSymbols (g : Grammar) : Build (List String) := do
  match g.production? 0 with
  | some p =>
    let seen := g.reachable (p.symbols.headD "")
    return g.nonterminals.keys.filter fun s => !seen.contains s
  | none => throw .missingPart

def endingRound (g : Grammar) (ending : List String) : List String :=
  g.rulesOf.keys.foldl (fun known s =>
    if known.contains s then known
    else if (g.productionsOf s).any fun p => p.symbols.all fun t => g.isTerminal t || known.contains t
    then known ++ [s] else known) ending

def endingFrom (g : Grammar) : Nat → List String → List String
  | 0, known => known
  | fuel + 1, known =>
    let next := g.endingRound known
    if next.length = known.length then known else endingFrom g fuel next

def endlessSymbols (g : Grammar) : List String :=
  let ending := g.endingFrom (g.rulesOf.keys.length + 1) []
  g.nonterminals.keys.filter fun s => g.rulesOf.contains s && !ending.contains s

end BxToolchain.Grammar
