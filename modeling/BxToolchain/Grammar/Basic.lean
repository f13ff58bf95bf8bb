import BxToolchain.Data.Table
import BxToolchain.Fault
import BxToolchain.Text.Literal

namespace BxToolchain.Grammar

inductive Assoc where
  | left
  | right
  | nonassoc
  deriving DecidableEq, Repr

def Assoc.name : Assoc → String
  | .left => "left"
  | .right => "right"
  | .nonassoc => "nonassoc"

def Assoc.ofName? : String → Option Assoc
  | "left" => some .left
  | "right" => some .right
  | "nonassoc" => some .nonassoc
  | _ => none

theorem Assoc.ofName?_name (a : Assoc) : Assoc.ofName? a.name = some a := by
  cases a <;> rfl

structure Precedence where
  assoc : Assoc
  level : Int
  deriving DecidableEq, Repr

def Precedence.lowest : Precedence := ⟨.right,0⟩

structure Production where
  number : Nat
  name : String
  symbols : List String
  prec : Precedence := .lowest
  rule : String := ""
  place : Place := ⟨"",0⟩
  deriving DecidableEq, Repr

def ruleText (name : String) (symbols : List String) : String :=
  if symbols.isEmpty then name ++ " -> <empty>" else name ++ " -> " ++ " ".intercalate symbols

def Production.text (p : Production) : String := ruleText p.name p.symbols

def Production.distinctSymbols (p : Production) : List String := p.symbols.eraseDups

end Grammar

structure Grammar where
  productions : List (Option Grammar.Production) := [none]
  rulesOf : Table String (List Nat) := {}
  terminals : Table String (List Nat) := {}
  nonterminals : Table String (List Nat) := {}
  precedence : Table String Grammar.Precedence := {}
  usedPrecedence : List String := []
  start : Option String := none
  first : Table String (List String) := {}
  follow : Table String (List String) := {}
  itemized : List Nat := []
  marks : Array Nat := #[]

namespace Grammar

abbrev Build := Run Grammar

def fail {α : Type} (d : Defect) : Build α := throw (.grammarDefect d)

def ofTerminals (names : List String) : Grammar :=
  { terminals := .ofList ((names ++ ["error"]).map fun t => (t,[])) }

def isTerminal (g : Grammar) (s : String) : Bool := g.terminals.contains s

def isNonterminal (g : Grammar) (s : String) : Bool := g.nonterminals.contains s

def production? (g : Grammar) (n : Nat) : Option Production := (g.productions[n]?).join

def precedenceOf (g : Grammar) (s : String) : Precedence :=
  (g.precedence.get? s).getD .lowest

def isNameChar (c : Char) : Bool := c.isAlphanum || c = '_' || c = '-'

def isName (s : String) : Bool :=
  let cs := s.toList
  let body := if cs.getLast? = some '\n' then cs.dropLast else cs
  !body.isEmpty && body.all isNameChar

def setPrecedence (terminal assoc : String) (level : Int) : Build Unit := do
  let g ← get
  unless g.productions == [none] do throw .precedenceTooLate
  if g.precedence.contains terminal then fail (.precedenceRepeated terminal)
  match Assoc.ofName? assoc with
  | none => fail .unknownAssociativity
  | some a => set { g with precedence := g.precedence.insert terminal ⟨a,level⟩ }

def readSymbol (place : Place) (rule word : String) : Build String := do
  match word.toList with
  | [] => throw .outOfRange
  | c :: _ =>
    let literal := if c = '\'' || c = '"' then Text.unquote? word else none
    match literal with
    | some t =>
      if t.length > 1 then fail (.longLiteral place word rule)
      modify fun g =>
        if g.isTerminal t then g else { g with terminals := g.terminals.insert t [] }
      return t
    | none =>
      unless isName word || word == "%prec" do fail (.badSymbol place word rule)
      return word

def rightmostTerminal? (g : Grammar) (symbols : List String) : Option String :=
  symbols.reverse.find? g.isTerminal

def readPrecedence (place : Place) (symbols : List String) :
    Build (List String × Precedence) := do
  let g ← get
  if symbols.contains "%prec" then
    match symbols.reverse with
    | last :: mark :: rest =>
      if last == "%prec" then fail (.precWithoutName place)
      if mark != "%prec" then fail (.precNotLast place)
      match g.precedence.get? last with
      | none => fail (.unknownPrecedence place last)
      | some p =>
        set { g with usedPrecedence := g.usedPrecedence ++ [last] }
        return (rest.reverse,p)
    | _ => fail (.precWithoutName place)
  else
    return (symbols,((g.rightmostTerminal? symbols).map g.precedenceOf).getD .lowest)

def noteUse (number : Nat) (g : Grammar) (s : String) : Grammar :=
  match g.terminals.get? s with
  | some uses => { g with terminals := g.terminals.insert s (uses ++ [number]) }
  | none =>
    { g with nonterminals := g.nonterminals.insert s ((g.nonterminals.get? s).getD [] ++ [number]) }

def addProduction (name : String) (words : List String) (rule : String) (place : Place) :
    Build Unit := do
  if (← get).isTerminal name then fail (.ruleNamedAsToken place name)
  unless isName name do fail (.badRuleName place name)
  let symbols ← words.mapM (readSymbol place name)
  let (symbols,prec) ← readPrecedence place symbols
  let g ← get
  match g.productions.find? (fun p => p.any fun q => q.name == name && q.symbols == symbols) with
  | some (some q) => fail (.duplicateRule place q.text q.place)
  | _ =>
    let number := g.productions.length
    let g := { g with nonterminals := g.nonterminals.insert name ((g.nonterminals.get? name).getD []) }
    let g := symbols.foldl (noteUse number) g
    let p : Production := { number, name, symbols, prec, rule, place }
    set { g with
      productions := g.productions ++ [some p]
      rulesOf := g.rulesOf.insert name ((g.rulesOf.get? name).getD [] ++ [number]) }

def setStart (start : Option String) : Build Unit := do
  let g ← get
  let s ← match start with
    | some s => pure s
    | none =>
      match g.productions[1]? with
      | some (some p) => pure p.name
      | _ => throw .outOfRange
  match g.nonterminals.get? s with
  | none => fail (.undefinedStart s)
  | some uses =>
    set { g with
      productions := g.productions.set 0 (some { number := 0, name := "S'", symbols := [s] })
      nonterminals := g.nonterminals.insert s (uses ++ [0])
      itemized := g.itemized.filter (· != 0)
      start := some s }

end Grammar

end BxToolchain
