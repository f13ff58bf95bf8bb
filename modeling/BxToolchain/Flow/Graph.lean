import BxToolchain.Data.Names
import BxToolchain.Tac.Program

namespace BxToolchain.Flow

open Tac

structure Block where
  label : String
  body : List Instr := []
  jumps : List Instr := []

namespace Block

def instrs (b : Block) : List Instr := b.body ++ b.jumps

def first (b : Block) : Except Fault Instr :=
  match b.instrs.head? with
  | some i => .ok i
  | none => .error .nothingLeft

def last (b : Block) : Except Fault Instr :=
  match b.instrs.getLast? with
  | some i => .ok i
  | none => .error .nothingLeft

def neighbours {α : Type} : List α → List (α × α)
  | a :: b :: rest => neighbours (b :: rest) ++ [(a,b)]
  | _ => []

def text (b : Block) : Except Fault String := do
  return String.join ((b.label ++ ":\n") :: (← b.instrs.mapM Instr.text?).map (· ++ "\n"))

end Block

structure Graph where
  name : String
  entry : String
  blocks : Table String Block := {}
  next : Table String (List String) := {}
  prev : Table String (List String) := {}

abbrev Edit := Run Graph

def missing (label : String) : Fault := .missingKey (Text.quote label)

namespace Graph

def block (g : Graph) (label : String) : Except Fault Block :=
  match g.blocks.get? label with
  | some b => .ok b
  | none => .error (missing label)

def successors (g : Graph) (label : String) : Except Fault (List String) :=
  match g.next.get? label with
  | some ls => .ok ls
  | none => .error (missing label)

def predecessors (g : Graph) (label : String) : Except Fault (List String) :=
  match g.prev.get? label with
  | some ls => .ok ls
  | none => .error (missing label)

def edges (g : Graph) : List (String × String) :=
  g.next.entries.flatMap fun e => e.2.map fun l => (e.1,l)

def instrs (g : Graph) : List Instr := g.blocks.values.flatMap Block.instrs

def mapBlocks (f : Block → Block) (g : Graph) : Graph := { g with blocks := g.blocks.mapValues f }

end Graph

namespace Edit

def lift {α : Type} : Except Fault α → Edit α
  | .ok a => pure a
  | .error e => throw e

def addEdge (source target : String) : Edit Unit := do
  let after ← lift ((← get).successors source)
  modify fun g => { g with next := g.next.insert source (Names.insert target after) }
  let before ← lift ((← get).predecessors target)
  modify fun g => { g with prev := g.prev.insert target (Names.insert source before) }

def removeEdge (source target : String) : Edit Unit := do
  let after ← lift ((← get).successors source)
  if !after.contains target then throw (missing target)
  modify fun g => { g with next := g.next.insert source (after.filter (· ≠ target)) }
  let before ← lift ((← get).predecessors target)
  if !before.contains source then throw (missing source)
  modify fun g => { g with prev := g.prev.insert target (before.filter (· ≠ source)) }

def addJumps (label : String) : List Instr → Edit Unit
  | [] => return ()
  | j :: rest => do
    match j.target with
    | .name l => if !l.isEmpty then addEdge label l
    | o => if o.toDatum.truthy then throw (.missingKey o.toDatum.render)
    addJumps label rest

def addAllJumps : List Block → Edit Unit
  | [] => return ()
  | b :: rest => do
    addJumps b.label b.jumps
    addAllJumps rest

def addBlock (b : Block) : Edit Unit := do
  if (← get).blocks.contains b.label then throw .refused
  modify fun g =>
    { g with
      blocks := g.blocks.insert b.label b
      next := g.next.insert b.label []
      prev := g.prev.insert b.label [] }
  addJumps b.label b.jumps

def forget (label : String) : List String → Edit Unit
  | [] => return ()
  | l :: rest => do
    let before ← lift ((← get).predecessors l)
    if !before.contains label then throw (missing label)
    modify fun g => { g with prev := g.prev.insert l (before.filter (· ≠ label)) }
    forget label rest

def removeBlock (b : Block) : Edit Unit := do
  if !(← get).blocks.contains b.label then throw .refused
  modify fun g => { g with blocks := g.blocks.erase b.label }
  forget b.label (← lift ((← get).successors b.label))
  modify fun g => { g with next := g.next.erase b.label }

end Edit

namespace Graph

def ofBlocks (name entry : String) (blocks : List Block) : Except Fault Graph :=
  let table : Table String Block := .ofList (blocks.map fun b => (b.label,b))
  let start : Graph :=
    { name, entry, blocks := table
      next := table.mapValues fun _ => []
      prev := table.mapValues fun _ => [] }
  match (Edit.addAllJumps blocks).run start with
  | (.ok _,g) => .ok g
  | (.error e,_) => .error e

def clone (g : Graph) : Except Fault Graph := ofBlocks g.name g.entry g.blocks.values

end Graph

end BxToolchain.Flow
