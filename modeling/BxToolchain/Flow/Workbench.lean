import BxToolchain.Flow.Destruct
import BxToolchain.Flow.Dot
import BxToolchain.Flow.Infer
import BxToolchain.Flow.Linearize
import BxToolchain.Flow.Simplify
import BxToolchain.Tac.Execute

namespace BxToolchain.Flow

open Tac

structure Workbench where
  program : Program
  name : String
  graph : Option Graph := none
  spare : Option Graph := none
  shared : List String := []
  nextMark : Nat := 1

abbrev Work := Run Workbench

def markInstrs : Nat → List Instr → List Instr × Nat
  | n, [] => ([],n)
  | n, i :: rest =>
    let (i,n) := if i.mark = 0 then ({ i with mark := n },n + 1) else (i,n)
    let (rest,n) := markInstrs n rest
    (i :: rest,n)

def markBlocks : Nat → List (String × Block) → List (String × Block) × Nat
  | n, [] => ([],n)
  | n, (l,b) :: rest =>
    let (body,n) := markInstrs n b.body
    let (jumps,n) := markInstrs n b.jumps
    let (rest,n) := markBlocks n rest
    ((l,{ b with body, jumps }) :: rest,n)

def markProgram : Nat → Program → Program × Nat
  | n, [] => ([],n)
  | n, .procedure p :: rest =>
    let (body,n) := markInstrs n p.body
    let (rest,n) := markProgram n rest
    (.procedure { p with body } :: rest,n)
  | n, d :: rest =>
    let (rest,n) := markProgram n rest
    (d :: rest,n)

def refresh (changed : List Instr) (i : Instr) : Instr :=
  (changed.find? fun j => j.mark == i.mark).getD i

def Graph.refresh (changed : List Instr) (g : Graph) : Graph :=
  g.mapBlocks fun b =>
    { b with
      body := b.body.map (Flow.refresh changed)
      jumps := b.jumps.map (Flow.refresh changed) }

def refreshProgram (changed : List Instr) (p : Program) : Program :=
  p.map fun d =>
    match d with
    | .procedure q => .procedure { q with body := q.body.map (refresh changed) }
    | d => d

def updateLast (name : String) (f : Procedure → Procedure) : Program → Program × Bool
  | [] => ([],false)
  | d :: rest =>
    let (rest,found) := updateLast name f rest
    match d with
    | .procedure p =>
      if !found && p.name == name then (.procedure (f p) :: rest,true) else (d :: rest,found)
    | d => (d :: rest,found)

namespace Workbench

def ofProgram (program : Program) (name : String) : Workbench :=
  let (program,nextMark) := markProgram 1 program
  { program, name, nextMark }

def procedure (w : Workbench) : Except Fault Procedure :=
  match (w.program.procedures {}).get? w.name with
  | some p => .ok p
  | none => .error (missing w.name)

end Workbench

namespace Work

def lift {α : Type} : Except Fault α → Work α
  | .ok a => pure a
  | .error e => throw e

def procedure : Work Procedure := do lift (← get).procedure

def procedureText : Work String := do lift (← procedure).text

def graph : Work Graph := do
  match (← get).graph with
  | some g => return g
  | none => throw .missingPart

def share (changed : List Instr) : Work Unit :=
  modify fun w =>
    { w with
      program := refreshProgram changed w.program
      graph := w.graph.map (Graph.refresh changed)
      spare := w.spare.map (Graph.refresh changed) }

def setProcedure (p : Procedure) : Work Unit := do
  let w ← get
  let (body,nextMark) := markInstrs w.nextMark p.body
  set { w with program := (updateLast w.name (fun _ => { p with body }) w.program).1, nextMark }
  share body

def copyShared (labels : List String) (source target : Graph) : Graph :=
  { target with
    blocks := ⟨target.blocks.entries.map fun (l,b) =>
      (l,if labels.contains l then (source.blocks.get? l).getD b else b)⟩ }

def setGraph (g : Graph) : Work Unit := do
  let w ← get
  let (blocks,nextMark) := markBlocks w.nextMark g.blocks.entries
  let g := { g with blocks := ⟨blocks⟩ }
  set { w with graph := some g, spare := w.spare.map (copyShared w.shared g), nextMark }
  share g.instrs

def changeProcedure (f : Procedure → Except Fault Procedure) : Work Unit := do
  setProcedure (← lift (f (← procedure)))

def changeGraph (f : Graph → Except Fault Graph) : Work Unit := do
  setGraph (← lift (f (← graph)))

def infer : Work Unit := do
  let _ ← changeProcedure canonical
  let g ← lift (graphOf (← procedure))
  modify fun w => { w with graph := some g, shared := [] }

def ssa : Work Unit := do
  let p ← procedure
  changeGraph (Flow.ssa p.params)

def propagateCopies : Work Unit := do
  let p ← procedure
  changeGraph fun g => return forwardCopies (← Flow.ssa p.params g)
  changeGraph fun g => return dropCopies g

def eliminateDead : Work Unit := changeGraph Flow.eliminateDead

def linearize : Work Unit := do
  let body ← lift (Flow.linearize (← graph))
  changeProcedure fun p => return { p with body }

def destruct : Work Unit := do
  let w ← get
  set { w with program := ← lift (Flow.destruct w.program) }

def edit (act : Edit Unit) : Work Unit := do
  let (r,g) := act.run (← graph)
  modify fun w => { w with graph := some g }
  lift r

def addBlock (b : Block) : Work Unit := do
  edit (Edit.addBlock b)
  modify fun w => { w with shared := w.shared.filter (· ≠ b.label) }
  setGraph (← graph)

def removeBlock (label : String) : Work Unit := do
  let b ← lift ((← graph).block label)
  edit (Edit.removeBlock b)
  modify fun w => { w with shared := w.shared.filter (· ≠ b.label) }

def clone : Work Unit := do
  let g ← graph
  let copy ← lift g.clone
  modify fun w => { w with graph := some copy, spare := some g, shared := g.blocks.keys }

def swap : Work Unit := do
  modify fun w => { w with graph := w.spare, spare := w.graph }

def execute (options : Options) (name : String) (args : List Datum) :
    Work (Except Fault Datum × World) := do
  let w ← get
  let (r,world) := w.program.execute options name args
  set { w with program := w.program.withGlobals world.globals }
  return (r,world)

def listing : Work String := do
  let texts ← lift ((← get).program.mapM Declaration.text)
  return String.join (texts.map (· ++ "\n"))

def run : Work String := do
  if (← get).program.any fun d => d matches .blank then throw .missingPart
  let (r,world) ← execute {} "@main" []
  let _ ← lift r
  return world.output ++ (← listing)

end Work

end BxToolchain.Flow
