import BxToolchain.Flow.Ssa

namespace BxToolchain.Flow

open Tac

def forwardInstr (refs : Versions) (i : Instr) : Instr × Versions :=
  match i.arg1, i.dest with
  | .name a, .name d =>
    let a := (refs.get? a).getD a
    let i := { i with arg1 := .name a, arg2 := i.arg2.mapName fun b => (refs.get? b).getD b }
    (i,if i.opcode = .copy then refs.insert d a else refs)
  | _, _ => (i,refs)

def forwardInstrs : Versions → List Instr → List Instr × Versions
  | refs, [] => ([],refs)
  | refs, i :: rest =>
    let (i,refs) := forwardInstr refs i
    let (rest,refs) := forwardInstrs refs rest
    (i :: rest,refs)

def forwardBlocks : Versions → List (String × Block) → List (String × Block)
  | _, [] => []
  | refs, (l,b) :: rest =>
    let (body,refs) := forwardInstrs refs b.body
    (l,{ b with body }) :: forwardBlocks refs rest

def forwardCopies (g : Graph) : Graph := { g with blocks := ⟨forwardBlocks {} g.blocks.entries⟩ }

def dropCopies (g : Graph) : Graph :=
  g.mapBlocks fun b => { b with body := b.body.filter fun i => i.opcode ≠ .copy }

def propagateCopies (params : List Datum) (g : Graph) : Except Fault Graph := do
  return dropCopies (forwardCopies (← ssa params g))

def hasEffect (o : Opcode) : Bool :=
  o = .binary .div || o = .binary .mod || o = .call || o = .param

def isDead (i : Instr) (after : List String) : Bool :=
  !hasEffect i.opcode &&
    (match i.dest with
      | .name d => !after.contains d
      | _ => true)

def keepLive (l : Liveness) (start : Nat) (b : Block) : Block :=
  { b with
    body := (b.body.zipIdx.filter fun (i,n) => !isDead i (l.after.getD (start + n) [])).map Prod.fst }

def dropDead (g : Graph) : Except Fault Graph := do
  let l ← liveness g
  return { g with blocks := ⟨g.places.map fun (n,b) => (b.label,keepLive l n b)⟩ }

def dropAllDead : Nat → Graph → Except Fault Graph
  | 0, g => .ok g
  | fuel + 1, g => do
    let g' ← dropDead g
    let _ ← liveness g'
    if g'.instrs.length = g.instrs.length then return g'
    dropAllDead fuel g'

def eliminateDead (g : Graph) : Except Fault Graph := dropAllDead (g.instrs.length + 1) g

end BxToolchain.Flow
