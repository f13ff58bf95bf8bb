import BxToolchain.Flow.Graph

namespace BxToolchain.Flow

open Tac

structure Link where
  source : String
  before : Nat
  target : String
  after : Nat
  deriving DecidableEq, Repr

namespace Graph

def placesFrom (n : Nat) : List Block → List (Nat × Block)
  | [] => []
  | b :: rest => (n,b) :: placesFrom (n + b.instrs.length) rest

def places (g : Graph) : List (Nat × Block) := placesFrom 0 g.blocks.values

def placeOf (g : Graph) (label : String) : Except Fault (Nat × Block) :=
  match g.places.find? fun e => e.2.label == label with
  | some e => .ok e
  | none => .error (missing label)

def filledPlace (g : Graph) (label : String) : Except Fault (Nat × Block) := do
  let e ← g.placeOf label
  if e.2.instrs.isEmpty then throw .emptyBlock
  return e

def edgeLinks (g : Graph) : Except Fault (List Link) :=
  g.edges.mapM fun (source,target) => do
    let (n,b) ← g.filledPlace source
    let (m,_) ← g.filledPlace target
    return ⟨source,n + (b.instrs.length - 1),target,m⟩

def blockLinks (e : Nat × Block) : Except Fault (List Link) :=
  if e.2.instrs.isEmpty then .error .emptyBlock
  else .ok ((List.range (e.2.instrs.length - 1)).reverse.map fun i =>
    ⟨e.2.label,e.1 + i,e.2.label,e.1 + i + 1⟩)

def links (g : Graph) : Except Fault (List Link) := do
  return (← g.edgeLinks) ++ (← g.places.mapM blockLinks).flatten

end Graph

def alongEdge (label : String) (uses : List Use) : List Use :=
  uses.filterMap fun u =>
    match u with
    | .plain t => some (.plain t)
    | .along l t => if l == label then some (.plain t) else none

def carried (k : Link) (after : List Use) : List Use :=
  if k.source == k.target then after else alongEdge k.source after

def addLive (defs : List String) (incoming uses : List Use) : List Use :=
  incoming.foldl (fun acc u => if defs.contains u.temp || acc.contains u then acc else acc ++ [u]) uses

abbrev Lives := Array (List Use)

def flowBack (defs : Array (List String)) (live : Lives) (k : Link) : Lives :=
  live.setIfInBounds k.before
    (addLive (defs.getD k.before []) (carried k (live.getD k.after [])) (live.getD k.before []))

def totalSize (live : Lives) : Nat := (live.toList.map List.length).sum

def stabilize (defs : Array (List String)) (links : List Link) : Nat → Lives → Lives
  | 0, live => live
  | fuel + 1, live =>
    let after := links.foldl (flowBack defs) live
    if totalSize after = totalSize live then after else stabilize defs links fuel after

structure Liveness where
  before : Array (List String)
  after : Array (List String)

def addAfter (live : Lives) (after : Array (List String)) (k : Link) : Array (List String) :=
  after.setIfInBounds k.before
    ((alongEdge k.source (live.getD k.after [])).foldl (fun acc u => Names.insert u.temp acc)
      (after.getD k.before []))

def liveness (g : Graph) : Except Fault Liveness := do
  let instrs := g.instrs
  if instrs.any Instr.isBroken then throw .missingPart
  let links ← g.links
  let uses := (instrs.map Instr.uses).toArray
  let defs := (instrs.map Instr.defs).toArray
  let live := stabilize defs links (2 * totalSize uses * instrs.length + 1)
    (uses.map fun us => addLive [] us [])
  return { before := live.map fun us => Names.ofList (us.map Use.temp)
           after := links.foldl (addAfter live) (instrs.map fun _ => []).toArray }

def Liveness.ofBlock (l : Liveness) (start : Nat) (b : Block) :
    List (Instr × List String × List String) :=
  b.instrs.zipIdx.map fun (i,n) => (i,l.before.getD (start + n) [],l.after.getD (start + n) [])

end BxToolchain.Flow
