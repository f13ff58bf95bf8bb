import BxToolchain.Flow.Liveness

namespace BxToolchain.Flow

open Tac

def sourceLabels (g : Graph) (label : String) : Except Fault (List String) := do
  let before ← g.predecessors label
  let before := if label == g.entry then before ++ [g.name] else before
  return if before.isEmpty then [g.name] else before

def phiFor (labels : List String) (t : String) : Instr :=
  { opcode := .phi, dest := .name t
    arg1 := .phi (Table.ofList (labels.map fun l => (l,t))).entries }

def insertPhis (g : Graph) : Except Fault Graph := do
  let live ← liveness g
  let blocks ← g.places.mapM fun (n,b) => do
    let labels ← sourceLabels g b.label
    return (b.label,{ b with body := (live.before.getD n []).map (phiFor labels) ++ b.body })
  return { g with blocks := ⟨blocks⟩ }

def versionInstr (n : Nat) (i : Instr) : Instr × Nat :=
  match i.dest with
  | .name s =>
    if startsWith "%" s then ({ i with dest := .name (s ++ "." ++ toString n) },n + 1) else (i,n)
  | _ => (i,n)

def versionInstrs : Nat → List Instr → List Instr × Nat
  | n, [] => ([],n)
  | n, i :: rest =>
    let (i,n) := versionInstr n i
    let (rest,n) := versionInstrs n rest
    (i :: rest,n)

def versionBlocks : Nat → List (String × Block) → List (String × Block)
  | _, [] => []
  | n, (l,b) :: rest =>
    let (body,n) := versionInstrs n b.body
    let (jumps,n) := versionInstrs n b.jumps
    (l,{ b with body, jumps }) :: versionBlocks n rest

abbrev Versions := Table String String

def useVersions : Versions → List Instr → List Instr × Versions
  | vs, [] => ([],vs)
  | vs, i :: rest =>
    let i := i.renameReads fun t => (vs.get? t).getD t
    let vs :=
      match i.dest.read? with
      | some d => vs.insert (rootOf d) d
      | none => vs
    let (rest,vs) := useVersions vs rest
    (i :: rest,vs)

def useVersionsIn (b : Block) : Block × Versions :=
  let (body,vs) := useVersions {} b.body
  let (jumps,vs) := useVersions vs b.jumps
  ({ b with body, jumps },vs)

def resolveSources (versions : Table String Versions) (i : Instr) : Except Fault Instr :=
  match i.opcode, i.arg1 with
  | .phi, .phi sources => do
    let sources ← sources.mapM fun (l,t) =>
      match versions.get? l with
      | some vs => Except.ok (l,(vs.get? t).getD t)
      | none => .error (missing l)
    return { i with arg1 := .phi sources }
  | _, _ => .ok i

def resolveBlock (versions : Table String Versions) (b : Block) : Except Fault Block := do
  return { b with body := ← b.body.mapM (resolveSources versions)
                  jumps := ← b.jumps.mapM (resolveSources versions) }

def isCompound : Datum → Bool
  | .list _ | .record _ => true
  | _ => false

def ssa (params : List Datum) (g : Graph) : Except Fault Graph := do
  let g ← insertPhis g
  if params.any isCompound then throw .wrongKind
  let blocks := (versionBlocks 0 g.blocks.entries).map fun (l,b) => (l,useVersionsIn b)
  let versions : Table String Versions :=
    .ofList ((g.name,{}) :: blocks.map fun (l,_,vs) => (l,vs))
  let blocks ← blocks.mapM fun (l,b,_) => do return (l,← resolveBlock versions b)
  return { g with blocks := ⟨blocks⟩ }

end BxToolchain.Flow
