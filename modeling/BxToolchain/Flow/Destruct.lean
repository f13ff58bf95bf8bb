import BxToolchain.Tac.Program

namespace BxToolchain.Flow

open Tac

abbrev Moves := Table String (List (Operand × String))

def addMoves (i : Instr) (moves : Moves) : Moves :=
  if i.opcode = .phi then
    i.sources.foldl
      (fun m e => m.insert e.1 (((m.get? e.1).getD []) ++ [(i.dest,e.2)])) moves
  else moves

def programBodies (p : Program) : List (List Instr) :=
  p.filterMap fun d =>
    match d with
    | .procedure q => some q.body
    | _ => none

def movesOf (p : Program) : Except Fault Moves :=
  let instrs := (programBodies p).flatten
  if instrs.any Instr.isBroken then .error .missingPart
  else .ok (instrs.foldl (fun m i => addMoves i m) {})

def copyOf (move : Operand × String) : Except Fault Instr :=
  let i : Instr := { opcode := .copy, dest := move.1, arg1 := .name move.2 }
  i.check.map fun _ => i

def takesMoves (i : Instr) : Bool := i.opcode.isBranch || i.opcode = .ret

def insertMoves (copies : List Instr) : List Instr → Except Fault (List Instr)
  | [] => .error .outOfRange
  | i :: rest =>
    if takesMoves i then .ok (copies ++ i :: rest)
    else do return i :: (← insertMoves copies rest)

def serveBody (moves : Moves) : List Instr → Except Fault (Option (List Instr × Moves))
  | [] => .ok none
  | i :: rest =>
    match (if i.isLabel then moves.get? i.arg1.text else none) with
    | some waiting => do
      let copies ← waiting.mapM copyOf
      return some (← insertMoves copies.reverse (i :: rest),moves.erase i.arg1.text)
    | none => do
      return (← serveBody moves rest).map fun (body,moves) => (i :: body,moves)

def serveOne (moves : Moves) : Program → Except Fault (Option (Program × Moves))
  | [] => .ok none
  | .procedure q :: rest => do
    match ← serveBody moves q.body with
    | some (body,moves) => return some (.procedure { q with body } :: rest,moves)
    | none =>
      return (← serveOne moves rest).map fun (rest,moves) => (.procedure q :: rest,moves)
  | d :: rest => do
    return (← serveOne moves rest).map fun (rest,moves) => (d :: rest,moves)

def serveAll : Nat → Moves → Program → Except Fault Program
  | 0, _, p => .ok p
  | fuel + 1, moves, p => do
    match ← serveOne moves p with
    | some (p,moves) => serveAll fuel moves p
    | none => return p

def dropPhis (p : Program) : Program :=
  p.map fun d =>
    match d with
    | .procedure q => .procedure { q with body := q.body.filter fun i => i.opcode ≠ .phi }
    | d => d

def destruct (p : Program) : Except Fault Program := do
  let moves ← movesOf p
  return dropPhis (← serveAll (moves.entries.length + 1) moves p)

end BxToolchain.Flow
