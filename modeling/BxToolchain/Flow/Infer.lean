import BxToolchain.Flow.Graph

namespace BxToolchain.Flow

open Tac

def adminLabel (name : String) (n : Nat) : Instr :=
  .ofLabel ("%.L" ++ String.ofList (name.toList.drop 1) ++ toString n)

def labelGroups (name : String) : Nat → Bool → List Instr → Except Fault (List Instr)
  | _, inGroup, [] => if inGroup then .error .outOfRange else .ok []
  | n, inGroup, i :: rest =>
    if i.opcode.isBranch then do return i :: (← labelGroups name n true rest)
    else if inGroup then
      if i.opcode.isFinal then do
        return i :: adminLabel name n :: (← labelGroups name (n + 1) false rest)
      else do return adminLabel name n :: i :: (← labelGroups name (n + 1) false rest)
    else do return i :: (← labelGroups name n false rest)

def addLabels (p : Procedure) : Except Fault Procedure := do
  return { p with body := adminLabel p.name 0 :: (← labelGroups p.name 1 false p.body) }

def jumpToLabels : List Instr → List Instr
  | i :: l :: rest =>
    if !i.isLabel && !i.opcode.isFinal && l.isLabel then
      i :: { opcode := .jmp, arg1 := l.arg1 } :: jumpToLabels (l :: rest)
    else i :: jumpToLabels (l :: rest)
  | is => is

def addJumps (p : Procedure) : Procedure := { p with body := jumpToLabels p.body }

def numberLabels : Nat → Option String → Table String String → List Instr →
    Except Fault (List Instr × Table String String)
  | _, _, names, [] => .ok ([],names)
  | n, group, names, i :: rest =>
    if i.isLabel then
      match group with
      | some l => numberLabels n (some l) (names.insert i.arg1.text l) rest
      | none =>
        if names.contains i.arg1.text then .error .refused
        else do
          let l := "%.L" ++ toString n
          let (body,names) ← numberLabels (n + 1) (some l) (names.insert i.arg1.text l) rest
          return (.ofLabel l :: body,names)
    else do
      let (body,names) ← numberLabels n none names rest
      return (i :: body,names)

def normalizeLabels (p : Procedure) : Except Fault Procedure := do
  let (body,names) ← numberLabels 0 none {} p.body
  return { p with body := body.map (Instr.renameLabels names.entries) }

def canonical (p : Procedure) : Except Fault Procedure := do
  normalizeLabels (addJumps (← addLabels p))

def cutBlocks (b : Block) (ended : Bool) : List Instr → Except Fault (List Block)
  | [] => .ok [b]
  | i :: rest =>
    if i.opcode.endsBlock then cutBlocks { b with jumps := b.jumps ++ [i] } true rest
    else if !ended then cutBlocks { b with body := b.body ++ [i] } false rest
    else if i.isLabel then do return b :: (← cutBlocks ⟨i.arg1.text,[],[]⟩ false rest)
    else .error .refused

def graphOf (p : Procedure) : Except Fault Graph :=
  match p.body with
  | [] => .error .refused
  | i :: rest =>
    if i.isLabel then do
      Graph.ofBlocks p.name i.arg1.text (← cutBlocks ⟨i.arg1.text,[],[]⟩ false rest)
    else .error .refused

def infer (p : Procedure) : Except Fault (Procedure × Graph) := do
  let p ← canonical p
  return (p,← graphOf p)

end BxToolchain.Flow
