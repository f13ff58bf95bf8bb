import BxToolchain.Flow.Graph

namespace BxToolchain.Flow

open Tac

def Block.listing (b : Block) : List Instr := .ofLabel b.label :: b.instrs

structure Schedule where
  pending : List String
  seen : List String := []
  ends : List String := []

def listInner (g : Graph) : Nat → Schedule → Except Fault (List Instr × Schedule)
  | 0, s => .ok ([],s)
  | fuel + 1, s =>
    match s.pending with
    | [] => .ok ([],s)
    | l :: rest =>
      if s.seen.contains l then listInner g fuel { s with pending := rest }
      else do
        match ← g.successors l with
        | [] => listInner g fuel { s with pending := rest, ends := l :: s.ends }
        | after =>
          let b ← g.block l
          let (is,s) ← listInner g fuel
            { s with pending := after.reverse ++ rest, seen := l :: s.seen }
          return (b.listing ++ is,s)

def listEnds (g : Graph) : List String → List String → Except Fault (List Instr)
  | _, [] => .ok []
  | seen, l :: rest =>
    if seen.contains l then listEnds g seen rest
    else do
      let b ← g.block l
      return b.listing ++ (← listEnds g (l :: seen) rest)

def linearize (g : Graph) : Except Fault (List Instr) := do
  let (is,s) ← listInner g (g.edges.length + 2) { pending := [g.entry] }
  return is ++ (← listEnds g s.seen s.ends)

end BxToolchain.Flow
