import BxToolchain.Flow.Liveness

namespace BxToolchain.Flow

open Tac

def drawn (text : List Char) : List Char :=
  text.flatMap fun c => if c = '\n' then ['\\','l'] else [c]

def cutLine : List Char → List Char × List Char
  | '\\' :: 'l' :: rest => (['\\','l'],rest)
  | c :: rest =>
    let (line,after) := cutLine rest
    (c :: line,after)
  | [] => ([],[])

def withoutMark (n : Nat) (s : String) : String := String.ofList (s.toList.drop n)

def liveLine (what : String) (names : List String) : String :=
  "  // " ++ what ++ ": \x7b" ++ String.intercalate "," names ++ "\x7d\\l"

def liveLines (live : Option Liveness) (start : Nat) (b : Block) : Except Fault (String × String) := do
  match live with
  | none => return ("","")
  | some l =>
    let _ ← b.first
    return (liveLine "LI" (l.before.getD start []),
      liveLine "LO" (l.after.getD (start + (b.instrs.length - 1)) []))

def blockNode (live : Option Liveness) (start : Nat) (b : Block) : Except Fault String := do
  let (head,rest) := cutLine (drawn (← b.text).toList)
  let (above,below) ← liveLines live start b
  return withoutMark 2 b.label ++
    "[shape=\"box\",fontname=\"monospace\",fontsize=8,label=\"" ++
    String.ofList head ++ above ++ String.ofList rest ++ below ++ "\"];\n"

def dot (g : Graph) (withLiveness : Bool) : Except Fault String := do
  let live ← if withLiveness then (liveness g).map some else pure none
  let nodes ← g.places.mapM fun (n,b) => blockNode live n b
  let edges := g.edges.map fun (a,b) => withoutMark 2 a ++ " -> " ++ withoutMark 2 b ++ ";\n"
  return "digraph " ++ withoutMark 1 g.name ++ " \x7b\n" ++ String.join nodes ++
    String.join edges ++ "\x7d\n"

end BxToolchain.Flow
