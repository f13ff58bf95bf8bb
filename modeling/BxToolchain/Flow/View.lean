import BxToolchain.Flow.Linearize
import BxToolchain.Flow.Liveness

namespace BxToolchain.Flow

open Tac

def textsOf (is : List Instr) : Except Fault Datum := do return .texts (← is.mapM Instr.text?)

def labelsToDatum (t : Table String (List String)) : Datum :=
  .record (t.entries.map fun e => (e.1,.texts e.2))

def Graph.toDatum (g : Graph) : Except Fault Datum := do
  let blocks ← g.blocks.values.mapM fun b => do
    return Datum.list [.str b.label,← textsOf b.body,← textsOf b.jumps]
  return .record [("entry",.str g.entry),("blocks",.list blocks),
    ("next",labelsToDatum g.next),("prev",labelsToDatum g.prev)]

def pairToDatum (e : Instr × Instr) : Except Fault Datum := textsOf [e.1,e.2]

def Block.toDatum (b : Block) : Except Fault Datum := do
  return .record [("str",.str (← b.text)),("first",.str (← (← b.first).text?)),
    ("last",.str (← (← b.last).text?)),("reversed",← textsOf b.instrs.reverse),
    ("pairs",.list (← (Block.neighbours b.instrs).mapM pairToDatum))]

def Link.toDatum (instrs : Array Instr) (labeled : Bool) (k : Link) : Except Fault Datum := do
  let text (n : Nat) : Except Fault Datum :=
    match instrs[n]? with
    | some i => i.text?.map .str
    | none => .error .outOfRange
  let a ← text k.before
  let b ← text k.after
  return .list (if labeled then [.str k.source,a,.str k.target,b] else [a,b])

def Graph.linksToDatum (g : Graph) (labeled : Bool) : Except Fault Datum := do
  return .list (← (← g.links).mapM (Link.toDatum g.instrs.toArray labeled))

def Graph.livenessToDatum (g : Graph) : Except Fault Datum := do
  let l ← liveness g
  let rows := g.places.flatMap fun (n,b) => l.ofBlock n b
  return .list (← rows.mapM fun (i,before,after) => do
    return .list [.str (← i.text?),.texts before,.texts after])

end BxToolchain.Flow
