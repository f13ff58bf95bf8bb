import BxToolchain.Bx.Graph

namespace BxToolchain.Bx.Shape

def replaceLabel (key old new : String) : Shape Unit := do
  let b ← block key
  let content ← lift (b.content.mapM fun i => do
    if ← i.isJump then
      if (← i.target) == old then i.retarget new else pure i
    else pure i)
  setBlock key
    { b with content, next := b.next.map fun l => if l == old then new else l }

def moveEdge (source old new : String) : Shape Unit := do
  let g ← get
  let isOld (e : Edge) := e.source == source && e.target == old
  match g.edges.find? isOld with
  | none => throw .notInList
  | some e => set { g with edges := g.edges.eraseP isOld ++ [{ e with target := new }] }

def skipBlock (label target : String) (b : Block) : Shape Unit := do
  for p in b.prev do
    let _ ← block p
    replaceLabel p label target
    moveEdge p label target
  let before := (← block label).prev
  let t ← block target
  let prev ← without label t.prev
  setBlock target { t with prev := prev ++ (if target == label then prev else before) }
  removeBlock label

def findUseless (g : Graph) : Option (String × String × Block) :=
  g.blocks.entries.findSome? fun (label,b) =>
    if b.content.length = 2 && label != g.entry then b.next.head?.map fun t => (label,t,b)
    else none

def skipUselessUpTo : Nat → Nat → Shape Nat
  | 0, count => return count
  | fuel + 1, count => do
    match findUseless (← get) with
    | none => return count
    | some (label,target,b) =>
      skipBlock label target b
      skipUselessUpTo fuel (count + 1)

def skipUseless : Shape Nat := do skipUselessUpTo ((← get).blocks.entries.length + 1) 0

def adopt (l1 l2 successor : String) : Shape Unit := do
  let s ← block successor
  let prev ← if s.prev.contains l2 then pure (s.prev.erase l2) else do
    modify fun g =>
      { g with
        reporter := g.reporter.add ("Trying to remove node " ++ l2 ++ " from list (" ++
          Node.texts s.prev ++ ") of previous blocks of " ++ successor) (-1)
          (.str "Optimisation: coalescing") }
    pure s.prev
  setBlock successor { s with prev := prev ++ [l1] }
  modify fun g =>
    let (moved,kept) := g.edges.partition fun e => e.source == l2 && e.target == successor
    { g with edges := kept ++ moved.map fun e => { e with source := l1 } }

def join (l1 l2 : String) : Shape Unit := do
  let _ ← block l1
  let successors := (← block l2).next
  for s in successors do adopt l1 l2 s
  let b1 ← block l1
  let b2 ← block l2
  setBlock l1 { b1 with next := b2.next, content := b1.content.dropLast ++ b2.content }
  removeBlock l2

def findChain : List (String × Block) → Shape (Option (String × String))
  | [] => return none
  | (l1,b1) :: rest => do
    match b1.next with
    | [l2] =>
      let b2 ← block l2
      if b2.prev.length ≠ 1 || l2 == (← get).entry then findChain rest
      else return some (l1,l2)
    | _ => findChain rest

def coalesceUpTo : Nat → Nat → Shape Nat
  | 0, count => return count
  | fuel + 1, count => do
    match ← findChain (← get).blocks.entries with
    | none => return count
    | some (l1,l2) =>
      join l1 l2
      coalesceUpTo fuel (count + 1)

def coalesce : Shape Nat := do coalesceUpTo ((← get).blocks.entries.length + 1) 0

def pushUnvisited (unvisited : List String) : List String → List String → List String
  | stack, [] => stack
  | stack, n :: rest =>
    if unvisited.contains n && !stack.contains n then pushUnvisited unvisited (n :: stack) rest
    else pushUnvisited unvisited stack rest

def visit : Nat → List String → List String → Shape (List String)
  | 0, unvisited, _ => return unvisited
  | _ + 1, unvisited, [] => return unvisited
  | fuel + 1, unvisited, node :: stack => do
    if !unvisited.contains node then throw (keyFault node)
    let unvisited := unvisited.erase node
    visit fuel unvisited (pushUnvisited unvisited stack (← block node).next)

def dropUnreachable : Shape Nat := do
  let g ← get
  let labels := g.blocks.keys
  let unreached ← visit (labels.length + 1) labels [g.entry]
  modify fun g =>
    { g with
      blocks := ⟨g.blocks.entries.filter fun e => !unreached.contains e.1⟩
      edges := g.edges.filter fun e => !unreached.contains e.source && !unreached.contains e.target }
  return unreached.length

def decided : String → Option (List String × List String)
  | "jl" => some (["jl","jnz","jle"],["jg","jz","jge"])
  | "jg" => some (["jg","jnz","jge"],["jl","jz","jle"])
  | "jle" => some (["jle"],["jg"])
  | "jge" => some (["jge"],["jl"])
  | "jz" => some (["jz","jge","jle"],["jnz","jl","jg"])
  | "jnz" => some (["jnz","jg","jl"],["jz"])
  | _ => none

def decidedBy (jump : Datum) : Except Fault (List String × List String) :=
  match jump with
  | .str j =>
    match decided j with
    | some d => .ok d
    | none => .error (.missingKey (Text.quote j))
  | .list _ | .tuple _ | .record _ => .error .wrongKind
  | d => .error (.missingKey d.render)

def holds (jumps : List String) (jump : Datum) : Bool := jumps.any fun j => jump.same (.str j)

def threadConditions (l1 l2 : String) (edges : List Edge) :
    Option Condition × Option (Condition × String) :=
  edges.foldl (fun (c1,c2) e =>
    (if e.source == l1 && e.target == l2 then some e.condition else c1,
     if e.source == l2 && !e.condition.isAlways then some (e.condition,e.target) else c2))
    (none,none)

def dropConditional (b : Block) : Except Fault Block :=
  if b.content.length < 2 then .error .outOfRange
  else .ok { b with content := b.content.eraseIdx (b.content.length - 2) }

def blockNamed (label : Datum) : Shape String := do
  match label with
  | .str s =>
    let _ ← block s
    return s
  | .list _ | .tuple _ | .record _ => throw .wrongKind
  | d => throw (.missingKey d.render)

def alwaysJump (l2 l3 : String) (c2 : Condition) : Shape Unit := do
  let b ← block l2
  let other ← lift ((← lift b.last).arg 0)
  let b ← lift (dropConditional b)
  let last ← lift b.last
  setBlock l2
    { b with content := b.content.dropLast ++ [{ last with args := .str l3 }], next := [l3] }
  let l4 ← blockNamed other
  let t ← block l4
  let prev ← without l2 t.prev
  setBlock l4 { t with prev }
  removeEdge ⟨l2,l4,.always⟩
  removeEdge ⟨l2,l3,c2⟩
  addEdge ⟨l2,l3,.always⟩

def neverJump (l2 l3 : String) (c2 : Condition) : Shape Unit := do
  let b ← block l2
  let other ← lift ((← lift b.last).arg 0)
  let b ← lift (dropConditional b)
  setBlock l2 { b with next := [other.display] }
  let t ← block l3
  let prev ← without l2 t.prev
  setBlock l3 { t with prev }
  removeEdge ⟨l2,l3,c2⟩

def thread (l1 l2 : String) : Shape Bool := do
  match threadConditions l1 l2 (← get).edges with
  | (none,_) => throw .unset
  | (some .always,_) => throw .wrongKind
  | (some (.test ..),none) => throw .unset
  | (some (.test a1 j1 b1),some (c2,l3)) =>
    match c2 with
    | .always => return false
    | .test a2 j2 b2 =>
      if (a1.same a2 && b1.same b2) || (a1.same b2 && b1.same a2) then
        let (yes,no) ← lift (decidedBy j1)
        if holds yes j2 then
          alwaysJump l2 l3 c2
          return true
        if holds no j2 then
          neverJump l2 l3 c2
          return true
      return false

def threadTarget (l1 : String) : List Edge → Shape (Option String)
  | [] => return none
  | e :: rest => do
    match e.condition with
    | .always => threadTarget l1 rest
    | .test a _ b =>
      if e.source ≠ l1 then threadTarget l1 rest
      else
        let t ← block e.target
        if t.prev.length = 1 && t.next.length = 2 && t.keeps a && t.keeps b then
          return some e.target
        threadTarget l1 rest

def findThreading : List String → Shape (Option (String × String))
  | [] => return none
  | l1 :: rest => do
    match ← threadTarget l1 (← get).edges with
    | some l2 => return some (l1,l2)
    | none => findThreading rest

def threadJumpsUpTo : Nat → Nat → Shape Nat
  | 0, count => return count
  | fuel + 1, count => do
    match ← findThreading (← get).blocks.keys with
    | none => return count
    | some (l1,l2) => if ← thread l1 l2 then threadJumpsUpTo fuel (count + 1) else return count

def threadJumps : Shape Nat := do threadJumpsUpTo ((← get).blocks.entries.length + 1) 0

def optimizeUpTo : Nat → Nat → Shape Nat
  | 0, count => return count
  | fuel + 1, count => do
    let useless ← skipUseless
    let joined ← coalesce
    let unreached ← dropUnreachable
    let threaded ← threadJumps
    let again ← coalesce
    let count := count + useless + joined + 2 * unreached + threaded + again
    if useless = 0 && joined = 0 && unreached = 0 && threaded = 0 then return count
    optimizeUpTo fuel count

def optimize : Shape Nat := optimizeUpTo 10 0

structure Schedule where
  done : List String
  result : List Instr
  current : String
  label : String

def follow (entry : String) : Nat → Schedule → Shape Schedule
  | 0, s => return s
  | fuel + 1, s => do
    let b ← block s.current
    let s := if s.current == entry then s else
      { s with done := s.done ++ [s.current], result := s.result ++ b.content }
    let last ← lift b.last
    let label ← if ← lift last.isJump then lift last.target else pure s.label
    if s.done.contains label then
      match b.next.find? fun l => !s.done.contains l with
      | some l => return { s with current := l, label := l }
      | none => return { s with label := b.next.getLast?.getD label }
    follow entry fuel { s with current := label, label }

def scheduleUpTo (entry : String) (labels : List String) (starts : Bool) :
    Nat → Schedule → Shape Schedule
  | 0, s => return s
  | fuel + 1, s => do
    match labels.find? fun l => !s.done.contains l with
    | none => return s
    | some l =>
      if !starts then throw .unset
      let s := if s.done.contains s.current then { s with current := l, label := l } else s
      scheduleUpTo entry labels starts fuel (← follow entry (labels.length + 1) s)

def serialize : Shape (List Instr) := do
  let g ← get
  let entry := g.entry
  let b ← block entry
  let starts ← lift (do (← b.last).isJump)
  if starts then
    let _ ← lift (do (← b.last).target)
  let labels := g.blocks.keys
  let s ← scheduleUpTo entry labels starts (labels.length + 1)
    { done := [entry], result := b.content, current := entry, label := entry }
  return s.result

def checkBlocks : Shape Bool := do
  let blocks := (← get).blocks
  let named := blocks.values.flatMap fun b => b.next ++ b.prev
  return named.all blocks.keys.contains && blocks.keys.all named.contains

def badEdge : List Edge → Shape (Option Edge)
  | [] => return none
  | e :: rest => do
    if !(← block e.source).next.contains e.target then return some e
    if !(← block e.target).prev.contains e.source then return some e
    badEdge rest

def checkEdges : Shape Bool := do
  match ← badEdge (← get).edges with
  | some e =>
    print ("NOT GOOD: " ++ e.text)
    return false
  | none =>
    let g ← get
    let missing := g.blocks.entries.findSome? fun (label,b) =>
      (b.next.find? fun n => !g.edges.any fun e => e.source == label && e.target == n).map
        fun n => (label,n)
    match missing with
    | some (label,n) =>
      print ("NOT GOOD: " ++ label ++ " " ++ n)
      return false
    | none =>
      print "ALL EDGES GOOD"
      return true

def printBlocks : Shape Unit := do
  for b in (← get).blocks.values do
    print b.text
    print ""

def optimizeBody (body : List Instr) : Shape Unit := do
  inferBlocks body
  link
  let _ ← optimize

end BxToolchain.Bx.Shape
