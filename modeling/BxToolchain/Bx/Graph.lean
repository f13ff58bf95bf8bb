import BxToolchain.Bx.Code
import BxToolchain.Report

namespace BxToolchain.Bx

structure Block where
  label : String
  content : List Instr
  next : List String := []
  prev : List String := []

inductive Condition where
  | always
  | test (left : Datum) (jump : Datum) (right : Datum)

def Condition.same : Condition → Condition → Bool
  | .always, .always => true
  | .test a j b, .test a' j' b' => a.same a' && j.same j' && b.same b'
  | _, _ => false

def Condition.isAlways : Condition → Bool
  | .always => true
  | .test .. => false

structure Edge where
  source : String
  target : String
  condition : Condition

def Edge.same (e f : Edge) : Bool :=
  e.source == f.source && e.target == f.target && e.condition.same f.condition

def Edge.text (e : Edge) : String :=
  let condition := match e.condition with
    | .always => "True"
    | .test a j b => "(" ++ a.render ++ ", " ++ j.render ++ ", " ++ b.render ++ ")"
  "(" ++ Text.quote e.source ++ ", " ++ Text.quote e.target ++ ", " ++ condition ++ ")"

structure Graph where
  procedure : String := "main"
  blocks : Table String Block := {}
  edges : List Edge := []
  labels : Nat := 0
  reporter : Reporter := {}
  output : String := ""

abbrev Shape := Run Graph

namespace Graph

def entry (g : Graph) : String := g.procedure ++ "_initial"

end Graph

namespace Block

def instr (b : Block) (index : Int) : Except Fault Instr :=
  let n := if index < 0 then index + b.content.length else index
  if n < 0 then .error .outOfRange
  else
    match b.content[n.toNat]? with
    | some i => .ok i
    | none => .error .outOfRange

def last (b : Block) : Except Fault Instr := b.instr (-1)

def text (b : Block) : String :=
  "Label: " ++ b.label ++ " \nContent: \n" ++
    String.join (b.content.map fun i => i.toDatum.render ++ "\n") ++
    "Next:" ++ Node.texts b.next ++ "\n" ++ "Prev:" ++ Node.texts b.prev

def isConst (b : Block) (i : Int) : Except Fault Bool := do
  let x ← b.instr (-i)
  if !x.hasOpcode "const" then return false
  match ← x.arg 0 with
  | .int _ => return true
  | _ => return false

def keeps (b : Block) (register : Datum) : Bool := b.content.all fun i => !i.result.same register

def knownOperands (b : Block) (left right : Datum) : Nat → Int → Except Fault (Datum × Datum)
  | 0, _ => .ok (left,right)
  | fuel + 1, i => do
    if i = b.content.length then return (left,right)
    let x ← b.instr (-i)
    if ← b.isConst i then
      if left.same x.result then return (← x.arg 0,right)
      if right.same x.result then return (left,← x.arg 0)
    knownOperands b left right fuel (i + 1)

def condition (b : Block) (i : Int) : Except Fault Condition := do
  let jump ← b.instr (-i)
  if jump.hasOpcode "jmp" then return .always
  let compare ← b.instr (-(i + 1))
  if !compare.hasOpcode "cmpq" then throw (.unboundName "self")
  let (left,right) ← b.knownOperands (← compare.arg 0) (← compare.arg 1)
    (b.content.length + i.natAbs + 2) (i + 2)
  return .test left jump.opcode right

end Block

namespace Shape

def lift {α : Type} (r : Except Fault α) : Shape α :=
  match r with
  | .ok a => return a
  | .error e => throw e

def keyFault (label : String) : Fault := .missingKey (Text.quote label)

def block (label : String) : Shape Block := do
  match (← get).blocks.get? label with
  | some b => return b
  | none => throw (keyFault label)

def setBlock (key : String) (b : Block) : Shape Unit :=
  modify fun g => { g with blocks := g.blocks.insert key b }

def updateBlock (label : String) (f : Block → Block) : Shape Unit := do
  setBlock label (f (← block label))

def removeBlock (label : String) : Shape Unit := do
  let _ ← block label
  modify fun g => { g with blocks := g.blocks.erase label }

def print (line : String) : Shape Unit := modify fun g => { g with output := g.output ++ line ++ "\n" }

def without (label : String) (labels : List String) : Shape (List String) := do
  if labels.contains label then return labels.erase label
  throw .notInList

def eraseEdge (e : Edge) : List Edge → Option (List Edge)
  | [] => none
  | f :: rest => if f.same e then some rest else (eraseEdge e rest).map (f :: ·)

def removeEdge (e : Edge) : Shape Unit := do
  let g ← get
  match eraseEdge e g.edges with
  | some edges => set { g with edges }
  | none => throw .notInList

def addEdge (e : Edge) : Shape Unit := modify fun g => { g with edges := g.edges ++ [e] }

def append (label : String) (i : Instr) : Shape Unit :=
  updateBlock label fun b => { b with content := b.content ++ [i] }

def labelInstr (label : String) : Instr := .act "label" [.str label]

def jumpInstr (label : String) : Instr := .act "jmp" [.str label]

def freshBlock : Shape String := do
  let g ← get
  let label := "b" ++ toString g.labels
  setBlock label { label, content := [labelInstr label] }
  modify fun g => { g with labels := g.labels + 1 }
  return label

def markEntry (body : List Instr) : Shape (Option Datum × List Instr) := do
  let entry := labelInstr (← get).entry
  match body with
  | [] => return (none,[entry])
  | i :: rest =>
    if i.hasOpcode "label" then
      let first ← lift (i.arg 0)
      let first := if first.same (.str "") then none else some first
      return (first,{ i with args := entry.args } :: rest)
    return (none,entry :: body)

def replaceFirst (old new : Datum) : List Datum → List Datum
  | [] => []
  | x :: rest => if x.same old then new :: rest else x :: replaceFirst old new rest

def redirect (first : Option Datum) (entry : String) (i : Instr) : Except Fault Instr := do
  match first with
  | none => return i
  | some old =>
    if ← i.isJump then
      match i.args with
      | .list xs => return { i with args := .list (replaceFirst old (.str entry) xs) }
      | .str s =>
        match old with
        | .str o => if o.isEmpty || (s.splitOn o).length > 1 then throw .wrongKind else return i
        | _ => throw .wrongKind
      | _ => throw .wrongKind
    else return i

def endsBlock (i : Instr) : Bool := i.hasOpcode "jmp" || i.hasOpcode "ret"

def cut (first : Option Datum) : Nat → String → List Instr → Shape String
  | _, label, [] => return label
  | index, label, i :: rest => do
    let i ← lift (redirect first (← get).entry i)
    if i.hasOpcode "jmp" then
      append label i
      match rest with
      | [] => cut first (index + 1) label rest
      | following :: _ =>
        if following.hasOpcode "label" then cut first (index + 1) label rest
        else cut first (index + 1) (← freshBlock) rest
    else if ← lift i.isJump then
      append label i
      match rest with
      | [] => throw .outOfRange
      | following :: _ =>
        if following.hasOpcode "label" then
          cut first (index + 1) (← lift following.target) rest
        else
          let new ← freshBlock
          append label (jumpInstr new)
          cut first (index + 1) new rest
    else if i.hasOpcode "label" then
      let new ← lift i.target
      if index ≠ 0 then
        unless endsBlock (← lift (← block label).last) do append label (jumpInstr new)
      setBlock new { label := new, content := [i] }
      cut first (index + 1) new rest
    else
      append label i
      cut first (index + 1) label rest

def inferBlocks (body : List Instr) : Shape Unit := do
  let (first,body) ← markEntry body
  let label ← cut first 0 (← get).entry body
  unless endsBlock (← lift (← block label).last) do append label (.act "ret" [])

def linkBlock (label : String) : Nat → Int → Shape Unit
  | 0, _ => return ()
  | fuel + 1, i => do
    let b ← block label
    let x ← lift (b.instr (-i))
    if ← lift x.isJump then
      let condition ← lift (b.condition i)
      let target ← lift x.target
      setBlock label { b with next := b.next ++ [target] }
      updateBlock target fun t => { t with prev := t.prev ++ [label] }
      addEdge ⟨label,target,condition⟩
      linkBlock label fuel (i + 1)

def link : Shape Unit := do
  for (label,b) in (← get).blocks.entries do linkBlock label (b.content.length + 1) 1

end Shape

end BxToolchain.Bx
