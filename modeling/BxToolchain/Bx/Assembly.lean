import BxToolchain.Bx.Document

namespace BxToolchain.Bx

structure Assembly where
  slots : Table String String := {}
  lines : Array String := #[]
  body : Array String := #[]
  reporter : Reporter := {}

abbrev Assemble := Run Assembly

namespace Assemble

def lift {α : Type} (r : Except Fault α) : Assemble α :=
  match r with
  | .ok a => return a
  | .error e => throw e

def emit (lines : List String) : Assemble Unit :=
  modify fun s => { s with body := s.body ++ lines.toArray }

def finish (lines : List String) : Assemble Unit :=
  modify fun s => { s with lines := s.lines ++ lines.toArray }

def report (reason : String) : Assemble Unit :=
  modify fun s => { s with reporter := s.reporter.add reason (-2) s.reporter.stage }

def kindText (d : Datum) : String := "<class '" ++ d.kind ++ "'>"

def slotText (used : Nat) : String := Text.decimal (-8 * ((used : Int) + 1)) ++ "(%rbp)"

def place? (operand : Datum) : Assemble (Option String) := do
  match operand with
  | .str s =>
    match s.toList with
    | [] => throw .outOfRange
    | '@' :: name => return some (String.ofList name ++ "(%rip)")
    | _ =>
      let a ← get
      match a.slots.get? s with
      | some slot => return some slot
      | none =>
        let slot := slotText a.slots.entries.length
        set { a with slots := a.slots.insert s slot }
        return some slot
  | d =>
    report ("Temporary " ++ d.display ++ " has an unexpected type (" ++ kindText d ++
      "). Expected str")
    return none

def place (operand : Datum) : Assemble String := return (← place? operand).getD "None"

def argRegisters : List String := ["rdi","rsi","rdx","rcx","r8","r9"]

def argRegister (index : Int) : Except Fault String :=
  let n := if index < 0 then index + argRegisters.length else index
  if n < 0 then .error .outOfRange
  else
    match argRegisters[n.toNat]? with
    | some r => .ok r
    | none => .error .outOfRange

def at? (xs : List Datum) (n : Nat) : Except Fault Datum :=
  match xs[n]? with
  | some d => .ok d
  | none => .error .outOfRange

def expectCount (what : String) (count : Nat) (xs : List Datum) : Assemble Unit := do
  unless xs.length = count do
    report ("Processing " ++ what ++ ": expected len(args) == " ++ toString count ++
      ", found length " ++ toString xs.length)

def isInt : Datum → Bool
  | .int _ => true
  | _ => false

def assembleConst (args result : Datum) : Assemble Unit := do
  let xs ← lift (sequenceOf args)
  expectCount "Const" 1 xs
  let value ← lift (at? xs 0)
  unless isInt value do
    report ("Processing Const: expected type(args[0]) == int, found type " ++ kindText value)
  let r ← place result
  emit ["movq $" ++ value.display ++ ", " ++ r]

def assembleCopy (args result : Datum) : Assemble Unit := do
  let xs ← lift (sequenceOf args)
  expectCount "Copy" 1 xs
  let a ← place (← lift (at? xs 0))
  let r ← place result
  emit ["movq " ++ a ++ ", %r11","movq %r11, " ++ r]

def binaryLines? (opcode a b r : String) : Option (List String) :=
  let simple (mnemonic : String) :=
    ["movq " ++ a ++ ", %r11",mnemonic ++ " " ++ b ++ ", %r11","movq %r11, " ++ r]
  let shift (mnemonic : String) :=
    ["movq " ++ a ++ ", %r11","movq " ++ b ++ ", %rcx",mnemonic ++ " %cl, %r11",
      "movq %r11, " ++ r]
  let divide (register : String) :=
    ["movq " ++ a ++ ", %rax","cqto","idivq " ++ b,"movq " ++ register ++ ", " ++ r]
  match opcode with
  | "add" => some (simple "addq")
  | "sub" => some (simple "subq")
  | "and" => some (simple "andq")
  | "or" => some (simple "orq")
  | "xor" => some (simple "xorq")
  | "mul" => some ["movq " ++ a ++ ", %rax","imulq " ++ b,"movq %rax, " ++ r]
  | "div" => some (divide "%rax")
  | "mod" => some (divide "%rdx")
  | "shl" => some (shift "salq")
  | "shr" => some (shift "sarq")
  | _ => none

def isBinary (opcode : String) : Bool := (binaryLines? opcode "" "" "").isSome

def assembleBinary (opcode : String) (args result : Datum) : Assemble Unit := do
  let xs ← lift (sequenceOf args)
  expectCount ("Binary Operation (" ++ opcode ++ ")") 2 xs
  let a ← place (← lift (at? xs 0))
  let b ← place (← lift (at? xs 1))
  let r ← place result
  match binaryLines? opcode a b r with
  | some lines => emit lines
  | none => throw (.missingKey (Text.quote opcode))

def unaryMnemonic? : String → Option String
  | "neg" => some "negq"
  | "not" => some "notq"
  | _ => none

def assembleUnary (opcode : String) (args result : Datum) : Assemble Unit := do
  let xs ← lift (sequenceOf args)
  expectCount ("Unary Operation (" ++ opcode ++ ")") 1 xs
  let a ← place (← lift (at? xs 0))
  let r ← place result
  match unaryMnemonic? opcode with
  | some mnemonic => emit ["movq " ++ a ++ ", %r11",mnemonic ++ " %r11","movq %r11, " ++ r]
  | none => throw (.missingKey (Text.quote opcode))

def assembleCompare (args : Datum) : Assemble Unit := do
  let xs ← lift (sequenceOf args)
  expectCount "cmpq" 2 xs
  let a ← place (← lift (at? xs 0))
  let b ← place (← lift (at? xs 1))
  emit ["movq " ++ b ++ ", %r11","cmpq %r11, " ++ a]

def jumps : List String := ["jl","jg","jle","jge","jz","jnz","jmp"]

def assembleJump (opcode : String) (args : Datum) : Assemble Unit := do
  let xs ← lift (sequenceOf args)
  expectCount ("Jump (" ++ opcode ++ ")") 1 xs
  emit [opcode ++ " .L" ++ (← lift (at? xs 0)).display]

def assembleLabel (args : Datum) : Assemble Unit := do
  let xs ← lift (sequenceOf args)
  let label := (← lift (at? xs 0)).display
  expectCount ("Label (" ++ label ++ ")") 1 xs
  emit [".L" ++ label ++ ":"]

def assembleReturn (procedure : String) (args : Datum) : Assemble Unit := do
  unless args.same (.list []) do
    let xs ← lift (sequenceOf args)
    let a ← place (← lift (at? xs 0))
    emit ["movq " ++ a ++ ", %rax"]
  emit ["jmp E_" ++ procedure]

def pair (args : Datum) : Except Fault (Datum × Datum) := do
  match ← sequenceOf args with
  | [a,b] => return (a,b)
  | _ => throw .wrongCount

def number : Datum → Except Fault Int
  | .int n => .ok n
  | .bool b => .ok (if b then 1 else 0)
  | _ => .error .wrongKind

def assembleCall (args result : Datum) : Assemble Unit := do
  let (name,count) ← lift (pair args)
  emit ["callq " ++ (← lift (bareName name))]
  let n ← lift (number count)
  if n > 6 then emit ["addq $" ++ Text.decimal (8 * (n - 6)) ++ ", %rsp"]
  match result with
  | .null => return ()
  | r => emit ["movq %rax, " ++ (← place r)]

def assembleParam (args : Datum) : Assemble Unit := do
  let (index,value) ← lift (pair args)
  let n ← lift (number index)
  let a ← place value
  if n ≤ 6 then emit ["movq " ++ a ++ ", %" ++ (← lift (argRegister (n - 1)))]
  else emit ["pushq " ++ a]

def assembleInstr (procedure : String) (i : Instr) : Assemble Unit := do
  match i.opcode with
  | .str "nop" => return ()
  | .str "const" => assembleConst i.args i.result
  | .str "copy" => assembleCopy i.args i.result
  | .str "label" => assembleLabel i.args
  | .str "cmpq" => assembleCompare i.args
  | .str "ret" => assembleReturn procedure i.args
  | .str "call" => assembleCall i.args i.result
  | .str "param" => assembleParam i.args
  | .str opcode =>
    if isBinary opcode then assembleBinary opcode i.args i.result
    else if (unaryMnemonic? opcode).isSome then assembleUnary opcode i.args i.result
    else if jumps.contains opcode then assembleJump opcode i.args
    else report ("Processing Intruction: unknown opcode " ++ opcode)
  | .list _ | .tuple _ | .record _ => throw .wrongKind
  | d => report ("Processing Intruction: unknown opcode " ++ d.display)

def assembleBody (procedure : String) (body : Datum) : Assemble Unit := do
  for d in ← lift (sequenceOf body) do
    assembleInstr procedure (← lift (Instr.ofDatum d))

def frameSlots (used : Nat) : Nat := used + used % 2

def hashable : Datum → Bool
  | .list _ | .tuple _ | .record _ => false
  | _ => true

def storeParams : Nat → List Datum → Assemble Unit
  | _, [] => return ()
  | index, p :: rest => do
    let r ← lift (argRegister index)
    finish ["movq %" ++ r ++ ", " ++ (← place p)]
    storeParams (index + 1) rest

def assembleProcedure (d : Datum) : Assemble Unit := do
  let name ← lift (do bareName (← field "proc" d))
  let params ← lift (field "args" d)
  let body ← lift (field "body" d)
  assembleBody name body
  let size := 8 * frameSlots (← get).slots.entries.length
  finish [".text",".globl " ++ name,name ++ ":","pushq %rbp","movq %rsp, %rbp",
    "subq $" ++ toString size ++ ", %rsp"]
  let params ← lift (sequenceOf params)
  storeParams 0 (params.take 6)
  unless (params.drop 6).all hashable do throw .wrongKind
  finish (← get).body.toList
  modify fun s => { s with body := #[], slots := {} }
  finish ["E_" ++ name ++ ":","movq %rbp, %rsp","popq %rbp","retq"]

def assembleGlobal (name value : Datum) : Assemble Unit := do
  let name ← lift (bareName name)
  finish [".globl " ++ name,".data",name ++ ": .quad " ++ value.display]

def assemble : List Datum → Assemble Unit
  | [] => return ()
  | d :: rest => do
    match d with
    | .record fields =>
      match fields.lookup "var" with
      | some name =>
        assembleGlobal name (← lift (field "init" d))
        assemble rest
      | none =>
        if (fields.lookup "proc").isSome then
          assembleProcedure d
          assemble rest
        else
          report ("Unexpected instruction found: dict_keys(" ++
            Node.texts (fields.map Prod.fst) ++ ")")
    | _ => throw .missingPart

def fileText (lines : List String) : String :=
  "\n".intercalate (["\t.section .rodata",".lprintfmt:","\t.string \"%ld\\n\""] ++
    lines.map ("\t" ++ ·)) ++ "\n"

def cutEnding? (ending name : String) : Option String :=
  let n := name.toList
  let e := ending.toList
  if e.isSuffixOf n then some (String.ofList (n.take (n.length - e.length))) else none

def baseName (file : String) : Except Fault String :=
  match cutEnding? ".opt.tac.json" file <|> cutEnding? ".tac.json" file <|>
      cutEnding? ".json" file with
  | some base => .ok base
  | none => .error (.wrongEnding file)

def assembleFile (files : Files) (file : String) : Assemble Files := do
  let base ← lift (baseName file)
  match files.get? file with
  | none => throw (.noSuchFile file)
  | some text =>
    match Json.read? text with
    | none => throw .badDocument
    | some (.list document) =>
      assemble document
      let text := fileText (← get).lines.toList
      return (files.insert (base ++ ".s") text).insert (base ++ ".x64-linux.s") text
    | some d => throw (.notAList d.display)

end Assemble

end BxToolchain.Bx
