import BxToolchain.Bx.Checker
import BxToolchain.Bx.Code
import BxToolchain.Digest.Shake

namespace BxToolchain.Bx

structure Lowering where
  temps : Nat := 0
  labels : Nat := 0
  body : Array Instr := #[]
  items : Array Item := #[]
  scopes : List (Table String String) := [{}]
  loops : List (Nat × Nat) := []
  handlers : List Nat := []
  procedure : String := "Global"
  functions : List String := []
  reporter : Reporter := {}

abbrev Lower := Run Lowering

namespace Lower

def emit (i : Instr) : Lower Unit := modify fun s => { s with body := s.body.push i }

def report (reason : String) (line : Int) : Lower Unit :=
  modify fun s => { s with reporter := s.reporter.add reason line s.reporter.stage }

def register (n : Nat) : String := "%" ++ toString n

def newRegister : Lower Datum := do
  let s ← get
  set { s with temps := s.temps + 1 }
  return .str (register s.temps)

def newLabels (n : Nat) : Lower Nat := do
  let s ← get
  set { s with labels := s.labels + n }
  return s.labels

def label (n : Nat) : Datum := .int n

def emitLabel (n : Nat) : Lower Unit := emit (.act "label" [label n])

def emitJump (n : Nat) : Lower Unit := emit (.act "jmp" [label n])

def pending : Datum := .str "@exception"

def exceptionCode (name : String) : Nat :=
  (Digest.shake256 name.toUTF8.toList 3).foldl (fun n b => 256 * n + b.toNat) 0

def lookupRegister (name : String) : List (Table String String) → Option String
  | [] => none
  | s :: rest =>
    match s.get? name with
    | some r => some r
    | none => lookupRegister name rest

def variableRegister (name : String) : Lower Datum := do
  match lookupRegister name (← get).scopes with
  | some r => return .str r
  | none =>
    report ("Undefined variable " ++ name) (-1)
    return .null

def bind (name register : String) : Lower Unit := do
  let s ← get
  match s.scopes with
  | [] => throw .outOfRange
  | scope :: rest => set { s with scopes := scope.insert name register :: rest }

def binaryOpcode : String → Datum
  | "+" => .str "add"
  | "-" => .str "sub"
  | "*" => .str "mul"
  | "/" => .str "div"
  | "%" => .str "mod"
  | "&" => .str "and"
  | "|" => .str "or"
  | "^" => .str "xor"
  | "<<" => .str "shl"
  | ">>" => .str "shr"
  | _ => .null

def unaryOpcode : String → Datum
  | "-" => .str "neg"
  | "~" => .str "not"
  | _ => .null

def comparisonJump? : String → Option String
  | "<" => some "jl"
  | ">" => some "jg"
  | "<=" => some "jle"
  | ">=" => some "jge"
  | "==" => some "jz"
  | "!=" => some "jnz"
  | _ => none

def escape (filler : Datum) : Lower Unit := do
  let s ← get
  match s.handlers with
  | handler :: _ => emitJump handler
  | [] =>
    if s.functions.contains s.procedure then emit (.act "ret" [filler])
    else emit (.act "ret" [])

def testPending (whenNone : Nat) : Lower Datum := do
  let zero ← newRegister
  emit (.make "const" [.int 0] zero)
  emit (.act "cmpq" [zero,pending])
  emit (.act "jz" [label whenNone])
  return zero

def lowerCall (name : String) (count : Nat) : Lower Datum := do
  let callArgs := [Datum.str ("@" ++ name),.int (count + 1)]
  let result ← if (← get).functions.contains name then
      let r ← newRegister
      emit (.make "call" callArgs r)
      pure r
    else
      emit (.act "call" callArgs)
      pure .null
  let after ← newLabels 1
  let zero ← testPending after
  escape zero
  emitLabel after
  return result

mutual

def lowerExpr : Node → Lower Datum
  | .var _ _ name => variableRegister name
  | .number _ _ value => do
    let r ← newRegister
    emit (.make "const" [value] r)
    return r
  | .boolean _ _ value => do
    let r ← newRegister
    emit (.make "const" [.int (if value.same (.str "true") then 1 else 0)] r)
    return r
  | .binary _ _ left right operation => do
    let a ← lowerExpr left
    let b ← lowerExpr right
    let r ← newRegister
    emit { opcode := binaryOpcode operation, args := .list [a,b], result := r }
    return r
  | .unary _ _ value operation => do
    let a ← lowerExpr value
    let r ← newRegister
    emit { opcode := unaryOpcode operation, args := .list [a], result := r }
    return r
  | .call _ _ name args => do
    lowerArgs args.length 0 args
    lowerCall name args.length
  | .bareCall .. => throw .wrongKind
  | n => do
    match n.line? with
    | none => throw .missingPart
    | some line =>
      report ("Unrecognized expression: " ++ n.kindText) line
      return .null

def lowerArgs (count index : Nat) : List Node → Lower Unit
  | [] => return ()
  | arg :: rest => do
    let value ← lowerExpr arg
    let number := if index < 6 then index + 1 else count - (index - 6)
    emit (.act "param" [.int number,value])
    lowerArgs count (index + 1) rest

end

def lowerCondition : Node → Nat → Nat → Lower Unit
  | .boolean _ _ value, yes, no => do
    if value.same (.str "true") then emitJump yes
    else if value.same (.str "false") then emitJump no
  | .var _ _ name, yes, no => do
    let value ← variableRegister name
    let zero ← newRegister
    emit (.make "const" [.int 0] zero)
    emit (.act "cmpq" [zero,value])
    emit (.act "jnz" [label yes])
    emitJump no
  | .binary _ _ left right operation, yes, no => do
    match comparisonJump? operation with
    | some jump =>
      let a ← lowerExpr left
      let b ← lowerExpr right
      emit (.act "cmpq" [a,b])
      emit (.act jump [label yes])
      emitJump no
    | none =>
      match operation with
      | "!" => throw .missingPart
      | "&&" =>
        lowerCondition left (← get).labels no
        let middle ← newLabels 1
        emitLabel middle
        lowerCondition right yes no
      | "||" =>
        lowerCondition left yes (← get).labels
        let middle ← newLabels 1
        emitLabel middle
        lowerCondition right yes no
      | _ => return ()
  | .unary _ _ value operation, yes, no => do
    if (comparisonJump? operation).isSome then throw .missingPart
    match operation with
    | "!" => lowerCondition value no yes
    | "&&" | "||" => throw .missingPart
    | _ => return ()
  | _, _, _ => throw .missingPart

def enterScope : Lower Unit := modify fun s => { s with scopes := {} :: s.scopes }

def leaveScope : Lower Unit := modify fun s => { s with scopes := s.scopes.drop 1 }

def lowerInits : List Node → Lower Unit
  | [] => return ()
  | .varInit name value _ :: rest => do
    let v ← lowerExpr value
    let r ← newRegister
    bind name r.display
    emit (.make "copy" [v] r)
    lowerInits rest
  | _ => throw .missingPart

def lowerBreak (target : String) (line : Int) : Lower Unit := do
  match target, (← get).loops with
  | "break", (_,done) :: _ => emitJump done
  | "break", [] => report "Break found outside a while loop" line
  | "continue", (head,_) :: _ => emitJump head
  | "continue", [] => report "Continue found outside a while loop" line
  | _, _ => report "Unidentified jump: \x7bs.ty\x7d" line

def lowerRaise (name : String) : Lower Unit := do
  let code ← newRegister
  emit (.make "const" [.int (exceptionCode name)] code)
  emit (.make "copy" [code] pending)
  escape code

def enterCatch (name : String) (otherwise : Nat) : Lower Unit := do
  let code ← newRegister
  emit (.make "const" [.int (exceptionCode name)] code)
  emit (.act "cmpq" [code,pending])
  emit (.act "jnz" [label otherwise])
  let zero ← newRegister
  emit (.make "const" [.int 0] zero)
  emit (.make "copy" [zero] pending)

mutual

def lowerStatement : Node → Lower Unit
  | .varDecl _ inits _ => lowerInits inits
  | .assign _ name value => do
    let v ← lowerExpr value
    let r ← variableRegister name
    emit (.make "copy" [v] r)
  | .eval _ value => do
    let _ ← lowerExpr value
  | .block _ statements => do
    enterScope
    lowerStatements statements
    leaveScope
  | .ifElse _ condition ifBranch elseBranch => do
    let first ← newLabels 3
    lowerCondition condition first (first + 1)
    emitLabel first
    lowerStatement ifBranch
    emitJump (first + 2)
    emitLabel (first + 1)
    lowerStatement elseBranch
    emitLabel (first + 2)
  | .while' _ condition block => do
    let head ← newLabels 3
    modify fun s => { s with loops := (head,head + 2) :: s.loops }
    emitLabel head
    lowerCondition condition (head + 1) (head + 2)
    emitLabel (head + 1)
    lowerStatement block
    emitJump head
    emitLabel (head + 2)
    modify fun s => { s with loops := s.loops.drop 1 }
  | .jump line target => lowerBreak target line
  | .return' _ .absent => emit (.act "ret" [])
  | .return' _ value => do
    let v ← lowerExpr value
    emit (.act "ret" [v])
  | .tryExcept _ block catches => do
    let handler ← newLabels 2
    modify fun s => { s with handlers := handler :: s.handlers }
    lowerStatement block
    emitJump (handler + 1)
    modify fun s => { s with handlers := s.handlers.drop 1 }
    emitLabel handler
    lowerCatches (handler + 1) catches
    let zero ← testPending (handler + 1)
    escape zero
    emitLabel (handler + 1)
  | .raise _ name => lowerRaise name
  | n => do
    match n.line? with
    | none => throw .missingPart
    | some line => report ("Unrecognized statement: " ++ n.kindText) line

def lowerStatements : List Node → Lower Unit
  | [] => return ()
  | s :: rest => do
    lowerStatement s
    lowerStatements rest

def lowerCatches (done : Nat) : List Node → Lower Unit
  | [] => return ()
  | .catch' _ name block :: rest => do
    let otherwise ← newLabels 1
    enterCatch name otherwise
    lowerStatement block
    emitJump done
    emitLabel otherwise
    lowerCatches done rest
  | _ => do
    let _ ← newLabels 1
    throw .missingPart

end

def lowerBlock : Node → Lower Unit
  | .absent => throw .missingPart
  | .block _ statements => do
    enterScope
    lowerStatements statements
    leaveScope
  | _ => do
    enterScope
    throw .missingPart

def writtenValue : Node → Lower Init
  | .number _ _ v | .boolean _ _ v => return .value v
  | .unary _ _ n _ => return .tree n
  | _ => throw .missingPart

def addGlobal (name : String) (init : Init) : Lower Unit :=
  modify fun s => { s with items := s.items.push (.global ("@" ++ name) init) }

def lowerGlobal (line : Int) (name : String) (value : Node) (initLine : Int) : Lower Unit := do
  let complain : Lower Unit :=
    report ("global variable wrong type: " ++ (Node.varInit name value initLine).render) line
  match value.type? with
  | none => throw .missingPart
  | some "int" =>
    let init ← writtenValue value
    match init with
    | .value (.int _) => pure ()
    | _ => complain
    addGlobal name init
  | some "bool" =>
    match ← writtenValue value with
    | .value (.str "true") => addGlobal name (.value (.int 1))
    | .value (.str "false") => addGlobal name (.value (.int 0))
    | _ => complain
  | some _ => pure ()
  bind name ("@" ++ name)

def lowerGlobals (line : Int) : List Node → Lower Unit
  | [] => return ()
  | .varInit name value initLine :: rest => do
    lowerGlobal line name value initLine
    lowerGlobals line rest
  | _ => throw .missingPart

def paramNames : List Node → Lower (List String)
  | [] => return []
  | .param _ names _ :: rest => return names ++ (← paramNames rest)
  | _ => throw .missingPart

def lowerDeclaration : Node → Lower Unit
  | .varDecl line inits _ => lowerGlobals line inits
  | .procDecl _ name block params _ _ => do
    let names ← paramNames params
    names.forM fun x => bind x ("%" ++ x)
    modify fun s => { s with procedure := name }
    lowerBlock block
    modify fun s =>
      { s with
        items := s.items.push
          (.procedure ("@" ++ name) (names.map ("%" ++ ·)) s.body.toList)
        body := #[] }
  | _ => return ()

def lowerProgram (declarations : List Node) : Lower Unit := do
  addGlobal "exception" (.value (.int 0))
  bind "exception" "@exception"
  declarations.forM lowerDeclaration

end Lower

end BxToolchain.Bx
