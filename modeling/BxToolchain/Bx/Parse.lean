import BxToolchain.Bx.Lexeme
import BxToolchain.Bx.Node
import BxToolchain.Report

namespace BxToolchain.Bx

abbrev Parse := StateT (List Token) (Except (List Token))

namespace Parse

def refuse {α : Type} : Parse α := fun ts => .error ts

def peek? : Parse (Option Kind) := fun ts => .ok (ts.head?.map Token.kind,ts)

def expect (kind : Kind) : Parse Token
  | t :: rest => if t.kind = kind then .ok (t,rest) else .error (t :: rest)
  | [] => .error []

def accept (kind : Kind) : Parse Bool
  | t :: rest => if t.kind = kind then .ok (true,rest) else .ok (false,t :: rest)
  | [] => .ok (false,[])

def next : Parse Token
  | t :: rest => .ok (t,rest)
  | [] => .error []

end Parse

open Parse

mutual

def operand : Nat → Parse Node
  | 0 => refuse
  | fuel + 1 => do
    match ← peek? with
    | some .minus | some .complement | some .not =>
      let t ← next
      return .unary t.line Node.undefined (← operand fuel) t.text
    | some .ident =>
      let t ← next
      if ← accept .lparen then
        let args ← arguments fuel
        let _ ← expect .rparen
        return .call t.line Node.undefined t.text args
      return .var t.line Node.undefined t.text
    | some .number =>
      let t ← next
      return .number t.line Node.undefined (.int t.value)
    | some .true' | some .false' =>
      let t ← next
      return .boolean t.line Node.undefined (.str t.text)
    | some .lparen =>
      let _ ← next
      let e ← expression fuel 0
      let _ ← expect .rparen
      return e
    | _ => refuse

def expression : Nat → Nat → Parse Node
  | 0, _ => refuse
  | fuel + 1, level => do operators fuel level (← operand fuel)

def operators : Nat → Nat → Node → Parse Node
  | 0, _, _ => refuse
  | fuel + 1, level, left => do
    match (← peek?).bind Kind.level? with
    | none => return left
    | some l =>
      if l < level then return left
      let t ← next
      let right ← expression fuel (l + 1)
      if !chains l && (← peek?).bind Kind.level? == some l then refuse
      operators fuel level (.binary 0 Node.undefined left right t.text)

def arguments : Nat → Parse (List Node)
  | 0 => refuse
  | fuel + 1 => do
    if (← peek?) = some .rparen then return []
    let e ← expression fuel 0
    if ← accept .comma then return e :: (← arguments fuel)
    return [e]

end

def typeName : Parse Node := do
  match ← peek? with
  | some .int | some .bool =>
    let t ← next
    return .ty t.line t.text
  | _ => refuse

def initializers : Nat → Parse (List Node)
  | 0 => refuse
  | fuel + 1 => do
    let t ← expect .ident
    let _ ← expect .equal
    let first := Node.varInit t.text (← expression fuel 0) t.line
    if ← accept .comma then return first :: (← initializers fuel)
    return [first]

def variableDeclaration (fuel : Nat) : Parse Node := do
  let t ← expect .var
  let inits ← initializers fuel
  let _ ← expect .colon
  let type ← typeName
  let _ ← expect .semicolon
  return .varDecl t.line inits type

mutual

def block : Nat → Parse Node
  | 0 => refuse
  | fuel + 1 => do
    let t ← expect .lbrace
    return .block t.line (← statements fuel)

def statements : Nat → Parse (List Node)
  | 0 => refuse
  | fuel + 1 => do
    if ← accept .rbrace then return []
    let s ← statement fuel
    return s :: (← statements fuel)

def statement : Nat → Parse Node
  | 0 => refuse
  | fuel + 1 => do
    match ← peek? with
    | some .var => variableDeclaration fuel
    | some .lbrace => block fuel
    | some .if' => conditional fuel
    | some .while' =>
      let t ← next
      let _ ← expect .lparen
      let condition ← expression fuel 0
      let _ ← expect .rparen
      return .while' t.line condition (← block fuel)
    | some .break' | some .continue' =>
      let t ← next
      let _ ← expect .semicolon
      return .jump t.line t.text
    | some .return' =>
      let t ← next
      if ← accept .semicolon then return .return' t.line .absent
      let value ← expression fuel 0
      let _ ← expect .semicolon
      return .return' t.line value
    | some .raise =>
      let t ← next
      let name ← expect .ident
      let _ ← expect .semicolon
      return .raise t.line name.text
    | some .try' =>
      let t ← next
      let body ← block fuel
      return .tryExcept t.line body (← catches fuel)
    | some .ident =>
      match ← get with
      | name :: ⟨.equal,_,_,_⟩ :: rest =>
        set rest
        let value ← expression fuel 0
        let _ ← expect .semicolon
        return .assign name.line name.text value
      | _ => evaluation fuel
    | _ => evaluation fuel

def evaluation : Nat → Parse Node
  | 0 => refuse
  | fuel + 1 => do
    let value ← expression fuel 0
    let _ ← expect .semicolon
    return .eval 0 value

def conditional : Nat → Parse Node
  | 0 => refuse
  | fuel + 1 => do
    let t ← expect .if'
    let _ ← expect .lparen
    let condition ← expression fuel 0
    let _ ← expect .rparen
    let ifBranch ← block fuel
    if ← accept .else' then
      if (← peek?) = some .if' then
        return .ifElse t.line condition ifBranch (← conditional fuel)
      return .ifElse t.line condition ifBranch (← block fuel)
    return .ifElse t.line condition ifBranch (.block t.line [])

def catches : Nat → Parse (List Node)
  | 0 => refuse
  | fuel + 1 => do
    if (← peek?) = some .except then
      let t ← next
      let name ← expect .ident
      let body ← block fuel
      return .catch' t.line name.text body :: (← catches fuel)
    return []

end

def identifiers : Nat → Parse (List String)
  | 0 => refuse
  | fuel + 1 => do
    let t ← expect .ident
    if ← accept .comma then return t.text :: (← identifiers fuel)
    return [t.text]

def parameters : Nat → Parse (List Node)
  | 0 => refuse
  | fuel + 1 => do
    if (← peek?) = some .rparen then return []
    let names ← identifiers fuel
    let _ ← expect .colon
    let first := Node.param 0 names (← typeName)
    if ← accept .comma then return first :: (← parameters fuel)
    return [first]

def raisesNames : Nat → Parse (List Node)
  | 0 => refuse
  | fuel + 1 => do
    if (← peek?) = some .lbrace then return []
    let t ← expect .ident
    if ← accept .comma then return .raises t.line t.text :: (← raisesNames fuel)
    return [.raises t.line t.text]

def procedure (fuel : Nat) : Parse Node := do
  let t ← expect .def'
  let name ← expect .ident
  let _ ← expect .lparen
  let params ← parameters fuel
  let _ ← expect .rparen
  let result ← if ← accept .colon then typeName else pure .absent
  let raises ← if ← accept .raises then raisesNames fuel else pure []
  let body ← block fuel
  return .procDecl t.line name.text body params result raises

def declaration (fuel : Nat) : Parse Node := do
  match ← peek? with
  | some .var => variableDeclaration fuel
  | some .def' => procedure fuel
  | some .exception =>
    let t ← next
    let name ← expect .ident
    let _ ← expect .semicolon
    return .exceptionDecl t.line name.text
  | _ => refuse

def declarations : Nat → Parse (List Node)
  | 0 => refuse
  | fuel + 1 => do
    let first ← declaration fuel
    if (← get).isEmpty then return [first]
    return first :: (← declarations fuel)

def depthBound (tokens : List Token) : Nat := 4 * tokens.length + 16

structure Stream where
  tokens : List Token
  illegal : List (Char × Nat × Nat)
  overlong : Option Nat

def Stream.ofPieces : List Piece → Stream
  | [] => ⟨[],[],none⟩
  | .overlong n :: _ => ⟨[],[],some n⟩
  | .token t :: rest =>
    let s := ofPieces rest
    { s with tokens := t :: s.tokens }
  | .illegal c line pos :: rest =>
    let s := ofPieces rest
    { s with illegal := (c,line,pos) :: s.illegal }

abbrev Reporting := Run Reporter

def reportIllegal (met : List (Char × Nat × Nat)) : Reporting Unit :=
  met.forM fun (c,line,_) =>
    modify fun r => r.add ("Illegal character '" ++ String.ofList [c] ++ "'") line (.str "Lexing")

def parseFrom : Nat → Nat → Stream → Reporting (Option (List Node))
  | 0, _, _ => return none
  | fuel + 1, silent, s => do
    match declarations (depthBound s.tokens) s.tokens with
    | .ok (tree,_) =>
      finish s
      return some tree
    | .error [] =>
      finish s
      if silent ≤ s.tokens.length then
        modify fun r => r.add "Found 'None'" (-1) r.stage
      return none
    | .error (t :: rest) =>
      reportIllegal (s.illegal.takeWhile fun x => x.2.2 < t.pos)
      if silent + (rest.length + 1) ≤ s.tokens.length then
        modify fun r => r.add ("Syntax error at '" ++ t.text ++ "'") t.line r.stage
      parseFrom fuel 3
        { s with tokens := rest, illegal := s.illegal.dropWhile fun x => x.2.2 < t.pos }
where
  finish (s : Stream) : Reporting Unit := do
    reportIllegal s.illegal
    if let some digits := s.overlong then throw (.badInteger (.tooLong digits))

def parse (source : String) : Reporting (Option (List Node)) :=
  let s := Stream.ofPieces (pieces source)
  parseFrom (s.tokens.length + 1) 0 s

end BxToolchain.Bx
