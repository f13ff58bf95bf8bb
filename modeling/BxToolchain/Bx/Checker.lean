import BxToolchain.Bx.Node
import BxToolchain.Report

namespace BxToolchain.Bx

structure Signature where
  inputs : List String
  result : String
  raises : List String
  deriving DecidableEq, Repr

def Signature.text (s : Signature) : String :=
  ", ".intercalate s.inputs ++ "  -->  " ++ s.result ++ " - " ++ Node.texts s.raises

structure Scope where
  types : Table String String := {}
  exceptions : List String := []

def Scope.declare (s : Scope) (name type : String) : Scope :=
  if s.types.contains name then s
  else { s with types := s.types.insert name type }

def union (a b : List String) : List String := a ++ b.filter fun x => !a.contains x

def printers : Table String Signature :=
  ⟨[("__bx_print_int",⟨["int"],"void",[]⟩),("__bx_print_bool",⟨["bool"],"void",[]⟩)]⟩

structure Checker where
  scopes : List Scope := [{}]
  procedures : Table String Signature := printers
  current : Option String := none
  exceptions : List String := []
  functions : List String := []
  subroutines : List String := []
  reporter : Reporter := {}

abbrev Check := StateM Checker

abbrev Raised := Except Fault (List String)

namespace Checker

def lookupIn (name : String) : List Scope → Option String
  | [] => none
  | s :: rest =>
    match s.types.get? name with
    | some type => some type
    | none => lookupIn name rest

def typeOf? (c : Checker) (name : String) : Option String := lookupIn name c.scopes

def isDeclared (c : Checker) (name : String) : Bool := (c.typeOf? name).isSome

def assignIn (name type : String) : List Scope → Option (List Scope)
  | [] => none
  | s :: rest =>
    if s.types.contains name then
      some ({ s with types := s.types.insert name type } :: rest)
    else (assignIn name type rest).map (s :: ·)

end Checker

def report (reason : String) (line : Int) : Check Unit :=
  modify fun c => { c with reporter := c.reporter.add reason line c.reporter.stage }

def declareVariable (name type : String) : Check (Except Fault Unit) := do
  let c ← get
  match c.scopes with
  | [] => return .error .outOfRange
  | s :: rest =>
    if s.types.contains name then
      report ("Variable " ++ name ++ " already declared in scope.") (-1)
    else
      set { c with scopes := s.declare name type :: rest }
    return .ok ()

def openScope : Check (Except Fault Unit) := do
  modify fun c => { c with scopes := {} :: c.scopes }
  return .ok ()

def closeScope : Check (Except Fault Unit) := do
  let c ← get
  if c.scopes.isEmpty then return .error .outOfRange
  set { c with scopes := c.scopes.drop 1 }
  return .ok ()

def redeclareVariable (name type : String) : Check (Except Fault Unit) := do
  let c ← get
  match c.scopes with
  | [] => return .error .outOfRange
  | s :: rest =>
    set { c with scopes := s.declare name type :: rest }
    return .ok ()

def reportUndefined (name : String) (line : Datum) : Check (Except Fault Unit) := do
  let c ← get
  match c.reporter.addDatum (.str ("Undefined variable " ++ name)) line c.reporter.stage with
  | .error e => return .error e
  | .ok reporter =>
    set { c with reporter }
    return .ok ()

def variableType (name : String) (line : Datum) : Check (Except Fault Datum) := do
  match (← get).typeOf? name with
  | some t => return .ok (.str t)
  | none => return (← reportUndefined name line).map fun _ => .null

def assignType (name type : String) (line : Datum) : Check (Except Fault Unit) := do
  let c ← get
  match Checker.assignIn name type c.scopes with
  | some scopes =>
    set { c with scopes }
    return .ok ()
  | none => reportUndefined name line

namespace Node

def name? : Node → Option String
  | exceptionDecl _ n | procDecl _ n _ _ _ _ | raises _ n | raise _ n | catch' _ n _ | var _ _ n
  | call _ _ n _ | bareCall _ _ n | varInit n _ _ | assign _ n _ => some n
  | _ => none

def type? : Node → Option String
  | ty _ t | var _ t _ | number _ t _ | binary _ t _ _ _ | unary _ t _ _ | boolean _ t _
  | call _ t _ _ | bareCall _ t _ | jump _ t | expr _ t => some t
  | param _ _ t | varDecl _ _ t => some t.render
  | _ => none

def quotedType? : Node → Option String
  | param _ _ t | varDecl _ _ t => some t.render
  | n => n.type?.map Text.quote

def returns : Node → Bool
  | return' _ _ => true
  | ifElse _ _ a b => a.returns && b.returns
  | block _ ss => anyReturns ss
  | _ => false
where
  anyReturns : List Node → Bool
    | [] => false
    | s :: rest => s.returns || anyReturns rest

end Node

end BxToolchain.Bx
