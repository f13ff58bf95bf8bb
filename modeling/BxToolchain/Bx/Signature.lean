import BxToolchain.Bx.Checker

namespace BxToolchain.Bx

inductive Operand where
  | text (s : String)
  | node (n : Node)
  | other

namespace Signature

def letters (type : String) : List String := type.toList.map fun c => String.ofList [c]

def textOf : Operand → Except Fault String
  | .text s => .ok s
  | _ => .error .wrongKind

def paramLetters : Operand → Except Fault (List String)
  | .node (.param _ names type) =>
    if names.isEmpty then .ok []
    else
      match type.type? with
      | some t => .ok (names.flatMap fun _ => letters t)
      | none => .error .missingPart
  | _ => .error .missingPart

def variableLetters : Operand → Except Fault (List String)
  | .node n =>
    match n.type? with
    | some t => .ok (letters t)
    | none => .error .missingPart
  | _ => .error .missingPart

def inputsOf (operands : List Operand) : Except Fault (List String) :=
  match operands with
  | [] => .ok []
  | .text _ :: _ => operands.mapM textOf
  | .node (.param ..) :: _ => (operands.mapM paramLetters).map List.flatten
  | .node (.var ..) :: _ => (operands.mapM variableLetters).map List.flatten
  | _ => .error .missingPart

def resultOf : Operand → Except Fault String
  | .text s => .ok s
  | .node n =>
    match n.type? with
    | some t => .ok t
    | none => .error .missingPart
  | .other => .error .missingPart

def ofOperands (operands : List Operand) (result : Operand) (raises : List String) :
    Except Fault Signature := do
  let result ← resultOf result
  return { inputs := ← inputsOf operands, result, raises }

end Signature

end BxToolchain.Bx
