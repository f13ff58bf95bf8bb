import BxToolchain.Fault

namespace BxToolchain.Grammar

structure Alternative where
  place : Place
  name : String
  words : List String
  deriving DecidableEq, Repr

inductive RuleDefect where
  | misplacedBar (place : Place)
  | missingColon (place : Place)
  | incomplete (place : Place) (text : String)
  deriving DecidableEq, Repr

def RuleDefect.message : RuleDefect → String
  | .misplacedBar p => p.text ++ ": Misplaced '|'"
  | .missingColon p => p.text ++ ": Syntax error. Expected ':'"
  | .incomplete p t => p.text ++ ": Syntax error in rule " ++ Text.quote t

def readLines (file : String) :
    Int → Option String → List String → Except RuleDefect (List Alternative)
  | _, _, [] => .ok []
  | line, last, text :: rest => do
    let place : Place := ⟨file,line + 1⟩
    match Text.words text with
    | [] => readLines file (line + 1) last rest
    | "|" :: words =>
      match last with
      | none => .error (.misplacedBar place)
      | some name => return ⟨place,name,words⟩ :: (← readLines file (line + 1) last rest)
    | name :: colon :: words =>
      if colon = ":" || colon = "::=" then
        return ⟨place,name,words⟩ :: (← readLines file (line + 1) (some name) rest)
      else .error (.missingColon place)
    | [_] => .error (.incomplete place (Text.trim text))

def readRules (file : String) (line : Int) (text : String) : Except RuleDefect (List Alternative) :=
  readLines file line none (Text.lines text)

end BxToolchain.Grammar
