import BxToolchain.Grammar.Defect
import BxToolchain.Text.Integer

namespace BxToolchain

inductive Fault where
  | missingKey (shown : String)
  | outOfRange
  | wrongKind
  | missingPart
  | unset
  | endless
  | badInteger (d : Text.IntegerDefect)
  | grammarDefect (d : Grammar.Defect)
  | precedenceTooLate
  | unknownConflict (state : Nat)
  | shiftConflict (state : Nat)
  | parserNotBuilt
  | scannerNotBuilt
  | undefinedState (name : String)
  | illegalCharacter (c : Char) (index : Int)
  | stuckAt (c : Char)
  | noInput
  | noSuchFile (name : String)
  | unboundName (name : String)
  | wrongCount
  | wrongEnding (file : String)
  | badDocument
  | notAList (shown : String)
  | notInList
  | divisionByZero
  | quotientTooLarge
  | negativeShift
  | outOfMemory
  | refused
  | badOpcode (shown : String)
  | badOperand (opcode place shown : String)
  | badSyntax
  | literalTooLarge
  | wrongFileName
  | repeatedName (name : String)
  | noWord (shown : String) (aboveLeast belowMost : Bool)
  | repeatedLabel (label : String)
  | unknownTarget (label : String)
  | unresolvedPhi (source : String) (known : List String)
  | wrongPrintCount (count : Nat)
  | unknownPrint (name : String)
  | tooFewArguments (name expected : String) (count : Nat)
  | emptyBlock
  | nothingLeft
  | unknownOperation (name : String)
  | outOfSteps
  deriving DecidableEq, Repr

def truthText (b : Bool) : String := if b then "True" else "False"

def Fault.message : Fault → Option String
  | .missingKey shown => some shown
  | .outOfRange => none
  | .wrongKind => none
  | .missingPart => none
  | .unset => none
  | .endless => none
  | .badInteger d => some d.message
  | .grammarDefect d => some d.message
  | .precedenceTooLate => some "Must call set_precedence() before add_production()"
  | .unknownConflict s => some ("Unknown conflict in state " ++ toString s)
  | .shiftConflict s => some ("Shift/shift conflict in state " ++ toString s)
  | .parserNotBuilt => some "Unable to build parser"
  | .scannerNotBuilt => some "Can't build lexer"
  | .undefinedState name => some ("Undefined state " ++ Text.quote name)
  | .illegalCharacter c index =>
    some ("Illegal character " ++ Text.quote (String.ofList [c]) ++ " at index " ++
      Text.decimal index)
  | .stuckAt c => some ("Scanning error. Illegal character " ++ Text.quote (String.ofList [c]))
  | .noInput => some "No input string given with input()"
  | .wrongCount => none
  | .wrongEnding file => some (file ++ " does not end in .tac.json or .json")
  | .badDocument => none
  | .notAList shown => some shown
  | .notInList => some "list.remove(x): x not in list"
  | .unboundName name => some ("name " ++ Text.quote name ++ " is not defined")
  | .noSuchFile name => some ("[Errno 2] No such file or directory: " ++ Text.quote name)
  | .divisionByZero => some "division by zero"
  | .quotientTooLarge => some "integer division result too large for a float"
  | .negativeShift => some "negative shift count"
  | .outOfMemory => some ""
  | .refused => some ""
  | .badOpcode shown => some ("bad tac.Instr opcode: " ++ shown)
  | .badOperand opcode place shown =>
    some ("bad tac.Instr/" ++ opcode ++ " " ++ place ++ ": " ++ shown)
  | .badSyntax => some "parsing"
  | .literalTooLarge => some "immint"
  | .wrongFileName => some "TAC file must be a .tac or a .tac.json"
  | .repeatedName name => some ("Repeated definition of " ++ name)
  | .noWord shown aboveLeast belowMost =>
    some ("Illegal value: " ++ shown ++ ": " ++ truthText aboveLeast ++ " " ++
      truthText belowMost)
  | .repeatedLabel label => some ("Reused label " ++ label)
  | .unknownTarget label => some ("Unknown jump destination " ++ label)
  | .unresolvedPhi source known =>
    some ("cannot resolve phi: came from " ++ source ++ ", can only handle [" ++
      String.intercalate "," known ++ "]")
  | .wrongPrintCount count =>
    some ("Bad number of arguments to print(): expected 1, got " ++ toString count)
  | .unknownPrint name => some ("Unknown print() specialization: " ++ name)
  | .tooFewArguments name expected count =>
    some ("Bad number of arguments to " ++ name ++ "(): expected " ++ expected ++ ", got " ++
      toString count)
  | .emptyBlock => some "generator raised StopIteration"
  | .nothingLeft => some ""
  | .unknownOperation name => some ("unknown operation " ++ name)
  | .outOfSteps => none

abbrev Run (σ : Type) := ExceptT Fault (StateM σ)

end BxToolchain
