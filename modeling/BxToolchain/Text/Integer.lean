import BxToolchain.Text.Lines
import BxToolchain.Text.Quoted

-- Powers and zero of numbers stay the ones of the core library, whatever else is in scope.
attribute [instance (20000),default_instance 20000] instPowNat
attribute [instance (20000)] Zero.ofOfNat0

namespace BxToolchain.Text

inductive IntegerDefect where
  | malformed (text : String)
  | tooLong (digits : Nat)
  deriving DecidableEq, Repr

def IntegerDefect.message : IntegerDefect → String
  | .malformed text =>
    "invalid literal for int() with base 10: " ++ String.ofList ((quote text).toList.take 200)
  | .tooLong digits =>
    "Exceeds the limit (4300 digits) for integer string conversion: value has " ++
      toString digits ++ " digits; use sys.set_int_max_str_digits() to increase the limit"

def digitLimit : Nat := 4300

def readDigits? : List Char → Option (List Nat)
  | [] => none
  | [c] => (digitValue? c).map fun d => [d]
  | c :: '_' :: rest => do return (← digitValue? c) :: (← readDigits? rest)
  | c :: rest => do return (← digitValue? c) :: (← readDigits? rest)

def natOfDigits (digits : List Nat) : Nat := digits.foldl (fun n d => 10 * n + d) 0

def readInteger (text : String) : Except IntegerDefect Int :=
  let (negative,body) := match (trim text).toList with
    | '-' :: rest => (true,rest)
    | '+' :: rest => (false,rest)
    | rest => (false,rest)
  match readDigits? body with
  | none => .error (.malformed text)
  | some digits =>
    if digits.length > digitLimit then .error (.tooLong digits.length)
    else
      let n : Int := natOfDigits digits
      .ok (if negative then -n else n)

end BxToolchain.Text
