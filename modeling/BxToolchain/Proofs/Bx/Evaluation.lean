import BxToolchain.Data.Table
import BxToolchain.Proofs.Bx.Machine

namespace BxToolchain.Bx

abbrev Scopes := List (Table String Word)

namespace Scopes

def lookup (x : String) : Scopes → Option Word
  | [] => none
  | s :: rest =>
    match s.get? x with
    | some v => some v
    | none => lookup x rest

def assign (x : String) (v : Word) : Scopes → Option Scopes
  | [] => none
  | s :: rest =>
    if s.contains x then some (s.insert x v :: rest) else (assign x v rest).map (s :: ·)

def declare (x : String) (v : Word) : Scopes → Option Scopes
  | [] => none
  | s :: rest => some (s.insert x v :: rest)

end Scopes

def arithmetic? : String → Option Tac.BinOp
  | "+" => some .add
  | "-" => some .sub
  | "*" => some .mul
  | "/" => some .div
  | "%" => some .mod
  | "&" => some .and
  | "|" => some .or
  | "^" => some .xor
  | "<<" => some .shl
  | ">>" => some .shr
  | _ => none

def sign? : String → Option Tac.UnOp
  | "-" => some .neg
  | "~" => some .not
  | _ => none

def comparison? : String → Option Comparison
  | "<" => some .less
  | ">" => some .greater
  | "<=" => some .lessEq
  | ">=" => some .greaterEq
  | "==" => some .equal
  | "!=" => some .notEqual
  | _ => none

def truth? : Datum → Option Bool
  | .str "true" => some true
  | .str "false" => some false
  | _ => none

namespace Node

def value? (env : Scopes) : Node → Option Word
  | .var _ _ x => env.lookup x
  | .number _ _ (.int n) => some (BitVec.ofInt 64 n)
  | .boolean _ _ b => (truth? b).map fun b => if b then 1 else 0
  | .binary _ _ a b op => do (← arithmetic? op).onWords (← a.value? env) (← b.value? env)
  | .unary _ _ a op => do return (← sign? op).onWords (← a.value? env)
  | _ => none

def holds? (env : Scopes) : Node → Option Bool
  | .var _ _ x => (env.lookup x).map (· != 0)
  | .boolean _ _ b => truth? b
  | .binary _ _ a b "&&" => do if ← a.holds? env then b.holds? env else return false
  | .binary _ _ a b "||" => do if ← a.holds? env then return true else b.holds? env
  | .binary _ _ a b op => do
    return (← comparison? op).holds (← a.value? env) (← b.value? env)
  | .unary _ _ a "!" => (a.holds? env).map not
  | _ => none

end Node

inductive Outcome where
  | normal (env : Scopes)
  | broke (env : Scopes)
  | continued (env : Scopes)
  | returned (v : Option Word)
  | stuck
  | unfinished

namespace Outcome

def andThen (o : Outcome) (f : Scopes → Outcome) : Outcome :=
  match o with
  | normal env => f env
  | o => o

def leave : Outcome → Outcome
  | normal env => normal (env.drop 1)
  | broke env => broke (env.drop 1)
  | continued env => continued (env.drop 1)
  | o => o

def ofOption : Option Scopes → Outcome
  | some env => normal env
  | none => stuck

end Outcome

def loop (condition : Scopes → Option Bool) (body : Scopes → Outcome) : Nat → Scopes → Outcome
  | 0, _ => .unfinished
  | rounds + 1, env =>
    match condition env with
    | none => .stuck
    | some false => .normal env
    | some true =>
      match body env with
      | .normal env | .continued env => loop condition body rounds env
      | .broke env => .normal env
      | o => o

namespace Node

def declareAll : List Node → Scopes → Outcome
  | [], env => .normal env
  | .varInit x value _ :: rest, env =>
    (Outcome.ofOption do env.declare x (← value.value? env)).andThen (declareAll rest)
  | _ :: _, _ => .stuck

mutual

def evaluate (rounds : Nat) : Node → Scopes → Outcome
  | .varDecl _ inits _, env => declareAll inits env
  | .assign _ x value, env => .ofOption do env.assign x (← value.value? env)
  | .eval _ value, env => .ofOption do let _ ← value.value? env; return env
  | .block _ statements, env => (evaluateAll rounds statements ({} :: env)).leave
  | .ifElse _ condition a b, env =>
    match condition.holds? env with
    | some true => evaluate rounds a env
    | some false => evaluate rounds b env
    | none => .stuck
  | .while' _ condition body, env => loop (fun env => condition.holds? env) (evaluate rounds body) rounds env
  | .jump _ "break", env => .broke env
  | .jump _ "continue", env => .continued env
  | .return' _ .absent, _ => .returned none
  | .return' _ value, env =>
    match value.value? env with
    | some v => .returned (some v)
    | none => .stuck
  | _, _ => .stuck

def evaluateAll (rounds : Nat) : List Node → Scopes → Outcome
  | [], env => .normal env
  | s :: rest, env => (evaluate rounds s env).andThen (evaluateAll rounds rest)

end

end Node

end BxToolchain.Bx
