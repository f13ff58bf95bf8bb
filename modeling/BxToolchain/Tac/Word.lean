import BxToolchain.Fault

namespace BxToolchain.Tac

def wrap (n : Int) : Int := n % 2 ^ 64

def signBit (n : Int) : Bool := n / 2 ^ 63 % 2 = 1

def signed (n : Int) : Int := if signBit n then n - 2 ^ 64 else n

def quotientLog (a b : Nat) : Int :=
  let k : Int := (a.log2 : Int) - b.log2
  let fits := if 0 ≤ k then b * 2 ^ k.toNat ≤ a else b ≤ a * 2 ^ (-k).toNat
  if fits then k else k - 1

def roundHalfEven (a b : Nat) : Nat :=
  let q := a / b
  let r := a % b
  if 2 * r < b then q
  else if b < 2 * r then q + 1
  else q + q % 2

def roundedQuotient (a b : Nat) : Nat :=
  if a = 0 then 0
  else
    let e := quotientLog a b - 52
    if 0 ≤ e then roundHalfEven a (b * 2 ^ e.toNat) * 2 ^ e.toNat
    else roundHalfEven (a * 2 ^ (-e).toNat) b / 2 ^ (-e).toNat

def quotient (a b : Int) : Except Fault Int :=
  if b = 0 then .error .divisionByZero
  else
    let q := roundedQuotient a.natAbs b.natAbs
    if 2 ^ 1024 ≤ q then .error .quotientTooLarge
    else .ok (if (a < 0) = (b < 0) then q else -q)

inductive BinOp where
  | add | sub | mul | div | mod | and | or | xor | shl | shr
  deriving DecidableEq, Repr

namespace BinOp

def all : List BinOp := [add,sub,mul,div,mod,and,or,xor,shl,shr]

def name : BinOp → String
  | add => "add"
  | sub => "sub"
  | mul => "mul"
  | div => "div"
  | mod => "mod"
  | and => "and"
  | or => "or"
  | xor => "xor"
  | shl => "shl"
  | shr => "shr"

def bitwise (f : Nat → Nat → Nat) (a b : Int) : Int := f (wrap a).toNat (wrap b).toNat

def shifted (a : Int) (k : Nat) : Int := if k < 64 then wrap (a * 2 ^ k) else 0

def shiftedSize (a : Int) (k : Nat) : Nat := if a = 0 then 0 else a.natAbs.log2 + 1 + k

def apply (op : BinOp) (memory : Nat) (u v : Int) : Except Fault Int :=
  let a := signed u
  let b := signed v
  match op with
  | add => .ok (wrap (a + b))
  | sub => .ok (wrap (a - b))
  | mul => .ok (wrap (a * b))
  | div => (quotient a b).map wrap
  | mod => (quotient a b).map fun q => wrap (a - b * q)
  | and => .ok (bitwise (· &&& ·) a b)
  | or => .ok (bitwise (· ||| ·) a b)
  | xor => .ok (bitwise (· ^^^ ·) a b)
  | shl =>
    if b < 0 then .error .negativeShift
    -- the product is built whole before its low bits are kept
    else if memory < shiftedSize a b.toNat then .error .outOfMemory
    else .ok (shifted a b.toNat)
  | shr => if b < 0 then .error .negativeShift else .ok (wrap (a >>> b.toNat))

end BinOp

inductive UnOp where
  | neg | not
  deriving DecidableEq, Repr

namespace UnOp

def all : List UnOp := [neg,not]

def name : UnOp → String
  | neg => "neg"
  | not => "not"

def apply (op : UnOp) (u : Int) : Int :=
  match op with
  | neg => wrap (-signed u)
  | not => wrap (-signed u - 1)

end UnOp

inductive Cond where
  | zero | nonzero | negative | notPositive | notNegative | positive
  deriving DecidableEq, Repr

namespace Cond

def all : List Cond := [zero,nonzero,negative,notPositive,notNegative,positive]

def name : Cond → String
  | zero => "jz"
  | nonzero => "jnz"
  | negative => "jl"
  | notPositive => "jle"
  | notNegative => "jnl"
  | positive => "jnle"

def holds (c : Cond) (k : Int) : Bool :=
  match c with
  | zero => k = 0
  | nonzero => k ≠ 0
  | negative => signed k < 0
  | notPositive => signed k ≤ 0
  | notNegative => 0 ≤ signed k
  | positive => 0 < signed k

end Cond

end BxToolchain.Tac
