import BxToolchain.Text.Integer

namespace BxToolchain

inductive Datum where
  | null
  | bool (b : Bool)
  | int (n : Int)
  | real (mantissa exponent : Int)
  | str (s : String)
  | list (items : List Datum)
  | tuple (items : List Datum)
  | record (fields : List (String × Datum))
  deriving Repr, Inhabited

namespace Datum

def stripZeros : Nat → Nat → Int → Nat × Int
  | 0, m, e => (m,e)
  | fuel + 1, m, e => if m ≠ 0 && m % 10 = 0 then stripZeros fuel (m / 10) (e + 1) else (m,e)

def realText (mantissa exponent : Int) : String :=
  let (m,e) := stripZeros mantissa.natAbs mantissa.natAbs exponent
  let sign := if mantissa < 0 then "-" else ""
  if m = 0 then sign ++ "0.0"
  else
    let digits := Nat.toDigits 10 m
    let point : Int := digits.length + e
    let text :=
      if 0 < point && point ≤ 16 then
        let whole := point.toNat
        if whole < digits.length then digits.take whole ++ '.' :: digits.drop whole
        else digits ++ List.replicate (whole - digits.length) '0' ++ ['.','0']
      else if -4 < point && point ≤ 0 then
        '0' :: '.' :: List.replicate (-point).toNat '0' ++ digits
      else
        let ten := point - 1
        let shown := Nat.toDigits 10 ten.natAbs
        let shown := if shown.length < 2 then '0' :: shown else shown
        digits.take 1 ++ (if digits.length > 1 then '.' :: digits.drop 1 else []) ++
          'e' :: (if ten < 0 then '-' else '+') :: shown
    sign ++ String.ofList text

def truncate (mantissa exponent : Int) : Int :=
  if 0 ≤ exponent then mantissa * 10 ^ exponent.toNat
  else mantissa.tdiv (10 ^ (-exponent).toNat)

mutual

def render : Datum → String
  | .null => "None"
  | .bool b => if b then "True" else "False"
  | .int n => Text.decimal n
  | .real m e => realText m e
  | .str s => Text.quote s
  | .list items => "[" ++ renderItems items ++ "]"
  | .tuple [d] => "(" ++ d.render ++ ",)"
  | .tuple items => "(" ++ renderItems items ++ ")"
  | .record fields => "\x7b" ++ renderFields fields ++ "\x7d"

def renderItems : List Datum → String
  | [] => ""
  | [d] => d.render
  | d :: rest => d.render ++ ", " ++ renderItems rest

def renderFields : List (String × Datum) → String
  | [] => ""
  | [(k,d)] => Text.quote k ++ ": " ++ d.render
  | (k,d) :: rest => Text.quote k ++ ": " ++ d.render ++ ", " ++ renderFields rest

end

def display : Datum → String
  | .str s => s
  | d => d.render

def kind : Datum → String
  | .null => "NoneType"
  | .bool _ => "bool"
  | .int _ => "int"
  | .real _ _ => "float"
  | .str _ => "str"
  | .list _ => "list"
  | .tuple _ => "tuple"
  | .record _ => "dict"

def int? : Datum → Option Int
  | .int n => some n
  | .bool b => some (if b then 1 else 0)
  | _ => none

def str? : Datum → Option String
  | .str s => some s
  | _ => none

mutual

def same : Datum → Datum → Bool
  | .null, .null => true
  | .str s, .str t => s == t
  | .list xs, .list ys => sameItems xs ys
  | .tuple xs, .tuple ys => sameItems xs ys
  | .record xs, .record ys => xs.length == ys.length && sameFields xs ys
  | .bool b, e => e.int? == some (if b then 1 else 0)
  | .int n, e => e.int? == some n
  | .real m e, .real k f => stripZeros m.natAbs m.natAbs e == stripZeros k.natAbs k.natAbs f &&
      m.sign == k.sign
  | _, _ => false

def sameItems : List Datum → List Datum → Bool
  | [], [] => true
  | x :: xs, y :: ys => x.same y && sameItems xs ys
  | _, _ => false

def sameFields : List (String × Datum) → List (String × Datum) → Bool
  | [], _ => true
  | (k,x) :: xs, ys =>
    (match ys.lookup k with
      | some y => x.same y
      | none => false) && sameFields xs ys

end

def truthy : Datum → Bool
  | .null => false
  | .bool b => b
  | .int n => n != 0
  | .real m _ => m != 0
  | .str s => !s.isEmpty
  | .list items => !items.isEmpty
  | .tuple items => !items.isEmpty
  | .record fields => !fields.isEmpty

def field? (name : String) : Datum → Option Datum
  | .record fields => fields.lookup name
  | _ => none

end Datum

end BxToolchain
