import BxToolchain.Data.Datum

namespace BxToolchain.Datum

def texts (xs : List String) : Datum := .list (xs.map .str)

def nat (n : Nat) : Datum := .int n

def asText : Datum → String
  | .str s => s
  | _ => ""

def asInt (d : Datum) : Int := d.int?.getD 0

def asList : Datum → List Datum
  | .list xs => xs
  | _ => []

def asTexts (d : Datum) : List String := d.asList.map asText

def asFields : Datum → List (String × Datum)
  | .record fields => fields
  | _ => []

def part (d : Datum) (name : String) : Datum := (d.field? name).getD .null

def intPart (d : Datum) (name : String) (otherwise : Int) : Int :=
  match d.field? name with
  | some n => n.asInt
  | none => otherwise

def textPart (d : Datum) (name : String) (otherwise : String) : String :=
  match d.field? name with
  | some s => s.asText
  | none => otherwise

def flagPart (d : Datum) (name : String) (otherwise : Bool) : Bool :=
  match d.field? name with
  | some b => b.truthy
  | none => otherwise

mutual

def depth : Datum → Nat
  | .list items => depthOfItems items + 1
  | .tuple items => depthOfItems items + 1
  | .record fields => depthOfFields fields + 1
  | _ => 0

def depthOfItems : List Datum → Nat
  | [] => 0
  | d :: rest => max d.depth (depthOfItems rest)

def depthOfFields : List (String × Datum) → Nat
  | [] => 0
  | (_,d) :: rest => max d.depth (depthOfFields rest)

end

end BxToolchain.Datum
