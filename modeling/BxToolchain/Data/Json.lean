import BxToolchain.Data.Datum
import BxToolchain.Text.Literal

namespace BxToolchain.Json

def isSpace (c : Char) : Bool := c = ' ' || c = '\t' || c = '\n' || c = '\r'

def skipSpace (s : List Char) : List Char := s.dropWhile isSpace

def joinSurrogates? (high low : Nat) : Option Char :=
  if 0xd800 ≤ high && high < 0xdc00 && 0xdc00 ≤ low && low < 0xe000 then
    some (Char.ofNat (0x10000 + (high - 0xd800) * 0x400 + (low - 0xdc00)))
  else none

def readUnit? : List Char → Option (Nat × List Char)
  | '\\' :: 'u' :: rest => Text.readHex? 4 0 rest
  | _ => none

def readString? : Nat → List Char → List Char → Option (String × List Char)
  | 0, _, _ => none
  | fuel + 1, acc, s =>
    match s with
    | [] => none
    | '"' :: rest => some (String.ofList acc.reverse,rest)
    | '\\' :: 'u' :: rest =>
      match Text.readHex? 4 0 rest with
      | none => none
      | some (n,rest) =>
        match (readUnit? rest).bind fun (low,after) => (joinSurrogates? n low).map (·,after) with
        | some (c,after) => readString? fuel (c :: acc) after
        | none => readString? fuel (Char.ofNat n :: acc) rest
    | '\\' :: c :: rest =>
      match c with
      | '"' => readString? fuel ('"' :: acc) rest
      | '\\' => readString? fuel ('\\' :: acc) rest
      | '/' => readString? fuel ('/' :: acc) rest
      | 'b' => readString? fuel (Char.ofNat 8 :: acc) rest
      | 'f' => readString? fuel (Char.ofNat 12 :: acc) rest
      | 'n' => readString? fuel ('\n' :: acc) rest
      | 'r' => readString? fuel ('\r' :: acc) rest
      | 't' => readString? fuel ('\t' :: acc) rest
      | _ => none
    | c :: rest => if c.toNat < 32 then none else readString? fuel (c :: acc) rest

def isDigit (c : Char) : Bool := '0' ≤ c && c ≤ '9'

def digitsValue (cs : List Char) : Nat := cs.foldl (fun n c => 10 * n + (c.toNat - 48)) 0

def readFraction (s : List Char) : List Char × List Char :=
  match s with
  | '.' :: rest =>
    let digits := rest.takeWhile isDigit
    if digits.isEmpty then ([],s) else (digits,rest.dropWhile isDigit)
  | _ => ([],s)

def readExponent (s : List Char) : Option Int × List Char :=
  match s with
  | e :: rest =>
    if e = 'e' || e = 'E' then
      let (negative,body) := match rest with
        | '-' :: r => (true,r)
        | '+' :: r => (false,r)
        | r => (false,r)
      let digits := body.takeWhile isDigit
      if digits.isEmpty then (none,s)
      else
        let n : Int := digitsValue digits
        (some (if negative then -n else n),body.dropWhile isDigit)
    else (none,s)
  | [] => (none,s)

def readNumber? (s : List Char) : Option (Datum × List Char) :=
  let (negative,body) := match s with
    | '-' :: r => (true,r)
    | r => (false,r)
  let whole := match body with
    | '0' :: _ => ['0']
    | r => r.takeWhile isDigit
  if whole.isEmpty then none
  else
    let rest := body.drop whole.length
    let sign : Int := if negative then -1 else 1
    let (fraction,rest) := readFraction rest
    let (exponent,rest) := readExponent rest
    if fraction.isEmpty && exponent.isNone then some (.int (sign * digitsValue whole),rest)
    else
      some (.real (sign * digitsValue (whole ++ fraction)) (exponent.getD 0 - fraction.length),rest)

def putField (fields : List (String × Datum)) (k : String) (v : Datum) : List (String × Datum) :=
  if (fields.lookup k).isSome then fields.map fun f => if f.1 == k then (k,v) else f
  else fields ++ [(k,v)]

mutual

def readDatum? : Nat → List Char → Option (Datum × List Char)
  | 0, _ => none
  | fuel + 1, s =>
    match s with
    | 'n' :: 'u' :: 'l' :: 'l' :: rest => some (.null,rest)
    | 't' :: 'r' :: 'u' :: 'e' :: rest => some (.bool true,rest)
    | 'f' :: 'a' :: 'l' :: 's' :: 'e' :: rest => some (.bool false,rest)
    | '"' :: rest => (readString? (fuel + 1) [] rest).map fun (s,r) => (.str s,r)
    | '[' :: rest =>
      match skipSpace rest with
      | ']' :: after => some (.list [],after)
      | body => readItems? fuel [] body
    | '\x7b' :: rest =>
      match skipSpace rest with
      | '\x7d' :: after => some (.record [],after)
      | body => readFields? fuel [] body
    | _ => readNumber? s

def readItems? : Nat → List Datum → List Char → Option (Datum × List Char)
  | 0, _, _ => none
  | fuel + 1, acc, s =>
    match readDatum? fuel s with
    | none => none
    | some (d,rest) =>
      match skipSpace rest with
      | ']' :: after => some (.list (d :: acc).reverse,after)
      | ',' :: after => readItems? fuel (d :: acc) (skipSpace after)
      | _ => none

def readFields? : Nat → List (String × Datum) → List Char → Option (Datum × List Char)
  | 0, _, _ => none
  | fuel + 1, acc, s =>
    match s with
    | '"' :: rest =>
      match readString? (fuel + 1) [] rest with
      | none => none
      | some (k,rest) =>
        match skipSpace rest with
        | ':' :: rest =>
          match readDatum? fuel (skipSpace rest) with
          | none => none
          | some (d,rest) =>
            let acc := putField acc k d
            match skipSpace rest with
            | '\x7d' :: after => some (.record acc,after)
            | ',' :: after => readFields? fuel acc (skipSpace after)
            | _ => none
        | _ => none
    | _ => none

end

def read? (s : String) : Option Datum :=
  match readDatum? (2 * s.length + 2) (skipSpace s.toList) with
  | some (d,rest) => if (skipSpace rest).isEmpty then some d else none
  | none => none

def escape (c : Char) : List Char :=
  if c = '"' || c = '\\' then ['\\',c]
  else if c = '\n' then ['\\','n']
  else if c = '\r' then ['\\','r']
  else if c = '\t' then ['\\','t']
  else if c.toNat = 8 then ['\\','b']
  else if c.toNat = 12 then ['\\','f']
  else if 32 ≤ c.toNat && c.toNat < 127 then [c]
  else if c.toNat < 0x10000 then '\\' :: 'u' :: Text.hexDigits 4 c.toNat
  else
    let n := c.toNat - 0x10000
    '\\' :: 'u' :: Text.hexDigits 4 (0xd800 + n / 0x400) ++
      '\\' :: 'u' :: Text.hexDigits 4 (0xdc00 + n % 0x400)

def writeString (s : String) : String :=
  "\"" ++ String.ofList (s.toList.flatMap escape) ++ "\""

mutual

def write : Datum → String
  | .null => "null"
  | .bool b => if b then "true" else "false"
  | .int n => Text.decimal n
  | .real m e => Datum.realText m e
  | .str s => writeString s
  | .list items => "[" ++ writeItems items ++ "]"
  | .tuple items => "[" ++ writeItems items ++ "]"
  | .record fields => "\x7b" ++ writeFields fields ++ "\x7d"

def writeItems : List Datum → String
  | [] => ""
  | [d] => write d
  | d :: rest => write d ++ ", " ++ writeItems rest

def writeFields : List (String × Datum) → String
  | [] => ""
  | [(k,d)] => writeString k ++ ": " ++ write d
  | (k,d) :: rest => writeString k ++ ": " ++ write d ++ ", " ++ writeFields rest

end

def newline (depth : Nat) : String := "\n" ++ String.ofList (List.replicate (2 * depth) ' ')

mutual

def writeIndented (depth : Nat) : Datum → String
  | .list [] | .tuple [] => "[]"
  | .list items => "[" ++ newline (depth + 1) ++ indentItems (depth + 1) items ++ newline depth ++ "]"
  | .tuple items => "[" ++ newline (depth + 1) ++ indentItems (depth + 1) items ++ newline depth ++ "]"
  | .record [] => "\x7b\x7d"
  | .record fields =>
    "\x7b" ++ newline (depth + 1) ++ indentFields (depth + 1) fields ++ newline depth ++ "\x7d"
  | .null => "null"
  | .bool b => if b then "true" else "false"
  | .int n => Text.decimal n
  | .real m e => Datum.realText m e
  | .str s => writeString s

def indentItems (depth : Nat) : List Datum → String
  | [] => ""
  | [d] => writeIndented depth d
  | d :: rest => writeIndented depth d ++ "," ++ newline depth ++ indentItems depth rest

def indentFields (depth : Nat) : List (String × Datum) → String
  | [] => ""
  | [(k,d)] => writeString k ++ ": " ++ writeIndented depth d
  | (k,d) :: rest =>
    writeString k ++ ": " ++ writeIndented depth d ++ "," ++ newline depth ++ indentFields depth rest

end

end BxToolchain.Json
