import BxToolchain.Text.Lines

namespace BxToolchain.Text

def hexValue? (c : Char) : Option Nat :=
  if '0' ≤ c ∧ c ≤ '9' then some (c.toNat - 48)
  else if 'a' ≤ c ∧ c ≤ 'f' then some (c.toNat - 87)
  else if 'A' ≤ c ∧ c ≤ 'F' then some (c.toNat - 55)
  else none

def readHex? : Nat → Nat → List Char → Option (Nat × List Char)
  | 0, acc, rest => some (acc,rest)
  | n + 1, acc, c :: rest =>
    match hexValue? c with
    | some d => readHex? n (16 * acc + d) rest
    | none => none
  | _ + 1, _, [] => none

def isOctal (c : Char) : Bool := '0' ≤ c && c ≤ '7'

def octalValue (cs : List Char) : Nat := cs.foldl (fun n c => 8 * n + (c.toNat - 48)) 0

def charOf? (n : Nat) : Option Char :=
  if n.isValidChar then some (Char.ofNat n) else none

def readEscape? : List Char → Option (List Char × List Char)
  | [] => none
  | '\n' :: rest => some ([],rest)
  | 'a' :: rest => some ([Char.ofNat 7],rest)
  | 'b' :: rest => some ([Char.ofNat 8],rest)
  | 'f' :: rest => some ([Char.ofNat 12],rest)
  | 'n' :: rest => some (['\n'],rest)
  | 'r' :: rest => some (['\r'],rest)
  | 't' :: rest => some (['\t'],rest)
  | 'v' :: rest => some ([Char.ofNat 11],rest)
  | 'x' :: rest => (readHex? 2 0 rest).bind fun (n,r) => (charOf? n).map fun c => ([c],r)
  | 'u' :: rest => (readHex? 4 0 rest).bind fun (n,r) => (charOf? n).map fun c => ([c],r)
  | 'U' :: rest => (readHex? 8 0 rest).bind fun (n,r) => (charOf? n).map fun c => ([c],r)
  | c :: rest =>
    if c = '\\' || c = '\'' || c = '"' then some ([c],rest)
    else if isOctal c then
      let digits := (c :: rest).take 3 |>.takeWhile isOctal
      (charOf? (octalValue digits)).map fun d => ([d],(c :: rest).drop digits.length)
    else some (['\\',c],rest)

def readBody? (close : List Char) : Nat → List Char → Option (List Char × List Char)
  | 0, _ => none
  | _ + 1, [] => none
  | fuel + 1, c :: rest =>
    if close.isPrefixOf (c :: rest) then some ([],(c :: rest).drop close.length)
    else if c = '\\' then
      (readEscape? rest).bind fun (shown,after) =>
        (readBody? close fuel after).map fun (body,r) => (shown ++ body,r)
    else if c = '\n' && close.length = 1 then none
    else (readBody? close fuel rest).map fun (body,r) => (c :: body,r)

def readPieces? : Nat → List Char → Option (List Char)
  | 0, _ => none
  | _ + 1, [] => some []
  | fuel + 1, c :: rest =>
    if c = '\'' || c = '"' then
      let close := if [c,c].isPrefixOf rest then [c,c,c] else [c]
      (readBody? close (rest.length + 1) ((c :: rest).drop close.length)).bind fun (body,r) =>
        (readPieces? fuel r).map (body ++ ·)
    else if isBlank c then readPieces? fuel rest
    else none

def unquote? (s : String) : Option String :=
  (readPieces? (s.length + 1) s.toList).map String.ofList

end BxToolchain.Text
