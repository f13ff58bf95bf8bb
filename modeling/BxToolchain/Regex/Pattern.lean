import BxToolchain.Regex.Basic
import BxToolchain.Text.Literal
import BxToolchain.Text.Quoted

namespace BxToolchain.Regex

structure Defect where
  reason : String
  position : Nat
  deriving DecidableEq, Repr

def Defect.message (pattern : List Char) (d : Defect) : String :=
  let before := pattern.take d.position
  let text := d.reason ++ " at position " ++ toString d.position
  if pattern.contains '\n' then
    text ++ " (line " ++ toString (before.count '\n' + 1) ++ ", column " ++
      toString ((before.reverse.takeWhile (· != '\n')).length + 1) ++ ")"
  else text

structure Reader where
  rest : List Char
  position : Nat := 0
  groups : Nat := 0
  names : List (String × Nat) := []

abbrev Read := ExceptT Defect (StateM Reader)

namespace Read

def fail {α : Type} (reason : String) (position : Nat) : Read α := throw ⟨reason,position⟩

def peek? : Read (Option Char) := return (← get).rest.head?

def take? : Read (Option Char) := do
  let r ← get
  match r.rest with
  | [] => return none
  | c :: rest =>
    set { r with rest, position := r.position + 1 }
    return some c

def accept (c : Char) : Read Bool := do
  if (← peek?) = some c then
    let _ ← take?
    return true
  return false

def position : Read Nat := return (← get).position

def takeWhile (p : Char → Bool) : Nat → Read (List Char)
  | 0 => return []
  | n + 1 => do
    match ← peek? with
    | none => return []
    | some c =>
      if p c then
        let _ ← take?
        return c :: (← takeWhile p n)
      else return []

end Read

open Read

def isHex (c : Char) : Bool := (Text.hexValue? c).isSome

def isAsciiLetter (c : Char) : Bool := c.isAlpha

inductive Escaped where
  | char (c : Char)
  | cls (c : CharClass)

def hexEscape (start : Nat) (letter : Char) (width : Nat) : Read Char := do
  let digits ← takeWhile isHex width
  let shown := String.ofList ('\\' :: letter :: digits)
  if digits.length ≠ width then fail ("incomplete escape " ++ shown) start
  match Text.charOf? (digits.foldl (fun n c => 16 * n + (Text.hexValue? c).getD 0) 0) with
  | some c => return c
  | none => fail ("bad escape " ++ shown) start

def readEscape (start : Nat) (c : Char) : Read Escaped := do
  match c with
  | 'd' => return .cls .digit
  | 'D' => return .cls .notDigit
  | 's' => return .cls .space
  | 'S' => return .cls .notSpace
  | 'w' => return .cls .word
  | 'W' => return .cls .notWord
  | 'a' => return .char (Char.ofNat 7)
  | 'b' => return .char (Char.ofNat 8)
  | 'f' => return .char (Char.ofNat 12)
  | 'n' => return .char '\n'
  | 'r' => return .char '\r'
  | 't' => return .char '\t'
  | 'v' => return .char (Char.ofNat 11)
  | 'x' => return .char (← hexEscape start 'x' 2)
  | 'u' => return .char (← hexEscape start 'u' 4)
  | 'U' => return .char (← hexEscape start 'U' 8)
  | '0' =>
    let digits ← takeWhile Text.isOctal 2
    return .char (Char.ofNat (Text.octalValue digits))
  | c =>
    if isAsciiLetter c then fail ("bad escape \\" ++ String.ofList [c]) start
    else if c.isDigit then
      fail ("invalid group reference " ++ String.ofList [c]) (start + 1)
    else return .char c

def readMember (start : Nat) (c : Char) : Read (Escaped × List Char) := do
  if c = '\\' then
    let at' ← position
    match ← take? with
    | none => fail "bad escape (end of pattern)" start
    | some e =>
      if Text.isOctal e then
        let digits ← takeWhile Text.isOctal 2
        return (.char (Char.ofNat (Text.octalValue (e :: digits))),['\\',e])
      if e.isDigit then fail ("bad escape \\" ++ String.ofList [e]) (at' - 1)
      return (← readEscape (at' - 1) e,['\\',e])
  return (.char c,[c])

def memberClass : Escaped → CharClass
  | .char c => .range c c
  | .cls k => k

def readClass (start : Nat) : Nat → List CharClass → Read (List CharClass)
  | 0, acc => return acc.reverse
  | fuel + 1, acc => do
    match ← take? with
    | none => fail "unterminated character set" start
    | some c =>
      if c = ']' && !acc.isEmpty then return acc.reverse
      let (lo,loText) ← readMember start c
      if ← accept '-' then
        match ← take? with
        | none => fail "unterminated character set" start
        | some d =>
          if d = ']' then return (CharClass.range '-' '-' :: memberClass lo :: acc).reverse
          let (hi,hiText) ← readMember start d
          let here ← position
          let bad : Read (List CharClass) :=
            fail ("bad character range " ++ String.ofList loText ++ "-" ++ String.ofList hiText)
              (here - (loText.length + 1 + hiText.length))
          match lo, hi with
          | .char a, .char b => if b < a then bad else readClass start fuel (.range a b :: acc)
          | _, _ => bad
      else readClass start fuel (memberClass lo :: acc)

def isPatternBlank (c : Char) : Bool :=
  c = ' ' || c = '\t' || c = '\n' || c = '\r' || c = Char.ofNat 11 || c = Char.ofNat 12

def skipComment : Nat → Read Unit
  | 0 => return ()
  | fuel + 1 => do
    match ← take? with
    | none => return ()
    | some c => if c = '\n' then return () else skipComment fuel

def isIdentifier (name : List Char) : Bool :=
  match name with
  | [] => false
  | c :: rest =>
    (c = '_' || (Text.isWordChar c && !Text.isDecimalDigit c)) && rest.all Text.isWordChar

def readName : Nat → List Char → Read (List Char)
  | 0, acc => return acc.reverse
  | fuel + 1, acc => do
    let p ← position
    match ← take? with
    | none =>
      if acc.isEmpty then fail "missing group name" p
      else fail "missing >, unterminated name" (p - acc.length)
    | some '>' => if acc.isEmpty then fail "missing group name" p else return acc.reverse
    | some c => readName fuel (c :: acc)

def openGroup (fuel : Nat) : Read Unit := do
  if ← accept '?' then
    let p ← position
    match ← take? with
    | none => fail "unexpected end of pattern" p
    | some 'P' =>
      if ← accept '<' then
        let start ← position
        let name ← readName fuel []
        let shown := String.ofList name
        unless isIdentifier name do
          fail ("bad character in group name " ++ Text.quote shown) start
        let r ← get
        let number := r.groups + 1
        if let some old := r.names.lookup shown then
          fail ("redefinition of group name " ++ Text.quote shown ++ " as group " ++
            toString number ++ "; was group " ++ toString old) start
        set { r with groups := number, names := (shown,number) :: r.names }
      else
        match ← take? with
        | none => fail "unexpected end of pattern" (p + 1)
        | some c => fail ("unknown extension ?P" ++ String.ofList [c]) (p - 1)
    | some ':' => return ()
    | some c => fail ("unknown extension ?" ++ String.ofList [c]) (p - 1)
  else
    modify fun r => { r with groups := r.groups + 1 }

inductive Element where
  | plain (r : Regex)
  | repeated (r : Regex)
  | anchor (r : Regex)

def Element.regex : Element → Regex
  | .plain r | .repeated r | .anchor r => r

def repeatLast (start least : Nat) (most : Option Nat) (acc : List Element) :
    Read (List Element) := do
  match acc with
  | [] => fail "nothing to repeat" start
  | .anchor _ :: _ => fail "nothing to repeat" start
  | .repeated _ :: _ => fail "multiple repeat" start
  | .plain r :: rest =>
    let pace : Pace ←
      if ← accept '?' then pure .sparing
      else if ← accept '+' then pure .possessive
      else pure .greedy
    return .repeated (.rounds least most pace r) :: rest

def readBounds (fuel : Nat) : Read (Option (Nat × Option Nat)) := do
  let saved ← get
  if (← peek?) = some '\x7d' then return none
  let lo ← takeWhile Char.isDigit fuel
  let comma ← accept ','
  let hi ← if comma then takeWhile Char.isDigit fuel else pure lo
  if ← accept '\x7d' then
    let value (cs : List Char) : Nat := cs.foldl (fun n c => 10 * n + (c.toNat - 48)) 0
    return some (value lo,if hi.isEmpty then none else some (value hi))
  set saved
  return none

mutual

def readAlternatives : Nat → Read Regex
  | 0 => return .empty
  | fuel + 1 => do
    let first ← readSequence fuel []
    if ← accept '|' then return .alt first (← readAlternatives fuel)
    return first

def readSequence : Nat → List Element → Read Regex
  | 0, acc => return sequence (acc.reverse.map Element.regex)
  | fuel + 1, acc => do
    let start ← position
    match ← peek? with
    | none => return sequence (acc.reverse.map Element.regex)
    | some '|' => return sequence (acc.reverse.map Element.regex)
    | some ')' => return sequence (acc.reverse.map Element.regex)
    | some c =>
      let _ ← take?
      if isPatternBlank c then readSequence fuel acc
      else
        match c with
        | '#' =>
          skipComment fuel
          readSequence fuel acc
        | '\\' =>
          match ← take? with
          | none => fail "bad escape (end of pattern)" start
          | some e =>
            match ← readEscape start e with
            | .char x => readSequence fuel (.plain (.char x) :: acc)
            | .cls k => readSequence fuel (.plain (.oneOf false [k]) :: acc)
        | '[' =>
          let negated ← accept '^'
          let classes ← readClass start fuel []
          readSequence fuel (.plain (.oneOf negated classes) :: acc)
        | '*' => readSequence fuel (← repeatLast start 0 none acc)
        | '+' => readSequence fuel (← repeatLast start 1 none acc)
        | '?' => readSequence fuel (← repeatLast start 0 (some 1) acc)
        | '\x7b' =>
          match ← readBounds fuel with
          | none => readSequence fuel (.plain (.char c) :: acc)
          | some (least,most) => readSequence fuel (← repeatLast start least most acc)
        | '.' => readSequence fuel (.plain .any :: acc)
        | '$' => readSequence fuel (.anchor .atEnd :: acc)
        | '(' =>
          openGroup fuel
          let body ← readAlternatives fuel
          if ← accept ')' then readSequence fuel (.plain (.group body) :: acc)
          else fail "missing ), unterminated subpattern" start
        | c => readSequence fuel (.plain (.char c) :: acc)

end

def ofPattern (pattern : List Char) : Except Defect Regex :=
  let read : Read Regex := do
    let r ← readAlternatives (2 * pattern.length + 2)
    if (← peek?).isSome then fail "unbalanced parenthesis" (← position)
    return r
  (read.run { rest := pattern }).1

end BxToolchain.Regex
