import BxToolchain.Text.Letters
import BxToolchain.Text.Lines

namespace BxToolchain

inductive CharClass where
  | range (lo hi : Char)
  | digit
  | space
  | word
  | notDigit
  | notSpace
  | notWord
  deriving DecidableEq, Repr

def CharClass.contains : CharClass → Char → Bool
  | .range lo hi, c => lo ≤ c && c ≤ hi
  | .digit, c => Text.isDecimalDigit c
  | .space, c => Text.isBlank c
  | .word, c => Text.isWordChar c
  | .notDigit, c => !Text.isDecimalDigit c
  | .notSpace, c => !Text.isBlank c
  | .notWord, c => !Text.isWordChar c

inductive Pace where
  | greedy
  | sparing
  | possessive
  deriving DecidableEq, Repr

inductive Regex where
  | empty
  | char (c : Char)
  | any
  | oneOf (negated : Bool) (classes : List CharClass)
  | seq (first second : Regex)
  | alt (first second : Regex)
  | rounds (least : Nat) (most : Option Nat) (pace : Pace) (body : Regex)
  | group (body : Regex)
  | atEnd
  deriving Repr

namespace Regex

abbrev Rest := List Char → Option (List Char)

abbrev Matcher := Rest → Rest

def orTry (a : Option (List Char)) (b : Unit → Option (List Char)) : Option (List Char) :=
  match a with
  | some r => some r
  | none => b ()

def upTo (body : Matcher) (greedy : Bool) (k : Rest) : Nat → Rest
  | 0, s => k s
  | n + 1, s =>
    let again (_ : Unit) :=
      body (fun r => if r.length < s.length then upTo body greedy k n r else k r) s
    if greedy then orTry (again ()) fun _ => k s else orTry (k s) again

def exactly (body : Matcher) : Nat → Matcher
  | 0, k => k
  | n + 1, k => body (exactly body n k)

def one (p : Char → Bool) (k : Rest) : Rest
  | c :: rest => if p c then k rest else none
  | [] => none

def matcher : Regex → Matcher
  | .empty => fun k => k
  | .char c => one (· == c)
  | .any => one (· != '\n')
  | .oneOf negated classes => one fun c => (classes.any fun x => x.contains c) != negated
  | .seq a b => fun k => a.matcher (b.matcher k)
  | .alt a b => fun k s => orTry (a.matcher k s) fun _ => b.matcher k s
  | .rounds least most pace body => fun k s =>
    let run (k : Rest) : Rest := exactly body.matcher least fun s =>
      let most := match most with
        | some m => min (m - least) (s.length + 1)
        | none => s.length
      upTo body.matcher (pace != .sparing) k most s
    if pace = .possessive then (run some s).bind k else run k s
  | .group body => body.matcher
  | .atEnd => fun k s => if s.isEmpty || s = ['\n'] then k s else none

def remainder? (r : Regex) (s : List Char) : Option (List Char) := r.matcher some s

def matchesEmpty (r : Regex) : Bool := (r.remainder? []).isSome

def sequence : List Regex → Regex
  | [] => .empty
  | [r] => r
  | r :: rest => .seq r (sequence rest)

def alternatives : List Regex → Regex
  | [] => .empty
  | [r] => r
  | r :: rest => .alt r (alternatives rest)

end Regex

end BxToolchain
