import BxToolchain.Text.Integer

namespace BxToolchain.Tac

inductive TokenKind where
  | number | temp | gsym | label | opcode | eq | comma | semicolon | colon | lparen | rparen
  | var | proc
  deriving DecidableEq, Repr

def TokenKind.name : TokenKind → String
  | number => "NUM64"
  | temp => "TEMP"
  | gsym => "GSYM"
  | label => "LABEL"
  | opcode => "OPCODE"
  | eq => "EQ"
  | comma => "COMMA"
  | semicolon => "SEMICOLON"
  | colon => "COLON"
  | lparen => "LPAREN"
  | rparen => "RPAREN"
  | var => "VAR"
  | proc => "PROC"

inductive Lexeme where
  | blank (c : Char)
  | newline
  | comment (text : List Char)
  | token (kind : TokenKind) (text : List Char)
  | illegal (c : Char)
  deriving DecidableEq, Repr

def Lexeme.text : Lexeme → List Char
  | .blank c | .illegal c => [c]
  | .newline => ['\n']
  | .comment text | .token _ text => text

def isBlank (c : Char) : Bool :=
  c = ' ' || c = '\t' || c = '\x0c' || c = '\x0b' || c = '\r'

def isLetter (c : Char) : Bool := c.isAlpha || c = '_'

def isWordPart (c : Char) : Bool := c.isAlphanum || c = '_'

def isNonzeroDigit (c : Char) : Bool := c.isDigit && c ≠ '0'

def kindOfWord : String → TokenKind
  | "var" => .var
  | "proc" => .proc
  | _ => .opcode

def cutPercent : List Char → Lexeme × List Char
  | '.' :: 'L' :: rest =>
    (.token .label ('%' :: '.' :: 'L' :: rest.takeWhile isWordPart),rest.dropWhile isWordPart)
  | '0' :: rest => (.token .temp ['%','0'],rest)
  | c :: rest =>
    if isNonzeroDigit c then
      (.token .temp ('%' :: c :: rest.takeWhile Char.isDigit),rest.dropWhile Char.isDigit)
    else if c.isAlpha then
      (.token .temp ('%' :: c :: rest.takeWhile isWordPart),rest.dropWhile isWordPart)
    else (.illegal '%',c :: rest)
  | [] => (.illegal '%',[])

def cutAt : List Char → Lexeme × List Char
  | c :: rest =>
    if isLetter c then
      (.token .gsym ('@' :: c :: rest.takeWhile isWordPart),rest.dropWhile isWordPart)
    else (.illegal '@',c :: rest)
  | [] => (.illegal '@',[])

def cutMinus : List Char → Lexeme × List Char
  | c :: rest =>
    if isNonzeroDigit c then
      (.token .number ('-' :: c :: rest.takeWhile Char.isDigit),rest.dropWhile Char.isDigit)
    else (.illegal '-',c :: rest)
  | [] => (.illegal '-',[])

def cutComment (rest : List Char) : Lexeme × List Char :=
  let line := '/' :: rest.takeWhile (· ≠ '\n')
  match rest.dropWhile (· ≠ '\n') with
  | [] => (.comment line,[])
  | c :: after => (.comment (line ++ [c]),after)

def sign? : Char → Option TokenKind
  | '=' => some .eq
  | ',' => some .comma
  | ';' => some .semicolon
  | ':' => some .colon
  | '(' => some .lparen
  | ')' => some .rparen
  | _ => none

def cut (c : Char) (rest : List Char) : Lexeme × List Char :=
  if isBlank c then (.blank c,rest)
  else if c = '\n' then (.newline,rest)
  else if c = '/' && rest.head? = some '/' then cutComment rest
  else if isLetter c then
    let word := c :: rest.takeWhile isWordPart
    (.token (kindOfWord (String.ofList word)) word,rest.dropWhile isWordPart)
  else if c = '0' then (.token .number ['0'],rest)
  else if c.isDigit then
    (.token .number (c :: rest.takeWhile Char.isDigit),rest.dropWhile Char.isDigit)
  else if c = '-' then cutMinus rest
  else if c = '%' then cutPercent rest
  else if c = '@' then cutAt rest
  else
    match sign? c with
    | some kind => (.token kind [c],rest)
    | none => (.illegal c,rest)

def lexemesUpTo : Nat → List Char → List Lexeme
  | 0, _ => []
  | _ + 1, [] => []
  | fuel + 1, c :: rest => (cut c rest).1 :: lexemesUpTo fuel (cut c rest).2

def lexemes (text : List Char) : List Lexeme := lexemesUpTo text.length text

structure Token where
  kind : TokenKind
  text : String
  line : Nat
  pos : Nat
  deriving DecidableEq, Repr

def numberOf : List Char → Int
  | '-' :: digits => -(Text.natOfDigits (digits.map fun c => c.toNat - '0'.toNat) : Int)
  | digits => Text.natOfDigits (digits.map fun c => c.toNat - '0'.toNat)

def Token.number (t : Token) : Int := numberOf t.text.toList

inductive Piece where
  | token (t : Token)
  | illegal (c : Char) (line : Nat)
  | tooLarge (n : Int) (line : Nat)
  | overlong (digits : Nat)
  | finish (line : Nat)
  deriving DecidableEq, Repr

def isWord (n : Int) : Bool := 0 ≤ n && n < 2 ^ 64

def digitCount (text : List Char) : Nat := (text.filter Char.isDigit).length

def placeFrom (line pos : Nat) : List Lexeme → List Piece
  | [] => [.finish line]
  | x :: rest =>
    let after := pos + x.text.length
    match x with
    | .blank _ => placeFrom line after rest
    | .newline | .comment _ => placeFrom (line + 1) after rest
    | .illegal c => .illegal c line :: placeFrom line after rest
    | .token kind text =>
      if kind = .number && digitCount text > Text.digitLimit then [.overlong (digitCount text)]
      else if kind = .number && !isWord (numberOf text) then [.tooLarge (numberOf text) line]
      else .token ⟨kind,String.ofList text,line,pos⟩ :: placeFrom line after rest

def pieces (source : String) : List Piece := placeFrom 1 0 (lexemes source.toList)

end BxToolchain.Tac
