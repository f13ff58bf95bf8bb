import BxToolchain.Bx.Token
import BxToolchain.Text.Integer

namespace BxToolchain.Bx

inductive Lexeme where
  | blank (c : Char)
  | newline
  | comment (text : List Char)
  | token (kind : Kind) (text : List Char)
  | illegal (c : Char)
  deriving DecidableEq, Repr

def Lexeme.text : Lexeme → List Char
  | .blank c | .illegal c => [c]
  | .newline => ['\n']
  | .comment text | .token _ text => text

def isBlank (c : Char) : Bool := c = ' ' || c = '\t' || c = '\x0b' || c = '\x0c'

def isLetter (c : Char) : Bool := c.isAlpha || c = '_'

def isWordPart (c : Char) : Bool := c.isAlphanum || c = '_'

def operator? (c : Char) (rest : List Char) : Option (Kind × List Char × List Char) :=
  match c, rest with
  | '=', '=' :: r => some (.equalEqual,['=','='],r)
  | '!', '=' :: r => some (.notEqual,['!','='],r)
  | '<', '=' :: r => some (.ltEqual,['<','='],r)
  | '>', '=' :: r => some (.gtEqual,['>','='],r)
  | '<', '<' :: r => some (.lshift,['<','<'],r)
  | '>', '>' :: r => some (.rshift,['>','>'],r)
  | '&', '&' :: r => some (.boolAnd,['&','&'],r)
  | '|', '|' :: r => some (.boolOr,['|','|'],r)
  | '+', r => some (.plus,['+'],r)
  | '-', r => some (.minus,['-'],r)
  | '*', r => some (.star,['*'],r)
  | '/', r => some (.slash,['/'],r)
  | '%', r => some (.mod,['%'],r)
  | '&', r => some (.and,['&'],r)
  | '|', r => some (.or,['|'],r)
  | '^', r => some (.xor,['^'],r)
  | '=', r => some (.equal,['='],r)
  | '<', r => some (.lt,['<'],r)
  | '>', r => some (.gt,['>'],r)
  | '!', r => some (.not,['!'],r)
  | '~', r => some (.complement,['~'],r)
  | '(', r => some (.lparen,['('],r)
  | ')', r => some (.rparen,[')'],r)
  | '\x7b', r => some (.lbrace,['\x7b'],r)
  | '\x7d', r => some (.rbrace,['\x7d'],r)
  | ';', r => some (.semicolon,[';'],r)
  | ':', r => some (.colon,[':'],r)
  | ',', r => some (.comma,[','],r)
  | _, _ => none

def cut (c : Char) (rest : List Char) : Lexeme × List Char :=
  if isBlank c then (.blank c,rest)
  else if c = '\n' then (.newline,rest)
  else if isLetter c then
    let word := c :: rest.takeWhile isWordPart
    (.token (kindOfWord (String.ofList word)) word,rest.dropWhile isWordPart)
  else if c = '0' then (.token .number ['0'],rest)
  else if c.isDigit then
    (.token .number (c :: rest.takeWhile Char.isDigit),rest.dropWhile Char.isDigit)
  else if c = '/' && rest.head? = some '/' then
    (.comment (c :: rest.takeWhile (· != '\n')),rest.dropWhile (· != '\n'))
  else
    match operator? c rest with
    | some (kind,text,after) => (.token kind text,after)
    | none => (.illegal c,rest)

def lexemesUpTo : Nat → List Char → List Lexeme
  | 0, _ => []
  | _ + 1, [] => []
  | fuel + 1, c :: rest => (cut c rest).1 :: lexemesUpTo fuel (cut c rest).2

def lexemes (text : List Char) : List Lexeme := lexemesUpTo text.length text

inductive Piece where
  | token (t : Token)
  | illegal (c : Char) (line pos : Nat)
  | overlong (digits : Nat)
  deriving DecidableEq, Repr

def placeFrom (line pos : Nat) : List Lexeme → List Piece
  | [] => []
  | x :: rest =>
    let after := pos + x.text.length
    match x with
    | .blank _ | .comment _ => placeFrom line after rest
    | .newline => placeFrom (line + 1) after rest
    | .illegal c => .illegal c line pos :: placeFrom line after rest
    | .token kind text =>
      if kind = .number && text.length > Text.digitLimit then [.overlong text.length]
      else .token ⟨kind,String.ofList text,line,pos⟩ :: placeFrom line after rest

def pieces (source : String) : List Piece := placeFrom 1 0 (lexemes source.toList)

def lastLine (source : String) : Nat := 1 + source.toList.count '\n'

def Token.value (t : Token) : Nat :=
  Text.natOfDigits (t.text.toList.map fun c => c.toNat - '0'.toNat)

end BxToolchain.Bx
