namespace BxToolchain.Bx

inductive Kind where
  | ident | number
  | plus | minus | star | slash | mod
  | and | or | xor | lshift | rshift
  | equalEqual | notEqual | lt | ltEqual | gt | gtEqual
  | boolAnd | boolOr | not | complement
  | equal | lparen | rparen | lbrace | rbrace | semicolon | colon | comma
  | def' | int | bool | var | if' | else' | while' | break' | continue' | true' | false'
  | return' | exception | raise | try' | except | raises
  deriving DecidableEq, Repr

def Kind.name : Kind → String
  | ident => "IDENT" | number => "NUMBER"
  | plus => "PLUS" | minus => "MINUS" | star => "STAR" | slash => "SLASH" | mod => "MOD"
  | and => "AND" | or => "OR" | xor => "XOR" | lshift => "LSHIFT" | rshift => "RSHIFT"
  | equalEqual => "EQUALEQUAL" | notEqual => "NOTEQUAL" | lt => "LT" | ltEqual => "LTEQUAL"
  | gt => "GT" | gtEqual => "GTEQUAL" | boolAnd => "BAND" | boolOr => "BOR" | not => "NOT"
  | complement => "COMPLEMENT" | equal => "EQUAL" | lparen => "LPAREN" | rparen => "RPAREN"
  | lbrace => "LCPAREN" | rbrace => "RCPAREN" | semicolon => "SEMICOLON" | colon => "COLON"
  | comma => "COMMA" | def' => "DEF" | int => "INT" | bool => "BOOL" | var => "VAR" | if' => "IF"
  | else' => "ELSE" | while' => "WHILE" | break' => "BREAK" | continue' => "CONTINUE"
  | true' => "TRUE" | false' => "FALSE" | return' => "RETURN" | exception => "EXCEPTION"
  | raise => "RAISE" | try' => "TRY" | except => "EXCEPT" | raises => "RAISES"

structure Token where
  kind : Kind
  text : String
  line : Nat
  pos : Nat
  deriving DecidableEq, Repr

def reservedWords : List (String × Kind) :=
  [("def",.def'),("int",.int),("bool",.bool),("var",.var),("if",.if'),("else",.else'),
   ("while",.while'),("break",.break'),("continue",.continue'),("true",.true'),
   ("false",.false'),("return",.return'),("exception",.exception),("raise",.raise),
   ("try",.try'),("except",.except),("raises",.raises)]

def kindOfWord (word : String) : Kind := (reservedWords.lookup word).getD .ident

def Kind.level? : Kind → Option Nat
  | .boolOr => some 1
  | .boolAnd => some 2
  | .or => some 3
  | .xor => some 4
  | .and => some 5
  | .equalEqual | .notEqual => some 6
  | .lt | .ltEqual | .gt | .gtEqual => some 7
  | .lshift | .rshift => some 8
  | .plus | .minus => some 9
  | .star | .slash | .mod => some 10
  | _ => none

def chains (level : Nat) : Bool := level != 6 && level != 7

end BxToolchain.Bx
