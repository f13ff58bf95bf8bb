import BxToolchain.Text.Quoted

namespace BxToolchain.Grammar

structure Place where
  file : String
  line : Int
  deriving DecidableEq, Repr

def Place.text (p : Place) : String := p.file ++ ":" ++ Text.decimal p.line

inductive Defect where
  | precedenceRepeated (terminal : String)
  | unknownAssociativity
  | ruleNamedAsToken (place : Place) (name : String)
  | badRuleName (place : Place) (name : String)
  | longLiteral (place : Place) (literal rule : String)
  | badSymbol (place : Place) (symbol rule : String)
  | precWithoutName (place : Place)
  | precNotLast (place : Place)
  | unknownPrecedence (place : Place) (name : String)
  | duplicateRule (place : Place) (rule : String) (previous : Place)
  | undefinedStart (shown : String)
  deriving DecidableEq, Repr

def Defect.message : Defect → String
  | .precedenceRepeated t => "Precedence already specified for terminal " ++ Text.quote t
  | .unknownAssociativity => "Associativity must be one of 'left','right', or 'nonassoc'"
  | .ruleNamedAsToken p n =>
    p.text ++ ": Illegal rule name " ++ Text.quote n ++ ". Already defined as a token"
  | .badRuleName p n => p.text ++ ": Illegal rule name " ++ Text.quote n
  | .longLiteral p l r =>
    p.text ++ ": Literal token " ++ l ++ " in rule " ++ Text.quote r ++
      " may only be a single character"
  | .badSymbol p s r => p.text ++ ": Illegal name " ++ Text.quote s ++ " in rule " ++ Text.quote r
  | .precWithoutName p => p.text ++ ": Syntax error. Nothing follows %prec"
  | .precNotLast p =>
    p.text ++ ": Syntax error. %prec can only appear at the end of a grammar rule"
  | .unknownPrecedence p n =>
    p.text ++ ": Nothing known about the precedence of " ++ Text.quote n
  | .duplicateRule p r q =>
    p.text ++ ": Duplicate rule " ++ r ++ ". Previous definition at " ++ q.text
  | .undefinedStart s => "start symbol " ++ s ++ " undefined"

end BxToolchain.Grammar
