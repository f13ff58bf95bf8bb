import BxToolchain.Data.Table
import BxToolchain.Grammar.Value
import BxToolchain.Regex.Basic

namespace BxToolchain.Scanner

inductive Step where
  | setKind (kind : String)
  | toInteger
  | setValue (value : Datum)
  | reserved (kinds : List (String × Datum))
  | countLines
  | skip (n : Int)
  | begin (state : String)
  | push (state : String)
  | pop
  | record
  | drop

inductive Outcome where
  | emit (kind : String)
  | ignore
  | perform (kind : String) (steps : List Step)

structure Rule where
  regex : Regex
  outcome : Outcome

abbrev RuleGroups := List (List Rule)

structure Tables where
  rules : Table String RuleGroups := {}
  ignored : Table String String := {}
  onIllegal : Table String (Option (List Step)) := {}
  atEnd : Table String (List Step) := {}
  literals : String := ""

def firstState : String := "INITIAL"

structure Position where
  tables : Tables
  groups : RuleGroups
  ignored : String
  onIllegal : Option (List Step)
  atEnd : Option (List Step)
  state : String := firstState
  text : Option (Array Char) := none
  pos : Int := 0
  line : Int := 1

def Tables.start (t : Tables) : Position where
  tables := t
  groups := (t.rules.get? firstState).getD []
  ignored := (t.ignored.get? firstState).getD ""
  onIllegal := (t.onIllegal.get? firstState).join
  atEnd := t.atEnd.get? firstState

def firstMatch? (rules : List Rule) (text : List Char) : Option (List Char × Outcome) :=
  rules.findSome? fun r => (r.regex.remainder? text).map fun rest => (rest,r.outcome)

end BxToolchain.Scanner
