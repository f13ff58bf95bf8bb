import BxToolchain.Data.Integer
import BxToolchain.Files

namespace BxToolchain

structure Report where
  reason : Datum
  line : Int
  stage : Datum

structure Reporter where
  reports : List Report := []
  filename : String := "Unknown"
  stage : Datum := .null

namespace Reporter

def add (r : Reporter) (reason : String) (line : Int) (stage : Datum) : Reporter :=
  { r with reports := r.reports ++ [⟨.str reason,line,stage⟩] }

def addDatum (r : Reporter) (reason line stage : Datum) : Except Fault Reporter :=
  line.integer.map fun n => { r with reports := r.reports ++ [⟨reason,n,stage⟩] }

def toDatum (r : Reporter) : Datum :=
  .list (r.reports.map fun e => .list [e.reason,.int e.line,e.stage])

def isClean (r : Reporter) : Bool := r.reports.isEmpty

def describeReport (files : Files) (filename : String) (e : Report) : Except Fault String := do
  if e.line < 0 then
    return "Error: " ++ e.reason.display ++ " during " ++ e.stage.display ++ "\n"
  let head := "Error: " ++ e.reason.display ++ " on line: " ++ Text.decimal e.line ++
    " during " ++ e.stage.display ++ "\n"
  let lines := Text.fileLines (← files.read filename)
  match e.line with
  | .ofNat (n + 1) =>
    match lines[n]? with
    | some line => return head ++ "\t " ++ Text.trim line ++ "\n"
    | none => return head
  | _ => return head

def describe (files : Files) (r : Reporter) : Except Fault (Option String) := do
  if r.isClean then return none
  let errors ← r.reports.mapM (describeReport files r.filename)
  return some ("---------------------------------------------\n" ++
    "FILE: " ++ r.filename ++ "\n" ++
    "Stopped compiling in " ++ r.stage.display ++ " due to errors\n" ++
    String.join errors ++
    "---------------------------------------------\n" ++
    "TOTAL ERRORS: " ++ toString r.reports.length ++ "\n" ++
    "----------------------------------------------\n")

end Reporter

end BxToolchain
