import BxToolchain.Bx.Assembly
import BxToolchain.Bx.Check
import BxToolchain.Bx.Lower
import BxToolchain.Bx.Parse

namespace BxToolchain.Bx

structure Compilation where
  files : Files := {}
  reporter : Reporter := {}
  output : String := ""

abbrev Compile := Run Compilation

namespace Compile

def print (line : String) : Compile Unit :=
  modify fun s => { s with output := s.output ++ line ++ "\n" }

def beginStage (name : String) : Compile Unit :=
  modify fun s => { s with reporter := { s.reporter with stage := .str name } }

def runStage {σ α : Type} (start : Reporter → σ) (reporter : σ → Reporter) (act : Run σ α) :
    Compile α := do
  let s ← get
  let (r,t) := act.run (start s.reporter)
  set { s with reporter := reporter t }
  match r with
  | .ok a => return a
  | .error e => throw e

def isClean : Compile Bool := return (← get).reporter.isClean

def parseSource (source : String) : Compile (Option (List Node)) :=
  runStage id id (parse source)

def checkSource (tree : List Node) : Compile (List Node × List String) := do
  let s ← get
  let ((tree,r),c) := (checkProgram tree).run { reporter := s.reporter }
  set { s with reporter := c.reporter }
  match r with
  | .ok _ => return (tree,c.functions)
  | .error e => throw e

def lowerTree (functions : List String) (tree : List Node) : Compile (List Item) :=
  runStage (fun reporter => { functions, reporter }) Lowering.reporter do
    Lower.lowerProgram tree
    return (← get).items.toList

def documentOf (items : List Item) : Except Fault (List Datum) :=
  match items.mapM Item.toDatum? with
  | some d => .ok d
  | none => .error .wrongKind

def writeDocument (name : String) (document : List Datum) : Compile Unit :=
  modify fun s => { s with files := s.files.insert name (Json.write (.list document)) }

def optimizeDocument (document : List Datum) : Compile (List Datum) :=
  runStage (fun reporter => { reporter }) Graph.reporter (Shape.optimizeDocument document)

def assembleFile (name : String) : Compile Unit := do
  let files ← runStage (fun reporter => { reporter }) Assembly.reporter
    (Assemble.assembleFile (← get).files name)
  modify fun s => { s with files }

def generate (base : String) (functions : List String) (tree : List Node) : Compile Unit := do
  beginStage "Transforming AST to TAC"
  let items ← lowerTree functions tree
  if ← isClean then
    match documentOf items with
    | .error e => throw e
    | .ok document =>
      writeDocument (base ++ ".tac.json") document
      beginStage "CFG"
      writeDocument (base ++ ".opt.tac.json") (← optimizeDocument document)
      beginStage "TAC to x64"
      assembleFile (base ++ ".tac.json")

def compile (source base : String) (debug : Bool) : Compile Unit := do
  beginStage "Parsing"
  let tree ← parseSource source
  if ← isClean then
    match tree with
    | none => if debug then print "Error: Parsing returned None."
    | some tree =>
      if debug then print "Parsing successfull"
      beginStage "Type Check"
      let (tree,functions) ← checkSource tree
      if ← isClean then
        if debug then
          print "Type Check successfull"
          print (Node.renderList tree)
        generate base functions tree

def sourceText (files : Files) (name : String) : String :=
  match files.read name with
  | .ok text => text
  | .error _ => "Error: The file '" ++ name ++ "' does not exist."

def baseOf (name : String) : String := String.ofList (name.toList.take (name.length - 3))

def compileFile (name source : String) (debug : Bool) : Compile (Option String) := do
  modify fun s => { s with reporter := { s.reporter with filename := name } }
  compile source (baseOf name) debug
  let s ← get
  match s.reporter.describe s.files with
  | .ok text => return text
  | .error e => throw e

def command (args : List String) : Compile (Option String) := do
  match args with
  | [name] =>
    let source := sourceText (← get).files name
    if "Error:".toList.isPrefixOf source.toList then
      print source
      return none
    compileFile name source false
  | _ =>
    print "Usage: ./myprogram.py <filename>"
    return none

end Compile

end BxToolchain.Bx
