import BxToolchain.Command.Arguments
import BxToolchain.Flow.Workbench
import BxToolchain.Tac.Parse

namespace BxToolchain.Command

open Tac BxToolchain.Flow

structure Console where
  files : Files := {}
  output : String := ""
  calls : List String := []

abbrev Shell := Run Console

namespace Shell

def lift {α : Type} : Except Fault α → Shell α
  | .ok a => pure a
  | .error e => throw e

def write (text : String) : Shell Unit := modify fun c => { c with output := c.output ++ text }

def print (line : String) : Shell Unit := write (line ++ "\n")

def loadProgram (name : String) : Shell Program := do
  let (r,out) := load (← get).files name
  write out
  lift r

def saveFile (name text : String) : Shell Unit :=
  modify fun c => { c with files := c.files.insert name text }

def checkNames : List String → Program → Except Fault Unit
  | _, [] => .ok ()
  | seen, d :: rest => do
    let name ← d.name
    if seen.contains name then throw (.repeatedName name)
    checkNames (name :: seen) rest

def isGlobalDeclaration : Declaration → Bool
  | .global _ => true
  | _ => false

def listProgram (p : Program) : Shell Unit := do
  for d in p.filter isGlobalDeclaration ++ p.filter (!isGlobalDeclaration ·) do
    print (← lift d.text)

def runOptions (a : Arguments) : Options :=
  let all := a.switches.contains "--trace-all"
  { showProcs := all || a.switches.contains "--trace-procs" || a.verbosity > 3
    showInstrs := all || a.switches.contains "--trace-instrs" || a.verbosity > 4
    onlyDecimal := a.verbosity ≤ 1 }

def interpretFile (a : Arguments) (name : String) : Shell Unit := do
  let p ← loadProgram name
  if a.switches.contains "--dump-json" && endsWith ".tac" name then
    saveFile (name ++ ".json") (Json.writeIndented 0 (.list (p.map Declaration.toDatum)))
  lift (checkNames [] p)
  if !a.switches.contains "--no-exec" then
    let (r,w) := p.execute (runOptions a) "@main" []
    write w.output
    let _ ← lift r
  else if a.verbosity > 0 then listProgram p

def outlineFile (a : Arguments) (name : String) : Shell Unit := do
  for d in ← loadProgram name do
    if let .procedure p := d then
      let (p,g) ← lift (infer p)
      if a.verbosity > 0 then
        print (← lift ({ p with body := ← lift (linearize g) } : Procedure).text)

def drawFile (a : Arguments) (name : String) : Shell Unit := do
  for d in ← loadProgram name do
    if let .procedure p := d then
      let (p,g) ← lift (infer p)
      let g ← lift (ssa p.params g)
      let base := if endsWith ".tac.json" name then
          String.ofList (name.toList.take (name.length - 5)) else name
      let file := base ++ "." ++ withoutMark 1 p.name ++ ".dot"
      saveFile file (← lift (dot g (a.verbosity ≥ 1)))
      modify fun c => { c with calls := c.calls ++ ["dot -Tpdf -O " ++ file] }
      if a.verbosity ≥ 2 then
        print (← lift ({ p with body := ← lift (linearize g) } : Procedure).text)

def simplifyProcedure (p : Procedure) : Except Fault Procedure := do
  let (_,g) ← infer p
  let g ← propagateCopies p.params g
  let g ← eliminateDead (← eliminateDead g)
  return { p with body := ← linearize g }

def simplifyDeclaration : Declaration → Except Fault Declaration
  | .blank => .error .missingPart
  | .global g => .ok (.global g)
  | .procedure p => (simplifyProcedure p).map .procedure

def simplifyFile (name : String) : Shell Unit := do
  let p ← lift ((← loadProgram name).mapM simplifyDeclaration)
  for d in p do
    print (← lift d.text)

end Shell

inductive Tool where
  | interpret
  | outline
  | draw
  | simplify
  deriving DecidableEq, Repr

def Tool.format : Tool → Format
  | .interpret =>
    { switches := ["--dump-json","--trace-procs","--trace-instrs","--trace-all","--no-exec"] }
  | _ => { oneFile := true }

def Tool.help : Tool → String
  | .interpret =>
    "usage: tac.py [-h] [-v] [--dump-json] [--trace-procs] [--trace-instrs]\n" ++
    "              [--trace-all] [--no-exec]\n" ++
    "              [FILE ...]\n" ++
    "\n" ++
    "TAC parser and interpreter\n" ++
    "\n" ++
    "positional arguments:\n" ++
    "  FILE            A TAC file (.tac or .tac.json)\n" ++
    "\n" ++
    "options:\n" ++
    "  -h, --help      show this help message and exit\n" ++
    "  -v              increase verbosity\n" ++
    "  --dump-json     Dump the TAC in JSON form (if needed)\n" ++
    "  --trace-procs   Print enter/leave messages for procedure calls\n" ++
    "  --trace-instrs  Print the instructions as they are executed\n" ++
    "  --trace-all     Turn on all the trace-* options\n" ++
    "  --no-exec       Do not run the interpreter\n"
  | t =>
    "usage: " ++ (if t = .outline then "cfg.py" else "ssagen.py") ++ " [-h] [-v] FILE\n" ++
    "\n" ++
    "TAC library, parser, and interpreter\n" ++
    "\n" ++
    "positional arguments:\n" ++
    "  FILE        A TAC file\n" ++
    "\n" ++
    "options:\n" ++
    "  -h, --help  show this help message and exit\n" ++
    "  -v          increase verbosity\n"

def Tool.run (t : Tool) (args : List String) : Shell (Option Int) := do
  match t, args with
  | .simplify, [name] =>
    Shell.simplifyFile name
    return none
  | .simplify, _ =>
    Shell.print "Usage: ./myprogram.py <filename>"
    return none
  | t, args =>
    match parseArguments t.format args with
    | .error e =>
      if e = .help then Shell.write t.help
      return some e.code
    | .ok a =>
      for name in a.files do
        match t with
        | .interpret => Shell.interpretFile a name
        | .outline => Shell.outlineFile a name
        | _ => Shell.drawFile a name
      return none

end BxToolchain.Command
