import BxToolchain.Bx.Compile
import BxToolchain.Command.Tac

namespace BxToolchain.Main

def readArguments : List String → IO Files
  | [] => return {}
  | name :: rest => do
    let files ← readArguments rest
    try
      return files.insert name (← IO.FS.readFile name)
    catch _ =>
      return files

def writeChanges (before after : Files) : IO Unit := do
  for (name,text) in after.entries do
    unless before.get? name == some text do
      IO.FS.writeFile name text

def compile (args : List String) : IO UInt32 := do
  let files ← readArguments args
  let (r,s) := (Bx.Compile.command args).run { files }
  IO.print s.output
  writeChanges files s.files
  match r with
  | .ok none => return 0
  | .ok (some text) =>
    IO.eprintln text
    return 1
  | .error e =>
    IO.eprintln e.message
    return 1

def runTool (tool : Command.Tool) (args : List String) : IO UInt32 := do
  let files ← readArguments args
  let (r,c) := (tool.run args).run { files }
  IO.print c.output
  writeChanges files c.files
  match r with
  | .ok code => return (code.getD 0).toNat.toUInt32
  | .error e =>
    IO.eprintln e.message
    return 1

end BxToolchain.Main

open BxToolchain in
def main : List String → IO UInt32
  | "compile" :: args => Main.compile args
  | "run" :: args => Main.runTool .interpret args
  | "outline" :: args => Main.runTool .outline args
  | "draw" :: args => Main.runTool .draw args
  | "simplify" :: args => Main.runTool .simplify args
  | _ => do
    IO.eprintln "usage: (compile | run | outline | draw | simplify) ARGUMENTS"
    return 2
