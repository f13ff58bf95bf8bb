import BxToolchain.Bx.Compile
import BxToolchain.Flow.Infer
import BxToolchain.Flow.Linearize
import BxToolchain.Flow.Liveness
import BxToolchain.Grammar.Description
import BxToolchain.Tac.Execute
import BxToolchain.Tac.Parse
import BxToolchain.Workload.Program

namespace BxToolchain.Workload

open Tac

inductive Task where
  | lex
  | parse
  | check
  | lower
  | optimize
  | assemble
  | compile
  | buildTables
  | parseCode
  | loadCode
  | execute
  | liveness
  | simplify
  deriving DecidableEq, Repr

namespace Task

def all : List Task :=
  [lex,parse,check,lower,optimize,assemble,compile,buildTables,parseCode,loadCode,execute,
    liveness,simplify]

def name : Task → String
  | lex => "bx_lexer"
  | parse => "bx_parse"
  | check => "bx_typecheck"
  | lower => "bx_tacgen"
  | optimize => "bx_cfg_optimise"
  | assemble => "bx_x64"
  | compile => "bx_full_pipeline"
  | buildTables => "ply_build_tables"
  | parseCode => "lab5_tac_parse"
  | loadCode => "lab5_load_tac"
  | execute => "lab5_execute"
  | liveness => "lab5_cfg_liveness"
  | simplify => "lab5_ssa_dfopt"

def ofName? (s : String) : Option Task := all.find? fun t => t.name == s

def parameter : Task → String
  | lex | parse | lower | assemble => "n_stmts"
  | check => "n_progs"
  | optimize | compile => "n_examples"
  | buildTables => "n_builds"
  | parseCode => "n_copies"
  | loadCode => "n_files"
  | execute => "fib_n"
  | liveness | simplify => "n_ops"

def sizes : Task → List Nat
  | lex => [100,400,1600]
  | parse => [40,150,600]
  | check => [10,30,120]
  | lower => [30,120,400]
  | optimize => [6,20,39]
  | assemble => [40,150,600]
  | compile => [4,12,39]
  | buildTables => [1,2,4]
  | parseCode => [2,6,20]
  | loadCode => [2,4,10]
  | execute => [8,12,16]
  | liveness => [20,60,150]
  | simplify => [15,40,100]

end Task

def statementCount (source : String) : Except Fault Nat :=
  match ((Bx.parse source).run {}).1 with
  | .ok (some (.procDecl _ _ (.block _ statements) _ _ _ :: _)) => .ok statements.length
  | .ok _ => .error .missingPart
  | .error e => .error e

def assemblySize (file source : String) : Nat :=
  let (_,s) := (Bx.Compile.compileFile file source false).run { files := .ofList [(file,source)] }
  ((s.files.get? (Bx.Compile.baseOf file ++ ".s")).map String.utf8ByteSize).getD 0

def sums : Grammar.Description where
  tokens := some (.texts ["NUMBER","PLUS"])
  definitions :=
    [("p_sum",.function 1 (some "sum : sum PLUS NUMBER") 1 .tree),
     ("p_number",.function 2 (some "sum : NUMBER") 1 .tree)]

def builtParsers (n : Nat) : Nat :=
  (List.replicate n sums).countP fun d => d.build.1.toBool

def declarationCount (text : String) : Except Fault Nat := (Tac.parse "p.tac" text).1.map List.length

def tracedRun (main : String) (n : Nat) : Except Fault (Datum × Nat) := do
  let p ← (Tac.parse "p.tac" (recursiveText main 1)).1
  let (r,w) := p.execute { showProcs := true, showInstrs := true } "@fib" [.nat n]
  let (s,v) := p.execute {} "@main" []
  let _ ← s
  return (← r,w.output.length + v.output.length)

def analysedLength (p : Procedure) : Except Fault Nat := do
  let (_,g) ← Flow.infer p
  let _ ← Flow.liveness g
  return (← Flow.linearize g).length

def Task.count? (examples : List (String × String)) (main : String) (size : Nat) :
    Task → Option (Except Fault Datum)
  | .parse => some ((statementCount (source size)).map .nat)
  | .compile =>
    some (.ok (.nat ((examples.take size).map fun e => assemblySize e.1 e.2).sum))
  | .buildTables => some (.ok (.nat (builtParsers size)))
  | .parseCode => some ((declarationCount (recursiveText main size)).map .nat)
  | .execute => some ((tracedRun main size).map fun r => .tuple [r.1,.nat r.2])
  | .liveness => some ((analysedLength (procedure size)).map .nat)
  | _ => none

def lowered (source : String) : Bx.Compile (List Bx.Item) := do
  match ← Bx.Compile.parseSource source with
  | none => throw .wrongKind
  | some tree =>
    let (tree,functions) ← Bx.Compile.checkSource tree
    Bx.Compile.lowerTree functions tree

end BxToolchain.Workload
