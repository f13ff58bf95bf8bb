import BxToolchain.Tac.Program

namespace BxToolchain.Workload

open Tac

def operatorAt (i : Nat) : String :=
  match i % 9 with
  | 0 => "+"
  | 1 => "-"
  | 2 => "*"
  | 3 => "|"
  | 4 => "&"
  | 5 => "^"
  | 6 => "<<"
  | 7 => ">>"
  | _ => "%"

def sourceStatements (i : Nat) : List String :=
  ("x = (x " ++ operatorAt i ++ " y) + " ++ toString (i % 97) ++ ";") ::
    ((if i % 7 = 0 then ["if (x < y) \x7b print(x); \x7d else \x7b print(y); \x7d"] else []) ++
      (if i % 11 = 0 then ["while (x > 1000) \x7b x = x - 1; \x7d"] else []))

def sourceBody (n : Nat) : List String :=
  ["var x = 0 : int;","var y = 1 : int;","var b = true : bool;"] ++
    (List.range n).flatMap sourceStatements ++ ["return;"]

def source (n : Nat) : String :=
  String.intercalate "\n"
    (["def main() \x7b"] ++ (sourceBody n).map ("    " ++ ·) ++ ["\x7d"])

def operationAt (i : Nat) : BinOp :=
  match i % 8 with
  | 0 => .add
  | 1 => .sub
  | 2 => .mul
  | 3 => .and
  | 4 => .or
  | 5 => .xor
  | 6 => .shl
  | _ => .shr

def operations (i : Nat) : List Instr :=
  { opcode := .binary (operationAt i), dest := .name "%a", arg1 := .name "%a", arg2 := .name "%b" } ::
    (if i % 5 = 0 then
      [{ opcode := .copy, dest := .name "%c", arg1 := .name "%a" },
       { opcode := .unary .neg, dest := .name "%c", arg1 := .name "%c" },
       { opcode := .unary .not, dest := .name "%c", arg1 := .name "%c" }]
    else [])

def procedure (n : Nat) : Procedure where
  name := "@main"
  params := [.str "%p"]
  body :=
    [.ofLabel "%.Lentry",
     { opcode := .const, dest := .name "%a", arg1 := .int 1 },
     { opcode := .const, dest := .name "%b", arg1 := .int 2 }] ++
    (List.range n).flatMap operations ++
    [.ofLabel "%.Lmid",
     { opcode := .const, dest := .name "%d", arg1 := .int 0 },
     { opcode := .branch .zero, arg1 := .name "%d", arg2 := .name "%.Lend" },
     .jumpTo "%.Lend",
     .ofLabel "%.Lend",
     { opcode := .ret, arg1 := .name "%a" }]

def recursiveGlobal : String := "var @g = 42;\n"

def recursiveLines : List String :=
  ["%.L0:","  %1 = const 0;","  %2 = sub %n, %1;","  jz %2, %.L6;","  jmp %.L1;","%.L1:",
   "  %3 = const 1;","  %4 = sub %n, %3;","  jz %4, %.L4;","  jmp %.L2;","%.L2:",
   "  %5 = const 1;","  %6 = sub %n, %5;","  param 1, %6;","  %7 = call @fib, 1;",
   "  %8 = const 2;","  %9 = sub %n, %8;","  param 1, %9;","  %10 = call @fib, 1;",
   "  %11 = add %7, %10;","  %0 = copy %11;","  jmp %.L7;","%.L4:","  %12 = const 1;",
   "  %0 = copy %12;","  jmp %.L7;","%.L6:","  %13 = const 0;","  %0 = copy %13;","  jmp %.L7;",
   "%.L7:","  ret %0;"]

def recursiveProcedure : String :=
  "proc @fib(%n):\n" ++ String.join (recursiveLines.map (· ++ "\n"))

def recursiveText (main : String) (copies : Nat) : String :=
  recursiveGlobal ++ String.join (List.replicate copies (recursiveProcedure ++ main))

end BxToolchain.Workload
