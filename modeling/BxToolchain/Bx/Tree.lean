import BxToolchain.Bx.Node
import BxToolchain.Data.Access

namespace BxToolchain.Bx.Node

mutual

def toDatum : Node → Datum
  | absent => .null
  | ty l n => .record [("node",.str "Ty"),("line",.int l),("ty",.str n)]
  | param l ns t =>
    .record [("node",.str "Param"),("line",.int l),("name",.texts ns),("ty",t.toDatum)]
  | exceptionDecl l n =>
    .record [("node",.str "ExceptionDecl"),("line",.int l),("name",.str n)]
  | procDecl l n b ps r rs =>
    .record [("node",.str "ProcDecl"),("line",.int l),("name",.str n),("block",b.toDatum),
      ("args",.list (toData ps)),("return_ty",r.toDatum),("raises",.list (toData rs))]
  | raises l n => .record [("node",.str "Raises"),("line",.int l),("name",.str n)]
  | block l ss =>
    .record [("node",.str "Block"),("line",.int l),("statements",.list (toData ss))]
  | raise l n => .record [("node",.str "Raise"),("line",.int l),("name",.str n)]
  | catch' l n b =>
    .record [("node",.str "Catch"),("line",.int l),("name",.str n),("block",b.toDatum)]
  | tryExcept l b cs =>
    .record [("node",.str "TryExcept"),("line",.int l),("block",b.toDatum),
      ("catches",.list (toData cs))]
  | var l t n =>
    .record [("node",.str "VarExpr"),("line",.int l),("ty",.str t),("name",.str n)]
  | number l t v =>
    .record [("node",.str "NumberExpr"),("line",.int l),("ty",.str t),("value",v)]
  | binary l t a b o =>
    .record [("node",.str "BinOpExpr"),("line",.int l),("ty",.str t),("left",a.toDatum),
      ("right",b.toDatum),("operation",.str o)]
  | unary l t a o =>
    .record [("node",.str "UnOpExpr"),("line",.int l),("ty",.str t),("value",a.toDatum),
      ("operation",.str o)]
  | boolean l t v =>
    .record [("node",.str "Bool"),("line",.int l),("ty",.str t),("value",v)]
  | call l t n as =>
    .record [("node",.str "ProcCall"),("line",.int l),("ty",.str t),("name",.str n),
      ("args",.list (toData as))]
  | bareCall l t n =>
    .record [("node",.str "ProcCall"),("line",.int l),("ty",.str t),("name",.str n),
      ("args",.null)]
  | varInit n v l =>
    .record [("node",.str "VarInit"),("name",.str n),("value",v.toDatum),("line",.int l)]
  | varDecl l vs t =>
    .record [("node",.str "VarDecl"),("line",.int l),("var_l",.list (toData vs)),
      ("ty",t.toDatum)]
  | assign l n v =>
    .record [("node",.str "Assign"),("line",.int l),("name",.str n),("value",v.toDatum)]
  | eval l v => .record [("node",.str "Eval"),("line",.int l),("value",v.toDatum)]
  | ifElse l c a b =>
    .record [("node",.str "Ifelse"),("line",.int l),("condition",c.toDatum),
      ("ifbranch",a.toDatum),("elsebranch",b.toDatum)]
  | while' l c b =>
    .record [("node",.str "While"),("line",.int l),("condition",c.toDatum),
      ("block",b.toDatum)]
  | jump l t => .record [("node",.str "Jump"),("line",.int l),("ty",.str t)]
  | return' l v => .record [("node",.str "Return"),("line",.int l),("value",v.toDatum)]
  | program l ds =>
    .record [("node",.str "Program"),("line",.int l),("declarations",.list (toData ds))]
  | decl l => .record [("node",.str "Decl"),("line",.int l)]
  | statement l => .record [("node",.str "Statement"),("line",.int l)]
  | expr l t => .record [("node",.str "Expr"),("line",.int l),("ty",.str t)]

def toData : List Node → List Datum
  | [] => []
  | n :: rest => n.toDatum :: toData rest

end

def ofDatumWithin : Nat → Datum → Node
  | 0, _ => .absent
  | fuel + 1, d =>
    let line := (d.part "line").asInt
    let text (k : String) := (d.part k).asText
    let node (k : String) := ofDatumWithin fuel (d.part k)
    let nodes (k : String) := (d.part k).asList.map (ofDatumWithin fuel)
    match (d.part "node").asText with
    | "Ty" => .ty line (text "ty")
    | "Param" => .param line (d.part "name").asTexts (node "ty")
    | "ExceptionDecl" => .exceptionDecl line (text "name")
    | "ProcDecl" =>
      .procDecl line (text "name") (node "block") (nodes "args") (node "return_ty")
        (nodes "raises")
    | "Raises" => .raises line (text "name")
    | "Block" => .block line (nodes "statements")
    | "Raise" => .raise line (text "name")
    | "Catch" => .catch' line (text "name") (node "block")
    | "TryExcept" => .tryExcept line (node "block") (nodes "catches")
    | "VarExpr" => .var line (text "ty") (text "name")
    | "NumberExpr" => .number line (text "ty") (d.part "value")
    | "BinOpExpr" => .binary line (text "ty") (node "left") (node "right") (text "operation")
    | "UnOpExpr" => .unary line (text "ty") (node "value") (text "operation")
    | "Bool" => .boolean line (text "ty") (d.part "value")
    | "ProcCall" =>
      match d.part "args" with
      | .list xs => .call line (text "ty") (text "name") (xs.map (ofDatumWithin fuel))
      | _ => .bareCall line (text "ty") (text "name")
    | "VarInit" => .varInit (text "name") (node "value") line
    | "VarDecl" => .varDecl line (nodes "var_l") (node "ty")
    | "Assign" => .assign line (text "name") (node "value")
    | "Eval" => .eval line (node "value")
    | "Ifelse" => .ifElse line (node "condition") (node "ifbranch") (node "elsebranch")
    | "While" => .while' line (node "condition") (node "block")
    | "Jump" => .jump line (text "ty")
    | "Return" => .return' line (node "value")
    | "Program" => .program line (nodes "declarations")
    | "Decl" => .decl line
    | "Statement" => .statement line
    | "Expr" => .expr line (text "ty")
    | _ => .absent

def ofDatum (d : Datum) : Node := ofDatumWithin (d.depth + 1) d

end BxToolchain.Bx.Node
