import BxToolchain.Data.Datum

namespace BxToolchain.Bx

inductive Node where
  | absent
  | ty (line : Int) (name : String)
  | param (line : Int) (names : List String) (type : Node)
  | exceptionDecl (line : Int) (name : String)
  | procDecl (line : Int) (name : String) (block : Node) (params : List Node) (result : Node)
      (raises : List Node)
  | raises (line : Int) (name : String)
  | block (line : Int) (statements : List Node)
  | raise (line : Int) (name : String)
  | catch' (line : Int) (name : String) (block : Node)
  | tryExcept (line : Int) (block : Node) (catches : List Node)
  | var (line : Int) (type : String) (name : String)
  | number (line : Int) (type : String) (value : Datum)
  | binary (line : Int) (type : String) (left right : Node) (operation : String)
  | unary (line : Int) (type : String) (operand : Node) (operation : String)
  | boolean (line : Int) (type : String) (value : Datum)
  | call (line : Int) (type : String) (name : String) (args : List Node)
  | bareCall (line : Int) (type : String) (name : String)
  | varInit (name : String) (value : Node) (line : Int)
  | varDecl (line : Int) (inits : List Node) (type : Node)
  | assign (line : Int) (name : String) (value : Node)
  | eval (line : Int) (value : Node)
  | ifElse (line : Int) (condition ifBranch elseBranch : Node)
  | while' (line : Int) (condition block : Node)
  | jump (line : Int) (target : String)
  | return' (line : Int) (value : Node)
  | program (line : Int) (declarations : List Node)
  | decl (line : Int)
  | statement (line : Int)
  | expr (line : Int) (type : String)
  deriving Inhabited

namespace Node

def undefined : String := "undefined"

def line? : Node → Option Int
  | absent => none
  | ty l _ | param l _ _ | exceptionDecl l _ | procDecl l _ _ _ _ _ | raises l _ | block l _
  | raise l _ | catch' l _ _ | tryExcept l _ _ | var l _ _ | number l _ _ | binary l _ _ _ _
  | unary l _ _ _ | boolean l _ _ | call l _ _ _ | bareCall l _ _ | varInit _ _ l | varDecl l _ _
  | assign l _ _ | eval l _ | ifElse l _ _ _ | while' l _ _ | jump l _ | return' l _ | program l _
  | decl l | statement l | expr l _ => some l

def kind : Node → String
  | absent => "NoneType"
  | ty .. => "Ty"
  | param .. => "Param"
  | exceptionDecl .. => "ExceptionDecl"
  | procDecl .. => "ProcDecl"
  | raises .. => "Raises"
  | block .. => "Block"
  | raise .. => "Raise"
  | catch' .. => "Catch"
  | tryExcept .. => "TryExcept"
  | var .. => "VarExpr"
  | number .. => "NumberExpr"
  | binary .. => "BinOpExpr"
  | unary .. => "UnOpExpr"
  | boolean .. => "Bool"
  | call .. | bareCall .. => "ProcCall"
  | varInit .. => "VarInit"
  | varDecl .. => "VarDecl"
  | assign .. => "Assign"
  | eval .. => "Eval"
  | ifElse .. => "Ifelse"
  | while' .. => "While"
  | jump .. => "Jump"
  | return' .. => "Return"
  | program .. => "Program"
  | decl .. => "Decl"
  | statement .. => "Statement"
  | expr .. => "Expr"

def kindText (n : Node) : String := "<class 'bxlib.bxast." ++ n.kind ++ "'>"

def texts (xs : List String) : String := (Datum.list (xs.map Datum.str)).render

def fields (kind : String) (fs : List (String × String)) : String :=
  kind ++ "(" ++ ", ".intercalate (fs.map fun f => f.1 ++ "=" ++ f.2) ++ ")"

mutual

def render : Node → String
  | absent => "None"
  | ty l n => fields "Ty" [("line",Text.decimal l),("ty",Text.quote n)]
  | param l ns t => fields "Param" [("line",Text.decimal l),("name",texts ns),("ty",t.render)]
  | exceptionDecl l n => fields "ExceptionDecl" [("line",Text.decimal l),("name",Text.quote n)]
  | procDecl l n b ps r rs =>
    fields "ProcDecl" [("line",Text.decimal l),("name",Text.quote n),("block",b.render),
      ("args",renderList ps),("return_ty",r.render),("raises",renderList rs)]
  | raises l n => fields "Raises" [("line",Text.decimal l),("name",Text.quote n)]
  | block l ss => fields "Block" [("line",Text.decimal l),("statements",renderList ss)]
  | raise l n => fields "Raise" [("line",Text.decimal l),("name",Text.quote n)]
  | catch' l n b =>
    fields "Catch" [("line",Text.decimal l),("name",Text.quote n),("block",b.render)]
  | tryExcept l b cs =>
    fields "TryExcept" [("line",Text.decimal l),("block",b.render),("catches",renderList cs)]
  | var l t n =>
    fields "VarExpr" [("line",Text.decimal l),("ty",Text.quote t),("name",Text.quote n)]
  | number l t v =>
    fields "NumberExpr" [("line",Text.decimal l),("ty",Text.quote t),("value",v.render)]
  | binary l t a b o =>
    fields "BinOpExpr" [("line",Text.decimal l),("ty",Text.quote t),("left",a.render),
      ("right",b.render),("operation",Text.quote o)]
  | unary l t a o =>
    fields "UnOpExpr" [("line",Text.decimal l),("ty",Text.quote t),("value",a.render),
      ("operation",Text.quote o)]
  | boolean l t v =>
    fields "Bool" [("line",Text.decimal l),("ty",Text.quote t),("value",v.render)]
  | call l t n as =>
    fields "ProcCall" [("line",Text.decimal l),("ty",Text.quote t),("name",Text.quote n),
      ("args",renderList as)]
  | bareCall l t n =>
    fields "ProcCall" [("line",Text.decimal l),("ty",Text.quote t),("name",Text.quote n),
      ("args","None")]
  | varInit n v l =>
    fields "VarInit" [("name",Text.quote n),("value",v.render),("line",Text.decimal l)]
  | varDecl l vs t =>
    fields "VarDecl" [("line",Text.decimal l),("var_l",renderList vs),("ty",t.render)]
  | assign l n v =>
    fields "Assign" [("line",Text.decimal l),("name",Text.quote n),("value",v.render)]
  | eval l v => fields "Eval" [("line",Text.decimal l),("value",v.render)]
  | ifElse l c a b =>
    fields "Ifelse" [("line",Text.decimal l),("condition",c.render),("ifbranch",a.render),
      ("elsebranch",b.render)]
  | while' l c b =>
    fields "While" [("line",Text.decimal l),("condition",c.render),("block",b.render)]
  | jump l t => fields "Jump" [("line",Text.decimal l),("ty",Text.quote t)]
  | return' l v => fields "Return" [("line",Text.decimal l),("value",v.render)]
  | program l ds =>
    fields "Program" [("line",Text.decimal l),("declarations",renderList ds)]
  | decl l => fields "Decl" [("line",Text.decimal l)]
  | statement l => fields "Statement" [("line",Text.decimal l)]
  | expr l t => fields "Expr" [("line",Text.decimal l),("ty",Text.quote t)]

def renderList (ns : List Node) : String := "[" ++ renderItems ns ++ "]"

def renderItems : List Node → String
  | [] => ""
  | [n] => n.render
  | n :: rest => n.render ++ ", " ++ renderItems rest

end

end Node

end BxToolchain.Bx
