import BxToolchain.Bx.Checker

namespace BxToolchain.Bx

def boolOperators : List String := ["&&","||"]

def comparisons : List String := ["<",">","<=",">=","!","==","!="]

def intOperators : List String := ["|","^","&","<<",">>","+","-","*","/","%","~"]

def binaryType? (operation : String) : Option (String × String) :=
  if boolOperators.contains operation then some ("bool","bool")
  else if comparisons.contains operation then some ("int","bool")
  else if intOperators.contains operation then some ("int","int")
  else none

def unaryType? (operation : String) : Option String :=
  if operation = "!" then some "bool"
  else if operation = "-" || operation = "~" then some "int"
  else none

def inWordRange (n : Int) : Bool := -(2 ^ 63) ≤ n && n < 2 ^ 63

def unidentified (what : String) (n : Node) : Check (Node × Raised) := do
  match n.line? with
  | none => return (n,.error .missingPart)
  | some line =>
    report ("Unidentified " ++ what ++ ": " ++ n.render) line
    return (n,.ok [])

def checkBinary (line : Int) (type : String) (left right : Node) (operation : String)
    (raised : List String) : Check (Node × Raised) := do
  let same := Node.binary line type left right operation
  match binaryType? operation with
  | none => return (same,.ok raised)
  | some (operand,result) =>
    match left.type?, right.type? with
    | some a, some b =>
      if a = operand && b = operand then
        return (.binary line result left right operation,.ok raised)
      report ("Cannot perform operation " ++ operation ++ " between instances of types " ++ a ++
        " and " ++ b ++ ", expected type " ++ operand) line
      return (same,.ok raised)
    | _, _ => return (same,.error .missingPart)

def checkUnary (line : Int) (type : String) (value : Node) (operation : String)
    (raised : List String) : Check (Node × Raised) := do
  let same := Node.unary line type value operation
  match unaryType? operation with
  | none => return (same,.ok raised)
  | some operand =>
    match value.type? with
    | some a =>
      if a = operand then return (.unary line operand value operation,.ok raised)
      report ("Cannot perform operation " ++ operation ++ " in instance of type " ++ a ++
        ", expected type " ++ operand) line
      return (same,.ok raised)
    | none => return (same,.error .missingPart)

def resolvePrinter (line : Int) (name : String) (args : List Node) :
    Check (Except Fault String) := do
  if name = "print" then
    match args with
    | [] => return .error .outOfRange
    | first :: _ =>
      match first.type? with
      | none => return .error .missingPart
      | some "int" => return .ok "__bx_print_int"
      | some "bool" => return .ok "__bx_print_bool"
      | some _ =>
        match args.mapM Node.quotedType? with
        | none => return .error .missingPart
        | some types =>
          report ("Procedure print called with unexpected type [" ++ ", ".intercalate types ++
            "] . Expected int or bool") line
          return .ok name
  else return .ok name

def mismatch? : List Node → List String → Except Fault (Option String)
  | arg :: args, type :: types =>
    match arg.type? with
    | none => .error .missingPart
    | some t => if t = type then mismatch? args types else .ok (some t)
  | _, _ => .ok none

def checkCall (line : Int) (type : String) (name : String) (args : List Node)
    (raised : List String) : Check (Node × Raised) := do
  match ← resolvePrinter line name args with
  | .error e => return (.call line type name args,.error e)
  | .ok name =>
    let same := Node.call line type name args
    match (← get).procedures.get? name with
    | none =>
      report ("Calling undeclared procedure: " ++ name) line
      return (same,.ok raised)
    | some s =>
      if args.length ≠ s.inputs.length then
        report ("Calling procedure " ++ name ++ " with " ++ toString args.length ++
          " arguments. Expected " ++ toString s.inputs.length) line
        return (same,.ok raised)
      match mismatch? args s.inputs with
      | .error e => return (same,.error e)
      | .ok (some t) =>
        report ("Procedure " ++ name ++ " called with unexpected type " ++ t ++ " . Expected " ++
          s.text) line
        return (same,.ok raised)
      | .ok none => return (.call line s.result name args,.ok (raised ++ s.raises))

mutual

def checkExpr : Node → Check (Node × Raised)
  | .var line type name => do
    match (← get).typeOf? name with
    | none =>
      report ("Undeclared variable: " ++ name) line
      return (.var line type name,.ok [])
    | some t =>
      if t = "int" || t = "bool" then return (.var line t name,.ok [])
      report ("Invalid variable type: " ++ name ++ " is a " ++ t) line
      return (.var line type name,.ok [])
  | .binary line type left right operation => do
    match ← checkExpr left with
    | (left,.error e) => return (.binary line type left right operation,.error e)
    | (left,.ok raisedLeft) =>
      match ← checkExpr right with
      | (right,.error e) => return (.binary line type left right operation,.error e)
      | (right,.ok raisedRight) =>
        checkBinary line type left right operation (raisedLeft ++ raisedRight)
  | .unary line type value operation => do
    match ← checkExpr value with
    | (value,.error e) => return (.unary line type value operation,.error e)
    | (value,.ok raised) => checkUnary line type value operation raised
  | .number line type value => do
    match value.integer with
    | .error e => return (.number line type value,.error e)
    | .ok n =>
      if inWordRange n then return (.number line "int" value,.ok [])
      report "Invalid Integer (too large)" line
      return (.number line type value,.ok [])
  | .boolean line type value => do
    match value with
    | .str "true" | .str "false" => return (.boolean line "bool" value,.ok [])
    | _ =>
      report ("Invalid Boolean: " ++ value.display) line
      return (.boolean line type value,.ok [])
  | .call line type name args => do
    match ← checkExprs args with
    | (args,.error e) => return (.call line type name args,.error e)
    | (args,.ok raised) => checkCall line type name args raised
  | .bareCall line type name => return (.bareCall line type name,.error .wrongKind)
  | n => unidentified "expression" n

def checkExprs : List Node → Check (List Node × Raised)
  | [] => return ([],.ok [])
  | e :: rest => do
    match ← checkExpr e with
    | (e,.error f) => return (e :: rest,.error f)
    | (e,.ok raised) =>
      match ← checkExprs rest with
      | (rest,.error f) => return (e :: rest,.error f)
      | (rest,.ok more) => return (e :: rest,.ok (raised ++ more))

end

def checkInit (name : String) (value : Node) (line : Int) (type : String) :
    Check (Except Fault Unit) := do
  match value.type? with
  | none => return .error .missingPart
  | some t =>
    if t ≠ type then
      report ("Declaring variable " ++ name ++ " of type " ++ type ++ " but found type " ++ t) line
      return .ok ()
    if (← get).scopes.length = 1 && type ≠ "bool" && type ≠ "int" then
      report ("Global variable " ++ name ++ " is of type " ++ type ++
        ". Expected type Bool or Int") line
      return .ok ()
    declareVariable name type

def checkInits (type : Option String) : List Node → Check (List Node × Raised)
  | [] => return ([],.ok [])
  | .varInit name value line :: rest => do
    match type with
    | none => return (.varInit name value line :: rest,.error .missingPart)
    | some t =>
      match ← checkExpr value with
      | (value,.error e) => return (.varInit name value line :: rest,.error e)
      | (value,.ok raised) =>
        match ← checkInit name value line t with
        | .error e => return (.varInit name value line :: rest,.error e)
        | .ok _ =>
          match ← checkInits type rest with
          | (rest,.error e) => return (.varInit name value line :: rest,.error e)
          | (rest,.ok more) => return (.varInit name value line :: rest,.ok (raised ++ more))
  | n :: rest => return (n :: rest,.error .missingPart)

def checkVariables (line : Int) (inits : List Node) (type : Node) : Check (Node × Raised) := do
  let (inits,raised) ← checkInits type.type? inits
  return (.varDecl line inits type,raised)

def declareNames (type : Option String) : List String → Check (Except Fault Unit)
  | [] => return .ok ()
  | name :: rest => do
    match type with
    | none => return .error .missingPart
    | some t =>
      match ← declareVariable name t with
      | .error e => return .error e
      | .ok _ => declareNames type rest

def declareParams : List Node → Check (Except Fault Unit)
  | [] => return .ok ()
  | .param _ names type :: rest => do
    match ← declareNames type.type? names with
    | .error e => return .error e
    | .ok _ => declareParams rest
  | _ => return .error .missingPart

def allowed? : Check (Option (List String)) := return (← get).scopes.head?.map Scope.exceptions

def inScope {α : Type} (params : List Node) (exceptions : List String) (start : α)
    (body : Check (α × Raised)) : Check (α × Raised) := do
  modify fun c => { c with scopes := {} :: c.scopes }
  match ← declareParams params with
  | .error e => return (start,.error e)
  | .ok _ =>
    match (← get).scopes with
    | inner :: outer :: rest =>
      let inner := { inner with exceptions := union exceptions outer.exceptions }
      modify fun c => { c with scopes := inner :: outer :: rest }
      let (a,raised) ← body
      match raised with
      | .error e => return (a,.error e)
      | .ok names =>
        modify fun c => { c with scopes := c.scopes.drop 1 }
        return (a,.ok names)
    | _ => return (start,.error .outOfRange)

def caughtTwice? (seen : List String) : List Node → Except Fault (Option String)
  | [] => .ok none
  | c :: rest =>
    match c.name? with
    | none => .error .missingPart
    | some name => if seen.contains name then .ok (some name) else caughtTwice? (name :: seen) rest

def checkReturn (line : Int) (value : Node) (found : String) (raised : List String) :
    Check (Node × Raised) := do
  let c ← get
  match c.current with
  | none => return (.return' line value,.ok raised)
  | some name =>
    match c.procedures.get? name with
    | none => return (.return' line value,.error (.missingKey (Text.quote name)))
    | some s =>
      if found ≠ s.result then
        report ("Returning with value of type " ++ found ++ " expected " ++ s.result) line
      return (.return' line value,.ok raised)

def checkAssign (line : Int) (name : String) (value : Node) (raised : List String) :
    Check (Node × Raised) := do
  match value.type? with
  | none => return (.assign line name value,.error .missingPart)
  | some t =>
    let declared := ((← get).typeOf? name).getD ""
    if t ≠ declared then
      report ("Cannot assign value of type " ++ t ++ " to variable of type " ++ declared) line
    return (.assign line name value,.ok raised)

def checkRaise (line : Int) (name : String) : Check (Node × Raised) := do
  let c ← get
  if !c.exceptions.contains name then
    report ("Raising undeclared exception " ++ name) line
    return (.raise line name,.ok [])
  match ← allowed? with
  | none => return (.raise line name,.error .outOfRange)
  | some allowed =>
    if !allowed.contains name then
      report ("Raising undeclared escaping exception " ++ name) line
      return (.raise line name,.ok [])
    return (.raise line name,.ok [name])

def checkCondition (line : Int) (condition : Node) : Check (Except Fault Bool) := do
  match condition.type? with
  | none => return .error .missingPart
  | some t =>
    if t = "bool" then return .ok true
    report ("Cannot use value of type " ++ t ++
      " as condition. Expected expression of type bool") line
    return .ok false

mutual

def checkStatement : Node → Check (Node × Raised)
  | .varDecl line inits type => checkVariables line inits type
  | .block line statements => do
    let (statements,raised) ← inScope [] [] statements (checkStatements statements)
    return (.block line statements,raised)
  | .assign line name value => do
    if !(← get).isDeclared name then
      report ("Undeclared variable: " ++ name) line
      return (.assign line name value,.ok [])
    match ← checkExpr value with
    | (value,.error e) => return (.assign line name value,.error e)
    | (value,.ok raised) => checkAssign line name value raised
  | .eval line value => do
    let (value,raised) ← checkExpr value
    return (.eval line value,raised)
  | .ifElse line condition ifBranch elseBranch => do
    match ← checkExpr condition with
    | (condition,.error e) => return (.ifElse line condition ifBranch elseBranch,.error e)
    | (condition,.ok raised) =>
      match ← checkCondition line condition with
      | .error e => return (.ifElse line condition ifBranch elseBranch,.error e)
      | .ok false => return (.ifElse line condition ifBranch elseBranch,.ok raised)
      | .ok true =>
        match ← checkStatement ifBranch with
        | (ifBranch,.error e) => return (.ifElse line condition ifBranch elseBranch,.error e)
        | (ifBranch,.ok raisedIf) =>
          match ← checkStatement elseBranch with
          | (elseBranch,.error e) => return (.ifElse line condition ifBranch elseBranch,.error e)
          | (elseBranch,.ok raisedElse) =>
            return (.ifElse line condition ifBranch elseBranch,
              .ok (raised ++ raisedIf ++ raisedElse))
  | .while' line condition block => do
    match ← checkExpr condition with
    | (condition,.error e) => return (.while' line condition block,.error e)
    | (condition,.ok raised) =>
      match ← checkCondition line condition with
      | .error e => return (.while' line condition block,.error e)
      | .ok false => return (.while' line condition block,.ok raised)
      | .ok true =>
        if (← get).scopes.isEmpty then return (.while' line condition block,.error .outOfRange)
        match ← checkStatement block with
        | (block,.error e) => return (.while' line condition block,.error e)
        | (block,.ok more) => return (.while' line condition block,.ok (raised ++ more))
  | .jump line target => return (.jump line target,.ok [])
  | .return' line value => do
    if (← get).current.isNone then
      report "Return found outside procedure" line
      return (.return' line value,.ok [])
    match value with
    | .absent => checkReturn line .absent "void" []
    | value =>
      match ← checkExpr value with
      | (value,.error e) => return (.return' line value,.error e)
      | (value,.ok raised) =>
        match value.type? with
        | none => return (.return' line value,.error .missingPart)
        | some t => checkReturn line value t raised
  | .raise line name => checkRaise line name
  | .catch' line name block => do
    if !(← get).exceptions.contains name then
      report ("Catching undeclared exception " ++ name) line
      return (.catch' line name block,.ok [])
    match ← allowed? with
    | none => return (.catch' line name block,.error .outOfRange)
    | some allowed =>
      let (block,raised) ← checkBlock allowed block
      return (.catch' line name block,raised)
  | .tryExcept line block catches => do
    match caughtTwice? [] catches with
    | .error e => return (.tryExcept line block catches,.error e)
    | .ok (some name) =>
      report ("Exception " ++ name ++ " caught twice in the same try block") line
      return (.tryExcept line block catches,.ok [])
    | .ok none =>
      match ← allowed? with
      | none => return (.tryExcept line block catches,.error .outOfRange)
      | some allowed =>
        match ← checkBlock (union allowed (catches.filterMap Node.name?)) block with
        | (block,.error e) => return (.tryExcept line block catches,.error e)
        | (block,.ok raised) =>
          let (catches,more) ← checkCatches line raised catches
          return (.tryExcept line block catches,more)
  | n => unidentified "statement" n

def checkStatements : List Node → Check (List Node × Raised)
  | [] => return ([],.ok [])
  | s :: rest => do
    match ← checkStatement s with
    | (s,.error e) => return (s :: rest,.error e)
    | (s,.ok raised) =>
      match ← checkStatements rest with
      | (rest,.error e) => return (s :: rest,.error e)
      | (rest,.ok more) => return (s :: rest,.ok (raised ++ more))

def checkBlock (exceptions : List String) : Node → Check (Node × Raised)
  | .block line statements => do
    let (statements,raised) ← inScope [] exceptions statements (checkStatements statements)
    return (.block line statements,raised)
  | n => inScope [] exceptions n (return (n,.error .missingPart))

def checkCatches (line : Int) (raised : List String) : List Node → Check (List Node × Raised)
  | [] => return ([],.ok [])
  | c :: rest => do
    match c.name? with
    | none => return (c :: rest,.error .missingPart)
    | some name =>
      if !raised.contains name then
        report ("Exception " ++ name ++ " cannot happen in try block") line
        return (c :: rest,.ok [])
      match ← checkStatement c with
      | (c,.error e) => return (c :: rest,.error e)
      | (c,.ok own) =>
        match ← checkCatches line raised rest with
        | (rest,.error e) => return (c :: rest,.error e)
        | (rest,.ok more) => return (c :: rest,.ok (own ++ more))

end

def checkBody (params : List Node) (exceptions : List String) : Node → Check (Node × Raised)
  | .block line statements => do
    let (statements,raised) ← inScope params exceptions statements (checkStatements statements)
    return (.block line statements,raised)
  | n => inScope params exceptions n (return (n,.error .missingPart))

def collectExceptions (declarations : List Node) : Check Unit :=
  declarations.forM fun d => do
    match d with
    | .exceptionDecl line name =>
      if (← get).exceptions.contains name then
        report ("Exception " ++ name ++ " defined twice.") line
      else
        modify fun c => { c with exceptions := c.exceptions ++ [name] }
    | _ => return ()

def paramTypes : List Node → Except Fault (List String)
  | [] => .ok []
  | .param _ names type :: rest =>
    if names.isEmpty then paramTypes rest
    else
      match type.type? with
      | none => .error .missingPart
      | some t => (paramTypes rest).map (names.map (fun _ => t) ++ ·)
  | _ => .error .missingPart

def raisedNames (declared : List String) : List Node → Except Fault (List String)
  | [] => .ok []
  | r :: rest =>
    match r.name? with
    | none => .error .missingPart
    | some name =>
      if declared.contains name then (raisedNames declared rest).map (name :: ·)
      else .error (.unboundName "dec")

def isRuntimeName (name : String) : Bool := "__bx_".toList.isPrefixOf name.toList

def collectProcedure (line : Int) (name : String) (block : Node) (params : List Node)
    (result : Node) (raises : List Node) : Check (Except Fault Bool) := do
  let c ← get
  if isRuntimeName name then
    report ("Cannot declare procedures starting with \"__bx_\": " ++ name) line
    return .ok false
  if c.procedures.contains name then
    report ("Procedure " ++ name ++ " already declared.") line
    return .ok false
  if name = "main" && !raises.isEmpty then
    report "Procedure main cannot have a raises clause." line
    return .ok false
  match paramTypes params, raisedNames c.exceptions raises with
  | .error e, _ => return .error e
  | .ok _, .error e => return .error e
  | .ok inputs, .ok raised =>
    match result with
    | .absent =>
      set { c with
        procedures := c.procedures.insert name ⟨inputs,"void",raised⟩
        subroutines := c.subroutines ++ [name] }
    | result =>
      match result.type? with
      | none => return .error .missingPart
      | some t =>
        set { c with
          procedures := c.procedures.insert name ⟨inputs,t,raised⟩
          functions := c.functions ++ [name] }
    unless block.returns do
      report ("Procedure " ++ name ++ " is missing a return statement.") line
    return .ok true

def collectProcedures : List Node → Check (Except Fault Unit)
  | [] => return .ok ()
  | .procDecl line name block params result raises :: rest => do
    match ← collectProcedure line name block params result raises with
    | .error e => return .error e
    | .ok false => return .ok ()
    | .ok true => collectProcedures rest
  | _ :: rest => collectProcedures rest

def checkProcedure (line : Int) (name : String) (block : Node) (params : List Node) (result : Node)
    (raises : List Node) : Check (Node × Except Fault Unit) := do
  modify fun c => { c with current := some name }
  match (← get).procedures.get? name with
  | none =>
    return (.procDecl line name block params result raises,.error (.missingKey (Text.quote name)))
  | some s =>
    let (block,raised) ← checkBody params s.raises block
    let checked := Node.procDecl line name block params result raises
    match raised with
    | .error e => return (checked,.error e)
    | .ok _ =>
      modify fun c => { c with current := none }
      return (checked,.ok ())

def checkDeclaration : Node → Check (Node × Except Fault Unit)
  | .varDecl line inits type => do
    let (n,raised) ← checkVariables line inits type
    return (n,raised.map fun _ => ())
  | .procDecl line name block params result raises =>
    checkProcedure line name block params result raises
  | .exceptionDecl line name => return (.exceptionDecl line name,.ok ())
  | n => do
    let (n,raised) ← unidentified "declaration" n
    match raised with
    | .error e => return (n,.error e)
    | .ok _ => return (n,.error (.unboundName "raises"))

def checkDeclarations : List Node → Check (List Node × Except Fault Unit)
  | [] => return ([],.ok ())
  | d :: rest => do
    match ← checkDeclaration d with
    | (d,.error e) => return (d :: rest,.error e)
    | (d,.ok _) =>
      let (rest,r) ← checkDeclarations rest
      return (d :: rest,r)

def checkProgram (declarations : List Node) : Check (List Node × Except Fault Unit) := do
  if declarations.isEmpty then
    report "Program is empty" (-1)
    return (declarations,.error (.unboundName "raises"))
  collectExceptions declarations
  match ← collectProcedures declarations with
  | .error e => return (declarations,.error e)
  | .ok _ =>
    if !(← get).procedures.contains "main" then
      report "main() not found" (-1)
      return (declarations,.error (.unboundName "raises"))
    checkDeclarations declarations

end BxToolchain.Bx
