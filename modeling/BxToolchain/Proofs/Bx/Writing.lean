import BxToolchain.Proofs.Bx.Syntax

namespace BxToolchain.Bx

open List

abbrev SourceWord := Kind × String

def Token.word (t : Token) : SourceWord := (t.kind,t.text)

def sign (kind : Kind) : SourceWord := (kind,kind.spelling?.getD "")

def numeral (n : Nat) : SourceWord := (.number,Text.decimal n)

def leftLevel (level : Nat) : Nat := if chains level then level else level + 1

mutual

inductive OperandWrites : Node → List SourceWord → Prop where
  | var (line : Int) : isIdentifier x = true →
      OperandWrites (.var line Node.undefined x) [(.ident,x)]
  | number (line : Int) {n : Nat} : n < 10 ^ Text.digitLimit →
      OperandWrites (.number line Node.undefined (.int n)) [numeral n]
  | boolean (line : Int) : kind = .true' ∨ kind = .false' →
      OperandWrites (.boolean line Node.undefined (.str (sign kind).2)) [sign kind]
  | call (line : Int) : isIdentifier x = true →
      ArgumentsWrite args ws → OperandWrites (.call line Node.undefined x args)
        ((.ident,x) :: sign .lparen :: (ws ++ [sign .rparen]))
  | unary (line : Int) {kind e ws} :
      kind = .minus ∨ kind = .complement ∨ kind = .not → OperandWrites e ws →
      OperandWrites (.unary line Node.undefined e (sign kind).2) (sign kind :: ws)
  | parens : ExprWrites 0 e ws →
      OperandWrites e (sign .lparen :: (ws ++ [sign .rparen]))

inductive ExprWrites : Nat → Node → List SourceWord → Prop where
  | operand (level : Nat) : OperandWrites e ws → ExprWrites level e ws
  | binary (line : Int) {level l kind a b ws ws'} :
      kind.level? = some l → level ≤ l → ExprWrites (leftLevel l) a ws → ExprWrites (l + 1) b ws' →
      ExprWrites level (.binary line Node.undefined a b (sign kind).2) (ws ++ sign kind :: ws')

inductive ArgumentsWrite : List Node → List SourceWord → Prop where
  | nil : ArgumentsWrite [] []
  | last : ExprWrites 0 e ws → ArgumentsWrite [e] ws
  | cons : ExprWrites 0 e ws →
      ArgumentsWrite rest ws' → ArgumentsWrite (e :: rest) (ws ++ sign .comma :: ws')

end

inductive TypeWrites : Node → SourceWord → Prop where
  | ty (line : Int) {kind} : kind = .int ∨ kind = .bool →
      TypeWrites (.ty line (sign kind).2) (sign kind)

inductive InitializersWrite : List Node → List SourceWord → Prop where
  | last (line : Int) : isIdentifier x = true →
      ExprWrites 0 e ws → InitializersWrite [.varInit x e line] ((.ident,x) :: sign .equal :: ws)
  | cons (line : Int) :
      isIdentifier x = true → ExprWrites 0 e ws → InitializersWrite rest ws' →
      InitializersWrite (.varInit x e line :: rest)
        ((.ident,x) :: sign .equal :: (ws ++ sign .comma :: ws'))

inductive VariablesWrite : Node → List SourceWord → Prop where
  | varDecl (line : Int) {inits type ws w} : InitializersWrite inits ws → TypeWrites type w →
      VariablesWrite (.varDecl line inits type)
        (sign .var :: (ws ++ [sign .colon,w,sign .semicolon]))

mutual

inductive BlockWrites : Node → List SourceWord → Prop where
  | block (line : Int) {statements ws} : StatementsWrite statements ws →
      BlockWrites (.block line statements) (sign .lbrace :: (ws ++ [sign .rbrace]))

inductive StatementsWrite : List Node → List SourceWord → Prop where
  | nil : StatementsWrite [] []
  | cons : StatementWrites n ws →
      StatementsWrite rest ws' → StatementsWrite (n :: rest) (ws ++ ws')

inductive StatementWrites : Node → List SourceWord → Prop where
  | declared : VariablesWrite n ws → StatementWrites n ws
  | block : BlockWrites n ws → StatementWrites n ws
  | conditional : ConditionalWrites n ws → StatementWrites n ws
  | loop (line : Int) : ExprWrites 0 condition ws →
      BlockWrites body ws' → StatementWrites (.while' line condition body)
        (sign .while' :: sign .lparen :: (ws ++ sign .rparen :: ws'))
  | jump (line : Int) : kind = .break' ∨ kind = .continue' →
      StatementWrites (.jump line (sign kind).2) [sign kind,sign .semicolon]
  | returnNothing (line : Int) :
      StatementWrites (.return' line .absent) [sign .return',sign .semicolon]
  | returnValue (line : Int) : ExprWrites 0 value ws →
      StatementWrites (.return' line value) (sign .return' :: (ws ++ [sign .semicolon]))
  | raise (line : Int) : isIdentifier x = true →
      StatementWrites (.raise line x) [sign .raise,(.ident,x),sign .semicolon]
  | tryExcept (line : Int) {body catches ws ws'} : BlockWrites body ws → CatchesWrite catches ws' →
      StatementWrites (.tryExcept line body catches) (sign .try' :: (ws ++ ws'))
  | assign (line : Int) : isIdentifier x = true →
      ExprWrites 0 value ws → StatementWrites (.assign line x value)
        ((.ident,x) :: sign .equal :: (ws ++ [sign .semicolon]))
  | eval (line : Int) : ExprWrites 0 value ws →
      StatementWrites (.eval line value) (ws ++ [sign .semicolon])

inductive ConditionalWrites : Node → List SourceWord → Prop where
  | noElse (line line' : Int) :
      ExprWrites 0 condition ws → BlockWrites yes ws' →
      ConditionalWrites (.ifElse line condition yes (.block line' []))
        (sign .if' :: sign .lparen :: (ws ++ sign .rparen :: ws'))
  | elseBlock (line : Int) :
      ExprWrites 0 condition ws → BlockWrites yes ws' → BlockWrites no ws'' →
      ConditionalWrites (.ifElse line condition yes no)
        (sign .if' :: sign .lparen :: (ws ++ sign .rparen :: (ws' ++ sign .else' :: ws'')))
  | elseIf (line : Int) :
      ExprWrites 0 condition ws → BlockWrites yes ws' → ConditionalWrites no ws'' →
      ConditionalWrites (.ifElse line condition yes no)
        (sign .if' :: sign .lparen :: (ws ++ sign .rparen :: (ws' ++ sign .else' :: ws'')))

inductive CatchesWrite : List Node → List SourceWord → Prop where
  | nil : CatchesWrite [] []
  | cons (line : Int) :
      isIdentifier x = true → BlockWrites body ws → CatchesWrite rest ws' →
      CatchesWrite (.catch' line x body :: rest) (sign .except :: (.ident,x) :: (ws ++ ws'))

end

inductive NamesWrite : List String → List SourceWord → Prop where
  | last : isIdentifier x = true → NamesWrite [x] [(.ident,x)]
  | cons : isIdentifier x = true →
      NamesWrite rest ws → NamesWrite (x :: rest) ((.ident,x) :: sign .comma :: ws)

inductive ParamsWrite : List Node → List SourceWord → Prop where
  | nil : ParamsWrite [] []
  | last (line : Int) : NamesWrite names ws → TypeWrites type w →
      ParamsWrite [.param line names type] (ws ++ [sign .colon,w])
  | cons (line : Int) :
      NamesWrite names ws → TypeWrites type w → ParamsWrite rest ws' →
      ParamsWrite (.param line names type :: rest) (ws ++ sign .colon :: w :: sign .comma :: ws')

inductive ResultWrites : Node → List SourceWord → Prop where
  | none : ResultWrites .absent []
  | type : TypeWrites type w → ResultWrites type [sign .colon,w]

inductive RaisesWrite : List Node → List SourceWord → Prop where
  | nil : RaisesWrite [] []
  | last (line : Int) : isIdentifier x = true →
      RaisesWrite [.raises line x] [(.ident,x)]
  | cons (line : Int) : isIdentifier x = true →
      RaisesWrite rest ws → RaisesWrite (.raises line x :: rest) ((.ident,x) :: sign .comma :: ws)

inductive ClauseWrites : List Node → List SourceWord → Prop where
  | none : ClauseWrites [] []
  | raises : RaisesWrite clause ws →
      ClauseWrites clause (sign .raises :: ws)

inductive DeclarationWrites : Node → List SourceWord → Prop where
  | declared : VariablesWrite n ws → DeclarationWrites n ws
  | exception (line : Int) : isIdentifier x = true →
      DeclarationWrites (.exceptionDecl line x) [sign .exception,(.ident,x),sign .semicolon]
  | procedure (line : Int) {x body result params clause ps rs xs ws} :
      isIdentifier x = true → ParamsWrite params ps →
      ResultWrites result rs → ClauseWrites clause xs → BlockWrites body ws →
      DeclarationWrites (.procDecl line x body params result clause)
        (sign .def' :: (.ident,x) :: sign .lparen :: (ps ++ sign .rparen :: (rs ++ (xs ++ ws))))

inductive ProgramWrites : List Node → List SourceWord → Prop where
  | last : DeclarationWrites n ws → ProgramWrites [n] ws
  | cons : DeclarationWrites n ws →
      ProgramWrites rest ws' → ProgramWrites (n :: rest) (ws ++ ws')

mutual

def Node.isFresh : Node → Bool
  | .var _ type _ | .boolean _ type _ => type = Node.undefined
  | .number _ type (.int n) => type = Node.undefined && n.toNat < 10 ^ Text.digitLimit
  | .binary _ type a b _ => type = Node.undefined && a.isFresh && b.isFresh
  | .unary _ type a _ => type = Node.undefined && a.isFresh
  | .call _ type _ args => type = Node.undefined && Node.areFresh args
  | .varInit _ value _ | .assign _ _ value | .eval _ value | .return' _ value => value.isFresh
  | .varDecl _ inits _ => Node.areFresh inits
  | .block _ statements => Node.areFresh statements
  | .ifElse _ condition a b => condition.isFresh && a.isFresh && b.isFresh
  | .while' _ condition body => condition.isFresh && body.isFresh
  | .tryExcept _ body catches => body.isFresh && Node.areFresh catches
  | .catch' _ _ body => body.isFresh
  | .procDecl _ _ body _ _ _ => body.isFresh
  | _ => true

def Node.areFresh : List Node → Bool
  | [] => true
  | n :: rest => n.isFresh && Node.areFresh rest

end

theorem exists_binaryKind (h : op ∈ binaryOperators) :
    ∃ kind l, kind.level? = some l ∧ op = (sign kind).2 := by
  have hkinds : ∀ op ∈ binaryOperators, ∃ kind ∈ [Kind.plus,.minus,.star,.slash,.mod,.and,.or,
      .xor,.lshift,.rshift,.equalEqual,.notEqual,.lt,.ltEqual,.gt,.gtEqual,.boolAnd,
      .boolOr], kind.level?.isSome = true ∧ op = (sign kind).2 := by decide
  obtain ⟨kind,-,hlevel,hop⟩ := hkinds op h
  obtain ⟨l,hl⟩ := Option.isSome_iff_exists.1 hlevel
  exact ⟨kind,l,hl,hop⟩

theorem exists_unaryKind (h : op ∈ unaryOperators) :
    ∃ kind, (kind = .minus ∨ kind = .complement ∨ kind = .not) ∧ op = (sign kind).2 := by
  have hkinds : ∀ op ∈ unaryOperators, ∃ kind ∈ [Kind.minus,.complement,.not],
      op = (sign kind).2 := by decide
  obtain ⟨kind,hkind,hop⟩ := hkinds op h
  exact ⟨kind,by simpa using hkind,hop⟩

mutual

theorem exists_operandWrites : (e : Node) → e.isExpr = true → e.isFresh = true →
    ∃ ws, OperandWrites e ws
  | .var line type x, h, hfresh => by
    obtain rfl := of_decide_eq_true hfresh
    exact ⟨_,.var line h⟩
  | .number line type (.int n), h, hfresh => by
    simp only [Node.isFresh,Bool.and_eq_true,decide_eq_true_eq] at hfresh
    obtain ⟨rfl,hn⟩ := hfresh
    obtain ⟨n,rfl⟩ := Int.eq_ofNat_of_zero_le (of_decide_eq_true h)
    exact ⟨_,.number line hn⟩
  | .boolean line type (.str b), h, hfresh => by
    obtain rfl := of_decide_eq_true hfresh
    simp only [Node.isExpr,Bool.or_eq_true,decide_eq_true_eq] at h
    obtain rfl | rfl := h
    · exact ⟨_,.boolean line (.inl rfl)⟩
    · exact ⟨_,.boolean line (.inr rfl)⟩
  | .binary line type a b op, h, hfresh => by
    simp only [Node.isExpr,Bool.and_eq_true,contains_iff_mem] at h
    simp only [Node.isFresh,Bool.and_eq_true,decide_eq_true_eq] at hfresh
    obtain ⟨⟨hop,ha⟩,hb⟩ := h
    obtain ⟨⟨rfl,hfa⟩,hfb⟩ := hfresh
    obtain ⟨kind,l,hl,rfl⟩ := exists_binaryKind hop
    obtain ⟨ws,hws⟩ := exists_operandWrites a ha hfa
    obtain ⟨ws',hws'⟩ := exists_operandWrites b hb hfb
    exact ⟨_,.parens (.binary line hl (Nat.zero_le l) (.operand _ hws) (.operand _ hws'))⟩
  | .unary line type a op, h, hfresh => by
    simp only [Node.isExpr,Bool.and_eq_true,contains_iff_mem] at h
    simp only [Node.isFresh,Bool.and_eq_true,decide_eq_true_eq] at hfresh
    obtain ⟨rfl,hfa⟩ := hfresh
    obtain ⟨kind,hkind,rfl⟩ := exists_unaryKind h.1
    obtain ⟨ws,hws⟩ := exists_operandWrites a h.2 hfa
    exact ⟨_,.unary line hkind hws⟩
  | .call line type x args, h, hfresh => by
    simp only [Node.isExpr,Bool.and_eq_true] at h
    simp only [Node.isFresh,Bool.and_eq_true,decide_eq_true_eq] at hfresh
    obtain ⟨rfl,hfresh⟩ := hfresh
    obtain ⟨ws,hws⟩ := exists_argumentsWrite args h.2 hfresh
    exact ⟨_,.call line h.1 hws⟩

theorem exists_argumentsWrite : (args : List Node) → Node.areExprs args = true →
    Node.areFresh args = true → ∃ ws, ArgumentsWrite args ws
  | [], _, _ => ⟨_,.nil⟩
  | e :: rest, h, hfresh => by
    simp only [Node.areExprs,Bool.and_eq_true] at h
    simp only [Node.areFresh,Bool.and_eq_true] at hfresh
    obtain ⟨ws,hws⟩ := exists_operandWrites e h.1 hfresh.1
    obtain ⟨ws',hws'⟩ := exists_argumentsWrite rest h.2 hfresh.2
    exact ⟨_,.cons (.operand 0 hws) hws'⟩

end

theorem exists_exprWrites (h : e.isExpr = true) (hfresh : e.isFresh = true) :
    ∃ ws, ExprWrites 0 e ws := by
  obtain ⟨ws,hws⟩ := exists_operandWrites e h hfresh
  exact ⟨ws,.operand 0 hws⟩

theorem exists_typeWrites (h : type.isType = true) : ∃ w, TypeWrites type w := by
  cases type with
  | ty line name =>
    simp only [Node.isType,Bool.or_eq_true,decide_eq_true_eq] at h
    obtain rfl | rfl := h
    · exact ⟨_,.ty line (.inl rfl)⟩
    · exact ⟨_,.ty line (.inr rfl)⟩
  | _ => cases h

theorem exists_initializersWrite {inits} (h : Node.areInitializers inits = true)
    (hfresh : Node.areFresh inits = true) : ∃ ws, InitializersWrite inits ws := by
  induction inits with
  | nil => cases h
  | cons n rest ih =>
    cases n with
    | varInit x value line =>
      simp only [Node.areFresh,Node.isFresh,Bool.and_eq_true] at hfresh
      cases rest with
      | nil =>
        simp only [Node.areInitializers,Bool.and_eq_true] at h
        obtain ⟨ws,hws⟩ := exists_exprWrites h.2 hfresh.1
        exact ⟨_,.last line h.1 hws⟩
      | cons m others =>
        rw [Node.areInitializers] at h
        · simp only [Bool.and_eq_true] at h
          obtain ⟨ws,hws⟩ := exists_exprWrites h.1.2 hfresh.1
          obtain ⟨ws',hws'⟩ := ih h.2 hfresh.2
          exact ⟨_,.cons line h.1.1 hws hws'⟩
        · simp
    | _ => cases rest <;> cases h

theorem exists_variablesWrite {line inits type}
    (h : (Node.areInitializers inits && type.isType) = true) (hfresh : Node.areFresh inits = true) :
    ∃ ws, VariablesWrite (.varDecl line inits type) ws := by
  obtain ⟨hinits,htype⟩ := Bool.and_eq_true_iff.1 h
  obtain ⟨ws,hws⟩ := exists_initializersWrite hinits hfresh
  obtain ⟨w,hw⟩ := exists_typeWrites htype
  exact ⟨_,.varDecl line hws hw⟩

mutual

theorem exists_blockWrites : (n : Node) → (n.isBlock && n.isStatement) = true →
    n.isFresh = true → ∃ ws, BlockWrites n ws
  | .block line statements, h, hfresh => by
    obtain ⟨ws,hws⟩ := exists_statementsWrite statements h hfresh
    exact ⟨_,.block line hws⟩

theorem exists_statementsWrite : (ns : List Node) → Node.areStatements ns = true →
    Node.areFresh ns = true → ∃ ws, StatementsWrite ns ws
  | [], _, _ => ⟨_,.nil⟩
  | n :: rest, h, hfresh => by
    simp only [Node.areStatements,Bool.and_eq_true] at h
    simp only [Node.areFresh,Bool.and_eq_true] at hfresh
    obtain ⟨ws,hws⟩ := exists_statementWrites n h.1 hfresh.1
    obtain ⟨ws',hws'⟩ := exists_statementsWrite rest h.2 hfresh.2
    exact ⟨_,.cons hws hws'⟩

theorem exists_branchWrites : (n : Node) → (n.isBranch && n.isStatement) = true →
    n.isFresh = true → (∃ ws, BlockWrites n ws) ∨ ∃ ws, ConditionalWrites n ws
  | .block line statements, h, hfresh => .inl (exists_blockWrites (.block line statements) h hfresh)
  | .ifElse line condition a b, h, hfresh => by
    simp only [Node.isBranch,Node.isStatement,Bool.true_and,Bool.and_eq_true] at h
    simp only [Node.isFresh,Bool.and_eq_true] at hfresh
    obtain ⟨ws,hws⟩ := exists_exprWrites h.1.1 hfresh.1.1
    obtain ⟨ws',hws'⟩ := exists_blockWrites a (Bool.and_eq_true_iff.2 h.1.2) hfresh.1.2
    obtain ⟨ws'',hws''⟩ | ⟨ws'',hws''⟩ :=
      exists_branchWrites b (Bool.and_eq_true_iff.2 h.2) hfresh.2
    · exact .inr ⟨_,.elseBlock line hws hws' hws''⟩
    · exact .inr ⟨_,.elseIf line hws hws' hws''⟩

theorem exists_statementWrites : (n : Node) → n.isStatement = true → n.isFresh = true →
    ∃ ws, StatementWrites n ws
  | .varDecl line inits type, h, hfresh => by
    obtain ⟨ws,hws⟩ := exists_variablesWrite h hfresh
    exact ⟨_,.declared hws⟩
  | .assign line x value, h, hfresh => by
    simp only [Node.isStatement,Bool.and_eq_true] at h
    obtain ⟨ws,hws⟩ := exists_exprWrites h.2 hfresh
    exact ⟨_,.assign line h.1 hws⟩
  | .eval line value, h, hfresh => by
    obtain ⟨ws,hws⟩ := exists_exprWrites h hfresh
    exact ⟨_,.eval line hws⟩
  | .block line statements, h, hfresh => by
    obtain ⟨ws,hws⟩ := exists_blockWrites (.block line statements) h hfresh
    exact ⟨_,.block hws⟩
  | .ifElse line condition a b, h, hfresh => by
    obtain ⟨ws,hws⟩ | ⟨ws,hws⟩ := exists_branchWrites (.ifElse line condition a b) h hfresh
    · exact ⟨_,.block hws⟩
    · exact ⟨_,.conditional hws⟩
  | .while' line condition body, h, hfresh => by
    simp only [Node.isStatement,Bool.and_eq_true] at h
    simp only [Node.isFresh,Bool.and_eq_true] at hfresh
    obtain ⟨ws,hws⟩ := exists_exprWrites h.1 hfresh.1
    obtain ⟨ws',hws'⟩ := exists_blockWrites body (Bool.and_eq_true_iff.2 h.2) hfresh.2
    exact ⟨_,.loop line hws hws'⟩
  | .jump line target, h, _ => by
    simp only [Node.isStatement,Bool.or_eq_true,decide_eq_true_eq] at h
    obtain rfl | rfl := h
    · exact ⟨_,.jump line (.inl rfl)⟩
    · exact ⟨_,.jump line (.inr rfl)⟩
  | .return' line value, h, hfresh => by
    by_cases habsent : value = .absent
    · rw [habsent]
      exact ⟨_,.returnNothing line⟩
    · have hvalue : value.isExpr = true := by
        rwa [Node.isStatement] at h
        exact habsent
      obtain ⟨ws,hws⟩ := exists_exprWrites hvalue hfresh
      exact ⟨_,.returnValue line hws⟩
  | .tryExcept line body catches, h, hfresh => by
    simp only [Node.isStatement,Bool.and_eq_true] at h
    simp only [Node.isFresh,Bool.and_eq_true] at hfresh
    obtain ⟨ws,hws⟩ := exists_blockWrites body (Bool.and_eq_true_iff.2 h.1) hfresh.1
    obtain ⟨ws',hws'⟩ := exists_catchesWrite catches h.2 hfresh.2
    exact ⟨_,.tryExcept line hws hws'⟩
  | .raise line x, h, _ => ⟨_,.raise line (by rwa [Node.isStatement] at h)⟩

theorem exists_catchesWrite : (ns : List Node) → Node.areCatches ns = true →
    Node.areFresh ns = true → ∃ ws, CatchesWrite ns ws
  | [], _, _ => ⟨_,.nil⟩
  | .catch' line x body :: rest, h, hfresh => by
    simp only [Node.areCatches,Bool.and_eq_true] at h
    simp only [Node.areFresh,Node.isFresh,Bool.and_eq_true] at hfresh
    obtain ⟨ws,hws⟩ := exists_blockWrites body (Bool.and_eq_true_iff.2 h.1.2) hfresh.1
    obtain ⟨ws',hws'⟩ := exists_catchesWrite rest h.2 hfresh.2
    exact ⟨_,.cons line h.1.1 hws hws'⟩

end

theorem exists_namesWrite (hne : names ≠ []) (h : names.all isIdentifier = true) :
    ∃ ws, NamesWrite names ws := by
  induction names with
  | nil => contradiction
  | cons x rest ih =>
    simp only [all_cons,Bool.and_eq_true] at h
    by_cases hrest : rest = []
    · subst hrest
      exact ⟨_,.last h.1⟩
    · obtain ⟨ws,hws⟩ := ih hrest h.2
      exact ⟨_,.cons h.1 hws⟩

theorem exists_paramsWrite (h : params.all Node.isParam = true) : ∃ ws, ParamsWrite params ws := by
  induction params with
  | nil => exact ⟨_,.nil⟩
  | cons n rest ih =>
    simp only [all_cons,Bool.and_eq_true] at h
    obtain ⟨ws',hws'⟩ := ih h.2
    cases n with
    | param line names type =>
      simp only [Node.isParam,Bool.and_eq_true,Bool.not_eq_true',isEmpty_eq_false_iff] at h
      obtain ⟨ws,hws⟩ := exists_namesWrite h.1.1.1 h.1.1.2
      obtain ⟨w,hw⟩ := exists_typeWrites h.1.2
      exact ⟨_,.cons line hws hw hws'⟩
    | _ => cases h.1

theorem exists_raisesWrite (h : clause.all Node.isRaises = true) : ∃ ws, RaisesWrite clause ws := by
  induction clause with
  | nil => exact ⟨_,.nil⟩
  | cons n rest ih =>
    simp only [all_cons,Bool.and_eq_true] at h
    obtain ⟨ws,hws⟩ := ih h.2
    cases n with
    | raises line x => exact ⟨_,.cons line h.1 hws⟩
    | _ => cases h.1

theorem exists_resultWrites (h : result.isResult = true) : ∃ ws, ResultWrites result ws := by
  by_cases habsent : result = .absent
  · rw [habsent]
    exact ⟨_,.none⟩
  · have htype : result.isType = true := by
      rwa [Node.isResult] at h
      exact habsent
    obtain ⟨w,hw⟩ := exists_typeWrites htype
    exact ⟨_,.type hw⟩

theorem exists_declarationWrites (h : n.isDeclaration = true) (hfresh : n.isFresh = true) :
    ∃ ws, DeclarationWrites n ws := by
  cases n with
  | varDecl line inits type =>
    obtain ⟨ws,hws⟩ := exists_variablesWrite h hfresh
    exact ⟨_,.declared hws⟩
  | exceptionDecl line x => exact ⟨_,.exception line h⟩
  | procDecl line x body params result clause =>
    simp only [Node.isDeclaration,Bool.and_eq_true] at h
    obtain ⟨⟨⟨⟨hx,hbody⟩,hparams⟩,hresult⟩,hclause⟩ := h
    obtain ⟨ps,hps⟩ := exists_paramsWrite hparams
    obtain ⟨rs,hrs⟩ := exists_resultWrites hresult
    obtain ⟨xs,hxs⟩ := exists_raisesWrite hclause
    obtain ⟨ws,hws⟩ := exists_blockWrites body (Bool.and_eq_true_iff.2 hbody) hfresh
    exact ⟨_,.procedure line hx hps hrs (.raises hxs) hws⟩
  | _ => cases h

theorem exists_programWrites (h : isProgram p = true) (hfresh : p.all Node.isFresh = true) :
    ∃ ws, ProgramWrites p ws := by
  simp only [isProgram,Bool.and_eq_true,Bool.not_eq_true',isEmpty_eq_false_iff] at h
  obtain ⟨hne,hdeclarations⟩ := h
  induction p with
  | nil => contradiction
  | cons n rest ih =>
    simp only [all_cons,Bool.and_eq_true] at hdeclarations hfresh
    obtain ⟨ws,hws⟩ := exists_declarationWrites hdeclarations.1 hfresh.1
    by_cases hrest : rest = []
    · subst hrest
      exact ⟨_,.last hws⟩
    · obtain ⟨ws',hws'⟩ := ih hfresh.2 hrest hdeclarations.2
      exact ⟨_,.cons hws hws'⟩

end BxToolchain.Bx
