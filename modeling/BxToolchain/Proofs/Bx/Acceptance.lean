import BxToolchain.Proofs.Bx.Scoping

namespace BxToolchain.Bx

variable {n n' x : Node} {c c' : Checker} {raised : List String} {line : Int} {a op : String}
  {args : List Node}

mutual

inductive CheckedExpr (procedures : Table String Signature) (visible : List String) :
    Node → Node → String → Prop where
  | var (line : Int) (a : String) {x t} : x ∈ visible → isWordType t = true →
      CheckedExpr procedures visible (.var line a x) (.var line t x) t
  | number (line : Int) (a : String) {n : Int} : inWordRange n = true →
      CheckedExpr procedures visible (.number line a (.int n)) (.number line "int" (.int n)) "int"
  | boolean (line : Int) (a : String) {b} : b = "true" ∨ b = "false" →
      CheckedExpr procedures visible (.boolean line a (.str b)) (.boolean line "bool" (.str b)) "bool"
  | arithmetic (line : Int) (a : String) {op x x' y y'} :
      op ∈ arithmeticOperators → CheckedExpr procedures visible x x' "int" →
      CheckedExpr procedures visible y y' "int" →
      CheckedExpr procedures visible (.binary line a x y op) (.binary line "int" x' y' op) "int"
  | comparison (line : Int) (a : String) {op x x' y y'} :
      op ∈ comparisonOperators → CheckedExpr procedures visible x x' "int" →
      CheckedExpr procedures visible y y' "int" →
      CheckedExpr procedures visible (.binary line a x y op) (.binary line "bool" x' y' op) "bool"
  | logical (line : Int) (a : String) {op x x' y y'} :
      op ∈ logicalOperators → CheckedExpr procedures visible x x' "bool" →
      CheckedExpr procedures visible y y' "bool" →
      CheckedExpr procedures visible (.binary line a x y op) (.binary line "bool" x' y' op) "bool"
  | minus (line : Int) (a : String) {op x x'} : op = "-" ∨ op = "~" →
      CheckedExpr procedures visible x x' "int" →
      CheckedExpr procedures visible (.unary line a x op) (.unary line "int" x' op) "int"
  | not (line : Int) (a : String) {x x'} : CheckedExpr procedures visible x x' "bool" →
      CheckedExpr procedures visible (.unary line a x "!") (.unary line "bool" x' "!") "bool"
  | call (line : Int) (a : String) {name name' sig args args'} :
      Means name name' → procedures.get? name' = some sig →
      CheckedArgs procedures visible args args' sig.inputs →
      CheckedExpr procedures visible (.call line a name args) (.call line sig.result name' args')
        sig.result

inductive CheckedArgs (procedures : Table String Signature) (visible : List String) :
    List Node → List Node → List String → Prop where
  | nil : CheckedArgs procedures visible [] [] []
  | cons {e e' t rest rest' types} :
      CheckedExpr procedures visible e e' t → CheckedArgs procedures visible rest rest' types →
      CheckedArgs procedures visible (e :: rest) (e' :: rest') (t :: types)

end

inductive CheckedInits (procedures : Table String Signature) :
    List String → List Node → List Node → List String → Prop where
  | nil (visible : List String) : CheckedInits procedures visible [] [] visible
  | cons (x : String) (line : Int) {visible visible' value value' t rest rest'} :
      CheckedExpr procedures visible value value' t → isWordType t = true →
      CheckedInits procedures (x :: visible) rest rest' visible' →
      CheckedInits procedures visible (.varInit x value line :: rest)
        (.varInit x value' line :: rest') visible'

mutual

inductive CheckedStatement (procedures : Table String Signature) :
    List String → List String → Node → Node → List String → Prop where
  | varDecl {visible allowed} (line : Int) (type : Node) {inits inits' visible'} :
      CheckedInits procedures visible inits inits' visible' →
      CheckedStatement procedures visible allowed (.varDecl line inits type)
        (.varDecl line inits' type) visible'
  | assign {visible allowed} (line : Int) {x value value' t} :
      x ∈ visible → CheckedExpr procedures visible value value' t →
      isWordType t = true →
      CheckedStatement procedures visible allowed (.assign line x value) (.assign line x value')
        visible
  | eval {visible allowed} (line : Int) {value value' t} :
      CheckedExpr procedures visible value value' t →
      CheckedStatement procedures visible allowed (.eval line value) (.eval line value') visible
  | block {visible allowed} (line : Int) {statements statements' inner} :
      CheckedStatements procedures visible allowed statements statements' inner →
      CheckedStatement procedures visible allowed (.block line statements)
        (.block line statements') visible
  | ifElse {visible allowed} (line : Int) {condition condition' a a' b b' visibleA visibleB} :
      CheckedExpr procedures visible condition condition' "bool" →
      CheckedStatement procedures visible allowed a a' visibleA →
      CheckedStatement procedures visibleA allowed b b' visibleB →
      CheckedStatement procedures visible allowed (.ifElse line condition a b)
        (.ifElse line condition' a' b') visibleB
  | loop {visible allowed} (line : Int) {condition condition' body body' visible'} :
      CheckedExpr procedures visible condition condition' "bool" →
      CheckedStatement procedures visible allowed body body' visible' →
      CheckedStatement procedures visible allowed (.while' line condition body)
        (.while' line condition' body') visible'
  | jump {visible allowed} (line : Int) (target : String) :
      CheckedStatement procedures visible allowed (.jump line target) (.jump line target) visible
  | bareReturn {visible allowed} (line : Int) :
      CheckedStatement procedures visible allowed (.return' line .absent) (.return' line .absent)
        visible
  | return {visible allowed} (line : Int) {value value' t} :
      CheckedExpr procedures visible value value' t →
      CheckedStatement procedures visible allowed (.return' line value) (.return' line value')
        visible
  | tryExcept {visible allowed} (line : Int) {body body' catches catches' visible1 visible2} :
      CheckedStatement procedures visible (union allowed (catches.filterMap Node.name?)) body body'
        visible1 →
      CheckedCatches procedures visible1 allowed catches catches' visible2 →
      CheckedStatement procedures visible allowed (.tryExcept line body catches)
        (.tryExcept line body' catches') visible2
  | raise {visible allowed} (line : Int) {name} : name ∈ allowed →
      CheckedStatement procedures visible allowed (.raise line name) (.raise line name) visible

inductive CheckedStatements (procedures : Table String Signature) :
    List String → List String → List Node → List Node → List String → Prop where
  | nil {visible allowed} : CheckedStatements procedures visible allowed [] [] visible
  | cons {visible allowed n n' rest rest' visible1 visible2} :
      CheckedStatement procedures visible allowed n n' visible1 →
      CheckedStatements procedures visible1 allowed rest rest' visible2 →
      CheckedStatements procedures visible allowed (n :: rest) (n' :: rest') visible2

inductive CheckedCatches (procedures : Table String Signature) :
    List String → List String → List Node → List Node → List String → Prop where
  | nil {visible allowed} : CheckedCatches procedures visible allowed [] [] visible
  | cons {visible allowed} (line : Int) (name : String) {body body' rest rest' visible1 visible2} :
      CheckedStatement procedures visible allowed body body' visible1 →
      CheckedCatches procedures visible1 allowed rest rest' visible2 →
      CheckedCatches procedures visible allowed (.catch' line name body :: rest)
        (.catch' line name body' :: rest') visible2

end

inductive CheckedDeclaration (procedures : Table String Signature) :
    List String → Node → Node → List String → Prop where
  | varDecl {visible visible'} (line : Int) (type : Node) {inits inits'} :
      CheckedInits procedures visible inits inits' visible' →
      CheckedDeclaration procedures visible (.varDecl line inits type) (.varDecl line inits' type)
        visible'
  | procDecl {visible inner} (line : Int) (blockLine : Int) (result : Node) {name sig params raises
      statements statements'} : procedures.get? name = some sig → params.all Node.isParam = true →
      CheckedStatements procedures (params.flatMap Node.paramNames ++ visible) sig.raises statements
        statements' inner →
      CheckedDeclaration procedures visible
        (.procDecl line name (.block blockLine statements) params result raises)
        (.procDecl line name (.block blockLine statements') params result raises) visible
  | exceptionDecl {visible} (line : Int) (name : String) :
      CheckedDeclaration procedures visible (.exceptionDecl line name) (.exceptionDecl line name)
        visible

inductive CheckedDeclarations (procedures : Table String Signature) :
    List String → List Node → List Node → Prop where
  | nil {visible} : CheckedDeclarations procedures visible [] []
  | cons {visible visible' d d' rest rest'} : CheckedDeclaration procedures visible d d' visible' →
      CheckedDeclarations procedures visible' rest rest' →
      CheckedDeclarations procedures visible (d :: rest) (d' :: rest')

variable {procedures : Table String Signature} {visible : List String}

theorem CheckedExpr.type?_eq (h : CheckedExpr procedures visible n n' t) : n'.type? = some t := by
  cases h <;> rfl

structure Checker.Knows (c : Checker) (procedures : Table String Signature)
    (allowed visible : List String) : Prop where
  procedures : c.procedures = procedures
  allowed : c.scopes.head?.map Scope.exceptions = some allowed
  typed : c.WordTyped
  sees : ∀ x, c.isDeclared x = true → x ∈ visible

variable {allowed : List String}

theorem Checker.Knows.of_scopes (hc : c.Knows procedures allowed visible)
    (hscopes : c'.scopes = c.scopes) (h : Retains c c') : c'.Knows procedures allowed visible := by
  refine ⟨h.procedures.trans hc.procedures,hscopes ▸ hc.allowed,?_,fun x hx => hc.sees x ?_⟩
  · rw [Checker.WordTyped,hscopes]
    exact hc.typed
  · rwa [Checker.isDeclared,Checker.typeOf?,hscopes] at hx

theorem Checker.Knows.checked (hc : c.Knows procedures allowed visible)
    (h : Passes (checkExpr n) c n' raised c') : c'.Knows procedures allowed visible :=
  hc.of_scopes (scopes_of_passes h) (ends_checkExpr n c |>.retained h.run rfl)

mutual

theorem checkedExpr_of_passes {c c' n' raised}
    (hc : c.Knows procedures allowed visible) (n : Node) (hn : n.isExpr = true)
    (h : Passes (checkExpr n) c n' raised c') : ∃ t, CheckedExpr procedures visible n n' t :=
  match n, passes_checkExpr h with
  | .var line a x, .var hx ht => ⟨_,.var line a (hc.sees x (Option.isSome_of_eq_some hx)) ht⟩
  | .number line a (.int n), .number hrange => ⟨"int",.number line a (hrange n rfl)⟩
  | .boolean line a (.str b), .boolean _ => by
    simp only [Node.isExpr,Bool.or_eq_true,decide_eq_true_eq] at hn
    exact ⟨"bool",.boolean line a hn⟩
  | .binary line a x y op, .binary hx hy htypes => by
    simp only [Node.isExpr,Bool.and_eq_true,List.contains_iff_mem] at hn
    obtain ⟨operand,t,htype⟩ := exists_binaryType? hn.1.1
    obtain ⟨rfl,hx',hy'⟩ := htypes operand t htype
    obtain ⟨tx,hcheckedx⟩ := checkedExpr_of_passes hc x hn.1.2 hx
    obtain ⟨ty,hcheckedy⟩ := checkedExpr_of_passes (hc.checked hx) y hn.2 hy
    cases hcheckedx.type?_eq.symm.trans hx'
    cases hcheckedy.type?_eq.symm.trans hy'
    obtain ⟨hop,rfl,rfl⟩ | ⟨hop,rfl,rfl⟩ | ⟨hop,rfl,rfl⟩ :=
      (binaryType?_eq_some_iff hn.1.1).1 htype
    · exact ⟨_,.arithmetic line a hop hcheckedx hcheckedy⟩
    · exact ⟨_,.comparison line a hop hcheckedx hcheckedy⟩
    · exact ⟨_,.logical line a hop hcheckedx hcheckedy⟩
  | .unary line a x op, .unary hx htypes => by
    simp only [Node.isExpr,Bool.and_eq_true,List.contains_iff_mem] at hn
    obtain ⟨tx,hchecked⟩ := checkedExpr_of_passes hc x hn.2 hx
    have hop := hn.1
    simp only [unaryOperators,List.mem_cons,List.not_mem_nil,or_false] at hop
    obtain rfl | rfl | rfl := hop
    · obtain ⟨rfl,hx'⟩ := htypes "int" rfl
      cases hchecked.type?_eq.symm.trans hx'
      exact ⟨_,.minus line a (.inl rfl) hchecked⟩
    · obtain ⟨rfl,hx'⟩ := htypes "int" rfl
      cases hchecked.type?_eq.symm.trans hx'
      exact ⟨_,.minus line a (.inr rfl) hchecked⟩
    · obtain ⟨rfl,hx'⟩ := htypes "bool" rfl
      cases hchecked.type?_eq.symm.trans hx'
      exact ⟨_,.not line a hchecked⟩
  | .call line a name args, .call hargs hname hsig htypes => by
    simp only [Node.isExpr,Bool.and_eq_true] at hn
    exact ⟨_,.call line a hname (hc.procedures ▸ hsig)
      (checkedArgs_of_passes hc args hn.2 hargs htypes)⟩
termination_by structural n

theorem checkedArgs_of_passes {c c' ns' raised inputs}
    (hc : c.Knows procedures allowed visible) (ns : List Node) (hns : Node.areExprs ns = true)
    (h : Passes (checkExprs ns) c ns' raised c') (htypes : ns'.map Node.type? = inputs.map some) :
    CheckedArgs procedures visible ns ns' inputs :=
  match ns, passes_checkExprs h, inputs with
  | [], .nil, [] => .nil
  | e :: rest, .cons he hrest, t :: inputs => by
    simp only [Node.areExprs,Bool.and_eq_true] at hns
    simp only [List.map_cons,List.cons.injEq] at htypes
    obtain ⟨u,hchecked⟩ := checkedExpr_of_passes hc e hns.1 he
    cases hchecked.type?_eq.symm.trans htypes.1
    exact .cons hchecked (checkedArgs_of_passes (hc.checked he) rest hns.2 hrest htypes.2)
termination_by structural ns

end

end BxToolchain.Bx
