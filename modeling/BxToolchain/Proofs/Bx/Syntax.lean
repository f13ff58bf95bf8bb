import BxToolchain.Proofs.Bx.Fragment
import BxToolchain.Proofs.Bx.Lexing
import BxToolchain.Proofs.Bx.Typing

namespace BxToolchain.Bx

open Parse List

variable {c : Char} {rest : List Char} {fuel : Nat} {t : Token} {inits : List Node}
  {first : Option Kind}
variable {kind : Kind} {after text : List Char}

theorem admits_cut (h : cut c rest = (.token kind text,after)) :
    kind.Admits (String.ofList text) := by
  have hfits := (fits_cut c rest).2
  rw [h] at hfits
  exact hfits.1

theorem admits_lexemesUpTo (h : .token kind text ∈ lexemesUpTo fuel cs) :
    kind.Admits (String.ofList text) := by
  induction fuel generalizing cs with
  | zero => cases h
  | succ fuel ih =>
    cases cs with
    | nil => cases h
    | cons c rest =>
      rw [lexemesUpTo,mem_cons] at h
      obtain h | h := h
      · exact admits_cut (Prod.ext h.symm rfl)
      · exact ih h

theorem admits_placeFrom
    (hls : ∀ kind text, .token kind text ∈ ls → kind.Admits (String.ofList text))
    (h : .token t ∈ placeFrom line pos ls) : t.kind.Admits t.text := by
  induction ls generalizing line pos with
  | nil => cases h
  | cons l rest ih =>
    have hrest : ∀ kind text, .token kind text ∈ rest → kind.Admits (String.ofList text) :=
      fun kind text hmem => hls kind text (mem_cons_of_mem l hmem)
    cases l with
    | blank | newline | comment => exact ih hrest h
    | illegal c =>
      obtain h | h := mem_cons.1 h
      · cases h
      · exact ih hrest h
    | token kind text =>
      rw [placeFrom] at h
      split at h
      · simp at h
      · obtain h | h := mem_cons.1 h
        · cases h
          exact hls kind text mem_cons_self
        · exact ih hrest h

def Valid (ts : List Token) : Prop := ∀ t ∈ ts, t.kind.Admits t.text

theorem mem_ofPieces (h : t ∈ (Stream.ofPieces ps).tokens) : .token t ∈ ps := by
  induction ps with
  | nil => cases h
  | cons p rest ih =>
    cases p with
    | overlong n => cases h
    | illegal c line pos => exact mem_cons_of_mem _ (ih h)
    | token u =>
      obtain rfl | h := mem_cons.1 h
      · exact mem_cons_self
      · exact mem_cons_of_mem _ (ih h)

theorem valid_pieces (source : String) : Valid (Stream.ofPieces (pieces source)).tokens :=
  fun _ ht => admits_placeFrom (fun _ _ => admits_lexemesUpTo) (mem_ofPieces ht)

def unaryOperators : List String := ["-","~","!"]

mutual

def Node.isExpr : Node → Bool
  | .var _ _ x => isIdentifier x
  | .number _ _ (.int n) => 0 ≤ n
  | .boolean _ _ (.str b) => b = "true" || b = "false"
  | .binary _ _ a b op => binaryOperators.contains op && a.isExpr && b.isExpr
  | .unary _ _ a op => unaryOperators.contains op && a.isExpr
  | .call _ _ name args => isIdentifier name && Node.areExprs args
  | _ => false

def Node.areExprs : List Node → Bool
  | [] => true
  | e :: rest => e.isExpr && Node.areExprs rest

end

namespace Node

def isType : Node → Bool
  | .ty _ name => name = "int" || name = "bool"
  | _ => false

def areInitializers : List Node → Bool
  | [.varInit x value _] => isIdentifier x && value.isExpr
  | .varInit x value _ :: rest => isIdentifier x && value.isExpr && areInitializers rest
  | _ => false

end Node

theorem forall_of_areInitializers (h : Node.areInitializers inits = true) :
    ∀ n ∈ inits, ∃ x value line, n = .varInit x value line ∧ value.isExpr = true := by
  fun_induction Node.areInitializers inits with
  | case1 x value line =>
    simp only [Bool.and_eq_true] at h
    exact forall_mem_singleton.2 ⟨x,value,line,rfl,h.2⟩
  | case2 x value line rest _ ih =>
    simp only [Bool.and_eq_true] at h
    exact forall_mem_cons.2 ⟨⟨x,value,line,rfl,h.1.2⟩,ih h.2⟩
  | case3 => cases h

theorem isExpr_of_areInitializers (h : Node.areInitializers inits = true)
    (x : String) (value : Node) (line : Int) (hmem : .varInit x value line ∈ inits) :
    value.isExpr = true := by
  obtain ⟨_,_,_,heq,hexpr⟩ := forall_of_areInitializers h _ hmem
  obtain ⟨-,rfl,-⟩ := Node.varInit.inj heq
  exact hexpr

mutual

def Node.isStatement : Node → Bool
  | .varDecl _ inits type => Node.areInitializers inits && type.isType
  | .assign _ x value => isIdentifier x && value.isExpr
  | .eval _ value => value.isExpr
  | .block _ statements => Node.areStatements statements
  | .ifElse _ condition a b =>
    condition.isExpr && (a.isBlock && a.isStatement) && (b.isBranch && b.isStatement)
  | .while' _ condition body => condition.isExpr && (body.isBlock && body.isStatement)
  | .jump _ target => target = "break" || target = "continue"
  | .return' _ .absent => true
  | .return' _ value => value.isExpr
  | .tryExcept _ body catches => (body.isBlock && body.isStatement) && Node.areCatches catches
  | .raise _ name => isIdentifier name
  | _ => false

def Node.areStatements : List Node → Bool
  | [] => true
  | n :: rest => n.isStatement && Node.areStatements rest

def Node.areCatches : List Node → Bool
  | [] => true
  | .catch' _ name body :: rest =>
    isIdentifier name && (body.isBlock && body.isStatement) && Node.areCatches rest
  | _ => false

end

namespace Node

def isParam : Node → Bool
  | .param _ names type => !names.isEmpty && names.all isIdentifier && type.isType
  | _ => false

def isRaises : Node → Bool
  | .raises _ name => isIdentifier name
  | _ => false

def isResult : Node → Bool
  | .absent => true
  | n => n.isType

def isDeclaration : Node → Bool
  | .varDecl _ inits type => areInitializers inits && type.isType
  | .procDecl _ name body params result clause =>
    isIdentifier name && (body.isBlock && body.isStatement) && params.all isParam &&
      result.isResult && clause.all isRaises
  | .exceptionDecl _ name => isIdentifier name
  | _ => false

end Node

def Built {α : Type} (P : α → Prop) : Except (List Token) (α × List Token) → Prop
  | .ok (a,rest) => P a ∧ Valid rest
  | .error rest => Valid rest

def Builds {α : Type} (P : α → Prop) (x : Parse α) : Prop := ∀ ts, Valid ts → Built P (x ts)

def BuildsFrom (first : Option Kind) {α : Type} (P : α → Prop) (x : Parse α) : Prop :=
  ∀ ts, ts.head?.map Token.kind = first → Valid ts → Built P (x ts)

section

variable {P : α → Prop} {Q : β → Prop} {x : Parse α} {f : α → Parse β}

theorem Built.bind (hr : Built P r) (hf : ∀ a, P a → Builds Q (f a)) :
    Built Q (r >>= fun p => f p.1 p.2) := by
  cases r with
  | error rest => exact hr
  | ok p => exact hf p.1 hr.1 p.2 hr.2

theorem Built.mono (hr : Built P r) (h : ∀ a, P a → P' a) : Built P' r := by
  cases r with
  | error rest => exact hr
  | ok p => exact ⟨h p.1 hr.1,hr.2⟩

theorem builds_pure (h : P a) : Builds P (pure a) := fun _ hts => ⟨h,hts⟩

theorem builds_refuse : Builds P refuse := fun _ hts => hts

theorem Builds.bind (hx : Builds P x) (hf : ∀ a, P a → Builds Q (f a)) : Builds Q (x >>= f) :=
  fun ts hts => (hx ts hts).bind hf

theorem Builds.mono (hx : Builds P x) (h : ∀ a, P a → P' a) : Builds P' x :=
  fun ts hts => (hx ts hts).mono h

theorem Builds.from (h : Builds P x) (first : Option Kind) : BuildsFrom first P x :=
  fun ts _ hts => h ts hts

theorem BuildsFrom.bind (hx : BuildsFrom first P x)
    (hf : ∀ a, P a → Builds Q (f a)) : BuildsFrom first Q (x >>= f) :=
  fun ts hfirst hts => (hx ts hfirst hts).bind hf

theorem builds_peek (hg : ∀ first, BuildsFrom first P (g first)) :
    Builds P (peek? >>= g) := fun ts hts => hg _ ts rfl hts

theorem builds_get (hg : ∀ ts, Builds P (g ts)) : Builds P (get >>= g) := fun ts hts => hg ts ts hts

theorem buildsFrom_get (hg : ∀ ts, ts.head?.map Token.kind = first → Valid ts → Built P (g ts ts)) :
    BuildsFrom first P (get >>= g) := hg

end

theorem Valid.tail (h : Valid (t :: ts)) : Valid ts :=
  fun u hu => h u (mem_cons_of_mem t hu)

theorem builds_expect (kind : Kind) :
    Builds (fun t => t.kind = kind ∧ kind.Admits t.text) (expect kind) := by
  intro ts hts
  cases ts with
  | nil => exact hts
  | cons t rest =>
    rw [expect]
    split
    · rename_i hkind
      exact ⟨⟨hkind,hkind ▸ hts t mem_cons_self⟩,hts.tail⟩
    · exact hts

theorem builds_accept (kind : Kind) : Builds (fun _ => True) (accept kind) := by
  intro ts hts
  cases ts with
  | nil => exact ⟨trivial,hts⟩
  | cons t rest =>
    rw [accept]
    split
    · exact ⟨trivial,hts.tail⟩
    · exact ⟨trivial,hts⟩

theorem buildsFrom_next (kind : Kind) :
    BuildsFrom (some kind) (fun t => t.kind = kind ∧ kind.Admits t.text) next := by
  intro ts hfirst hts
  cases ts with
  | nil => cases hfirst
  | cons t rest =>
    have hkind : t.kind = kind := Option.some.inj hfirst
    exact ⟨⟨hkind,hkind ▸ hts t mem_cons_self⟩,hts.tail⟩

theorem Kind.Admits.ident {text} (h : Kind.ident.Admits text) : isIdentifier text = true := by
  obtain h | h | h := h
  · cases h
  · exact h.2
  · cases h

theorem Kind.Admits.spelled {text spelling} (h : kind.Admits text)
    (hspelling : kind.spelling? = some spelling) : text = spelling := by
  obtain h | h | h := h
  · exact Option.some.inj (h.symm.trans hspelling)
  · rw [h.1] at hspelling
    cases hspelling
  · rw [h] at hspelling
    cases hspelling

theorem builds_operand (hoperand : Builds (Node.isExpr · = true) (operand fuel))
    (hexpression : ∀ level, Builds (Node.isExpr · = true) (expression fuel level))
    (harguments : Builds (Node.areExprs · = true) (arguments fuel)) :
    Builds (Node.isExpr · = true) (operand (fuel + 1)) := by
  rw [operand]
  refine builds_peek fun first => ?_
  split
  · refine (buildsFrom_next .minus).bind fun t ht => hoperand.bind fun a ha => builds_pure ?_
    simp [Node.isExpr,ht.2.spelled rfl,ha,unaryOperators]
  · refine (buildsFrom_next .complement).bind fun t ht => hoperand.bind fun a ha => builds_pure ?_
    simp [Node.isExpr,ht.2.spelled rfl,ha,unaryOperators]
  · refine (buildsFrom_next .not).bind fun t ht => hoperand.bind fun a ha => builds_pure ?_
    simp [Node.isExpr,ht.2.spelled rfl,ha,unaryOperators]
  · refine (buildsFrom_next .ident).bind fun t ht => (builds_accept .lparen).bind fun called _ => ?_
    split
    · refine harguments.bind fun args hargs => (builds_expect .rparen).bind fun _ _ => builds_pure ?_
      rw [Node.isExpr,ht.2.ident,hargs]
      rfl
    · exact builds_pure ht.2.ident
  · refine (buildsFrom_next .number).bind fun t _ => builds_pure ?_
    simp [Node.isExpr]
  · refine (buildsFrom_next .true').bind fun t ht => builds_pure ?_
    simp [Node.isExpr,ht.2.spelled rfl]
  · refine (buildsFrom_next .false').bind fun t ht => builds_pure ?_
    simp [Node.isExpr,ht.2.spelled rfl]
  · exact (buildsFrom_next .lparen).bind fun _ _ => (hexpression 0).bind fun e he =>
      (builds_expect .rparen).bind fun _ _ => builds_pure he
  · exact (builds_refuse).from _

theorem binaryOperators_of_level? {text level}
    (hlevel : kind.level? = some level) (h : kind.Admits text) : text ∈ binaryOperators := by
  have hspelled : ∃ spelling, kind.spelling? = some spelling ∧ spelling ∈ binaryOperators := by
    cases kind <;> simp [Kind.level?] at hlevel <;> exact ⟨_,rfl,by decide⟩
  obtain ⟨spelling,hspelling,hmem⟩ := hspelled
  exact h.spelled hspelling ▸ hmem

theorem builds_operators (level : Nat) (hleft : left.isExpr = true)
    (hexpression : ∀ level, Builds (Node.isExpr · = true) (expression fuel level))
    (hoperators : ∀ level left, left.isExpr = true →
      Builds (Node.isExpr · = true) (operators fuel level left)) :
    Builds (Node.isExpr · = true) (operators (fuel + 1) level left) := by
  have hdone : Builds (Node.isExpr · = true) (pure left) := builds_pure hleft
  rw [operators]
  refine builds_peek fun first => ?_
  cases first with
  | none => exact hdone.from _
  | some kind =>
    rw [Option.bind_some]
    split
    · exact hdone.from _
    · rename_i l hl
      split
      · exact hdone.from _
      · refine (buildsFrom_next kind).bind fun t ht => (hexpression (l + 1)).bind fun right hright => ?_
        have hnode : (Node.binary 0 Node.undefined left right t.text).isExpr = true := by
          rw [Node.isExpr,hleft,hright,contains_iff_mem.2 (binaryOperators_of_level? hl ht.2)]
          rfl
        refine builds_peek fun second => Builds.from ?_ second
        split
        · exact (builds_refuse (P := fun _ => True)).bind fun _ _ => hoperators level _ hnode
        · exact hoperators level _ hnode

theorem builds_expressions (fuel : Nat) :
    Builds (Node.isExpr · = true) (operand fuel) ∧
      (∀ level, Builds (Node.isExpr · = true) (expression fuel level)) ∧
      (∀ level left, left.isExpr = true →
        Builds (Node.isExpr · = true) (operators fuel level left)) ∧
      Builds (Node.areExprs · = true) (arguments fuel) := by
  induction fuel with
  | zero =>
    refine ⟨builds_refuse,fun level => ?_,fun level left _ => ?_,builds_refuse⟩
    · rw [expression]
      exact builds_refuse
    · rw [operators]
      exact builds_refuse
  | succ fuel ih =>
    obtain ⟨hoperand,hexpression,hoperators,harguments⟩ := ih
    refine ⟨builds_operand hoperand hexpression harguments,fun level => ?_,fun level left hleft =>
      builds_operators level hleft hexpression hoperators,?_⟩
    · rw [expression]
      exact hoperand.bind fun a ha => hoperators level a ha
    · rw [arguments]
      refine builds_peek fun first => Builds.from ?_ first
      split
      · exact builds_pure rfl
      · refine (hexpression 0).bind fun e he => (builds_accept .comma).bind fun more _ => ?_
        split
        · refine harguments.bind fun rest hrest => builds_pure ?_
          rw [Node.areExprs,he,hrest]
          rfl
        · refine builds_pure ?_
          rw [Node.areExprs,he]
          rfl

theorem builds_expression (fuel level : Nat) :
    Builds (Node.isExpr · = true) (expression fuel level) := (builds_expressions fuel).2.1 level

theorem builds_typeName : Builds (Node.isType · = true) typeName := by
  refine builds_peek fun first => ?_
  split
  · refine (buildsFrom_next .int).bind fun t ht => builds_pure ?_
    simp [Node.isType,ht.2.spelled rfl]
  · refine (buildsFrom_next .bool).bind fun t ht => builds_pure ?_
    simp [Node.isType,ht.2.spelled rfl]
  · exact (builds_refuse).from _

theorem builds_initializers (fuel : Nat) :
    Builds (Node.areInitializers · = true) (initializers fuel) := by
  induction fuel with
  | zero => exact builds_refuse
  | succ fuel ih =>
    rw [initializers]
    refine (builds_expect .ident).bind fun t ht => (builds_expect .equal).bind fun _ _ =>
      (builds_expression fuel 0).bind fun value hvalue => (builds_accept .comma).bind fun more _ => ?_
    split
    · refine ih.bind fun rest hrest => builds_pure ?_
      cases rest with
      | nil => cases hrest
      | cons n others =>
        rw [Node.areInitializers,ht.2.ident,hvalue,hrest]
        · rfl
        · exact cons_ne_nil n others
    · refine builds_pure ?_
      rw [Node.areInitializers,ht.2.ident,hvalue]
      rfl

theorem builds_variableDeclaration (fuel : Nat) :
    Builds (fun n => n.isStatement = true ∧ n.isDeclaration = true) (variableDeclaration fuel) := by
  refine (builds_expect .var).bind fun t _ => (builds_initializers fuel).bind fun inits hinits =>
    (builds_expect .colon).bind fun _ _ => (builds_typeName).bind fun type htype =>
      (builds_expect .semicolon).bind fun _ _ => builds_pure ?_
  simp [Node.isStatement,Node.isDeclaration,hinits,htype]

def Node.IsBody (n : Node) : Prop := (n.isBlock && n.isStatement) = true

structure BuildsStatements (fuel : Nat) : Prop where
  block : Builds Node.IsBody (block fuel)
  statements : Builds (Node.areStatements · = true) (statements fuel)
  statement : Builds (Node.isStatement · = true) (statement fuel)
  evaluation : Builds (Node.isStatement · = true) (evaluation fuel)
  conditional : Builds (fun n => (n.isBranch && n.isStatement) = true) (conditional fuel)
  catches : Builds (Node.areCatches · = true) (catches fuel)

theorem builds_assignment {name : Token} (hname : Kind.ident.Admits name.text) :
    Builds (Node.isStatement · = true) (do
      let value ← expression fuel 0
      let _ ← expect .semicolon
      return .assign name.line name.text value) := by
  refine (builds_expression fuel 0).bind fun value hvalue => (builds_expect .semicolon).bind
    fun _ _ => builds_pure ?_
  rw [Node.isStatement,hname.ident,hvalue]
  rfl

theorem builds_statement (h : BuildsStatements fuel) :
    Builds (Node.isStatement · = true) (statement (fuel + 1)) := by
  rw [statement]
  refine builds_peek fun first => ?_
  split
  · exact ((builds_variableDeclaration fuel).mono fun n hn => hn.1).from _
  · exact (h.block.mono fun n hn => (Bool.and_eq_true_iff.1 hn).2).from _
  · exact (h.conditional.mono fun n hn => (Bool.and_eq_true_iff.1 hn).2).from _
  · refine (buildsFrom_next .while').bind fun t _ => (builds_expect .lparen).bind fun _ _ =>
      (builds_expression fuel 0).bind fun condition hcondition =>
        (builds_expect .rparen).bind fun _ _ => h.block.bind fun body hbody => builds_pure ?_
    rw [Node.isStatement,hcondition,hbody]
    rfl
  · refine (buildsFrom_next .break').bind fun t ht => (builds_expect .semicolon).bind fun _ _ =>
      builds_pure ?_
    simp [Node.isStatement,ht.2.spelled rfl]
  · refine (buildsFrom_next .continue').bind fun t ht => (builds_expect .semicolon).bind fun _ _ =>
      builds_pure ?_
    simp [Node.isStatement,ht.2.spelled rfl]
  · refine (buildsFrom_next .return').bind fun t _ => (builds_accept .semicolon).bind fun bare _ => ?_
    split
    · exact builds_pure (by rw [Node.isStatement])
    · refine (builds_expression fuel 0).bind fun value hvalue =>
        (builds_expect .semicolon).bind fun _ _ => builds_pure ?_
      cases value with
      | absent => cases hvalue
      | _ => simpa only [Node.isStatement] using hvalue
  · refine (buildsFrom_next .raise).bind fun t _ => (builds_expect .ident).bind fun name hname =>
      (builds_expect .semicolon).bind fun _ _ => builds_pure ?_
    rw [Node.isStatement]
    exact hname.2.ident
  · refine (buildsFrom_next .try').bind fun t _ => h.block.bind fun body hbody =>
      h.catches.bind fun catches hcatches => builds_pure ?_
    rw [Node.isStatement,hbody,hcatches]
    rfl
  · refine buildsFrom_get fun ts hfirst hts => ?_
    split
    · rename_i name text line pos rest
      have hkind : name.kind = .ident := Option.some.inj hfirst
      have hname : Kind.ident.Admits name.text := hkind ▸ hts name mem_cons_self
      exact builds_assignment hname rest hts.tail.tail
    · exact h.evaluation ts hts
  · exact h.evaluation.from _

theorem builds_conditional (h : BuildsStatements fuel) :
    Builds (fun n => (n.isBranch && n.isStatement) = true) (conditional (fuel + 1)) := by
  rw [conditional]
  refine (builds_expect .if').bind fun t _ => (builds_expect .lparen).bind fun _ _ =>
    (builds_expression fuel 0).bind fun condition hcondition => (builds_expect .rparen).bind
      fun _ _ => h.block.bind fun yes hyes => (builds_accept .else').bind fun hasElse _ => ?_
  have hnode : ∀ no : Node, (no.isBranch && no.isStatement) = true →
      ((Node.ifElse t.line condition yes no).isBranch &&
        (Node.ifElse t.line condition yes no).isStatement) = true := by
    intro no hno
    rw [Node.isBranch,Node.isStatement,hcondition,hyes,hno]
    rfl
  split
  · refine builds_peek fun first => Builds.from ?_ first
    split
    · exact h.conditional.bind fun no hno => builds_pure (hnode no hno)
    · refine h.block.bind fun no hno => builds_pure (hnode no ?_)
      obtain ⟨hblock,hstatement⟩ := Bool.and_eq_true_iff.1 hno
      rw [Node.isBranch_of_isBlock hblock,hstatement]
      rfl
  · exact builds_pure (hnode _ rfl)

theorem builds_catches (h : BuildsStatements fuel) :
    Builds (Node.areCatches · = true) (catches (fuel + 1)) := by
  rw [catches]
  refine builds_peek fun first => ?_
  split
  · rename_i hfirst
    rw [hfirst]
    refine (buildsFrom_next .except).bind fun t _ => (builds_expect .ident).bind fun name hname =>
      h.block.bind fun body hbody => h.catches.bind fun rest hrest => builds_pure ?_
    rw [Node.areCatches,hname.2.ident,hbody,hrest]
    rfl
  · exact Builds.from (P := fun ns => Node.areCatches ns = true) (builds_pure rfl) first

theorem buildsStatements (fuel : Nat) : BuildsStatements fuel := by
  induction fuel with
  | zero =>
    exact ⟨builds_refuse,builds_refuse,builds_refuse,builds_refuse,builds_refuse,builds_refuse⟩
  | succ fuel ih =>
    refine ⟨?_,?_,builds_statement ih,?_,builds_conditional ih,builds_catches ih⟩
    · rw [block]
      exact (builds_expect .lbrace).bind fun t _ => ih.statements.bind fun ss hss => builds_pure hss
    · rw [statements]
      refine (builds_accept .rbrace).bind fun closed _ => ?_
      split
      · exact builds_pure rfl
      · refine ih.statement.bind fun n hn => ih.statements.bind fun rest hrest => builds_pure ?_
        rw [Node.areStatements,hn,hrest]
        rfl
    · rw [evaluation]
      exact (builds_expression fuel 0).bind fun value hvalue => (builds_expect .semicolon).bind
        fun _ _ => builds_pure hvalue

theorem builds_identifiers (fuel : Nat) :
    Builds (fun names => (!names.isEmpty && names.all isIdentifier) = true) (identifiers fuel) := by
  induction fuel with
  | zero => exact builds_refuse
  | succ fuel ih =>
    rw [identifiers]
    refine (builds_expect .ident).bind fun t ht => (builds_accept .comma).bind fun more _ => ?_
    split
    · refine ih.bind fun rest hrest => builds_pure ?_
      simp_all [ht.2.ident]
    · exact builds_pure (by simp [ht.2.ident])

theorem builds_parameters (fuel : Nat) :
    Builds (fun params => params.all Node.isParam = true) (parameters fuel) := by
  induction fuel with
  | zero => exact builds_refuse
  | succ fuel ih =>
    rw [parameters]
    refine builds_peek fun first => Builds.from ?_ first
    split
    · exact builds_pure rfl
    · refine (builds_identifiers fuel).bind fun names hnames => (builds_expect .colon).bind fun _ _ =>
        (builds_typeName).bind fun type htype => (builds_accept .comma).bind fun more _ => ?_
      have hparam : (Node.param 0 names type).isParam = true := by
        rw [Node.isParam,hnames,htype]
        rfl
      split
      · exact ih.bind fun rest hrest => builds_pure (by rw [all_cons,hparam,hrest]; rfl)
      · exact builds_pure (by rw [all_cons,hparam]; rfl)

theorem builds_raisesNames (fuel : Nat) :
    Builds (fun clause => clause.all Node.isRaises = true) (raisesNames fuel) := by
  induction fuel with
  | zero => exact builds_refuse
  | succ fuel ih =>
    rw [raisesNames]
    refine builds_peek fun first => Builds.from ?_ first
    split
    · exact builds_pure rfl
    · refine (builds_expect .ident).bind fun t ht => (builds_accept .comma).bind fun more _ => ?_
      have hname : (Node.raises t.line t.text).isRaises = true := ht.2.ident
      split
      · exact ih.bind fun rest hrest => builds_pure (by rw [all_cons,hname,hrest]; rfl)
      · exact builds_pure (by rw [all_cons,hname]; rfl)

theorem builds_procedure (fuel : Nat) : Builds (Node.isDeclaration · = true) (procedure fuel) := by
  unfold procedure
  refine (builds_expect .def').bind fun t _ => (builds_expect .ident).bind fun name hname =>
    (builds_expect .lparen).bind fun _ _ => (builds_parameters fuel).bind fun params hparams =>
      (builds_expect .rparen).bind fun _ _ => (builds_accept .colon).bind fun typed _ => ?_
  have hrest : ∀ result : Node, result.isResult = true → Builds (Node.isDeclaration · = true) (do
      let clause ← if ← accept .raises then raisesNames fuel else pure []
      let body ← block fuel
      return .procDecl t.line name.text body params result clause) := by
    intro result hresult
    have hnode : ∀ clause : List Node, clause.all Node.isRaises = true →
        Builds (Node.isDeclaration · = true) (do
          let body ← block fuel
          return .procDecl t.line name.text body params result clause) := by
      intro clause hclause
      refine (buildsStatements fuel).block.bind fun body hbody => builds_pure ?_
      rw [Node.isDeclaration,hname.2.ident,hbody,hparams,hresult,hclause]
      rfl
    refine (builds_accept .raises).bind fun raising _ => ?_
    split
    · exact (builds_raisesNames fuel).bind hnode
    · exact hnode [] rfl
  split
  · refine (builds_typeName).bind fun type htype => hrest type ?_
    cases type <;> simp_all [Node.isType,Node.isResult]
  · exact hrest .absent rfl

theorem builds_declaration (fuel : Nat) :
    Builds (Node.isDeclaration · = true) (declaration fuel) := by
  refine builds_peek fun first => ?_
  split
  · exact ((builds_variableDeclaration fuel).mono fun n hn => hn.2).from _
  · exact (builds_procedure fuel).from _
  · exact (buildsFrom_next .exception).bind fun t _ => (builds_expect .ident).bind fun name hname =>
      (builds_expect .semicolon).bind fun _ _ => builds_pure hname.2.ident
  · exact (builds_refuse).from _

theorem builds_declarations (fuel : Nat) :
    Builds (fun ds => (!ds.isEmpty && ds.all Node.isDeclaration) = true) (declarations fuel) := by
  induction fuel with
  | zero => exact builds_refuse
  | succ fuel ih =>
    rw [declarations]
    refine (builds_declaration fuel).bind fun d hd => builds_get fun us => ?_
    split
    · exact builds_pure (by simp [hd])
    · exact ih.bind fun rest hrest => builds_pure (by simp_all)

def isProgram (declarations : List Node) : Bool :=
  !declarations.isEmpty && declarations.all Node.isDeclaration

theorem isProgram_of_parseFrom (hs : Valid s.tokens)
    (h : Runs (parseFrom fuel silent s) r (some ds) r') : isProgram ds = true := by
  induction fuel generalizing silent s r with
  | zero => cases h
  | succ fuel ih =>
    have hbuilds := builds_declarations (depthBound s.tokens) s.tokens hs
    rw [parseFrom] at h
    split at h
    · rename_i tree rest heq
      obtain ⟨_,_,-,htree⟩ := h.of_bind
      cases htree
      rw [heq] at hbuilds
      exact hbuilds.1
    · obtain ⟨_,_,-,hrest⟩ := h.of_bind
      split at hrest
      · obtain ⟨_,_,-,hnone⟩ := hrest.of_bind
        cases hnone
      · cases hrest
    · rename_i t rest heq
      rw [heq] at hbuilds
      obtain ⟨_,r1,-,hrest⟩ := h.of_bind
      have hvalid : Valid rest := Valid.tail hbuilds
      split at hrest
      · obtain ⟨_,r2,-,hagain⟩ := hrest.of_bind
        exact ih hvalid hagain
      · exact ih hvalid hrest

theorem isProgram_of_parse (h : Runs (parse source) r (some ds) r') : isProgram ds = true :=
  isProgram_of_parseFrom (valid_pieces source) h

end BxToolchain.Bx
