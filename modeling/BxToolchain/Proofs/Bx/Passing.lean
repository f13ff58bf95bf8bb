import BxToolchain.Proofs.Bx.Checking
import BxToolchain.Proofs.Bx.LoweringFrame

namespace BxToolchain.Bx

open List

variable {c c' : Checker} {n n' value : Node} {line : Int} {name type : String}
  {exceptions raised : List String} {params inits ns ns' ds : List Node} {rest : List Scope}
  {P : Node × Raised → Checker → Prop} {S : Prop}

def declareBindings (bindings : List (String × String)) : List Scope → List Scope
  | [] => []
  | scope :: rest => bindings.foldl (fun scope b => scope.declare b.1 b.2) scope :: rest

theorem declareAll_nil (scopes : List Scope) : declareBindings [] scopes = scopes := by
  cases scopes with
  | nil => rfl
  | cons scope rest => rfl

theorem declareBindings_append (bindings more : List (String × String)) (scopes : List Scope) :
    declareBindings (bindings ++ more) scopes =
      declareBindings more (declareBindings bindings scopes) := by
  cases scopes with
  | nil => rfl
  | cons scope rest => simp only [declareBindings,foldl_append]

theorem contains_declare (scope : Scope) (x t y : String) :
    (scope.declare x t).types.contains y = (y == x || scope.types.contains y) := by
  unfold Scope.declare
  split
  · by_cases hy : y = x <;> simp_all
  · exact Table.contains_insert _ _ _ _

theorem contains_foldl_declare (bindings : List (String × String)) (scope : Scope) (y : String) :
    (bindings.foldl (fun scope b => scope.declare b.1 b.2) scope).types.contains y = true ↔
      y ∈ bindings.map Prod.fst ∨ scope.types.contains y = true := by
  induction bindings generalizing scope with
  | nil => simp
  | cons b rest ih =>
    rw [foldl_cons,ih,contains_declare,map_cons,mem_cons,Bool.or_eq_true,beq_iff_eq]
    tauto

structure Adds (names : List String) (c c' : Checker) : Prop where
  scopes : ∃ bindings : List (String × String),
    bindings.map Prod.fst = names ∧ c'.scopes = declareBindings bindings c.scopes
  fresh : ∀ scope rest, c.scopes = scope :: rest → ∀ x ∈ names, scope.types.contains x = false

theorem Adds.of_scopes (h : c'.scopes = c.scopes) : Adds [] c c' :=
  ⟨⟨[],rfl,h.trans (declareAll_nil _).symm⟩,by simp⟩

theorem Adds.scopes_eq (h : Adds [] c c') : c'.scopes = c.scopes := by
  obtain ⟨bindings,hnames,hscopes⟩ := h.scopes
  obtain rfl := map_eq_nil_iff.1 hnames
  exact hscopes.trans (declareAll_nil _)

variable {names : List String}

theorem Adds.trans {more} (h : Adds names c c') (h' : Adds more c' c'') :
    Adds (names ++ more) c c'' := by
  obtain ⟨⟨bindings,hnames,hscopes⟩,hfresh⟩ := h
  obtain ⟨⟨bindings',hnames',hscopes'⟩,hfresh'⟩ := h'
  refine ⟨⟨bindings ++ bindings',by rw [map_append,hnames,hnames'],?_⟩,?_⟩
  · rw [hscopes',hscopes,declareBindings_append]
  · intro scope rest hc x hx
    obtain hx | hx := mem_append.1 hx
    · exact hfresh scope rest hc x hx
    · rw [hc,declareBindings] at hscopes
      have hx' := hfresh' _ _ hscopes x hx
      rw [← Bool.not_eq_true,contains_foldl_declare,not_or,Bool.not_eq_true] at hx'
      exact hx'.2

def Checker.WordTyped (c : Checker) : Prop :=
  ∀ scope ∈ c.scopes, ∀ x t, scope.types.get? x = some t → isWordType t = true

structure Enters (words : Prop) (names : List String) (c c' : Checker) : Prop
    extends Adds names c c' where
  typed : words → c.WordTyped → c'.WordTyped

section

theorem Enters.of_scopes (h : c'.scopes = c.scopes) : Enters words [] c c' :=
  ⟨.of_scopes h,fun _ hc => by rwa [Checker.WordTyped,h]⟩

theorem Enters.trans (h : Enters words names c c') (h' : Enters words' more c' c'')
    (hwords : words → words') : Enters words (names ++ more) c c'' :=
  ⟨h.toAdds.trans h'.toAdds,fun hw hc => h'.typed (hwords hw) (h.typed hw hc)⟩

end

theorem enters_of_declare (hscopes : c.scopes = scope :: rest)
    (hnew : scope.types.contains name = false) (hc' : c'.scopes = scope.declare name type :: rest) :
    Enters (isWordType type = true) [name] c c' := by
  refine ⟨⟨⟨[(name,type)],rfl,by rw [hc',hscopes]; rfl⟩,fun scope' rest' h x hx => ?_⟩,
    fun hword hc scope' hscope' y u hu => ?_⟩
  · obtain ⟨rfl,rfl⟩ := List.cons.inj (hscopes.symm.trans h)
    rw [mem_singleton.1 hx]
    exact hnew
  · rw [Checker.WordTyped,hscopes,forall_mem_cons] at hc
    rw [hc'] at hscope'
    obtain rfl | hmem := mem_cons.1 hscope'
    · rw [Scope.declare,hnew,if_neg Bool.false_ne_true,Table.get?_insert] at hu
      split at hu
      · exact Option.some.inj hu ▸ hword
      · exact hc.1 y u hu
    · exact hc.2 scope' hmem y u hu

theorem ends_declareVariable (name type : String) (c : Checker) :
    Ends id True (declareVariable name type) c (fun _ => True) fun _ c' =>
      Enters (isWordType type = true) [name] c c' := by
  unfold declareVariable
  refine .get ?_
  split
  · rename_i hscopes
    exact .fault rfl trivial fun _ hc => by simpa [hscopes] using hc.scopes
  · rename_i scope rest hscopes
    refine .ite (fun _ => .report rfl trivial) fun hnew => ?_
    exact ⟨prefix_refl _,trivial,fun _ _ => ⟨(),rfl⟩,
      fun _ _ => ⟨by rw [hscopes]; rfl,rfl,rfl,.inl rfl⟩,
      fun _ _ _ => enters_of_declare hscopes (by simpa using hnew) rfl⟩

theorem ends_checkInit (name : String) (value : Node) (line : Int) (type : String) (c : Checker) :
    Ends id (∃ t, value.type? = some t) (checkInit name value line type) c (fun _ => True)
      fun _ c' => value.type? = some type ∧ Enters (isWordType type = true) [name] c c' := by
  unfold checkInit
  split
  · rename_i hnone
    exact .fault rfl trivial fun h _ => by simp [hnone] at h
  · rename_i t ht
    refine .ite (fun _ => .report rfl trivial) fun heq => .get (.ite (fun _ => .report rfl trivial)
      fun _ => ?_)
    exact (ends_declareVariable name type c).mono (fun _ => trivial) fun _ _ h =>
      ⟨by rw [ht,not_not.1 heq],h⟩

theorem ends_declareNames (type : Option String) (names : List String) (c : Checker) :
    Ends id (∃ t, type = some t) (declareNames type names) c (fun _ => True) fun _ c' =>
      Enters (∀ t, type = some t → isWordType t = true) names c c' := by
  induction names generalizing c with
  | nil => exact .pure rfl trivial (.of_scopes rfl)
  | cons name rest ih =>
    unfold declareNames
    split
    · exact .fault rfl trivial fun h _ => by simp at h
    · rename_i t
      exact (ends_declareVariable name t c).after (fun _ => trivial)
        (fun e => ⟨_,e,rfl,rfl,trivial⟩) fun _ c1 _ _ _ => (ih c1).mono id
          fun _ _ hrest _ hfirst => .trans ⟨hfirst.toAdds,fun hw => hfirst.typed (hw t rfl)⟩ hrest id

theorem isWordType_of_isType {type : Node} (h : type.isType = true) :
    ∃ t, type.type? = some t ∧ isWordType t = true := by
  cases type with
  | ty line name => exact ⟨name,rfl,h⟩
  | _ => cases h

theorem ends_declareParams (params : List Node) (c : Checker) :
    Ends id (params.all Node.isParam = true) (declareParams params) c (fun _ => True) fun _ c' =>
      Enters (params.all Node.isParam = true) (params.flatMap Node.paramNames) c c' := by
  fun_induction declareParams params generalizing c with
  | case1 => exact .pure rfl trivial (.of_scopes rfl)
  | case2 line names type rest ih =>
    simp only [all_cons,Node.isParam,Bool.and_eq_true]
    refine (ends_declareNames type.type? names c).after (fun h => ?_)
      (fun e => ⟨_,e,rfl,rfl,trivial⟩) fun _ c1 _ _ _ => ?_
    · obtain ⟨t,ht,-⟩ := isWordType_of_isType h.1.2
      exact ⟨t,ht⟩
    · refine (ih c1).mono (fun hw => hw.2) fun _ _ hrest _ hfirst =>
        .trans ⟨hfirst.toAdds,fun hw => hfirst.typed fun t ht => ?_⟩ hrest fun hw => hw.2
      obtain ⟨u,hu,hword⟩ := isWordType_of_isType hw.1.2
      cases hu.symm.trans ht
      exact hword
  | case3 params h1 h2 =>
    refine .fault rfl trivial fun h _ => ?_
    cases params with
    | nil => exact h1 rfl
    | cons p rest =>
      cases p with
      | param => exact h2 _ _ _ _ rfl
      | _ => simp [Node.isParam] at h

inductive InitsPass (type : Option String) (c : Checker) :
    List Node → List Node × Raised → Checker → Prop where
  | nil : InitsPass type c [] ([],.ok []) c
  | cons {t x value value' line rest rest' r r' c1 c2 c3} : type = some t →
      Passes (checkExpr value) c value' r c1 →
      (checkInit x value' line t).run c1 = (.ok (),c2) → value'.type? = some t →
      Enters (isWordType t = true) [x] c1 c2 → Passes (checkInits type rest) c2 rest' r' c3 →
      InitsPass type c (.varInit x value line :: rest)
        (.varInit x value' line :: rest',.ok (r ++ r')) c3

theorem ends_checkInits (type : Option String) (inits : List Node) (c : Checker) :
    PartEnds ((∃ t, type = some t) ∧
        (∀ n ∈ inits, ∃ x value line, n = .varInit x value line ∧ value.isExpr = true) ∧
        Node.allPrintArguments inits = true)
      (checkInits type inits) c (RetypedAll inits) (InitsPass type c inits) := by
  fun_induction checkInits type inits generalizing c with
  | case1 => exact .pure rfl .nil .nil
  | case2 x value line rest htype =>
    exact .fault rfl (.refl _) fun h _ => by simp [htype] at h
  | case3 x value line rest t htype ih =>
    subst htype
    have hvalue : ∀ h : (∀ n ∈ Node.varInit x value line :: rest,
        ∃ x value line, n = .varInit x value line ∧ value.isExpr = true), value.isExpr = true := by
      intro h
      obtain ⟨_,_,_,hinit,hexpr⟩ := h _ mem_cons_self
      obtain ⟨-,rfl,-⟩ := Node.varInit.inj hinit
      exact hexpr
    simp only [Node.allPrintArguments,Node.printsArguments,Bool.and_eq_true]
    refine (ends_checkExpr value c).andThen (fun h => ⟨hvalue h.2.1,h.2.2.1⟩)
      (fun _ e hv => ⟨_,e,rfl,.cons (.varInit hv) (.refl rest)⟩) fun value' r c1 hv _ => ?_
    refine (ends_checkInit x value' line t c1).step
      (fun h => hv.exists_type (isExpression_of_isExpr _ (hvalue h.2.1)))
      (fun e => ⟨_,e,rfl,.cons (.varInit hv) (.refl rest)⟩) fun _ c2 hinit _ _ => ?_
    exact (ih c2).andThen (fun h => ⟨h.1,(forall_mem_cons.1 h.2.1).2,h.2.2.2⟩)
      (fun _ e hrest => ⟨_,e,rfl,.cons (.varInit hv) hrest⟩) fun rest' r' c3 hrest _ =>
        .pure rfl (.cons (.varInit hv) hrest) fun hpass _ hdeclared hpassv =>
          .cons rfl hpassv hinit hdeclared.1 hdeclared.2 hpass
  | case4 n rest h =>
    refine .fault rfl (.refl _) fun hS _ => ?_
    obtain ⟨x,value,line,rfl,-⟩ := hS.2.1 n mem_cons_self
    exact h _ _ _ rfl

def Checker.push (c : Checker) : Checker := { c with scopes := {} :: c.scopes }

def Checker.pop (c : Checker) : Checker := { c with scopes := c.scopes.drop 1 }

def Checker.allow (c : Checker) (exceptions : List String) : Checker :=
  match c.scopes with
  | inner :: outer :: rest =>
    { c with scopes :=
      { inner with exceptions := union exceptions outer.exceptions } :: outer :: rest }
  | _ => c

theorem ends_inScope {S1 : Prop} {body : Check (α × Raised)} {start : α} {K : α → Prop}
    {P : α × Raised → Checker → Prop} {P1 : Checker → α × Raised → Checker → Prop}
    (hbody : ∀ c1, PartEnds S1 body c1 K (P1 c1))
    (hS : S → params.all Node.isParam = true ∧ S1) (hk : K start)
    (hp : ∀ a r c1 c2, (declareParams params).run c.push = (.ok (),c1) →
      Enters (params.all Node.isParam = true) (params.flatMap Node.paramNames) c.push c1 →
      Passes body (c1.allow exceptions) a r c2 → P (a,.ok r) c2.pop) :
    PartEnds S (inScope params exceptions start body) c K P := by
  have hparams := ends_declareParams params c.push
  rcases hrun : (declareParams params).run c.push with ⟨declared,c1⟩
  rw [Ends,hrun] at hparams
  have hsound : c.Sound → c.push.Sound := fun hc => ⟨Nat.succ_pos _,hc.current⟩
  have hopened : ∀ f : Except Fault Unit → Check (α × Raised),
      (modify (fun c => { c with scopes := {} :: c.scopes }) >>= fun _ =>
        declareParams params >>= f).run c = (f declared).run c1 := fun f => run_bind_of (f := f) hrun
  rw [PartEnds,Ends,inScope,hopened]
  cases declared with
  | error e =>
    refine .failed hparams.grows hk rfl fun h hc => ?_
    obtain ⟨r,hr⟩ := hparams.sound (hS h).1 (hsound hc)
    cases hr
  | ok u =>
    have hopen := hparams.retains _ rfl
    dsimp only
    rw [run_get_bind]
    split
    · rename_i inner outer rest hscopes
      have hallow : c1.allow exceptions = { c1 with
          scopes := { inner with exceptions := union exceptions outer.exceptions } :: outer :: rest } := by
        rw [Checker.allow,hscopes]
      have hends := hbody (c1.allow exceptions)
      rcases hrun' : body.run (c1.allow exceptions) with ⟨⟨a,r⟩,c2⟩
      rw [PartEnds,Ends,hrun'] at hends
      have hinner : ∀ f : α × Raised → Check (α × Raised),
          (modify (fun c => { c with
            scopes := { inner with exceptions := union exceptions outer.exceptions } :: outer :: rest }) >>=
            fun _ => body >>= f).run c1 = (f (a,r)).run c2 := by
        intro f
        rw [hallow] at hrun'
        exact run_bind_of (f := f) hrun'
      rw [hinner]
      have hallowed : Retains c1 (c1.allow exceptions) := by
        rw [hallow]
        exact ⟨by rw [hscopes]; rfl,rfl,rfl,.inl rfl⟩
      have hreports : (c1.allow exceptions).reporter = c1.reporter := by rw [hallow]
      have hgrows : Grows c1 c2 := by
        rw [Grows,← hreports]
        exact hends.grows
      cases r with
      | error e =>
        refine .failed (hparams.grows.trans hgrows) hends.keeps rfl fun h hc => ?_
        obtain ⟨r,hr⟩ := hends.sound (hS h).2 ((hsound hc).retained (hopen.trans hallowed))
        cases hr
      | ok r =>
        have hbodies := (hopen.trans hallowed).trans (hends.retains r rfl)
        refine ⟨hparams.grows.trans hgrows,hends.keeps,fun _ _ => ⟨r,rfl⟩,fun _ _ => ⟨?_,
          hbodies.procedures,hbodies.functions,hbodies.current⟩,fun _ _ hsilent => ?_⟩
        · change (c2.scopes.drop 1).length = c.scopes.length
          rw [length_drop,hbodies.depth]
          rfl
        · obtain ⟨hc1,hc2⟩ := Grows.silent_of_trans hparams.grows hgrows hsilent
          exact hp a r c1 c2 hrun (hparams.passes _ rfl hc1) ⟨hrun',hreports ▸ hc2⟩
    · rename_i hshort
      refine .failed hparams.grows hk rfl fun _ hc => ?_
      have hdepth : c1.scopes.length = c.scopes.length + 1 := hopen.depth.trans length_cons
      have hpos := hc.scopes
      rcases hscopes : c1.scopes with _ | ⟨inner,_ | ⟨outer,rest⟩⟩
      · simp [hscopes] at hdepth
      · simp only [hscopes,length_cons,length_nil] at hdepth
        omega
      · exact (hshort inner outer rest hscopes).elim

theorem ends_noBlock (hS : ¬S) :
    PartEnds S (inScope params exceptions n (pure (n,.error .missingPart))) c (Retyped n) P := by
  have hbody : ∀ c, PartEnds False (pure (n,(.error .missingPart : Raised))) c (Retyped n)
      fun _ _ => False := fun _ => .fault rfl (.refl n) fun h _ => h
  exact ends_inScope hbody (fun h => (hS h).elim) (.refl n) fun _ _ _ _ _ _ hpass => by
    cases hpass.run

section

theorem ends_checkReturn (hk : K (.return' line value))
    (hp : P (.return' line value,.ok raised) c) :
    PartEnds S (checkReturn line value found raised) c K P := by
  unfold checkReturn
  refine .get ?_
  split
  · exact .pure rfl hk hp
  · rename_i name hname
    split
    · rename_i hnone
      exact .fault rfl hk fun _ hc => by simpa [Table.contains,hnone] using hc.current name hname
    · exact .ite (fun _ => .report rfl hk) fun _ => .pure rfl hk hp

theorem ends_checkAssign (hS : S → ∃ t, value.type? = some t) (hk : K (.assign line name value))
    (hp : value.type? = some ((c.typeOf? name).getD "") → P (.assign line name value,.ok raised) c) :
    PartEnds S (checkAssign line name value raised) c K P := by
  unfold checkAssign
  split
  · rename_i hnone
    exact .fault rfl hk fun h _ => by simpa [hnone] using hS h
  · rename_i t ht
    exact .get (.ite (fun _ => .report rfl hk) fun heq => .pure rfl hk (hp (by rw [ht,not_not.1 heq])))

theorem ends_afterCondition {condition : Node} {stop : Node → Node}
    {f : Node → List String → Check (Node × Raised)}
    (hS : S → condition.isExpr = true ∧ condition.printsArguments = true)
    (hk : ∀ n, Retyped condition n → K (stop n))
    (hf : ∀ n r c1, Retyped condition n → Retains c c1 → PartEnds S (f n r) c1 K fun n' c' =>
      n.type? = some "bool" → Passes (checkExpr condition) c n r c1 → P n' c') :
    PartEnds S (do
      match ← checkExpr condition with
      | (n,.error e) => return (stop n,.error e)
      | (n,.ok r) =>
        match ← checkCondition line n with
        | .error e => return (stop n,.error e)
        | .ok false => return (stop n,.ok r)
        | .ok true => f n r) c K P := by
  refine (ends_checkExpr condition c).andThen hS (fun _ e h => ⟨_,e,rfl,hk _ h⟩)
    fun n r c1 h hretains => ?_
  unfold checkCondition
  dsimp only
  split
  · rename_i hnone
    refine .fault rfl (hk _ h) fun h' _ => ?_
    obtain ⟨t,ht⟩ := h.exists_type (isExpression_of_isExpr _ (hS h').1)
    cases hnone.symm.trans ht
  · rename_i t ht
    by_cases hbool : t = "bool"
    · rw [if_pos hbool]
      exact (hf n r c1 h hretains).mono id fun _ _ hpass => hpass (hbool ▸ ht)
    · rw [if_neg hbool]
      have hreport : ∀ reason, PartEnds S (report reason line >>= fun _ => pure (stop n,.ok r)) c1 K
          fun n' c' => Passes (checkExpr condition) c n r c1 → P n' c' :=
        fun _ => .report rfl (hk _ h)
      exact hreport _

end

theorem scopes_of_passes (h : Passes (checkExpr n) c n' raised c') : c'.scopes = c.scopes := by
  have honly := onlyReports_checkExpr n c
  rw [h.run] at honly
  obtain ⟨reports,rfl⟩ := honly
  rfl

theorem ends_allowed? (hnone : f none = pure (n,.error e)) (hk : K n)
    (hsome : ∀ allowed, allowed?.run c = (some allowed,c) → PartEnds S (f (some allowed)) c K P) :
    PartEnds S (allowed? >>= f) c K P := by
  have hrun : allowed?.run c = (c.scopes.head?.map Scope.exceptions,c) := rfl
  rw [PartEnds,Ends,run_bind_of hrun]
  cases hallowed : c.scopes.head?.map Scope.exceptions with
  | none =>
    rw [hnone]
    refine Ends.fault rfl hk fun _ hc => ?_
    have hscopes := hc.scopes
    rw [head?_eq_none_iff.1 (Option.map_eq_none_iff.1 hallowed)] at hscopes
    cases hscopes
  | some allowed => exact hsome allowed (hallowed ▸ hrun)

inductive BlockPasses (exceptions : List String) (c : Checker) :
    Node → Node × Raised → Checker → Prop where
  | block {line ns ns' r c1} : Passes (checkStatements ns) (c.push.allow exceptions) ns' r c1 →
      BlockPasses exceptions c (.block line ns) (.block line ns',.ok r) c1.pop

inductive StatementPasses (c : Checker) : Node → Node × Raised → Checker → Prop where
  | varDecl {line inits inits' type r c'} : Passes (checkInits type.type? inits) c inits' r c' →
      StatementPasses c (.varDecl line inits type) (.varDecl line inits' type,.ok r) c'
  | block {line ns ns' r c1} : Passes (checkStatements ns) (c.push.allow []) ns' r c1 →
      StatementPasses c (.block line ns) (.block line ns',.ok r) c1.pop
  | assign {line x value value' r c'} : c.isDeclared x = true →
      Passes (checkExpr value) c value' r c' → value'.type? = c.typeOf? x →
      StatementPasses c (.assign line x value) (.assign line x value',.ok r) c'
  | eval {line value value' r c'} : Passes (checkExpr value) c value' r c' →
      StatementPasses c (.eval line value) (.eval line value',.ok r) c'
  | ifElse {line condition condition' a a' b b' r ra rb c1 c2 c3} :
      Passes (checkExpr condition) c condition' r c1 → condition'.type? = some "bool" →
      Passes (checkStatement a) c1 a' ra c2 → Passes (checkStatement b) c2 b' rb c3 →
      StatementPasses c (.ifElse line condition a b)
        (.ifElse line condition' a' b',.ok (r ++ ra ++ rb)) c3
  | loop {line condition condition' body body' r rb c1 c2} :
      Passes (checkExpr condition) c condition' r c1 → condition'.type? = some "bool" →
      Passes (checkStatement body) c1 body' rb c2 →
      StatementPasses c (.while' line condition body) (.while' line condition' body',.ok (r ++ rb)) c2
  | jump {line target} : StatementPasses c (.jump line target) (.jump line target,.ok []) c
  | bareReturn {line : Int} :
      StatementPasses c (.return' line .absent) (.return' line .absent,.ok []) c
  | return {line value value' r c'} : Passes (checkExpr value) c value' r c' →
      StatementPasses c (.return' line value) (.return' line value',.ok r) c'
  | raise {line name allowed} : allowed?.run c = (some allowed,c) → name ∈ allowed →
      StatementPasses c (.raise line name) (.raise line name,.ok [name]) c
  | catch {line name allowed block block' r c'} : allowed?.run c = (some allowed,c) →
      Passes (checkBlock allowed block) c block' r c' →
      StatementPasses c (.catch' line name block) (.catch' line name block',.ok r) c'
  | tryExcept {line allowed block block' catches catches' r r' c1 c2} :
      allowed?.run c = (some allowed,c) →
      Passes (checkBlock (union allowed (catches.filterMap Node.name?)) block) c block' r c1 →
      Passes (checkCatches line r catches) c1 catches' r' c2 →
      StatementPasses c (.tryExcept line block catches) (.tryExcept line block' catches',.ok r') c2

inductive StatementsPass (c : Checker) : List Node → List Node × Raised → Checker → Prop where
  | nil : StatementsPass c [] ([],.ok []) c
  | cons {n n' rest rest' r r' c1 c2} : Passes (checkStatement n) c n' r c1 →
      Passes (checkStatements rest) c1 rest' r' c2 →
      StatementsPass c (n :: rest) (n' :: rest',.ok (r ++ r')) c2

inductive CatchesPass (line : Int) (raised : List String) (c : Checker) :
    List Node → List Node × Raised → Checker → Prop where
  | nil : CatchesPass line raised c [] ([],.ok []) c
  | cons {name n n' rest rest' r r' c1 c2} : n.name? = some name →
      Passes (checkStatement n) c n' r c1 → Passes (checkCatches line raised rest) c1 rest' r' c2 →
      CatchesPass line raised c (n :: rest) (n' :: rest',.ok (r ++ r')) c2

def Node.isClause : Node → Bool
  | .catch' _ _ body => body.isBlock && body.isStatement
  | _ => false

def Node.Checkable (n : Node) : Prop :=
  (n.isStatement = true ∨ n.isClause = true) ∧ n.printsArguments = true

theorem caughtTwice?_of_areCatches {catches} (h : Node.areCatches catches = true)
    (seen : List String) : ∃ r, caughtTwice? seen catches = .ok r := by
  induction catches generalizing seen with
  | nil => exact ⟨_,rfl⟩
  | cons n rest ih =>
    cases n with
    | catch' line name body =>
      simp only [Node.areCatches,Bool.and_eq_true] at h
      simp only [caughtTwice?,Node.name?]
      split
      · exact ⟨_,rfl⟩
      · exact ih h.2 _
    | _ => simp [Node.areCatches] at h

section

variable (h : ∀ c, PartEnds (Node.areStatements ns = true ∧ Node.allPrintArguments ns = true)
  (checkStatements ns) c (RetypedAll ns) (StatementsPass c ns))
include h

theorem ends_scope
    (hS : S → params.all Node.isParam = true ∧ Node.areStatements ns = true ∧
      Node.allPrintArguments ns = true)
    (hp : ∀ ns' r c1 c2, (declareParams params).run c.push = (.ok (),c1) →
      Enters (params.all Node.isParam = true) (params.flatMap Node.paramNames) c.push c1 →
      Passes (checkStatements ns) (c1.allow exceptions) ns' r c2 → P (.block line ns',.ok r) c2.pop) :
    PartEnds S (inScope params exceptions ns (checkStatements ns) >>= fun s =>
      pure (Node.block line s.1,s.2)) c (Retyped (.block line ns)) P :=
  (ends_inScope (P := fun s => P (.block line s.1,s.2)) h hS (.refl ns) hp).map id (fun _ => .block)
    fun _ _ _ _ => id

theorem ends_block
    (hS : S → Node.areStatements ns = true ∧ Node.allPrintArguments ns = true) :
    PartEnds S (inScope [] exceptions ns (checkStatements ns) >>= fun s =>
      pure (Node.block line s.1,s.2)) c (Retyped (.block line ns))
      (BlockPasses exceptions c (.block line ns)) := by
  refine ends_scope h (fun h => ⟨rfl,hS h⟩) fun ns' r c1 c2 hparams _ hpass => ?_
  obtain ⟨-,rfl⟩ := Prod.mk.inj hparams
  exact .block hpass

end

theorem ends_checkStatement_and_others :
    (∀ n c, PartEnds n.Checkable (checkStatement n) c (Retyped n) (StatementPasses c n)) ∧
    (∀ line raised ns c, PartEnds (Node.areCatches ns = true ∧ Node.allPrintArguments ns = true)
      (checkCatches line raised ns) c (RetypedAll ns) (CatchesPass line raised c ns)) ∧
    (∀ exceptions n c, PartEnds (n.isBlock = true ∧ n.isStatement = true ∧ n.printsArguments = true)
      (checkBlock exceptions n) c (Retyped n) (BlockPasses exceptions c n)) ∧
    ∀ ns c, PartEnds (Node.areStatements ns = true ∧ Node.allPrintArguments ns = true)
      (checkStatements ns) c (RetypedAll ns) (StatementsPass c ns) := by
  refine checkStatement.mutual_induct _ _ _ _
    ?varDecl ?block ?assign ?eval ?ifElse ?loop ?jump ?returns ?raise ?catches ?tryFault ?tryTwice
    ?tryExcept ?other ?isBlock ?noBlock ?catchNil ?catchNone ?catchIdle ?catchCons ?nil ?cons <;>
    intros <;> simp only [checkStatement,checkBlock,checkCatches,checkStatements,Node.Checkable,
      Node.isStatement,Node.areStatements,Node.isClause,Node.printsArguments,
      Node.allPrintArguments,Bool.and_eq_true,Bool.false_eq_true,or_false, *]
  case varDecl c =>
    refine (ends_checkInits _ _ c).map (g := (Node.varDecl _ · _)) (fun h => ?_) (fun _ => .varDecl)
      fun _ _ _ h _ => .varDecl h
    obtain ⟨t,ht,-⟩ := isWordType_of_isType h.1.2
    exact ⟨⟨t,ht⟩,forall_of_areInitializers h.1.1,h.2⟩
  case block ih c => exact (ends_block ih id).mono id fun (_,_) _ (.block h) => .block h
  case assign line name value c =>
    refine .get (.ite (fun _ => .report rfl (.refl _)) fun hdeclared => ?_)
    refine (ends_checkExpr value c).andThen (fun h => ⟨h.1.2,h.2⟩)
      (fun _ e hv => ⟨_,e,rfl,.assign hv⟩) fun value' r c1 hv _ =>
        ends_checkAssign (fun h => hv.exists_type (isExpression_of_isExpr _ h.1.2)) (.assign hv)
          fun htype hpass => ?_
    obtain ⟨u,hu⟩ := Option.isSome_iff_exists.1 (show c.isDeclared name = true by simpa using hdeclared)
    rw [Checker.typeOf?,scopes_of_passes hpass,← Checker.typeOf?,hu] at htype
    exact .assign (by simp [Checker.isDeclared,hu]) hpass (htype.trans hu.symm)
  case eval value c =>
    exact (ends_checkExpr value c).map (g := Node.eval _) id (fun _ => .eval) fun _ _ _ h _ => .eval h
  case ifElse a b iha ihb c =>
    exact ends_afterCondition (fun h => ⟨h.1.1.1,h.2.1.1⟩)
      (fun _ hc => .ifElse hc (.refl a) (.refl b)) fun condition' r c1 hc _ =>
        (iha c1).andThen (fun h => ⟨.inl h.1.1.2.2,h.2.1.2⟩)
          (fun _ e ha => ⟨_,e,rfl,.ifElse hc ha (.refl b)⟩) fun a' ra c2 ha _ =>
          (ihb c2).andThen (fun h => ⟨.inl h.1.2.2,h.2.2⟩)
            (fun _ e hb => ⟨_,e,rfl,.ifElse hc ha hb⟩) fun b' rb c3 hb _ =>
              .pure rfl (.ifElse hc ha hb) fun hpassb hpassa hbool hpass =>
                .ifElse hpass hbool hpassa hpassb
  case loop body ih c =>
    refine ends_afterCondition (fun h => ⟨h.1.1,h.2.1⟩) (fun _ hc => .loop hc (.refl body))
      fun condition' r c1 hc _ => .get (.ite
        (fun hempty => .fault rfl (.loop hc (.refl body)) fun _ h => ?_)
        fun _ => (ih c1).andThen (fun h => ⟨.inl h.1.2.2,h.2.2⟩)
          (fun _ e hbody => ⟨_,e,rfl,.loop hc hbody⟩) fun body' rb c2 hbody _ =>
            .pure rfl (.loop hc hbody) fun hpassbody hbool hpass => .loop hpass hbool hpassbody)
    have hscopes := h.scopes
    rw [List.isEmpty_iff.1 hempty] at hscopes
    cases hscopes
  case jump => exact .pure rfl (.refl _) .jump
  case returns value c =>
    refine .get (.ite (fun _ => .report rfl (.refl _)) fun _ => ?_)
    split
    · exact ends_checkReturn (.refl _) .bareReturn
    · simp only [Node.isStatement]
      refine (ends_checkExpr value c).andThen id
        (fun _ e hv => ⟨_,e,rfl,.return hv⟩) fun value' r c1 hv _ => ?_
      dsimp only
      split
      · rename_i hnone
        refine .fault rfl (.return hv) fun h _ => ?_
        obtain ⟨t,ht⟩ := hv.exists_type (isExpression_of_isExpr _ h.1)
        cases hnone.symm.trans ht
      · exact ends_checkReturn (.return hv) .return
  case raise =>
    rw [checkRaise]
    refine .get (.ite (fun _ => .report rfl (.refl _)) fun _ =>
      ends_allowed? rfl (.refl _) fun allowed hallowed =>
        .ite (fun _ => .report rfl (.refl _)) fun hname => .pure rfl (.refl _) (.raise hallowed ?_))
    simpa using hname
  case catches ih c =>
    refine .get (.ite (fun _ => .report rfl (.refl _)) fun _ =>
      ends_allowed? rfl (.refl _) fun allowed hallowed =>
        (ih allowed c).map (g := Node.catch' _ _) (fun h => ?_) (fun _ => .catch)
          fun _ _ _ hpass _ => .catch hallowed hpass)
    simpa [and_assoc] using h
  case tryFault h c =>
    refine .fault rfl (.refl _) fun hn _ => ?_
    obtain ⟨r,hr⟩ := caughtTwice?_of_areCatches hn.1.2 []
    cases h.symm.trans hr
  case tryTwice => exact .report rfl (.refl _)
  case tryExcept catches h ihblock ihcatches c =>
    exact ends_allowed? rfl (.refl _) fun allowed hallowed =>
      (ihblock allowed c).andThen (fun h => ⟨h.1.1.1,h.1.1.2,h.2.1⟩)
        (fun _ e hblock => ⟨_,e,rfl,.tryExcept hblock (.refl catches)⟩) fun block' r c1 hblock _ =>
        (ihcatches r c1).map (g := Node.tryExcept _ block') (fun h => ⟨h.1.2,h.2.2⟩)
          (fun _ => .tryExcept hblock) fun _ _ _ hpass _ hpassblock =>
            .tryExcept hallowed hpassblock hpass
  case other n h1 h2 h3 h4 h5 h6 h7 h8 h9 h10 h11 c =>
    refine ends_unidentified (fun h => ?_) (.refl n)
    cases n with
    | varDecl => exact h1 _ _ _ rfl
    | block => exact h2 _ _ rfl
    | assign => exact h3 _ _ _ rfl
    | eval => exact h4 _ _ rfl
    | ifElse => exact h5 _ _ _ _ rfl
    | while' => exact h6 _ _ _ rfl
    | jump => exact h7 _ _ rfl
    | return' => exact h8 _ _ rfl
    | raise => exact h9 _ _ rfl
    | catch' => exact h10 _ _ _ rfl
    | tryExcept => exact h11 _ _ _ rfl
    | _ => simp [Node.isStatement] at h
  case isBlock ih c => exact ends_block ih fun h => h.2
  case noBlock n h c =>
    refine ends_noBlock fun hS => ?_
    cases n with
    | block => exact h _ _ rfl
    | _ => cases hS.1
  case catchNil | nil => exact .pure rfl .nil .nil
  case catchNone n rest h c =>
    refine .fault rfl (.refl _) fun hS _ => ?_
    cases n with
    | catch' => cases h
    | _ => simp [Node.areCatches] at hS
  case catchIdle => exact .report rfl (.refl _)
  case catchCons n rest name h hraised ihn ihrest c =>
    have hshape : ∀ hS : Node.areCatches (n :: rest) = true ∧ n.printsArguments = true ∧
        Node.allPrintArguments rest = true,
        n.Checkable ∧ Node.areCatches rest = true ∧ Node.allPrintArguments rest = true := by
      intro hS
      cases n with
      | catch' =>
        simp only [Node.areCatches,Bool.and_eq_true] at hS
        exact ⟨⟨.inr (by simpa [Node.isClause] using hS.1.1.2),hS.2.1⟩,hS.1.2,hS.2.2⟩
      | _ => simp [Node.areCatches] at hS
    exact (ihn c).andThen (fun h => (hshape h).1) (fun _ e hn => ⟨_,e,rfl,.cons hn (.refl rest)⟩)
      fun n' r c1 hn _ => (ihrest c1).andThen (fun h => (hshape h).2)
        (fun _ e hrest => ⟨_,e,rfl,.cons hn hrest⟩) fun rest' r' c2 hrest _ =>
          .pure rfl (.cons hn hrest) fun hpass hpassn => .cons h hpassn hpass
  case cons n rest ihn ihrest c =>
    exact (ihn c).andThen (fun h => ⟨.inl h.1.1,h.2.1⟩)
      (fun _ e hn => ⟨_,e,rfl,.cons hn (.refl rest)⟩) fun n' r c1 hn _ =>
      (ihrest c1).andThen (fun h => ⟨h.1.2,h.2.2⟩) (fun _ e hrest => ⟨_,e,rfl,.cons hn hrest⟩)
        fun rest' r' c2 hrest _ => .pure rfl (.cons hn hrest) fun hpass hpassn => .cons hpassn hpass

theorem passes_checkInits {type inits'} (h : Passes (checkInits type inits) c inits' raised c') :
    InitsPass type c inits (inits',.ok raised) c' :=
  h.of_ends (ends_checkInits type inits c)

theorem passes_checkStatement (h : Passes (checkStatement n) c n' raised c') :
    StatementPasses c n (n',.ok raised) c' :=
  h.of_ends (ends_checkStatement_and_others.1 n c)

theorem passes_checkCatches (h : Passes (checkCatches line caught ns) c ns' raised c') :
    CatchesPass line caught c ns (ns',.ok raised) c' :=
  h.of_ends (ends_checkStatement_and_others.2.1 line caught ns c)

theorem passes_checkBlock (h : Passes (checkBlock exceptions n) c n' raised c') :
    BlockPasses exceptions c n (n',.ok raised) c' :=
  h.of_ends (ends_checkStatement_and_others.2.2.1 exceptions n c)

theorem passes_checkStatements (h : Passes (checkStatements ns) c ns' raised c') :
    StatementsPass c ns (ns',.ok raised) c' :=
  h.of_ends (ends_checkStatement_and_others.2.2.2 ns c)

theorem adds_of_checkInits {type inits'}
    (h : Passes (checkInits type inits) c inits' raised c') : Adds (initNames inits') c c' := by
  induction inits generalizing inits' c raised with
  | nil =>
    cases passes_checkInits h
    exact .of_scopes rfl
  | cons n rest ih =>
    cases passes_checkInits h with
    | cons _ hvalue _ _ hinit hrest =>
      exact (Adds.of_scopes (scopes_of_passes hvalue)).trans (hinit.toAdds.trans (ih hrest))

theorem scopes_allow (exceptions : List String) (h : c.scopes = scope :: rest) :
    ∃ inner, (c.allow exceptions).scopes = inner :: rest ∧ inner.types = scope.types := by
  unfold Checker.allow
  cases rest with
  | nil => simp [h]
  | cons outer rest => simp [h]

theorem adds_of_scope (h : Adds names (c.push.allow exceptions) c') : Adds [] c c'.pop := by
  obtain ⟨bindings,-,hscopes⟩ := h.scopes
  obtain ⟨inner',hinner,-⟩ := scopes_allow (c := c.push) exceptions rfl
  refine .of_scopes ?_
  rw [Checker.pop,hscopes,hinner]
  rfl

theorem newNames_of_named (hname : n.name? = some name)
    (h : StatementPasses c n (n',.ok raised) c') :
    n'.newNames = [] ∧ ∀ rest, Node.newNamesOfCatches rest = [] →
      Node.newNamesOfCatches (n' :: rest) = [] := by
  cases h with
  | «catch» _ hblock =>
    cases passes_checkBlock hblock
    exact ⟨rfl,fun _ => id⟩
  | assign | raise => exact ⟨rfl,fun _ _ => rfl⟩
  | _ => cases hname

mutual

theorem adds_of_checkStatement {c c' n' raised} (n : Node)
    (h : Passes (checkStatement n) c n' raised c') : Adds n'.newNames c c' :=
  match n, passes_checkStatement h with
  | .varDecl .., .varDecl hinits => adds_of_checkInits hinits
  | .block _ ns, .block hns => adds_of_scope (adds_of_checkStatements ns hns)
  | .assign .., .assign _ hvalue _ | .eval .., .eval hvalue => .of_scopes (scopes_of_passes hvalue)
  | .ifElse _ _ a b, .ifElse hcondition _ ha hb =>
    (Adds.of_scopes (scopes_of_passes hcondition)).trans
      ((adds_of_checkStatement a ha).trans (adds_of_checkStatement b hb))
  | .while' _ _ body, .loop hcondition _ hbody =>
    (Adds.of_scopes (scopes_of_passes hcondition)).trans (adds_of_checkStatement body hbody)
  | .jump .., .jump | .return' .., .bareReturn | .raise .., .raise _ _ => .of_scopes rfl
  | .return' .., .return hvalue => .of_scopes (scopes_of_passes hvalue)
  | .catch' _ _ block, .catch _ hblock => (adds_of_checkBlock block hblock).1
  | .tryExcept _ block catches, .tryExcept _ hblock hcatches => by
    obtain ⟨hadds,hnames⟩ := adds_of_checkBlock block hblock
    obtain ⟨hadds',hnames'⟩ := adds_of_checkCatches catches hcatches
    rw [Node.newNames,hnames,hnames']
    exact hadds.trans hadds'
termination_by structural n

theorem adds_of_checkCatches {c c' line caught raised ns'} (ns : List Node)
    (h : Passes (checkCatches line caught ns) c ns' raised c') :
    Adds [] c c' ∧ Node.newNamesOfCatches ns' = [] :=
  match ns, passes_checkCatches h with
  | [], .nil => ⟨.of_scopes rfl,rfl⟩
  | n :: rest, .cons hname hn hrest => by
    obtain ⟨hnames,hcatches⟩ := newNames_of_named hname (passes_checkStatement hn)
    obtain ⟨hadds,hrest⟩ := adds_of_checkCatches rest hrest
    exact ⟨(hnames ▸ adds_of_checkStatement n hn).trans hadds,hcatches _ hrest⟩
termination_by structural ns

theorem adds_of_checkBlock {c c' n' exceptions raised} (n : Node)
    (h : Passes (checkBlock exceptions n) c n' raised c') : Adds [] c c' ∧ n'.newNames = [] :=
  match n, passes_checkBlock h with
  | .block _ ns, .block hns => ⟨adds_of_scope (adds_of_checkStatements ns hns),rfl⟩
termination_by structural n

theorem adds_of_checkStatements {c c' ns' raised}
    (ns : List Node) (h : Passes (checkStatements ns) c ns' raised c') :
    Adds (Node.newNamesOfAll ns') c c' :=
  match ns, passes_checkStatements h with
  | [], .nil => .of_scopes rfl
  | n :: rest, .cons hn hrest =>
    (adds_of_checkStatement n hn).trans (adds_of_checkStatements rest hrest)
termination_by structural ns

end

def Checker.inProcedure (c : Checker) (name : String) : Checker := { c with current := some name }.push

inductive DeclarationPasses (c : Checker) : Node → Node → Checker → Prop where
  | varDecl {line inits inits' type r c'} : Passes (checkInits type.type? inits) c inits' r c' →
      DeclarationPasses c (.varDecl line inits type) (.varDecl line inits' type) c'
  | procDecl {line blockLine name sig params ns ns' result raises r c1 c2} :
      c.procedures.get? name = some sig →
      (declareParams params).run (c.inProcedure name) = (.ok (),c1) →
      Enters (params.all Node.isParam = true) (params.flatMap Node.paramNames) (c.inProcedure name)
        c1 →
      Passes (checkStatements ns) (c1.allow sig.raises) ns' r c2 →
      DeclarationPasses c (.procDecl line name (.block blockLine ns) params result raises)
        (.procDecl line name (.block blockLine ns') params result raises)
        { c2.pop with current := none }
  | exceptionDecl {line : Int} {name : String} :
      DeclarationPasses c (.exceptionDecl line name) (.exceptionDecl line name) c

inductive DeclarationsPass (c : Checker) : List Node → List Node → Checker → Prop where
  | nil : DeclarationsPass c [] [] c
  | cons {d d' rest rest' c1 c2} : Passes (checkDeclaration d) c d' () c1 →
      Passes (checkDeclarations rest) c1 rest' () c2 → DeclarationsPass c (d :: rest) (d' :: rest') c2

def Node.procedure? : Node → Option String
  | .procDecl _ name _ _ _ _ => some name
  | _ => none

theorem ends_checkProcedure (line : Int) (name : String) (block : Node) (params : List Node)
    (result : Node) (raises : List Node) (c : Checker) :
    PartEnds (c.procedures.contains name = true ∧ params.all Node.isParam = true ∧
        block.isBlock = true ∧ block.isStatement = true ∧ block.printsArguments = true)
      (checkProcedure line name block params result raises) c
      (Retyped (.procDecl line name block params result raises))
      fun d => DeclarationPasses c (.procDecl line name block params result raises) d.1 := by
  have hbody : ∀ sig : Signature, PartEnds (params.all Node.isParam = true ∧ block.isBlock = true ∧
      block.isStatement = true ∧ block.printsArguments = true) (checkBody params sig.raises block)
      { c with current := some name } (Retyped block) fun checked c' =>
        c.procedures.get? name = some sig → DeclarationPasses c
          (.procDecl line name block params result raises)
          (.procDecl line name checked.1 params result raises) { c' with current := none } := by
    intro sig
    unfold checkBody
    split
    · rename_i blockLine ns
      refine ends_scope (ends_checkStatement_and_others.2.2.2 ns) (fun h => ⟨h.1,?_,?_⟩)
        fun ns' r c1 c2 hparams hdeclares hpass hsig => .procDecl hsig hparams hdeclares hpass
      · simpa only [Node.isStatement] using h.2.2.1
      · simpa only [Node.printsArguments] using h.2.2.2
    · rename_i hn
      refine ends_noBlock fun hS => ?_
      cases block with
      | block => exact hn _ _ rfl
      | _ => cases hS.2.1
  have hopened : ∀ f : Checker → Check (Node × Except Fault Unit),
      (modify (fun c => { c with current := some name }) >>= fun _ => get >>= f).run c =
        (f { c with current := some name }).run { c with current := some name } := fun _ => rfl
  rw [PartEnds,Ends,checkProcedure,hopened]
  dsimp only
  cases hsig : c.procedures.get? name with
  | none =>
    refine .failed (prefix_refl _) (.refl _) rfl fun h _ => ?_
    simp [Table.contains,hsig] at h
  | some sig =>
    have h := hbody sig
    rcases hrun : (checkBody params sig.raises block).run { c with current := some name } with
      ⟨⟨block',r⟩,c2⟩
    rw [PartEnds,Ends,hrun] at h
    dsimp only
    rw [run_bind_of hrun]
    cases r with
    | error e =>
      refine .failed h.grows (.procDecl h.keeps) rfl fun hS hc => ?_
      obtain ⟨r,hr⟩ := h.sound hS.2 ⟨hc.scopes,fun _ hname => Option.some.inj hname ▸ hS.1⟩
      cases hr
    | ok r =>
      have hretains := h.retains r rfl
      exact ⟨h.grows,.procDecl h.keeps,fun _ _ => ⟨(),rfl⟩,
        fun _ _ => ⟨hretains.depth,hretains.procedures,hretains.functions,.inr rfl⟩,
        fun _ _ hsilent => h.passes r rfl hsilent hsig⟩

theorem ends_checkDeclaration (d : Node) (c : Checker) :
    PartEnds (d.isDeclaration = true ∧ d.printsArguments = true ∧
        ∀ name, d.procedure? = some name → c.procedures.contains name = true)
      (checkDeclaration d) c (Retyped d) fun d' => DeclarationPasses c d d'.1 := by
  unfold checkDeclaration
  split
  · rename_i line inits type
    simp only [Node.isDeclaration,Node.printsArguments,Bool.and_eq_true]
    refine ((ends_checkInits type.type? inits c).map (g := (Node.varDecl line · type)) id
      (P := fun d' => DeclarationPasses c (.varDecl line inits type) d'.1) (fun _ => Retyped.varDecl)
      fun _ _ _ h _ => .varDecl h).bind (fun h => ?_) ?_ ?_
    · obtain ⟨t,ht,-⟩ := isWordType_of_isType h.1.2
      exact ⟨⟨t,ht⟩,forall_of_areInitializers h.1.1,h.2.1⟩
    · rintro ⟨d',_⟩ e rfl hd
      exact ⟨_,e,rfl,rfl,hd⟩
    · rintro ⟨d',_⟩ r c1 - rfl hd -
      exact .pure rfl hd fun _ hpass => hpass
  · rename_i line name block params result raises
    simp only [Node.isDeclaration,Node.printsArguments,Bool.and_eq_true]
    exact (ends_checkProcedure line name block params result raises c).mono
      (fun h => ⟨h.2.2 name rfl,h.1.1.1.2,h.1.1.1.1.2.1,h.1.1.1.1.2.2,h.2.1⟩) fun _ _ => id
  · exact .pure rfl (.refl _) .exceptionDecl
  · rename_i h1 h2 h3
    have hd : d.isDeclaration = false := by
      cases d with
      | varDecl => exact (h1 _ _ _ rfl).elim
      | procDecl => exact (h2 _ _ _ _ _ _ rfl).elim
      | exceptionDecl => exact (h3 _ _ rfl).elim
      | _ => rfl
    exact (ends_unidentified (S := False) (K := Retyped d) (P := fun _ _ => False) id (.refl d)).andThen
      (fun h => by simp [hd] at h) (fun _ e hd => ⟨_,e,rfl,hd⟩) fun _ _ _ hk _ =>
        .fault rfl hk fun h _ => by simp [hd] at h

theorem ends_checkDeclarations (ds : List Node) (c : Checker) :
    PartEnds (∀ d ∈ ds, d.isDeclaration = true ∧ d.printsArguments = true ∧
        ∀ name, d.procedure? = some name → c.procedures.contains name = true)
      (checkDeclarations ds) c (RetypedAll ds) fun ds' => DeclarationsPass c ds ds'.1 := by
  induction ds generalizing c with
  | nil => exact .pure rfl .nil .nil
  | cons d rest ih =>
    rw [checkDeclarations]
    refine (ends_checkDeclaration d c).andThen (fun h => h d mem_cons_self)
      (fun _ e hd => ⟨_,e,rfl,.cons hd (.refl rest)⟩) fun d' _ c1 hd hretains =>
        (ih c1).map (g := (d' :: ·)) (fun h => ?_) (fun _ => .cons hd)
          fun _ _ _ hpass _ hpassd => .cons hpassd hpass
    rw [hretains.procedures]
    exact (forall_mem_cons.1 h).2

theorem passes_checkDeclaration (h : Passes (checkDeclaration d) c d' () c') :
    DeclarationPasses c d d' c' :=
  h.of_ends (ends_checkDeclaration d c)

theorem passes_checkDeclarations
    (h : Passes (checkDeclarations ds) c ds' () c') : DeclarationsPass c ds ds' c' :=
  h.of_ends (ends_checkDeclarations ds c)

structure Registers (ds : List Node) (c c' : Checker) : Prop where
  nonempty : ds ≠ []
  run : (collectExceptions ds >>= fun _ => collectProcedures ds).run c = (.ok (),c')
  main : c'.procedures.contains "main" = true

theorem run_checkProgram (ds : List Node) (c : Checker) :
    (∃ c1, Registers ds c c1 ∧ (checkProgram ds).run c = (checkDeclarations ds).run c1) ∨
      (¬∃ c1, Registers ds c c1) ∧ ∃ e c', (checkProgram ds).run c = ((ds,.error e),c') := by
  unfold checkProgram
  split
  · rename_i hempty
    exact .inr ⟨fun ⟨c1,h⟩ => h.nonempty (List.isEmpty_iff.1 hempty),_,_,rfl⟩
  · rename_i hempty
    rcases hexceptions : (collectExceptions ds).run c with ⟨_,c1⟩
    rcases hprocedures : (collectProcedures ds).run c1 with ⟨collected,c2⟩
    have hrun := (run_bind_of (f := fun _ => collectProcedures ds) hexceptions).trans hprocedures
    have hsame : ∀ c', Registers ds c c' → .ok () = collected ∧ c' = c2 :=
      fun c' h => Prod.mk.inj (h.run.symm.trans hrun)
    rw [run_bind_of hexceptions,run_bind_of hprocedures]
    cases collected with
    | error e =>
      refine .inr ⟨fun ⟨c',h⟩ => ?_,e,c2,rfl⟩
      cases (hsame c' h).1
    | ok u =>
      dsimp only
      rw [run_get_bind]
      by_cases hmain : c2.procedures.contains "main" = true
      · exact .inl ⟨c2,⟨by simpa using hempty,hrun,hmain⟩,by simp [hmain]⟩
      · rw [if_pos (by simpa using hmain)]
        refine .inr ⟨fun ⟨c',h⟩ => ?_,_,_,rfl⟩
        obtain ⟨-,rfl⟩ := hsame c' h
        exact hmain h.main

theorem registers_of_run (h : (checkProgram ds).run c = ((ds',.ok r),c')) :
    ∃ c1, Registers ds c c1 ∧ (checkDeclarations ds).run c1 = ((ds',.ok r),c') := by
  obtain ⟨c1,hregisters,hrun⟩ | ⟨-,e,c1,hrun⟩ := run_checkProgram ds c
  · exact ⟨c1,hregisters,hrun ▸ h⟩
  · cases hrun.symm.trans h

end BxToolchain.Bx
