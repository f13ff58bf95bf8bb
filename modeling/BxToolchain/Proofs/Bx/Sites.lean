import BxToolchain.Proofs.Bx.Emitted
import BxToolchain.Proofs.Bx.Passing

namespace BxToolchain.Bx

open Lower

variable {c c' : Checker} {s s' : Lowering}

structure Site where
  name : String
  checker : Checker
  lowering : Lowering

mutual

inductive ExprSite (site : Site) : Node → Checker → Lowering → Prop where
  | var {line a} : ExprSite site (.var line a site.name) site.checker site.lowering
  | left {line a op x y c s} : ExprSite site x c s → ExprSite site (.binary line a x y op) c s
  | right {line a op x y x' c c' s s' raised v} :
      (checkExpr x).run c = ((x',.ok raised),c') → Runs (lowerExpr x') s v s' →
      ExprSite site y c' s' → ExprSite site (.binary line a x y op) c s
  | operand {line a op x c s} : ExprSite site x c s → ExprSite site (.unary line a x op) c s
  | args {line a name args c s} :
      ArgsSite site args.length 0 args c s → ExprSite site (.call line a name args) c s

inductive ArgsSite (site : Site) : Nat → Nat → List Node → Checker → Lowering → Prop where
  | head {count index e rest c s} : ExprSite site e c s → ArgsSite site count index (e :: rest) c s
  | tail {count index e e' rest c c' s s' raised} :
      (checkExpr e).run c = ((e',.ok raised),c') → Runs (lowerArgs count index [e']) s () s' →
      ArgsSite site count (index + 1) rest c' s' → ArgsSite site count index (e :: rest) c s

end

inductive ConditionSite (site : Site) : Node → Checker → Lowering → Prop where
  | var {line a} : ConditionSite site (.var line a site.name) site.checker site.lowering
  | comparison {line a op jump x y c s} :
      comparisonJump? op = some jump → ExprSite site (.binary line a x y op) c s →
      ConditionSite site (.binary line a x y op) c s
  | left {line a op x y c s} : op ∈ logicalOperators → ConditionSite site x c s →
      ConditionSite site (.binary line a x y op) c s
  | right {line a op x y x' c c' s s' s'' raised yes no} :
      op ∈ logicalOperators → (checkExpr x).run c = ((x',.ok raised),c') →
      Runs (lowerCondition x' yes no) s () s' →
      Runs (newLabels 1 >>= fun middle => emitLabel middle) s' () s'' →
      ConditionSite site y c' s'' → ConditionSite site (.binary line a x y op) c s
  | operand {line a x c s} : ConditionSite site x c s → ConditionSite site (.unary line a x "!") c s

inductive InitsSite (site : Site) : Option String → List Node → Checker → Lowering → Prop where
  | head {type name value line rest c s} : ExprSite site value c s →
      InitsSite site type (.varInit name value line :: rest) c s
  | tail {type name value value' line rest c c' c'' s s' raised} :
      (checkExpr value).run c = ((value',.ok raised),c') →
      (checkInit name value' line type).run c' = (.ok (),c'') →
      Runs (lowerInits [.varInit name value' line]) s () s' →
      InitsSite site (some type) rest c'' s' →
      InitsSite site (some type) (.varInit name value line :: rest) c s

def Lowering.push (s : Lowering) : Lowering := { s with scopes := {} :: s.scopes }

mutual

inductive StatementSite (site : Site) : Node → Checker → Lowering → Prop where
  | inits {line inits type c s} :
      InitsSite site type.type? inits c s → StatementSite site (.varDecl line inits type) c s
  | assigned {line x value c s} :
      ExprSite site value c s → StatementSite site (.assign line x value) c s
  | target {line value value' c s raised v} :
      (checkExpr value).run c = ((value',.ok raised),site.checker) →
      Runs (lowerExpr value') s v site.lowering →
      StatementSite site (.assign line site.name value) c s
  | value {line value c s} : ExprSite site value c s →
      StatementSite site (.eval line value) c s
  | block {line statements c s} : StatementsSite site statements (c.push.allow []) s.push →
      StatementSite site (.block line statements) c s
  | condition {line condition a b c s s' first} :
      Runs (newLabels 3) s first s' → ConditionSite site condition c s' →
      StatementSite site (.ifElse line condition a b) c s
  | ifBranch {line condition condition' a b c c' s s' raised} :
      (checkExpr condition).run c = ((condition',.ok raised),c') →
      Runs (do
        let first ← newLabels 3
        lowerCondition condition' first (first + 1)
        emitLabel first) s () s' →
      StatementSite site a c' s' → StatementSite site (.ifElse line condition a b) c s
  | elseBranch {line condition condition' a a' b c c' c'' s s' raised raised'} :
      (checkExpr condition).run c = ((condition',.ok raised),c') →
      (checkStatement a).run c' = ((a',.ok raised'),c'') →
      Runs (do
        let first ← newLabels 3
        lowerCondition condition' first (first + 1)
        emitLabel first
        lowerStatement a'
        emitJump (first + 2)
        emitLabel (first + 1)) s () s' →
      StatementSite site b c'' s' → StatementSite site (.ifElse line condition a b) c s
  | loopCondition {line condition body c s s'} : Runs (do
        let head ← newLabels 3
        modify fun s => { s with loops := (head,head + 2) :: s.loops }
        emitLabel head) s () s' →
      ConditionSite site condition c s' → StatementSite site (.while' line condition body) c s
  | loopBody {line condition condition' body c c' s s' raised} :
      (checkExpr condition).run c = ((condition',.ok raised),c') →
      Runs (do
        let head ← newLabels 3
        modify fun s => { s with loops := (head,head + 2) :: s.loops }
        emitLabel head
        lowerCondition condition' (head + 1) (head + 2)
        emitLabel (head + 1)) s () s' →
      StatementSite site body c' s' → StatementSite site (.while' line condition body) c s
  | result {line value c s} : ExprSite site value c s →
      StatementSite site (.return' line value) c s
  | tryBody {line blockLine statements catches c s s' allowed} :
      (allowed?).run c = (some allowed,c) →
      Runs (do
        let handler ← newLabels 2
        modify fun s => { s with handlers := handler :: s.handlers }) s () s' →
      StatementsSite site statements
        (c.push.allow (union allowed (catches.filterMap Node.name?))) s'.push →
      StatementSite site (.tryExcept line (.block blockLine statements) catches) c s
  | catches {line block block' catches c c' s s' allowed raised done} :
      (allowed?).run c = (some allowed,c) →
      (checkBlock (union allowed (catches.filterMap Node.name?)) block).run c =
        ((block',.ok raised),c') →
      Runs (do
        let handler ← newLabels 2
        modify fun s => { s with handlers := handler :: s.handlers }
        lowerStatement block'
        emitJump (handler + 1)
        modify fun s => { s with handlers := s.handlers.drop 1 }
        emitLabel handler
        return handler + 1) s done s' →
      CatchesSite site line raised done catches c' s' →
      StatementSite site (.tryExcept line block catches) c s

inductive StatementsSite (site : Site) : List Node → Checker → Lowering → Prop where
  | head {n rest c s} : StatementSite site n c s →
      StatementsSite site (n :: rest) c s
  | tail {n n' rest c c' s s' raised} : (checkStatement n).run c = ((n',.ok raised),c') →
      Runs (lowerStatement n') s () s' → StatementsSite site rest c' s' →
      StatementsSite site (n :: rest) c s

inductive CatchesSite (site : Site) : Int → List String → Nat → List Node → Checker → Lowering →
    Prop where
  | head {line catchLine blockLine raised allowed done name statements rest c s s'} :
      (allowed?).run c = (some allowed,c) →
      Runs (newLabels 1 >>= fun otherwise => enterCatch name otherwise) s () s' →
      StatementsSite site statements (c.push.allow allowed) s'.push →
      CatchesSite site line raised done
        (.catch' catchLine name (.block blockLine statements) :: rest) c s
  | tail {line raised raised' done n n' rest c c' s s'} :
      (checkStatement n).run c = ((n',.ok raised'),c') →
      Runs (lowerCatches done [n']) s () s' → CatchesSite site line raised done rest c' s' →
      CatchesSite site line raised done (n :: rest) c s

end

structure Site.Within (site : Site) (c : Checker) (s : Lowering) : Prop where
  declared : site.checker.isDeclared site.name = true
  checked : site.checker.scopes = c.scopes
  lowered : site.lowering.scopes = s.scopes

variable {site : Site}

theorem Site.Within.trans (h : site.Within c' s') (hc : c'.scopes = c.scopes)
    (hs : s'.scopes = s.scopes) : site.Within c s :=
  ⟨h.declared,h.checked.trans hc,h.lowered.trans hs⟩

theorem Passes.unique (h : Passes x c a r c1) (h' : x.run c = ((b,.ok r'),c2)) :
    a = b ∧ r = r' ∧ c1 = c2 := by
  obtain ⟨hresult,hc⟩ := Prod.mk.inj (h.run.symm.trans h')
  obtain ⟨ha,hr⟩ := Prod.mk.inj hresult
  exact ⟨ha,Except.ok.inj hr,hc⟩

mutual

theorem ExprSite.within {site n n' c c' s raised} (h : ExprSite site n c s)
    (hpass : Passes (checkExpr n) c n' raised c') : site.Within c s := by
  match h, passes_checkExpr hpass with
  | .var, .var hx _ => exact ⟨Option.isSome_of_eq_some hx,rfl,rfl⟩
  | .left hx, .binary hpassx _ _ => exact hx.within hpassx
  | .right hcheck hlower hy, .binary hpassx hpassy _ =>
    obtain ⟨rfl,rfl,rfl⟩ := hpassx.unique hcheck
    exact (hy.within hpassy).trans (scopes_of_passes hpassx) (quiet_lowerExpr _ _ _ _ hlower)
  | .operand hx, .unary hpassx _ => exact hx.within hpassx
  | .args hargs, .call hpassargs _ _ _ => exact hargs.within hpassargs

theorem ArgsSite.within {site count index ns ns' c c' s raised}
    (h : ArgsSite site count index ns c s)
    (hpass : Passes (checkExprs ns) c ns' raised c') : site.Within c s := by
  match h, passes_checkExprs hpass with
  | .head he, .cons hpasse _ => exact he.within hpasse
  | .tail hcheck hlower hrest, .cons hpasse hpassrest =>
    obtain ⟨rfl,rfl,rfl⟩ := hpasse.unique hcheck
    exact (hrest.within hpassrest).trans (scopes_of_passes hpasse)
      (quiet_lowerArgs _ _ _ _ _ _ hlower)

end

theorem ConditionSite.within (h : ConditionSite site n c s)
    (hpass : Passes (checkExpr n) c n' raised c') : site.Within c s := by
  induction h generalizing n' c' raised with
  | var =>
    cases passes_checkExpr hpass with
    | var hx => exact ⟨Option.isSome_of_eq_some hx,rfl,rfl⟩
  | comparison _ h => exact h.within hpass
  | left _ _ ih =>
    cases passes_checkExpr hpass with
    | binary hpassx => exact ih hpassx
  | right _ hcheck hlower hlabel _ ih =>
    cases passes_checkExpr hpass with
    | binary hpassx hpassy =>
      obtain ⟨rfl,rfl,rfl⟩ := hpassx.unique hcheck
      have hquiet : Quiet (newLabels 1 >>= fun middle => emitLabel middle) :=
        (quiet_newLabels 1).bind fun _ => quiet_emit _
      exact (ih hpassy).trans (scopes_of_passes hpassx)
        ((hquiet _ _ _ hlabel).trans (quiet_lowerCondition _ _ _ _ _ _ hlower))
  | operand _ ih =>
    cases passes_checkExpr hpass with
    | unary hpassx => exact ih hpassx

inductive Agree (params : List String) (globals : Scope) (top : Table String String) :
    List Scope → List (Table String String) → Prop where
  | body {scope table} :
      (∀ x, scope.types.contains x = true ↔ x ∈ params ∨ table.contains x = true) →
      (∀ x ∈ params, table.contains x = false) → Agree params globals top [scope,globals] [table,top]
  | block {scope table scopes tables} :
      (∀ x, scope.types.contains x = true ↔ table.contains x = true) →
      Agree params globals top scopes tables →
      Agree params globals top (scope :: scopes) (table :: tables)

section

variable {params : List String} {globals : Scope} {top : Table String String}

theorem Agree.declare (h : Agree params globals top c.scopes s.scopes) (hadds : Adds names c c')
    (hdeclares : Bound names s s') :
    Agree params globals top c'.scopes s'.scopes := by
  obtain ⟨⟨bindings,hbindings,hc'⟩,hfresh⟩ := hadds
  obtain ⟨bindings',hbindings',hs'⟩ := hdeclares
  rw [hc',hs']
  generalize hscopes : c.scopes = scopes at h hfresh
  generalize s.scopes = tables at h
  cases h with
  | @body scope table hnames hparams =>
    refine .body (fun x => ?_) fun x hx => ?_
    · rw [contains_foldl_declare,Table.contains_foldl_insert,hbindings,hbindings',hnames]
      tauto
    · rw [← Bool.not_eq_true,Table.contains_foldl_insert,not_or,Bool.not_eq_true]
      refine ⟨fun hnew => ?_,hparams x hx⟩
      have hold := hfresh scope _ rfl x (hbindings' ▸ hnew)
      rw [← Bool.not_eq_true,hnames] at hold
      exact hold (.inl hx)
  | block hnames hrest =>
    refine .block (fun x => ?_) hrest
    rw [contains_foldl_declare,Table.contains_foldl_insert,hbindings,hbindings',hnames]

theorem Agree.push (h : Agree params globals top c.scopes s.scopes) (exceptions : List String) :
    Agree params globals top (c.push.allow exceptions).scopes s.push.scopes := by
  obtain ⟨inner,hscopes,htypes⟩ := scopes_allow (c := c.push) exceptions rfl
  rw [hscopes]
  refine .block (fun x => ?_) h
  rw [htypes]

structure Site.Agrees (params : List String) (globals : Scope) (top : Table String String)
    (site : Site) : Prop where
  declared : site.checker.isDeclared site.name = true
  agree : Agree params globals top site.checker.scopes site.lowering.scopes

theorem Site.Within.agrees (h : site.Within c s)
    (hagree : Agree params globals top c.scopes s.scopes) : site.Agrees params globals top :=
  ⟨h.declared,by rw [h.checked,h.lowered]; exact hagree⟩

theorem Agree.of_scopes (h : Agree params globals top c.scopes s.scopes) (hc : c'.scopes = c.scopes)
    (hs : s'.scopes = s.scopes) : Agree params globals top c'.scopes s'.scopes := by
  rw [hc,hs]
  exact h

theorem InitsSite.agrees (h : InitsSite site type inits c s)
    (hpass : Passes (checkInits type inits) c inits' raised c')
    (hagree : Agree params globals top c.scopes s.scopes) : site.Agrees params globals top := by
  induction h generalizing inits' c' raised with
  | head hvalue =>
    cases passes_checkInits hpass with
    | cons _ hpassvalue => exact (hvalue.within hpassvalue).agrees hagree
  | tail hcheck hinit hlower _ ih =>
    cases passes_checkInits hpass with
    | cons htype hpassvalue hdeclare _ henters hpassrest =>
      cases htype
      obtain ⟨rfl,rfl,rfl⟩ := hpassvalue.unique hcheck
      obtain ⟨-,rfl⟩ := Prod.mk.inj (hdeclare.symm.trans hinit)
      exact ih hpassrest ((hagree.of_scopes (scopes_of_passes hpassvalue) rfl).declare
        henters.toAdds (binds_lowerInits _ _ _ _ hlower))

theorem quiet_lowerStatement (h : n.newNames = []) : Quiet (lowerStatement n) :=
  fun s a s' hrun => Extended.eq (h ▸ binds_lowerStatement n s a s' hrun)

mutual

theorem StatementSite.agrees {site n n' c c' s raised} (h : StatementSite site n c s)
    (hpass : Passes (checkStatement n) c n' raised c')
    (hagree : Agree params globals top c.scopes s.scopes) : site.Agrees params globals top := by
  match h, passes_checkStatement hpass with
  | .inits hinits, .varDecl hpassinits => exact hinits.agrees hpassinits hagree
  | .assigned hvalue, .assign _ hpassvalue _ => exact (hvalue.within hpassvalue).agrees hagree
  | .target hcheck hlower, .assign hdeclared hpassvalue _ =>
    obtain ⟨rfl,rfl,rfl⟩ := hpassvalue.unique hcheck
    have hscopes := scopes_of_passes hpassvalue
    refine ⟨?_,hagree.of_scopes hscopes (quiet_lowerExpr _ _ _ _ hlower)⟩
    rwa [Checker.isDeclared,Checker.typeOf?,hscopes]
  | .value hvalue, .eval hpassvalue => exact (hvalue.within hpassvalue).agrees hagree
  | .block hstatements, .block hpassstatements =>
    exact hstatements.agrees hpassstatements (hagree.push [])
  | .condition hlabels hcondition, .ifElse hpasscondition _ _ _ =>
    exact (hcondition.within hpasscondition).agrees
      (hagree.of_scopes rfl (quiet_newLabels _ _ _ _ hlabels))
  | .ifBranch hcheck hlower ha, .ifElse hpasscondition _ hpassa _ =>
    obtain ⟨rfl,rfl,rfl⟩ := hpasscondition.unique hcheck
    have hquiet := ((quiet_newLabels 3).bind fun _ => (quiet_lowerCondition _ _ _).bind fun _ =>
      quiet_emit _) _ _ _ hlower
    exact ha.agrees hpassa (hagree.of_scopes (scopes_of_passes hpasscondition) hquiet)
  | .elseBranch hcheck hchecka hlower hb, .ifElse hpasscondition _ hpassa hpassb =>
    obtain ⟨rfl,rfl,rfl⟩ := hpasscondition.unique hcheck
    obtain ⟨rfl,rfl,rfl⟩ := hpassa.unique hchecka
    have hbinds := ((quiet_newLabels 3).seq fun _ => (quiet_lowerCondition _ _ _).seq fun _ =>
      (quiet_emit _).seq fun _ => (binds_lowerStatement _).seq fun _ =>
        (quiet_emit _).bind fun _ => quiet_emit _) _ _ _ hlower
    exact hb.agrees hpassb ((hagree.of_scopes (scopes_of_passes hpasscondition) rfl).declare
      (adds_of_checkStatement _ hpassa) hbinds)
  | .loopCondition hlower hcondition, .loop hpasscondition _ _ =>
    have hquiet := ((quiet_newLabels 3).bind fun _ => (quiet_modify fun _ => by rfl).bind
      fun _ => quiet_emit _) _ _ _ hlower
    exact (hcondition.within hpasscondition).agrees (hagree.of_scopes rfl hquiet)
  | .loopBody hcheck hlower hbody, .loop hpasscondition _ hpassbody =>
    obtain ⟨rfl,rfl,rfl⟩ := hpasscondition.unique hcheck
    have hquiet := ((quiet_newLabels 3).bind fun _ => (quiet_modify fun _ => by rfl).bind
      fun _ => (quiet_emit _).bind fun _ => (quiet_lowerCondition _ _ _).bind fun _ =>
        quiet_emit _) _ _ _ hlower
    exact hbody.agrees hpassbody (hagree.of_scopes (scopes_of_passes hpasscondition) hquiet)
  | .result hvalue, .bareReturn => cases hvalue
  | .result hvalue, .return hpassvalue => exact (hvalue.within hpassvalue).agrees hagree
  | .tryBody hallowed hlower hstatements, .tryExcept hallowed' hpassblock _ =>
    obtain rfl := Option.some.inj (Prod.mk.inj (hallowed.symm.trans hallowed')).1
    cases passes_checkBlock hpassblock with
    | block hpassstatements =>
      have hquiet := ((quiet_newLabels 2).bind fun _ => quiet_modify fun _ => by rfl) _ _ _ hlower
      exact hstatements.agrees hpassstatements ((hagree.of_scopes rfl hquiet).push _)
  | .catches hallowed hcheck hlower hcatches, .tryExcept hallowed' hpassblock hpasscatches =>
    obtain rfl := Option.some.inj (Prod.mk.inj (hallowed.symm.trans hallowed')).1
    obtain ⟨rfl,rfl,rfl⟩ := hpassblock.unique hcheck
    obtain ⟨hadds,hnames⟩ := adds_of_checkBlock _ hpassblock
    have hquiet := ((quiet_newLabels 2).bind fun _ => (quiet_modify fun _ => by rfl).bind
      fun _ => (quiet_lowerStatement hnames).bind fun _ => (quiet_emit _).bind fun _ =>
        (quiet_modify fun _ => by rfl).bind fun _ => (quiet_emit _).bind fun _ =>
          Respects.pure) _ _ _ hlower
    exact hcatches.agrees hpasscatches (hagree.of_scopes hadds.scopes_eq hquiet)

theorem StatementsSite.agrees {site ns ns' c c' s raised} (h : StatementsSite site ns c s)
    (hpass : Passes (checkStatements ns) c ns' raised c')
    (hagree : Agree params globals top c.scopes s.scopes) : site.Agrees params globals top := by
  match h, passes_checkStatements hpass with
  | .head hn, .cons hpassn _ => exact hn.agrees hpassn hagree
  | .tail hcheck hlower hrest, .cons hpassn hpassrest =>
    obtain ⟨rfl,rfl,rfl⟩ := hpassn.unique hcheck
    exact hrest.agrees hpassrest (hagree.declare (adds_of_checkStatement _ hpassn)
      (binds_lowerStatement _ _ _ _ hlower))

theorem CatchesSite.agrees {site line raised r done ns ns' c c' s}
    (h : CatchesSite site line raised done ns c s)
    (hpass : Passes (checkCatches line raised ns) c ns' r c')
    (hagree : Agree params globals top c.scopes s.scopes) : site.Agrees params globals top := by
  match h, passes_checkCatches hpass with
  | .head hallowed hlower hstatements, .cons _ hpassn _ =>
    cases passes_checkStatement hpassn with
    | «catch» hallowed' hpassblock =>
      obtain rfl := Option.some.inj (Prod.mk.inj (hallowed.symm.trans hallowed')).1
      cases passes_checkBlock hpassblock with
      | block hpassstatements =>
        have hquiet := ((quiet_newLabels 1).bind fun _ => quiet_enterCatch _ _) _ _ _ hlower
        exact hstatements.agrees hpassstatements ((hagree.of_scopes rfl hquiet).push _)
  | .tail hcheck hlower hrest, .cons hname hpassn hpassrest =>
    obtain ⟨rfl,rfl,rfl⟩ := hpassn.unique hcheck
    obtain ⟨hnames,hcatches⟩ := newNames_of_named hname (passes_checkStatement hpassn)
    have hadds := adds_of_checkStatement _ hpassn
    have hdeclares := binds_lowerCatches _ _ _ _ _ hlower
    rw [hnames] at hadds
    rw [hcatches [] rfl] at hdeclares
    exact hrest.agrees hpassrest (hagree.declare hadds hdeclares)

end

end

end BxToolchain.Bx
