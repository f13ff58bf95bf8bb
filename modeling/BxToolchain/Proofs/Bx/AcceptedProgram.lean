import BxToolchain.Proofs.Bx.Acceptance

namespace BxToolchain.Bx

open List

variable {t x : String} {c c' : Checker} {inits ds ds' : List Node} {raised : List String}
variable {procedures : Table String Signature} {visible allowed : List String}

theorem head?_exceptions_declareBindings (bindings : List (String × String)) (scopes : List Scope) :
    (declareBindings bindings scopes).head?.map Scope.exceptions =
      scopes.head?.map Scope.exceptions := by
  have hdeclare : ∀ (scope : Scope) name type,
      (scope.declare name type).exceptions = scope.exceptions := by
    intro scope name type
    unfold Scope.declare
    split
    · rfl
    · rfl
  cases scopes with
  | nil => rfl
  | cons scope rest =>
    refine congrArg some ?_
    induction bindings generalizing scope with
    | nil => rfl
    | cons b more ih => rw [foldl_cons,ih,hdeclare]

theorem Checker.Knows.entered (hc : c.Knows procedures allowed visible)
    (h : Enters words names c c') (hwords : words) (hretains : Retains c c') :
    c'.Knows procedures allowed (names ++ visible) := by
  obtain ⟨bindings,rfl,hscopes⟩ := h.scopes
  refine ⟨hretains.procedures.trans hc.procedures,?_,h.typed hwords hc.typed,fun x hx => ?_⟩
  · rw [hscopes,head?_exceptions_declareBindings]
    exact hc.allowed
  · rw [Checker.isDeclared,Checker.typeOf?,hscopes] at hx
    have hbefore := hc.sees x
    rw [Checker.isDeclared,Checker.typeOf?] at hbefore
    cases hc : c.scopes with
    | nil =>
      rw [hc] at hx
      cases hx
    | cons scope rest =>
      rw [hc,isSome_lookupIn_cons] at hbefore
      rw [hc,declareBindings,isSome_lookupIn_cons,contains_foldl_declare] at hx
      rw [mem_append]
      obtain (hx | hx) | hx := hx
      · exact .inl hx
      · exact .inr (hbefore (.inl hx))
      · exact .inr (hbefore (.inr hx))

theorem Checker.Knows.push (hc : c.Knows procedures allowed visible) :
    c.push.Knows procedures [] visible :=
  ⟨hc.procedures,rfl,forall_mem_cons.2 ⟨fun _ _ h => (by cases h),hc.typed⟩,hc.sees⟩

theorem Checker.Knows.allow {inner} (hc : c.Knows procedures inner visible)
    (houter : (c.scopes.drop 1).head?.map Scope.exceptions = some allowed)
    (exceptions : List String) :
    (c.allow exceptions).Knows procedures (union exceptions allowed) visible := by
  obtain ⟨hprocedures,-,htyped,hsees⟩ := hc
  unfold Checker.allow
  split
  · rename_i scope outer rest hscopes
    rw [hscopes] at houter
    cases houter
    rw [Checker.WordTyped,hscopes] at htyped
    simp only [Checker.isDeclared,Checker.typeOf?,hscopes] at hsees
    exact ⟨hprocedures,rfl,forall_mem_cons.2 (forall_mem_cons.1 htyped),hsees⟩
  · rename_i hscopes
    cases hc : c.scopes with
    | nil => simp [hc] at houter
    | cons scope rest =>
      cases rest with
      | nil => simp [hc] at houter
      | cons outer rest => exact (hscopes _ _ _ hc).elim

theorem checkedInits_of_passes (hc : c.Knows procedures allowed visible) (ht : isWordType t = true)
    (hinits : ∀ n ∈ inits, ∃ x value line, n = .varInit x value line ∧ value.isExpr = true)
    (h : Passes (checkInits (some t) inits) c inits' raised c') :
    ∃ visible', c'.Knows procedures allowed visible' ∧
      CheckedInits procedures visible inits inits' visible' := by
  induction inits generalizing visible inits' c raised with
  | nil =>
    cases passes_checkInits h
    exact ⟨visible,hc,.nil visible⟩
  | cons n rest ih =>
    obtain ⟨⟨x,value,line,rfl,hexpr⟩,hothers⟩ := forall_mem_cons.1 hinits
    cases passes_checkInits h with
    | cons hsome hvalue hinit htype henters hrest =>
      cases hsome
      obtain ⟨u,hchecked⟩ := checkedExpr_of_passes hc value hexpr hvalue
      cases hchecked.type?_eq.symm.trans htype
      have hentered := (hc.checked hvalue).entered henters ht
        ((ends_checkInit _ _ _ _ _).retained hinit rfl)
      obtain ⟨visible',hc',hinits⟩ := ih hentered hothers hrest
      exact ⟨visible',hc',.cons x line hchecked ht hinits⟩

theorem checkedVariables_of_passes {type : Node} {inits' : List Node}
    (hc : c.Knows procedures allowed visible)
    (hd : (Node.areInitializers inits && type.isType) = true)
    (h : Passes (checkInits type.type? inits) c inits' raised c') :
    ∃ visible', c'.Knows procedures allowed visible' ∧
      CheckedInits procedures visible inits inits' visible' := by
  rw [Bool.and_eq_true] at hd
  obtain ⟨t,ht,hword⟩ := isWordType_of_isType hd.2
  rw [ht] at h
  exact checkedInits_of_passes hc hword (forall_of_areInitializers hd.1) h

theorem Checker.WordTyped.isWordType (hc : c.WordTyped) (ht : c.typeOf? x = some t) :
    isWordType t = true := by
  have hlookup : ∀ scopes : List Scope, Checker.lookupIn x scopes = some t →
      ∃ scope ∈ scopes, scope.types.get? x = some t := by
    intro scopes h
    induction scopes with
    | nil => cases h
    | cons scope rest ih =>
      rw [Checker.lookupIn] at h
      split at h
      · rename_i u hu
        exact ⟨scope,mem_cons_self,hu.trans h⟩
      · obtain ⟨other,hother,ht⟩ := ih h
        exact ⟨other,mem_cons_of_mem _ hother,ht⟩
  obtain ⟨scope,hscope,ht⟩ := hlookup c.scopes ht
  exact hc scope hscope x t ht

theorem Checker.Knows.allowed_eq (hc : c.Knows procedures allowed visible)
    (h : allowed?.run c = (some found,c')) : found = allowed :=
  Option.some.inj ((Prod.mk.inj h).1.symm.trans hc.allowed)

theorem union_eq_left (h : ∀ x ∈ b, x ∈ a) : union a b = a := by
  rw [union,filter_eq_nil_iff.2,append_nil]
  intro x hx
  simp [h x hx]

theorem mem_union : x ∈ union a b ↔ x ∈ a ∨ x ∈ b := by
  simp only [union,mem_append,mem_filter,Bool.not_eq_true',contains_eq_mem,
    decide_eq_false_iff_not]
  tauto

theorem union_nil_left (a : List String) : union [] a = a := by
  simp [union]

mutual

theorem checkedStatement_of_passes {c c' n' visible allowed raised}
    (hc : c.Knows procedures allowed visible) (n : Node) (hn : n.isStatement = true)
    (h : Passes (checkStatement n) c n' raised c') :
    ∃ visible', c'.Knows procedures allowed visible' ∧
      CheckedStatement procedures visible allowed n n' visible' :=
  match n, passes_checkStatement h with
  | .varDecl line inits type, .varDecl hinits => by
    obtain ⟨visible',hc',hchecked⟩ := checkedVariables_of_passes hc hn hinits
    exact ⟨visible',hc',.varDecl line type hchecked⟩
  | .assign line x value, .assign hx hvalue htype => by
    simp only [Node.isStatement,Bool.and_eq_true] at hn
    obtain ⟨t,hchecked⟩ := checkedExpr_of_passes hc value hn.2 hvalue
    exact ⟨visible,hc.checked hvalue,.assign line (hc.sees x hx) hchecked
      (hc.typed.isWordType (htype.symm.trans hchecked.type?_eq))⟩
  | .eval line value, .eval hvalue => by
    simp only [Node.isStatement] at hn
    obtain ⟨t,hchecked⟩ := checkedExpr_of_passes hc value hn hvalue
    exact ⟨visible,hc.checked hvalue,.eval line hchecked⟩
  | .block line ns, .block hns => by
    simp only [Node.isStatement] at hn
    have hopened := hc.push.allow hc.allowed []
    rw [union_nil_left] at hopened
    obtain ⟨inner,-,hchecked⟩ := checkedStatements_of_passes hopened ns hn hns
    exact ⟨visible,hc.of_scopes (adds_of_checkStatement _ h).scopes_eq
      ((ends_checkStatement_and_others.1 _ c).retained h.run rfl),.block line hchecked⟩
  | .ifElse line condition a b, .ifElse hcondition htype ha hb => by
    simp only [Node.isStatement,Bool.and_eq_true] at hn
    obtain ⟨t,hchecked⟩ := checkedExpr_of_passes hc condition hn.1.1 hcondition
    cases hchecked.type?_eq.symm.trans htype
    obtain ⟨visibleA,hc2,ha⟩ :=
      checkedStatement_of_passes (hc.checked hcondition) a hn.1.2.2 ha
    obtain ⟨visibleB,hc3,hb⟩ := checkedStatement_of_passes hc2 b hn.2.2 hb
    exact ⟨visibleB,hc3,.ifElse line hchecked ha hb⟩
  | .while' line condition body, .loop hcondition htype hbody => by
    simp only [Node.isStatement,Bool.and_eq_true] at hn
    obtain ⟨t,hchecked⟩ := checkedExpr_of_passes hc condition hn.1 hcondition
    cases hchecked.type?_eq.symm.trans htype
    obtain ⟨visible',hc',hbody⟩ :=
      checkedStatement_of_passes (hc.checked hcondition) body hn.2.2 hbody
    exact ⟨visible',hc',.loop line hchecked hbody⟩
  | .jump line target, .jump => ⟨visible,hc,.jump line target⟩
  | .return' line _, .bareReturn => ⟨visible,hc,.bareReturn line⟩
  | .return' line value, .return hvalue => by
    have hexpr : value.isExpr = true := by
      cases value with
      | absent => cases passes_checkExpr hvalue
      | _ => simpa only [Node.isStatement] using hn
    obtain ⟨t,hchecked⟩ := checkedExpr_of_passes hc value hexpr hvalue
    exact ⟨visible,hc.checked hvalue,.return line hchecked⟩
  | .tryExcept line body catches, .tryExcept hfound hbody hcatches => by
    simp only [Node.isStatement,Bool.and_eq_true] at hn
    obtain rfl := hc.allowed_eq hfound
    obtain ⟨hc1,hbody⟩ := checkedBlock_of_passes hc
      (fun x hx => mem_union.2 (.inl hx)) body hn.1.1 hn.1.2 hbody
    obtain ⟨visible',hc',hcatches⟩ := checkedCatches_of_passes hc1 catches hn.2 hcatches
    exact ⟨visible',hc',.tryExcept line hbody hcatches⟩
  | .raise line _, .raise hfound hname =>
    ⟨visible,hc,.raise line (hc.allowed_eq hfound ▸ hname)⟩
termination_by structural n

theorem checkedStatements_of_passes {c c' ns' visible allowed raised}
    (hc : c.Knows procedures allowed visible)
    (ns : List Node) (hns : Node.areStatements ns = true)
    (h : Passes (checkStatements ns) c ns' raised c') :
    ∃ visible', c'.Knows procedures allowed visible' ∧
      CheckedStatements procedures visible allowed ns ns' visible' :=
  match ns, passes_checkStatements h with
  | [], .nil => ⟨visible,hc,.nil⟩
  | n :: rest, .cons hn hrest => by
    simp only [Node.areStatements,Bool.and_eq_true] at hns
    obtain ⟨visible1,hc1,hn⟩ := checkedStatement_of_passes hc n hns.1 hn
    obtain ⟨visible2,hc2,hrest⟩ := checkedStatements_of_passes hc1 rest hns.2 hrest
    exact ⟨visible2,hc2,.cons hn hrest⟩
termination_by structural ns

theorem checkedCatches_of_passes {c c' line ns' visible allowed caught raised}
    (hc : c.Knows procedures allowed visible)
    (ns : List Node) (hns : Node.areCatches ns = true)
    (h : Passes (checkCatches line caught ns) c ns' raised c') :
    ∃ visible', c'.Knows procedures allowed visible' ∧
      CheckedCatches procedures visible allowed ns ns' visible' :=
  match ns, passes_checkCatches h with
  | [], .nil => ⟨visible,hc,.nil⟩
  | .catch' catchLine name body :: rest, .cons _ hn hrest => by
    simp only [Node.areCatches,Bool.and_eq_true] at hns
    cases passes_checkStatement hn with
    | «catch» hfound hbody =>
      obtain rfl := hc.allowed_eq hfound
      obtain ⟨hc1,hbody⟩ :=
        checkedBlock_of_passes hc (fun _ => id) body hns.1.2.1 hns.1.2.2 hbody
      obtain ⟨visible',hc',hrest⟩ := checkedCatches_of_passes hc1 rest hns.2 hrest
      exact ⟨visible',hc',.cons catchLine name hbody hrest⟩
termination_by structural ns

theorem checkedBlock_of_passes {c c' n' visible allowed exceptions raised}
    (hc : c.Knows procedures allowed visible) (hallowed : ∀ x ∈ allowed, x ∈ exceptions) (n : Node)
    (hblock : n.isBlock = true) (hn : n.isStatement = true)
    (h : Passes (checkBlock exceptions n) c n' raised c') :
    c'.Knows procedures allowed visible ∧
      CheckedStatement procedures visible exceptions n n' visible :=
  match n, passes_checkBlock h with
  | .block line ns, .block hns => by
    simp only [Node.isStatement] at hn
    have hopened := hc.push.allow hc.allowed exceptions
    rw [union_eq_left hallowed] at hopened
    obtain ⟨inner,-,hchecked⟩ := checkedStatements_of_passes hopened ns hn hns
    exact ⟨hc.of_scopes (adds_of_checkBlock _ h).1.scopes_eq
      ((ends_checkStatement_and_others.2.2.1 _ _ c).retained h.run rfl),.block line hchecked⟩
termination_by structural n

end

theorem checkedDeclaration_of_passes {d' : Node} (hc : c.Knows procedures [] visible)
    (hd : d.isDeclaration = true) (h : Passes (checkDeclaration d) c d' () c') :
    ∃ visible', c'.Knows procedures [] visible' ∧
      CheckedDeclaration procedures visible d d' visible' := by
  have hretains := (ends_checkDeclaration d c).retained h.run rfl
  have hadds := (adds_of_checkDeclaration h).1
  cases passes_checkDeclaration h with
  | varDecl hinits =>
    obtain ⟨visible',hc',hchecked⟩ := checkedVariables_of_passes hc hd hinits
    exact ⟨visible',hc',.varDecl _ _ hchecked⟩
  | @procDecl _ _ name sig _ _ _ _ _ _ _ _ hsig hparams henters hpass =>
    simp only [Node.isDeclaration,Bool.and_eq_true] at hd
    have hnamed : (c.inProcedure name).Knows procedures [] visible :=
      Checker.Knows.push (c := { c with current := some name })
        ⟨hc.procedures,hc.allowed,hc.typed,hc.sees⟩
    have hentered := hnamed.entered henters hd.1.1.2 ((ends_declareParams _ _).retained hparams rfl)
    obtain ⟨bindings,-,hscopes⟩ := henters.scopes
    have hopened := hentered.allow (by rw [hscopes]; exact hc.allowed) sig.raises
    rw [union_eq_left (by simp)] at hopened
    obtain ⟨inner,-,hchecked⟩ := checkedStatements_of_passes hopened _ hd.1.1.1.2.2 hpass
    exact ⟨visible,hc.of_scopes hadds.scopes_eq hretains,
      .procDecl _ _ _ (hc.procedures ▸ hsig) hd.1.1.2 hchecked⟩
  | exceptionDecl => exact ⟨visible,hc,.exceptionDecl _ _⟩

theorem checkedDeclarations_of_passes (hc : c.Knows procedures [] visible)
    (hds : ds.all Node.isDeclaration = true) (h : Passes (checkDeclarations ds) c ds' () c') :
    CheckedDeclarations procedures visible ds ds' := by
  induction ds generalizing visible ds' c with
  | nil =>
    cases passes_checkDeclarations h
    exact .nil
  | cons d rest ih =>
    rw [all_cons,Bool.and_eq_true] at hds
    cases passes_checkDeclarations h with
    | cons hd hrest =>
      obtain ⟨visible',hc',hchecked⟩ := checkedDeclaration_of_passes hc hds.1 hd
      exact .cons hchecked (ih hc' hds.2 hrest)

structure Accepted (ds ds' : List Node) (c : Checker) (functions : List String) : Prop where
  signed : WellSigned c.procedures functions
  functions : functions = ds.filterMap Node.function?
  collected : ∀ line name block params result raises,
    .procDecl line name block params result raises ∈ ds → Collected c name block params raises
  declarations : CheckedDeclarations c.procedures [] ds ds'

theorem CheckedDeclarations.checked_of_mem (h : CheckedDeclarations procedures visible ds ds')
    (hd : d ∈ ds) :
    ∃ d' ∈ ds', ∃ visible visible', CheckedDeclaration procedures visible d d' visible' := by
  induction h with
  | nil => cases hd
  | @cons visible visible' d d' rest rest' hfirst _ ih =>
    obtain rfl | hd := mem_cons.1 hd
    · exact ⟨d',mem_cons_self,visible,visible',hfirst⟩
    · obtain ⟨d',hd',hchecked⟩ := ih hd
      exact ⟨d',mem_cons_of_mem _ hd',hchecked⟩

theorem accepted_of_checkProgram (hds : isProgram ds = true)
    (hrun : (checkProgram ds).run { reporter } = ((ds',.ok ()),c'))
    (hsilent : c'.reporter.reports = reporter.reports) : ∃ c, Accepted ds ds' c c'.functions := by
  simp only [isProgram,Bool.and_eq_true] at hds
  obtain ⟨c1,hregisters,hrun⟩ := registers_of_run hrun
  obtain ⟨exceptions,reports,hexceptions,-⟩ := run_collectExceptions ds { reporter }
  have hprocedures := hregisters.run
  rw [run_bind_of hexceptions] at hprocedures
  have hends := ends_checkDeclarations ds c1
  have hsame := (hends.retained hrun rfl).functions
  rw [PartEnds,Ends,hrun] at hends
  have hcollects := collects_of_run hregisters.run
  obtain ⟨hc1,hc'⟩ := hcollects.grows.silent_of_trans hends.grows hsilent
  have hbefore : Grows { reporter } (Checker.reporting { reporter, exceptions } reports) :=
    prefix_append _ _
  obtain ⟨hsigned,-,hdeclared,hfunctions⟩ := gathers_of_run wellSigned_printers hds.2
    hprocedures (hbefore.silent_of_trans ((collects_collectProcedures ds).of_run hprocedures).grows
      hc1).2
  have hknows : c1.Knows c1.procedures [] [] := by
    refine ⟨rfl,by rw [hcollects.scopes]; rfl,fun scope hscope x t ht => ?_,fun x hx => ?_⟩
    · rw [hcollects.scopes] at hscope
      obtain rfl := mem_singleton.1 hscope
      cases ht
    · rw [Checker.isDeclared,Checker.typeOf?,hcollects.scopes] at hx
      cases hx
  refine ⟨c1,?_,?_,hdeclared,checkedDeclarations_of_passes hknows hds.2 ⟨hrun,hc'⟩⟩
  · rw [hsame]
    exact hsigned
  · rw [hsame,hfunctions]
    rfl

end BxToolchain.Bx
