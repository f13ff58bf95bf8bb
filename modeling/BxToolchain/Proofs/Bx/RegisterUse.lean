import BxToolchain.Proofs.Bx.CheckedSyntax
import BxToolchain.Proofs.Bx.Initialized
import BxToolchain.Proofs.Bx.Scoping

namespace BxToolchain.Bx

open Lower List

variable {vars : List Nat} {x : String} {s : Lowering} {ds : List Node}

structure WellUsed (code : List Instr) : Prop where
  paths : ∃ marks final, Assigned marks ∅ code final
  consts : ∀ i ∈ code, i.hasOpcode "const" = true → ∃ n, i.writes n = true ∧ writers n code = 1

structure WellAssigned (vars : List Nat) (s : Lowering) : Prop where
  body : s.body = #[]
  exits : s.surroundings.exits = []
  names : ∀ n, ¬Visible s.scopes n
  range : ∀ n ∈ vars, n < s.temps
  nodup : vars.Nodup
  count : ∀ n, n ∉ vars →
    writers n (s.items.toList.flatMap Item.code) = if n < s.temps then 1 else 0
  used : ∀ item ∈ s.items.toList, WellUsed item.code

section

variable (vars : List Nat)

theorem keepsAssigned_report (reason : String) (line : Int) :
    Respects (Keeps (WellAssigned vars)) (Lower.report reason line) :=
  .modify fun _ h => ⟨h.body,h.exits,h.names,h.range,h.nodup,h.count,h.used⟩

theorem keepsAssigned_addGlobal (name : String) (init : Init) :
    Respects (Keeps (WellAssigned vars)) (addGlobal name init) := by
  refine .modify fun s h => ⟨h.body,h.exits,h.names,h.range,h.nodup,?_,?_⟩
  · simpa [Item.code] using h.count
  · have hglobal : WellUsed [] := ⟨⟨fun _ => ∅,∅,.nil subset_rfl⟩,by simp⟩
    simpa [or_imp,forall_and,Item.code,hglobal] using h.used

theorem keepsAssigned_bind (hr : ∀ n, r ≠ register n) :
    Respects (Keeps (WellAssigned vars)) (Lower.bind x r) := by
  refine respects_bind fun s h =>
    ⟨h.body,h.exits,fun n hn => ?_,h.range,h.nodup,h.count,h.used⟩
  obtain hn | hn := Visible.of_bindIn hn
  · exact h.names n hn
  · exact hr n hn

end

theorem register_ne_identifier (h : isIdentifier x = true) (n : Nat) : "%" ++ x ≠ register n := by
  intro heq
  obtain rfl := append_left_cancel heq
  obtain ⟨c,rest,hdigits,hc⟩ := head_toString_isDigit n
  simp only [isIdentifier,hdigits,isLetter_eq_false hc,Bool.false_and] at h
  cases h

variable {params : List Node}

theorem isIdentifier_of_mem_paramNames (h : params.all Node.isParam = true)
    (hx : x ∈ params.flatMap Node.paramNames) : isIdentifier x = true := by
  obtain ⟨p,hp,hx⟩ := mem_flatMap.1 hx
  have hparam := all_eq_true.1 h p hp
  cases p with
  | param line names type =>
    simp only [Node.isParam,Bool.and_eq_true] at hparam
    exact all_eq_true.1 hparam.1.2 x hx
  | _ => cases hx

theorem keepsAssigned_enterProcedure (vars : List Nat) (name : String)
    (hparams : params.all Node.isParam = true) :
    Respects (Keeps (WellAssigned vars)) (enterProcedure name params) :=
  respects_enterProcedure
    (fun _ hx => keepsAssigned_bind vars
      (register_ne_identifier (isIdentifier_of_mem_paramNames hparams hx)))
    fun _ h => ⟨h.body,h.exits,h.names,h.range,h.nodup,h.count,h.used⟩

theorem WellAssigned.addProcedure {own name params}
    (h : WellAssigned vars s) (hallots : Allots (Visible s.scopes) own s.temps s'.temps code)
    (hused : WellUsed code) (hσ : s'.surroundings = s.surroundings) (hbody : s'.body = #[])
    (hitems : s'.items.toList = s.items.toList ++ [.procedure name params code]) :
    WellAssigned (vars ++ own) s' := by
  have hle := hallots.le
  have hscopes : s'.scopes = s.scopes := congrArg Surroundings.scopes hσ
  refine ⟨hbody,by rw [hσ,h.exits],hscopes ▸ h.names,?_,?_,?_,?_⟩
  · intro n hn
    obtain hn | hn := mem_append.1 hn
    · have := h.range n hn
      omega
    · exact (hallots.range n hn).2
  · refine h.nodup.append hallots.nodup fun n hn hn' => ?_
    have := h.range n hn
    have := (hallots.range n hn').1
    omega
  · intro n hn
    obtain ⟨hold,hown⟩ := not_or.1 (mt mem_append.2 hn)
    rw [hitems,flatMap_append,writers_append,h.count n hold,flatMap_singleton,
      Item.code,hallots.count n hown (h.names n)]
    split_ifs <;> omega
  · rw [hitems,forall_mem_append,forall_mem_singleton]
    exact ⟨h.used,hused⟩

theorem WellAssigned.of_lowerDeclaration (h : WellAssigned vars s) (hd : d.isDeclaration = true)
    (hrun : Runs (lowerDeclaration d) s () s') :
    ∃ own, WellAssigned (vars ++ own) s' ∧ d.localRegisters s = own.map fun m => some (register m) := by
  cases d with
  | procDecl line name block params result raises =>
    simp only [Node.isDeclaration,Bool.and_eq_true] at hd
    obtain ⟨names,s1,bodyLine,statements,code,scopes,own,henter,rfl,hcode,hown,hσ,hbody,
      hitems⟩ := emits_procedure hrun
    have h1 := keepsAssigned_enterProcedure vars name hd.1.1.2 _ _ _ henter h
    have hstatements : Node.areStatements statements = true := by
      simpa [Node.isStatement] using hd.1.1.1.2.2
    have hnone : visibleSet s1.scopes = ∅ := Set.eq_empty_iff_forall_notMem.2 h1.names
    have hpaths : ∃ marks final, Assigned marks ∅ code final := by
      have hexits : (s1.surroundings.withScopes ({} :: s1.scopes)).exits = [] := h1.exits
      obtain ⟨-,marks,hassigned⟩ := hcode.safe hstatements hnone.subset
      exact ⟨marks,_,hassigned marks (fun _ _ _ => rfl) (by simp [hexits])⟩
    have hconsts : ∀ i ∈ code, i.hasOpcode "const" = true →
        ∃ n, i.writes n = true ∧ writers n code = 1 := by
      intro i hi hconst
      obtain ⟨n,hn,hvars,hrange⟩ := hcode.allots.consts i hi hconst
      exact ⟨n,hn,by rw [hcode.allots.count n hvars (h1.names n),if_pos hrange]⟩
    rw [h1.body] at hitems
    refine ⟨own,h1.addProcedure hcode.allots ⟨hpaths,hconsts⟩ hσ hbody hitems,?_⟩
    rw [Node.localRegisters,after_eq henter,hown]
  | varDecl line inits type =>
    refine ⟨[],?_,rfl⟩
    rw [append_nil]
    exact respects_lowerGlobals (keepsAssigned_report vars) (keepsAssigned_addGlobal vars)
      (fun name => keepsAssigned_bind vars fun n => register_ne_at n name) _ _ _ _ _ hrun h
  | exceptionDecl line name =>
    obtain ⟨-,rfl⟩ := runs_pure_iff.1 hrun
    exact ⟨[],by rwa [append_nil],rfl⟩
  | _ => cases hd

theorem WellAssigned.of_lowerDeclarations (h : WellAssigned vars s)
    (hds : ∀ d ∈ ds, d.isDeclaration = true) (hrun : Runs (ds.forM lowerDeclaration) s () s') :
    ∃ own, WellAssigned (vars ++ own) s' ∧ localRegisters ds s = own.map fun m => some (register m) := by
  induction ds generalizing vars s with
  | nil =>
    obtain ⟨-,rfl⟩ := runs_pure_iff.1 hrun
    exact ⟨[],by rwa [append_nil],rfl⟩
  | cons d rest ih =>
    obtain ⟨hd,hrest⟩ := forall_mem_cons.1 hds
    obtain ⟨_,s1,hfirst,hothers⟩ := hrun.of_bind
    obtain ⟨own1,h1,heq1⟩ := h.of_lowerDeclaration hd hfirst
    obtain ⟨own2,h2,heq2⟩ := ih h1 hrest hothers
    refine ⟨own1 ++ own2,by rwa [← append_assoc],?_⟩
    rw [localRegisters,after_eq hfirst,heq1,heq2,map_append]

theorem WellAssigned.of_lowerProgram (h : WellAssigned [] s)
    (hds : ∀ d ∈ ds, d.isDeclaration = true) (hrun : Runs (lowerProgram ds) s () s') :
    ∃ vars, WellAssigned vars s' ∧ programRegisters ds s = vars.map fun m => some (register m) := by
  obtain ⟨_,s1,hglobal,hrun1⟩ := hrun.of_bind
  obtain ⟨_,s2,hbind,hdeclarations⟩ := hrun1.of_bind
  have h1 := keepsAssigned_addGlobal [] _ _ _ _ _ hglobal h
  have h2 := keepsAssigned_bind [] (fun n => register_ne_at n "exception") _ _ _ hbind h1
  obtain ⟨vars,hvars,heq⟩ := h2.of_lowerDeclarations hds hdeclarations
  refine ⟨vars,hvars,?_⟩
  have hpending : Runs lowerPending s () s2 := hglobal.bind hbind
  rw [programRegisters,after_eq hpending,heq]

theorem WellAssigned.paths (h : WellAssigned vars s) (item : Item) (hitem : item ∈ s.items.toList) :
    ∃ marks final, Assigned marks ∅ item.code final := (h.used item hitem).paths

theorem WellAssigned.reads (h : WellAssigned vars s) (item : Item) (hitem : item ∈ s.items.toList)
    (i : Instr) (hi : i ∈ item.code) (n : Nat) (hreads : i.reads n = true) : n < s.temps := by
  obtain ⟨marks,final,hassigned⟩ := h.paths item hitem
  obtain ⟨j,hj,hwrites⟩ := hassigned.exists_writes hi hreads
  by_cases hn : n ∈ vars
  · exact h.range n hn
  · have hpos : 0 < writers n (s.items.toList.flatMap Item.code) :=
      countP_pos_iff.2 ⟨j,mem_flatMap.2 ⟨item,hitem,hj⟩,hwrites⟩
    rw [h.count n hn] at hpos
    by_contra hlt
    simp [hlt] at hpos

theorem wellAssigned_start (functions : List String) (reporter : Reporter) :
    WellAssigned [] { functions, reporter } := by
  refine ⟨rfl,rfl,?_,by simp,.nil,by simp,by simp⟩
  rintro n ⟨x,hx⟩
  cases hx

theorem mem_map_register :
    some (register n) ∈ vars.map (fun m => some (register m)) ↔ n ∈ vars := by
  constructor
  · intro h
    obtain ⟨m,hm,heq⟩ := mem_map.1 h
    rwa [← register_injective (Option.some.inj heq)]
  · exact fun h => mem_map.2 ⟨n,h,rfl⟩

theorem lowerProgram_registers (source : String) (r r' : Reporter) (c c' : Checker)
    (ds ds' : List Node) (result : Except Fault Unit) (functions : List String) (reporter : Reporter)
    (s : Lowering) (hparse : Runs (parse source) r (some ds) r')
    (hcheck : (checkProgram ds).run c = ((ds',result),c'))
    (hlower : Runs (lowerProgram ds') { functions, reporter } () s) :
    (∀ name params body, .procedure name params body ∈ s.items.toList →
      ∀ before p i n, Path body before p → body[p]? = some i → i.reads n = true →
        ∃ q ∈ before, ∃ j, body[q]? = some j ∧ j.writes n = true) ∧
    (∀ n, some (register n) ∉ programRegisters ds' { functions, reporter } →
      (∃ i ∈ s.items.toList.flatMap Item.code, i.reads n = true ∨ i.writes n = true) →
        writers n (s.items.toList.flatMap Item.code) = 1) ∧
    (programRegisters ds' { functions, reporter }).Nodup := by
  have hds := isDeclaration_of_checkProgram (isProgram_of_parse hparse) hcheck
  obtain ⟨vars,hs,hvars⟩ := (wellAssigned_start functions reporter).of_lowerProgram hds hlower
  rw [hvars]
  refine ⟨?_,?_,?_⟩
  · intro name params body hitem before p i n hpath hi hreads
    obtain ⟨marks,final,hassigned⟩ := hs.paths _ hitem
    exact hpath.written hassigned hi hreads
  · rintro n hn ⟨i,hi,hused⟩
    rw [mem_map_register] at hn
    have hcount := hs.count n hn
    obtain ⟨item,hitem,hi'⟩ := mem_flatMap.1 hi
    obtain hreads | hwrites := hused
    · have hlt : n < s.temps := hs.reads item hitem i hi' n hreads
      rwa [if_pos hlt] at hcount
    · have hpos : 0 < writers n (s.items.toList.flatMap Item.code) :=
        countP_pos_iff.2 ⟨i,hi,hwrites⟩
      split_ifs at hcount <;> omega
  · exact (nodup_map_iff fun m n h => register_injective (Option.some.inj h)).2 hs.nodup

def parsed (source : String) : List Node :=
  match ((parse source).run.run {}).1 with
  | .ok (some ds) => ds
  | _ => []

theorem runs_parse_of_isEmpty (source : String) (h : (parsed source).isEmpty = false) :
    Runs (parse source) {} (some (parsed source)) ((parse source).run.run {}).2 := by
  unfold parsed at h ⊢
  refine Prod.ext ?_ rfl
  split at h
  · rename_i ds hds
    simp [hds]
  · cases h

theorem run_eq (x : StateM σ (α × β)) (s : σ) :
    x.run s = (((x.run s).1.1,(x.run s).1.2),(x.run s).2) := rfl

theorem run_eq_ok {x : StateM σ (α × Except Fault Unit)} {s : σ} (h : (x.run s).1.2.isOk = true) :
    x.run s = (((x.run s).1.1,.ok ()),(x.run s).2) :=
  Prod.ext (Prod.ext rfl (eq_ok_of_isOk h)) rfl

def retryingSource : String :=
  "exception E;def f():int\x7breturn 1;\x7ddef main()\x7btry\x7bvar y=f():int;
while(y<f()&&f()<9)\x7bvar z=y:int;raise E;\x7d\x7dexcept E\x7b\x7dreturn;\x7d"

theorem retryingSource_registers : ∃ ds r' ds' result c' s,
    Runs (parse retryingSource) {} (some ds) r' ∧
    (checkProgram ds).run {} = ((ds',result),c') ∧
    Runs (lowerProgram ds') { functions := c'.functions, reporter := {} } () s ∧
    (r'.isClean && c'.reporter.isClean && s.reporter.isClean) = true ∧
    (∀ name params body, .procedure name params body ∈ s.items.toList →
      ∀ before p i n, Path body before p → body[p]? = some i → i.reads n = true →
        ∃ q ∈ before, ∃ j, body[q]? = some j ∧ j.writes n = true) ∧
    (∀ n, some (register n) ∉ programRegisters ds' { functions := c'.functions, reporter := {} } →
      (∃ i ∈ s.items.toList.flatMap Item.code, i.reads n = true ∨ i.writes n = true) →
        writers n (s.items.toList.flatMap Item.code) = 1) ∧
    (programRegisters ds' { functions := c'.functions, reporter := {} }).Nodup := by
  have hparse := runs_parse_of_isEmpty retryingSource (by decide +kernel)
  have hcheck := run_eq (checkProgram (parsed retryingSource)) {}
  have hlower := runs_of_isOk
    (x := lowerProgram ((checkProgram (parsed retryingSource)).run {}).1.1)
    (s := { functions := ((checkProgram (parsed retryingSource)).run {}).2.functions, reporter := {} })
    (by decide +kernel)
  have hregisters := lowerProgram_registers _ _ _ _ _ _ _ _ _ _ _ hparse hcheck hlower
  exact ⟨_,_,_,_,_,_,hparse,hcheck,hlower,by decide +kernel,hregisters⟩

end BxToolchain.Bx
