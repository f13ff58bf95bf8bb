import BxToolchain.Proofs.Bx.Passing

namespace BxToolchain.Bx

open List

variable {c c' : Checker} {line : Int} {name : String} {block result : Node}
  {params raises ds : List Node} {r : Except Fault Bool} {exceptions : List String}
  {sig : Signature}

def Node.function? : Node → Option String
  | .procDecl _ _ _ _ .absent _ => none
  | .procDecl _ name _ _ _ _ => some name
  | _ => none

def Node.isAbsent : Node → Bool
  | .absent => true
  | _ => false

theorem Node.isAbsent_eq_false {n : Node} (h : n ≠ .absent) : n.isAbsent = false := by
  cases n with
  | absent => exact (h rfl).elim
  | _ => rfl

def Checker.note (c : Checker) (name : String) (result : Node) (sig : Signature) : Checker :=
  { c with
    procedures := c.procedures.insert name sig
    functions := c.functions ++ (if result.isAbsent then [] else [name])
    subroutines := c.subroutines ++ (if result.isAbsent then [name] else []) }

structure Signs (exceptions : List String) (params : List Node) (result : Node) (raises : List Node)
    (sig : Signature) : Prop where
  inputs : paramTypes params = .ok sig.inputs
  raises : raisedNames exceptions raises = .ok sig.raises
  result : result = .absent ∧ sig.result = "void" ∨ result ≠ .absent ∧ result.type? = some sig.result

inductive Collecting (c : Checker) (name : String) (block : Node) (params : List Node) (result : Node)
    (raises : List Node) : Except Fault Bool → Checker → Prop where
  | stopped (r : Report) : isRuntimeName name = true ∨ c.procedures.contains name = true ∨
      name = "main" ∧ raises ≠ [] → Collecting c name block params result raises (.ok false)
        (c.reporting [r])
  | fault (e : Fault) : c.procedures.contains name = false →
      (∀ sig, ¬Signs c.exceptions params result raises sig) →
      Collecting c name block params result raises (.error e) c
  | noted {sig reports} : isRuntimeName name = false →
      c.procedures.contains name = false → (name = "main" → raises = []) →
      Signs c.exceptions params result raises sig → (reports = [] → block.returns = true) →
      Collecting c name block params result raises (.ok true)
        ((c.note name result sig).reporting reports)

theorem collecting_of_run
    (hrun : (collectProcedure line name block params result raises).run c = (r,c')) :
    Collecting c name block params result raises r c' := by
  have hnoted : ∀ sig c1, isRuntimeName name = false → c.procedures.contains name = false →
      (name = "main" → raises = []) → Signs c.exceptions params result raises sig →
      c1 = c.note name result sig → (do
        set c1
        unless block.returns do
          report ("Procedure " ++ name ++ " is missing a return statement.") line
        return .ok true : Check (Except Fault Bool)).run c = (r,c') →
      Collecting c name block params result raises r c' := by
    intro sig c1 hname hnew hmain hsigns hc1 hrun
    cases hreturns : block.returns with
    | true =>
      rw [hreturns] at hrun
      obtain ⟨rfl,rfl⟩ := Prod.mk.inj hrun
      rw [hc1,← Checker.reporting_nil (c.note name result sig)]
      exact .noted hname hnew hmain hsigns fun _ => hreturns
    | false =>
      rw [hreturns] at hrun
      obtain ⟨rfl,rfl⟩ := Prod.mk.inj hrun
      rw [hc1]
      exact .noted hname hnew hmain hsigns fun h => by cases h
  unfold collectProcedure at hrun
  rw [run_get_bind] at hrun
  split at hrun
  · rename_i hname
    obtain ⟨rfl,rfl⟩ := Prod.mk.inj hrun
    exact .stopped _ (.inl hname)
  rename_i hname
  split at hrun
  · rename_i hknown
    obtain ⟨rfl,rfl⟩ := Prod.mk.inj hrun
    exact .stopped _ (.inr (.inl hknown))
  rename_i hnew
  split at hrun
  · rename_i hmain
    obtain ⟨rfl,rfl⟩ := Prod.mk.inj hrun
    exact .stopped _ (.inr (.inr (by simpa using hmain)))
  rename_i hmain
  rw [Bool.not_eq_true] at hname hnew
  have hmain : name = "main" → raises = [] := by
    rintro rfl
    simpa using hmain
  split at hrun
  · rename_i e hinputs
    obtain ⟨rfl,rfl⟩ := Prod.mk.inj hrun
    exact .fault e hnew fun sig h => by cases hinputs.symm.trans h.inputs
  · rename_i e hinputs hraises
    obtain ⟨rfl,rfl⟩ := Prod.mk.inj hrun
    exact .fault e hnew fun sig h => by cases hraises.symm.trans h.raises
  rename_i inputs raised hinputs hraises
  dsimp only at hrun
  split at hrun
  · exact hnoted ⟨inputs,"void",raised⟩ _ hname hnew hmain ⟨hinputs,hraises,.inl ⟨rfl,rfl⟩⟩
      (by simp [Checker.note,Node.isAbsent]) hrun
  · rename_i habsent
    split at hrun
    · rename_i htype
      obtain ⟨rfl,rfl⟩ := Prod.mk.inj hrun
      refine .fault _ hnew fun sig h => ?_
      obtain ⟨rfl,-⟩ | ⟨-,h⟩ := h.result
      · exact habsent rfl
      · cases htype.symm.trans h
    · rename_i t ht
      exact hnoted ⟨inputs,t,raised⟩ _ hname hnew hmain ⟨hinputs,hraises,.inr ⟨habsent,ht⟩⟩
        (by simp [Checker.note,Node.isAbsent_eq_false habsent]) hrun

structure Collects (c c' : Checker) : Prop where
  grows : Grows c c'
  procedures : ∀ name, c.procedures.contains name = true → c'.procedures.contains name = true
  scopes : c'.scopes = c.scopes
  current : c'.current = c.current

instance : Std.Refl Collects := ⟨fun _ => ⟨prefix_refl _,fun _ => id,rfl,rfl⟩⟩

instance : Trans Collects Collects Collects :=
  ⟨fun h h' => ⟨Trans.trans h.grows h'.grows,fun name => h'.procedures name ∘ h.procedures name,
    h'.scopes.trans h.scopes,h'.current.trans h.current⟩⟩

theorem Collecting.collects
    (h : Collecting c name block params result raises r c') : Collects c c' := by
  cases h with
  | stopped => exact ⟨prefix_append _ _,fun _ => id,rfl,rfl⟩
  | fault => exact Std.Refl.refl (r := Collects) c
  | noted =>
    refine ⟨prefix_append _ _,fun other hother => ?_,rfl,rfl⟩
    rw [Checker.reporting,Checker.note,Table.contains_insert,hother,Bool.or_true]

theorem collects_collectProcedures (ds : List Node) : Upholds Collects (collectProcedures ds) := by
  fun_induction collectProcedures ds with
  | case1 => exact .pure
  | case2 line name block params result raises rest ih =>
    refine Upholds.bind (R := Collects) (fun c => (collecting_of_run rfl).collects) fun r => ?_
    split
    · exact .pure
    · exact .pure
    · exact ih
  | case3 d rest _ ih => exact ih

def Node.exception? : Node → Option String
  | .exceptionDecl _ name => some name
  | _ => none

theorem run_collectExceptions (ds : List Node) (c : Checker) : ∃ exceptions reports,
    (collectExceptions ds).run c = ((),{ c with exceptions }.reporting reports) ∧
      ∀ e, e ∈ exceptions ↔ e ∈ c.exceptions ∨ e ∈ ds.filterMap Node.exception? := by
  unfold collectExceptions
  induction ds generalizing c with
  | nil => exact ⟨c.exceptions,[],by rw [Checker.reporting_nil]; rfl,by simp⟩
  | cons d rest ih =>
    rw [List.forM]
    cases d with
    | exceptionDecl line name =>
      simp only [StateT.run_bind,StateT.run_get,pure_bind]
      by_cases hknown : c.exceptions.contains name = true
      · obtain ⟨r,hr⟩ : ∃ r, (report ("Exception " ++ name ++ " defined twice.") line).run c =
          ((),c.reporting [r]) := ⟨_,rfl⟩
        obtain ⟨exceptions,reports,hrun,hmem⟩ := ih (c.reporting [r])
        refine ⟨exceptions,r :: reports,?_,fun e => ?_⟩
        · rw [if_pos hknown,hr]
          exact hrun.trans (by simp [Checker.reporting])
        · simp only [hmem,filterMap_cons,Node.exception?,mem_cons]
          rw [contains_iff_mem] at hknown
          constructor
          · tauto
          · rintro (h | rfl | h)
            · exact .inl h
            · exact .inl hknown
            · exact .inr h
      · obtain ⟨exceptions,reports,hrun,hmem⟩ := ih { c with exceptions := c.exceptions ++ [name] }
        refine ⟨exceptions,reports,?_,fun e => ?_⟩
        · rw [if_neg hknown]
          exact hrun
        · simp [hmem,Node.exception?,or_assoc]
    | _ => exact ih c

theorem collects_of_run {r}
    (hrun : (collectExceptions ds >>= fun _ => collectProcedures ds).run c = (r,c')) :
    Collects c c' := by
  obtain ⟨exceptions,reports,hexceptions,-⟩ := run_collectExceptions ds c
  rw [run_bind_of hexceptions] at hrun
  have hexceptions : Collects c ({ c with exceptions }.reporting reports) :=
    ⟨prefix_append _ _,fun _ => id,rfl,rfl⟩
  exact Trans.trans hexceptions ((collects_collectProcedures ds).of_run hrun)

theorem exists_paramTypes (hparams : params.all Node.isParam = true) :
    ∃ inputs, paramTypes params = .ok inputs ∧ inputs.all isWordType = true := by
  induction params with
  | nil => exact ⟨[],rfl,rfl⟩
  | cons p rest ih =>
    rw [all_cons,Bool.and_eq_true] at hparams
    cases p with
    | param line names type =>
      simp only [Node.isParam,Bool.and_eq_true,Bool.not_eq_true'] at hparams
      obtain ⟨t,htype,ht⟩ := isWordType_of_isType hparams.1.2
      obtain ⟨inputs,hinputs,hwords⟩ := ih hparams.2
      refine ⟨names.map (fun _ => t) ++ inputs,?_,?_⟩
      · rw [paramTypes,hparams.1.1.1,htype,hinputs]
        rfl
      · simp [hwords,ht]
    | _ => cases hparams.1

theorem raisedNames_eq (hraises : raises.all Node.isRaises = true) :
    raisedNames declared raises =
      if ∀ e ∈ raises.filterMap Node.name?, e ∈ declared then .ok (raises.filterMap Node.name?)
      else .error (.unboundName "dec") := by
  induction raises with
  | nil => simp [raisedNames]
  | cons r rest ih =>
    rw [all_cons,Bool.and_eq_true] at hraises
    cases r with
    | raises line name =>
      simp only [raisedNames,Node.name?,filterMap_cons,forall_mem_cons,ih hraises.2,
        contains_iff_mem]
      by_cases hname : name ∈ declared
      · simp only [hname,if_true,true_and]
        split
        · rfl
        · rfl
      · simp [hname]
    | _ => cases hraises.1

theorem exists_resultType (hresult : result.isResult = true) (habsent : result ≠ .absent) :
    ∃ t, result.type? = some t ∧ isWordType t = true := by
  refine isWordType_of_isType ?_
  cases result with
  | absent => exact (habsent rfl).elim
  | _ => exact hresult

theorem signs_iff (hd : (Node.procDecl line name block params result raises).isDeclaration = true) :
    Signs exceptions params result raises sig ↔ paramTypes params = .ok sig.inputs ∧
      sig.raises = raises.filterMap Node.name? ∧ (∀ e ∈ sig.raises, e ∈ exceptions) ∧
      (result = .absent ∧ sig.result = "void" ∨
        result ≠ .absent ∧ result.type? = some sig.result ∧ isWordType sig.result = true) := by
  simp only [Node.isDeclaration,Bool.and_eq_true] at hd
  constructor
  · intro h
    have hraises := h.raises
    rw [raisedNames_eq hd.2] at hraises
    split at hraises
    · rename_i hdeclared
      obtain hraises := Except.ok.inj hraises
      refine ⟨h.inputs,hraises.symm,hraises ▸ hdeclared,h.result.imp_right fun h => ⟨h.1,h.2,?_⟩⟩
      obtain ⟨t,ht,hword⟩ := exists_resultType hd.1.2 h.1
      cases ht.symm.trans h.2
      exact hword
    · cases hraises
  · rintro ⟨hinputs,hraises,hdeclared,hresult⟩
    refine ⟨hinputs,?_,hresult.imp_right fun h => ⟨h.1,h.2.1⟩⟩
    rw [raisedNames_eq hd.2,if_pos (hraises ▸ hdeclared),hraises]

theorem exists_signs
    (hd : (Node.procDecl line name block params result raises).isDeclaration = true)
    (hdeclared : ∀ e ∈ raises.filterMap Node.name?, e ∈ exceptions) :
    ∃ sig, Signs exceptions params result raises sig := by
  have hparts := hd
  simp only [Node.isDeclaration,Bool.and_eq_true] at hparts
  obtain ⟨inputs,hinputs,-⟩ := exists_paramTypes hparts.1.1.2
  by_cases habsent : result = .absent
  · exact ⟨⟨inputs,"void",_⟩,(signs_iff hd).2 ⟨hinputs,rfl,hdeclared,.inl ⟨habsent,rfl⟩⟩⟩
  · obtain ⟨t,ht,hword⟩ := exists_resultType hparts.1.2 habsent
    exact ⟨⟨inputs,t,_⟩,(signs_iff hd).2 ⟨hinputs,rfl,hdeclared,.inr ⟨habsent,ht,hword⟩⟩⟩

structure WellSigned (procedures : Table String Signature) (functions : List String) : Prop where
  inputs : ∀ name sig, procedures.get? name = some sig → sig.inputs.all isWordType = true
  function : ∀ name sig, procedures.get? name = some sig → functions.contains name = true →
    isWordType sig.result = true
  subroutine : ∀ name sig, procedures.get? name = some sig → functions.contains name = false →
    sig.result = "void"
  declared : ∀ name, functions.contains name = true → procedures.contains name = true

theorem WellSigned.insert (sig : Signature) (own : List String)
    (h : WellSigned procedures functions) (hnew : procedures.contains name = false)
    (hinputs : sig.inputs.all isWordType = true)
    (hresult : own = [name] ∧ isWordType sig.result = true ∨ own = [] ∧ sig.result = "void") :
    WellSigned (procedures.insert name sig) (functions ++ own) := by
  have hsig : ∀ other sig', (procedures.insert name sig).get? other = some sig' →
      other = name ∧ sig' = sig ∨ other ≠ name ∧ procedures.get? other = some sig' := by
    intro other sig' h
    rw [Table.get?_insert] at h
    split at h
    · rename_i heq
      exact .inl ⟨by simpa using heq,(Option.some.inj h).symm⟩
    · rename_i hne
      exact .inr ⟨by simpa using hne,h⟩
  have hother : ∀ other, other ≠ name →
      (functions ++ own).contains other = functions.contains other := by
    intro other hne
    obtain ⟨rfl,-⟩ | ⟨rfl,-⟩ := hresult
    · simp [hne]
    · simp
  have hself : (functions ++ own).contains name = own.contains name := by
    have hnot : functions.contains name = false := by
      by_contra hfunction
      simp [h.declared name (by simpa using hfunction)] at hnew
    rw [contains_append,hnot,Bool.false_or]
  refine ⟨?_,?_,?_,?_⟩
  · intro other sig' hget
    obtain ⟨-,rfl⟩ | ⟨-,hget⟩ := hsig other sig' hget
    · exact hinputs
    · exact h.inputs other sig' hget
  · intro other sig' hget hfunction
    obtain ⟨rfl,rfl⟩ | ⟨hne,hget⟩ := hsig other sig' hget
    · obtain ⟨-,ht⟩ | ⟨rfl,-⟩ := hresult
      · exact ht
      · rw [hself] at hfunction
        simp at hfunction
    · exact h.function other sig' hget (hother other hne ▸ hfunction)
  · intro other sig' hget hfunction
    obtain ⟨rfl,rfl⟩ | ⟨hne,hget⟩ := hsig other sig' hget
    · obtain ⟨rfl,-⟩ | ⟨-,ht⟩ := hresult
      · rw [hself] at hfunction
        simp at hfunction
      · exact ht
    · exact h.subroutine other sig' hget (hother other hne ▸ hfunction)
  · intro other hfunction
    rw [Table.contains_insert]
    by_cases hne : other = name
    · simp [hne]
    · simp [h.declared other (hother other hne ▸ hfunction)]

structure Collected (c : Checker) (name : String) (block : Node) (params raises : List Node) :
    Prop where
  named : isRuntimeName name = false
  main : name = "main" → raises = []
  returns : block.returns = true
  signature : ∃ sig, c.procedures.get? name = some sig ∧ paramTypes params = .ok sig.inputs ∧
    sig.raises = raises.filterMap Node.name?
  declared : ∀ e ∈ raises.filterMap Node.name?, e ∈ c.exceptions

structure Extends (c c' : Checker) : Prop where
  procedures : ∀ name sig, c.procedures.get? name = some sig → c'.procedures.get? name = some sig
  exceptions : c'.exceptions = c.exceptions

theorem Extends.trans (h : Extends c c') (h' : Extends c' c'') : Extends c c'' :=
  ⟨fun name sig hsig => h'.procedures name sig (h.procedures name sig hsig),
    h'.exceptions.trans h.exceptions⟩

theorem Collected.extended (h : Collected c name block params raises) (hc : Extends c c') :
    Collected c' name block params raises := by
  obtain ⟨sig,hsig,hinputs,hraises⟩ := h.signature
  refine ⟨h.named,h.main,h.returns,⟨sig,hc.procedures name sig hsig,hinputs,hraises⟩,?_⟩
  rw [hc.exceptions]
  exact h.declared

theorem extends_note (hnew : c.procedures.contains name = false) :
    Extends c (c.note name result sig) := by
  refine ⟨fun other sig' hsig => ?_,rfl⟩
  rw [Checker.note,Table.get?_insert]
  split
  · rename_i heq
    have hcontains := (Table.contains_iff _ _).2 ⟨sig',hsig⟩
    rw [beq_iff_eq.1 heq,hnew] at hcontains
    cases hcontains
  · exact hsig

theorem WellSigned.note (hc : WellSigned c.procedures c.functions)
    (hd : (Node.procDecl line name block params result raises).isDeclaration = true)
    (hnew : c.procedures.contains name = false)
    (hsigns : Signs exceptions params result raises sig) :
    WellSigned (c.note name result sig).procedures (c.note name result sig).functions := by
  obtain ⟨hinputs,-,-,hresult⟩ := (signs_iff hd).1 hsigns
  simp only [Node.isDeclaration,Bool.and_eq_true] at hd
  obtain ⟨inputs,hinputs',hwords⟩ := exists_paramTypes hd.1.1.2
  obtain rfl := Except.ok.inj (hinputs'.symm.trans hinputs)
  refine hc.insert sig _ hnew hwords ?_
  obtain ⟨rfl,hvoid⟩ | ⟨habsent,-,hword⟩ := hresult
  · exact .inr ⟨rfl,hvoid⟩
  · exact .inl ⟨by rw [Node.isAbsent_eq_false habsent]; rfl,hword⟩

theorem wellSigned_printers : WellSigned printers [] := by
  have hprinters : ∀ name sig, printers.get? name = some sig →
      sig.inputs.all isWordType = true ∧ sig.result = "void" := by
    intro name sig h
    have hmem := Table.mem_of_get? h
    simp only [printers,mem_cons,not_mem_nil,or_false,Prod.mk.injEq] at hmem
    obtain ⟨-,rfl⟩ | ⟨-,rfl⟩ := hmem
    · exact ⟨by decide,rfl⟩
    · exact ⟨by decide,rfl⟩
  exact ⟨fun name sig h => (hprinters name sig h).1,fun _ _ _ h => by simp at h,
    fun name sig h _ => (hprinters name sig h).2,fun _ h => by simp at h⟩

structure Gathers (c c' : Checker) (ds : List Node) : Prop where
  signed : WellSigned c'.procedures c'.functions
  extended : Extends c c'
  collected : ∀ line name block params result raises,
    .procDecl line name block params result raises ∈ ds → Collected c' name block params raises
  functions : c'.functions = c.functions ++ ds.filterMap Node.function?

theorem gathers_of_run (hc : WellSigned c.procedures c.functions)
    (hds : ds.all Node.isDeclaration = true) (hrun : (collectProcedures ds).run c = (.ok (),c'))
    (hsilent : c'.reporter.reports = c.reporter.reports) : Gathers c c' ds := by
  induction ds generalizing c with
  | nil =>
    obtain ⟨-,rfl⟩ := Prod.mk.inj hrun
    exact ⟨hc,⟨fun _ _ => id,rfl⟩,by simp,(append_nil _).symm⟩
  | cons d rest ih =>
    rw [all_cons,Bool.and_eq_true] at hds
    have hskip : d.procedure? = none → (collectProcedures rest).run c = (.ok (),c') →
        Gathers c c' (d :: rest) := by
      intro hd hrest
      obtain ⟨hsigned,hextends,hcollected,hfunctions⟩ := ih hc hds.2 hrest hsilent
      refine ⟨hsigned,hextends,fun _ _ _ _ _ _ hmem => ?_,?_⟩
      · obtain rfl | hmem := mem_cons.1 hmem
        · cases hd
        · exact hcollected _ _ _ _ _ _ hmem
      · rw [hfunctions,filterMap_cons_none]
        cases d with
        | procDecl => cases hd
        | _ => rfl
    cases d with
    | procDecl line name block params result raises =>
      rw [collectProcedures] at hrun
      obtain ⟨r,c1,hd,hrest⟩ := exists_run_of_bind hrun
      cases collecting_of_run hd with
      | stopped r =>
        obtain ⟨-,rfl⟩ := Prod.mk.inj hrest
        simp [Checker.reporting] at hsilent
      | fault => cases hrest
      | @noted sig reports hname hnew hmain hsigns hreturns =>
        obtain ⟨hc1,hc'⟩ := (collecting_of_run hd).collects.grows.silent_of_trans
          ((collects_collectProcedures rest).of_run hrest).grows hsilent
        obtain rfl : reports = [] := append_right_eq_self.1 hc1
        rw [Checker.reporting_nil] at hrest hc'
        obtain ⟨hinputs,hraises,hdeclared,-⟩ := (signs_iff hds.1).1 hsigns
        obtain ⟨hsigned,hextends,hcollected,hfunctions⟩ :=
          ih (hc.note hds.1 hnew hsigns) hds.2 hrest hc'
        refine ⟨hsigned,(extends_note hnew).trans hextends,fun _ _ _ _ _ _ hmem => ?_,?_⟩
        · obtain heq | hmem := mem_cons.1 hmem
          · obtain ⟨-,rfl,rfl,rfl,-,rfl⟩ := Node.procDecl.inj heq
            exact Collected.extended ⟨hname,hmain,hreturns rfl,
              ⟨sig,Table.get?_insert_self _ _ _,hinputs,hraises⟩,hraises ▸ hdeclared⟩ hextends
          · exact hcollected _ _ _ _ _ _ hmem
        · rw [hfunctions,Checker.note,append_assoc,filterMap_cons]
          cases result with
          | _ => rfl
    | varDecl | exceptionDecl => exact hskip rfl hrun
    | _ => cases hds.1

end BxToolchain.Bx
