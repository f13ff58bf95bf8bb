import BxToolchain.Proofs.Bx.RegisterUse

namespace BxToolchain.Bx

open List

variable {d : Node} {ds new : List Node} {exceptions : List String} {table : Table String Signature}

def Node.IsDeclarable (exceptions : List String) : Node → Prop
  | .procDecl _ name _ _ _ clause => isRuntimeName name = false ∧ (name = "main" → clause = []) ∧
      ∀ e ∈ clause.filterMap Node.name?, e ∈ exceptions
  | _ => False

def procedureNames (ds : List Node) : List String := ds.filterMap Node.procedure?

structure Registered (exceptions : List String) (table : Table String Signature)
    (ds new : List Node) : Prop where
  first : new <+: ds.filter (·.procedure?.isSome)
  declarable : ∀ d ∈ new, d.IsDeclarable exceptions
  fresh : ∀ name ∈ procedureNames new, table.contains name = false
  distinct : (procedureNames new).Nodup
  covered : ∀ name ∈ procedureNames ds, name ∈ procedureNames new ∨ table.contains name = true

theorem registered_nil_iff :
    Registered exceptions table ds [] ↔ ∀ name ∈ procedureNames ds, table.contains name = true := by
  refine ⟨fun h name hname => ?_,fun h => ⟨ nil_prefix,?_,?_,.nil,fun name hname => .inr ?_⟩⟩
  · simpa [procedureNames] using h.covered name hname
  · simp
  · simp [procedureNames]
  · exact h name hname

theorem registered_skip_iff (hd : d.procedure? = none) :
    Registered exceptions table (d :: rest) new ↔ Registered exceptions table rest new := by
  have hfilter : (d :: rest).filter (·.procedure?.isSome) = rest.filter (·.procedure?.isSome) :=
    filter_cons_of_neg (by simp [hd])
  have hnames : procedureNames (d :: rest) = procedureNames rest := filterMap_cons_none hd
  constructor
  · rintro ⟨hfirst,hdeclarable,hfresh,hdistinct,hcovered⟩
    exact ⟨hfilter ▸ hfirst,hdeclarable,hfresh,hdistinct,hnames ▸ hcovered⟩
  · rintro ⟨hfirst,hdeclarable,hfresh,hdistinct,hcovered⟩
    exact ⟨hfilter ▸ hfirst,hdeclarable,hfresh,hdistinct,hnames ▸ hcovered⟩

theorem registered_cons_iff (hd : d.procedure? = some name) (sig : Signature) :
    Registered exceptions table (d :: rest) (d' :: new) ↔ d' = d ∧ d.IsDeclarable exceptions ∧
      table.contains name = false ∧ Registered exceptions (table.insert name sig) rest new := by
  have hfilter : (d :: rest).filter (·.procedure?.isSome) = d :: rest.filter (·.procedure?.isSome) :=
    filter_cons_of_pos (by simp [hd])
  have hnames : ∀ ds, procedureNames (d :: ds) = name :: procedureNames ds :=
    fun ds => filterMap_cons_some hd
  constructor
  · rintro ⟨hfirst,hdeclarable,hfresh,hdistinct,hcovered⟩
    rw [hfilter,cons_prefix_cons] at hfirst
    obtain ⟨rfl,hfirst⟩ := hfirst
    rw [hnames] at hfresh hdistinct
    simp only [hnames] at hcovered
    rw [forall_mem_cons] at hfresh hdeclarable
    rw [nodup_cons] at hdistinct
    refine ⟨rfl,hdeclarable.1,hfresh.1,hfirst,hdeclarable.2,?_,hdistinct.2,?_⟩
    · intro other hother
      have hne : other ≠ name := fun h => hdistinct.1 (h ▸ hother)
      simp [Table.contains_insert,hne,hfresh.2 other hother]
    · intro other hother
      simpa [Table.contains_insert,or_left_comm,or_assoc] using
        hcovered other (mem_cons_of_mem _ hother)
  · rintro ⟨rfl,hdeclarable,hnew,hfirst,hothers,hfresh,hdistinct,hcovered⟩
    simp only [Table.contains_insert,Bool.or_eq_false_iff,beq_eq_false_iff_ne,Bool.or_eq_true,
      beq_iff_eq] at hfresh hcovered
    refine ⟨by rw [hfilter,cons_prefix_cons]; exact ⟨rfl,hfirst⟩,
      forall_mem_cons.2 ⟨hdeclarable,hothers⟩,?_,?_,?_⟩
    · rw [hnames,forall_mem_cons]
      exact ⟨hnew,fun other hother => (hfresh other hother).2⟩
    · rw [hnames,nodup_cons]
      exact ⟨fun hmem => (hfresh name hmem).1 rfl,hdistinct⟩
    · simp only [hnames,mem_cons]
      rintro other (rfl | hother)
      · exact .inl (.inl rfl)
      · have h := hcovered other hother
        tauto

theorem Registered.taken_or_declarable (h : Registered exceptions table (d :: rest) new)
    (hd : d.procedure? = some name) :
    new = [] ∧ table.contains name = true ∨
      d.IsDeclarable exceptions ∧ table.contains name = false := by
  cases new with
  | nil =>
    refine .inl ⟨rfl,registered_nil_iff.1 h name ?_⟩
    rw [procedureNames,filterMap_cons_some hd]
    exact mem_cons_self
  | cons d' new =>
    obtain ⟨-,hdeclarable,hfresh,-⟩ := (registered_cons_iff hd ⟨[],"",[]⟩).1 h
    exact .inr ⟨hdeclarable,hfresh⟩

theorem exists_run_collectProcedures_iff (hds : ds.all Node.isDeclaration = true) (x : String) :
    (∃ c', (collectProcedures ds).run c = (.ok (),c') ∧
      (∀ name ∈ procedureNames ds, c'.procedures.contains name = true) ∧
      c'.procedures.contains x = true) ↔
    ∃ new, Registered c.exceptions c.procedures ds new ∧
      (x ∈ procedureNames new ∨ c.procedures.contains x = true) := by
  fun_induction collectProcedures ds generalizing c with
  | case1 =>
    constructor
    · rintro ⟨_,hrun,hall,hx⟩
      obtain ⟨-,rfl⟩ := Prod.mk.inj hrun
      exact ⟨[],registered_nil_iff.2 hall,.inr hx⟩
    · rintro ⟨new,hnew,hx⟩
      obtain rfl := prefix_nil.1 hnew.first
      exact ⟨c,rfl,registered_nil_iff.1 hnew,by simpa [procedureNames] using hx⟩
  | case2 line name block params result raises rest ih =>
    rw [all_cons,Bool.and_eq_true] at hds
    have hname : (Node.procDecl line name block params result raises).procedure? = some name := rfl
    have hnames : procedureNames (.procDecl line name block params result raises :: rest) =
      name :: procedureNames rest := rfl
    rcases hrun : (collectProcedure line name block params result raises).run c with ⟨r,c1⟩
    rw [run_bind_of hrun]
    cases collecting_of_run hrun with
    | stopped r hstopped =>
      constructor
      · rintro ⟨_,hrest,hall,hx⟩
        obtain ⟨-,rfl⟩ := Prod.mk.inj hrest
        exact ⟨[],registered_nil_iff.2 hall,.inr hx⟩
      · rintro ⟨new,hnew,hx⟩
        obtain ⟨rfl,-⟩ | ⟨⟨hruntime,hmain,-⟩,hfresh⟩ := hnew.taken_or_declarable hname
        · exact ⟨_,rfl,registered_nil_iff.1 hnew,by simpa [procedureNames] using hx⟩
        · rw [hruntime,hfresh] at hstopped
          simp only [Bool.false_eq_true,false_or] at hstopped
          exact (hstopped.2 (hmain hstopped.1)).elim
    | fault e hfresh hsigns =>
      constructor
      · rintro ⟨_,hrest,-⟩
        cases hrest
      · rintro ⟨new,hnew,-⟩
        obtain ⟨-,htaken⟩ | ⟨⟨-,-,hdeclared⟩,-⟩ := hnew.taken_or_declarable hname
        · cases htaken.symm.trans hfresh
        · obtain ⟨sig,hsig⟩ := exists_signs hds.1 hdeclared
          exact (hsigns sig hsig).elim
    | @noted sig reports hruntime hfresh hmain hsigns _ =>
      have hcollects := collects_collectProcedures rest
      obtain ⟨-,hraises,hdeclared,-⟩ := (signs_iff hds.1).1 hsigns
      have hnoted : ∀ other, (c.procedures.insert name sig).contains other = true ↔
          other = name ∨ c.procedures.contains other = true := by simp [Table.contains_insert]
      refine Iff.trans ?_ (ih (c := (c.note name result sig).reporting reports) hds.2 |>.trans ?_)
      · refine exists_congr fun c' => and_congr_right fun hrest => and_congr_left fun _ => ?_
        rw [hnames,forall_mem_cons,and_iff_right]
        exact (hcollects.of_run hrest).procedures name ((hnoted name).2 (.inl rfl))
      · constructor
        · rintro ⟨new,hnew,hx⟩
          refine ⟨_ :: new,(registered_cons_iff hname sig).2
            ⟨rfl,⟨hruntime,hmain,hraises ▸ hdeclared⟩,hfresh,hnew⟩,?_⟩
          obtain hx | rfl | hx := hx.imp_right (hnoted x).1
          · exact .inl (mem_cons_of_mem _ hx)
          · exact .inl mem_cons_self
          · exact .inr hx
        · rintro ⟨_ | ⟨d,new⟩,hnew,hx⟩
          · cases (registered_nil_iff.1 hnew name mem_cons_self).symm.trans hfresh
          · obtain ⟨rfl,-,-,hnew⟩ := (registered_cons_iff hname sig).1 hnew
            refine ⟨new,hnew,?_⟩
            obtain hx | hx := hx
            · obtain rfl | hx := mem_cons.1 hx
              · exact .inr ((hnoted x).2 (.inl rfl))
              · exact .inl hx
            · exact .inr ((hnoted x).2 (.inr hx))
  | case3 d rest hd ih =>
    rw [all_cons,Bool.and_eq_true] at hds
    have hnone : d.procedure? = none := by
      cases d with
      | procDecl => exact (hd _ _ _ _ _ _ rfl).elim
      | _ => rfl
    have hnames : procedureNames (d :: rest) = procedureNames rest := filterMap_cons_none hnone
    simp only [hnames,registered_skip_iff hnone]
    exact ih hds.2

theorem contains_of_run (hrun : (checkDeclarations ds).run c = ((ds',.ok ()),c')) :
    ∀ name ∈ procedureNames ds, c.procedures.contains name = true := by
  induction ds generalizing ds' c with
  | nil => simp [procedureNames]
  | cons d rest ih =>
    rw [checkDeclarations] at hrun
    obtain ⟨⟨d',r⟩,c1,hd,hrest⟩ := exists_run_of_bind hrun
    cases r with
    | error e => cases hrest
    | ok u =>
      obtain ⟨⟨rest',r⟩,c2,hrest,hend⟩ := exists_run_of_bind hrest
      obtain ⟨hresult,rfl⟩ := Prod.mk.inj hend
      obtain ⟨-,rfl⟩ := Prod.mk.inj hresult
      have hothers := ih hrest
      rw [((ends_checkDeclaration d c).retained hd rfl).procedures] at hothers
      intro name hname
      obtain ⟨d1,hmem,hd1⟩ := mem_filterMap.1 hname
      obtain rfl | hmem := mem_cons.1 hmem
      · cases d1 with
        | procDecl line x block params result raises =>
          cases hd1
          rw [Table.contains_iff,← Option.isSome_iff_exists,Option.isSome_iff_ne_none]
          intro hnone
          obtain ⟨_,_,hopen,hd⟩ := exists_run_of_bind hd
          obtain ⟨-,rfl⟩ := Prod.mk.inj hopen
          rw [run_get_bind,hnone] at hd
          cases hd
        | _ => cases hd1
      · exact hothers name (mem_filterMap.2 ⟨d1,hmem,hd1⟩)

theorem Registered.of_subset (h : Registered exceptions table ds new)
    (hsubset : ∀ e ∈ exceptions, e ∈ exceptions') : Registered exceptions' table ds new := by
  refine ⟨h.first,fun d hd => ?_,h.fresh,h.distinct,h.covered⟩
  have hdeclarable := h.declarable d hd
  cases d with
  | procDecl =>
    exact ⟨hdeclarable.1,hdeclarable.2.1,fun e he => hsubset e (hdeclarable.2.2 e he)⟩
  | _ => cases hdeclarable

theorem checkProgram_ends_iff {source : String} {r r' : Reporter} {ds : List Node}
    (hparse : Runs (parse source) r (some ds) r') (hprints : ∀ d ∈ ds, d.printsArguments = true)
    (reporter : Reporter) :
    (∃ ds' c', (checkProgram ds).run { reporter } = ((ds',.ok ()),c')) ↔
      ∃ new, Registered (ds.filterMap Node.exception?) printers ds new ∧
        "main" ∈ procedureNames new := by
  have hds := isProgram_of_parse hparse
  simp only [isProgram,Bool.and_eq_true] at hds
  obtain ⟨exceptions,reports,hexceptions,hmem⟩ := run_collectExceptions ds { reporter }
  have hcollect := exists_run_collectProcedures_iff (c := Checker.reporting { reporter, exceptions }
    reports) hds.2 "main"
  have hprinter : ¬printers.contains "main" = true := by decide
  constructor
  · rintro ⟨ds',c',hrun⟩
    obtain ⟨c₁,hregisters,hrun⟩ := registers_of_run hrun
    have hprocedures := hregisters.run
    rw [run_bind_of hexceptions] at hprocedures
    obtain ⟨new,hnew,hmain⟩ := hcollect.1 ⟨c₁,hprocedures,contains_of_run hrun,hregisters.main⟩
    refine ⟨new,hnew.of_subset fun e he => ?_,hmain.resolve_right hprinter⟩
    simpa using (hmem e).1 he
  · rintro ⟨new,hnew,hmain⟩
    have hnew : Registered exceptions printers ds new :=
      hnew.of_subset fun e he => (hmem e).2 (.inr he)
    obtain ⟨c₁,hprocedures,hall,hmain⟩ := hcollect.2 ⟨new,hnew,.inl hmain⟩
    have hregisters : Registers ds { reporter } c₁ :=
      ⟨by simpa using hds.1,by rw [run_bind_of hexceptions,hprocedures],hmain⟩
    have hcollects := collects_of_run hregisters.run
    have hsound : c₁.Sound :=
      ⟨by rw [hcollects.scopes]; exact Nat.one_pos,fun name hname => by cases hcollects.current ▸ hname⟩
    obtain ⟨c₂,hregisters',hrun⟩ | ⟨hnone,-⟩ := run_checkProgram ds { reporter }
    · obtain ⟨-,rfl⟩ := Prod.mk.inj (hregisters.run.symm.trans hregisters'.run)
      have hends := ends_checkDeclarations ds c₁
      have hshape : ∀ d ∈ ds, d.isDeclaration = true ∧ d.printsArguments = true ∧
          ∀ name, d.procedure? = some name → c₁.procedures.contains name = true :=
        fun d hd => ⟨all_eq_true.1 hds.2 d hd,hprints d hd,
          fun name hname => hall name (mem_filterMap.2 ⟨d,hd,hname⟩)⟩
      obtain ⟨r,hr⟩ := hends.sound hshape hsound
      exact ⟨_,_,hrun.trans (Prod.ext (Prod.ext rfl hr) rfl)⟩
    · exact (hnone ⟨c₁,hregisters⟩).elim

def shadowedSource : String :=
  "exception E;def g() raises E\x7braise E;return;\x7d" ++
    "def main()\x7btry\x7bg();\x7dexcept E\x7b\x7dreturn;\x7ddef g()\x7bprint(x);return;\x7d"

theorem shadowedSource_ends :
    ∃ ds r' ds' c', Runs (parse shadowedSource) {} (some ds) r' ∧
      (∀ d ∈ ds, d.printsArguments = true) ∧
      (checkProgram ds).run {} = ((ds',.ok ()),c') ∧
      ∃ new, Registered (ds.filterMap Node.exception?) printers ds new ∧
        "main" ∈ procedureNames new := by
  have hparse := runs_parse_of_isEmpty shadowedSource (by decide +kernel)
  have hprints : ∀ d ∈ parsed shadowedSource, d.printsArguments = true := by decide +kernel
  have hrun := run_eq_ok (x := checkProgram (parsed shadowedSource)) (s := {}) (by decide +kernel)
  exact ⟨_,_,_,_,hparse,hprints,hrun,(checkProgram_ends_iff hparse hprints {}).1 ⟨_,_,hrun⟩⟩

def mainlessSource : String := "def f()\x7breturn;\x7d"

theorem checkProgram_faults_without_main :
    ∃ ds r' ds' c', Runs (parse mainlessSource) {} (some ds) r' ∧ r'.isClean = true ∧
      (∀ d ∈ ds, d.printsArguments = true) ∧
      (checkProgram ds).run {} = ((ds',.error (.unboundName "raises")),c') := by
  have hparse := runs_parse_of_isEmpty mainlessSource (by decide +kernel)
  have hrun := run_eq (checkProgram (parsed mainlessSource)) {}
  rw [show ((checkProgram (parsed mainlessSource)).run {}).1.2 = .error (.unboundName "raises") by
    decide +kernel] at hrun
  exact ⟨_,_,_,_,hparse,by decide +kernel,by decide +kernel,hrun⟩

end BxToolchain.Bx
