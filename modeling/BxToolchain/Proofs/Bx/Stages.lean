import BxToolchain.Proofs.Bx.Completion
import BxToolchain.Proofs.Bx.WritableProgram

namespace BxToolchain.Bx

open Lower List

variable {i : Instr} {source base : String} {ds : List Node} {functions : List String} {σ : Type}

def Instr.IsKnown (i : Instr) : Prop :=
  i.opcode ≠ .null ∧ ¬(i.opcode = .str "ret" ∧ i.args = .list [.null])

theorem Instr.complaints_eq_nil_iff : i.complaints = [] ↔ i.IsKnown := by
  obtain ⟨opcode,args,result,layout⟩ := i
  unfold Instr.complaints Instr.step? Instr.IsKnown
  dsimp only
  split
  · simp [Step.complaints]
  · simp [Step.complaints]
  · split <;> simp [Step.complaints]
  · simp [Step.complaints]
  · simp [Step.complaints]
  · refine iff_of_true ?_ (by simp_all)
    cases Instr.operation? _ <;> rfl

theorem complain_eq_self_iff {r : Reporter} {reasons : List String} :
    r.complain reasons = r ↔ reasons = [] := by
  constructor
  · intro h
    simpa [Reporter.complain] using congrArg Reporter.reports h
  · rintro rfl
    exact r.complain_nil

theorem lowered_program_assembles {r r' reporter lowering assembling : Reporter}
    {ds ds' : List Node} {c' : Checker} (hparse : Runs (parse source) r (some ds) r')
    (hcheck : (checkProgram ds).run { reporter } = ((ds',.ok ()),c'))
    (haccept : c'.reporter.reports = reporter.reports) :
    ((∃ s, Runs (lowerProgram ds') { functions := c'.functions, reporter := lowering } () s) ↔
      ds'.all Node.isLowerableDecl = true) ∧
    ∀ s document, Runs (lowerProgram ds') { functions := c'.functions, reporter := lowering } () s →
      Compile.documentOf s.items.toList = .ok document →
      ∃ a, Runs (Assemble.assemble document) { reporter := assembling } () a ∧
        (a.reporter = assembling ↔ ∀ name params body,
          .procedure name params body ∈ s.items.toList → ∀ i ∈ body, i.IsKnown) := by
  obtain ⟨c,haccepted⟩ := accepted_of_checkProgram (isProgram_of_parse hparse) hcheck haccept
  refine ⟨⟨fun ⟨s,hs⟩ => ?_,fun h => ?_⟩,fun s document hlower hdocument => ?_⟩
  · exact (completes_lowerProgram ds').of_runs (cons_ne_nil _ _) hs
  · have hcompletes := completes_lowerProgram ds'
    rw [h] at hcompletes
    obtain ⟨_,s,hs,-⟩ :=
      hcompletes { functions := c'.functions, reporter := lowering } (cons_ne_nil _ _)
    exact ⟨s,hs⟩
  · refine ⟨_,haccepted.listing hlower hdocument,complain_eq_self_iff.trans ?_⟩
    simp only [flatMap_eq_nil_iff]
    constructor
    · intro h name params body hitem i hi
      have hbody : body.flatMap Instr.complaints = [] := h _ hitem
      exact Instr.complaints_eq_nil_iff.1 (flatMap_eq_nil_iff.1 hbody i hi)
    · intro h item hitem
      cases item with
      | global => rfl
      | procedure name params body =>
        exact flatMap_eq_nil_iff.2 fun i hi =>
          Instr.complaints_eq_nil_iff.2 (h name params body hitem i hi)

def branchingListing : String :=
  "var g = 4 : int;
def f(a:int):int\x7bif(a<0 || !(a!=7))\x7breturn -a;\x7dreturn a%g;\x7d
def main()\x7bvar b=!(f(4)<2):bool;while(g>0)\x7bg=g-1;\x7dprint(b);return;\x7d"

theorem branchingListing_assembles : ∃ ds r ds' c s document a,
    Runs (parse branchingListing) {} (some ds) r ∧
    (checkProgram ds).run {} = ((ds',.ok ()),c) ∧ c.reporter.reports = [] ∧
    ds'.all Node.isLowerableDecl = true ∧
    Runs (lowerProgram ds') { functions := c.functions, reporter := {} } () s ∧
    Compile.documentOf s.items.toList = .ok document ∧
    Runs (Assemble.assemble document) {} () a ∧
    (a.reporter = {} ↔ ∀ name params body,
      .procedure name params body ∈ s.items.toList → ∀ i ∈ body, i.IsKnown) := by
  have hparse := runs_parse_of_isEmpty branchingListing (by decide +kernel)
  obtain ⟨document,hdocument⟩ := Option.isSome_iff_exists.1
    (show (documentOfTree (parsed branchingListing)).isSome = true by decide +kernel)
  obtain ⟨ds',c,s,hcheck,haccept,hlower,hdocument⟩ := exists_of_documentOfTree hdocument
  obtain ⟨hlowers,hassembles⟩ :=
    @lowered_program_assembles _ _ _ _ {} {} _ _ _ hparse hcheck haccept
  obtain ⟨a,ha,hclean⟩ := hassembles s document hlower hdocument
  exact ⟨_,_,ds',c,s,document,a,hparse,hcheck,haccept,hlowers.1 ⟨s,hlower⟩,hlower,
    hdocument,ha,hclean⟩

def conditionCallSource : String :=
  "def f():bool\x7breturn true;\x7d
def main()\x7bif(f())\x7b\x7dreturn;\x7d"

theorem conditionCallSource_not_lowered : ∃ ds r ds' c,
    Runs (parse conditionCallSource) {} (some ds) r ∧
    (checkProgram ds).run {} = ((ds',.ok ()),c) ∧ c.reporter.reports = [] ∧
    ¬∃ s, Runs (lowerProgram ds') { functions := c.functions } () s := by
  have hparse := runs_parse_of_isEmpty conditionCallSource (by decide +kernel)
  have haccept : ∀ r, (checkProgram (parsed conditionCallSource)).run {} = r →
      (r.1.2.isOk && r.2.reporter.reports.isEmpty && !r.1.1.all Node.isLowerableDecl) = true := by
    rintro _ rfl
    decide +kernel
  rcases hcheck : (checkProgram (parsed conditionCallSource)).run {} with ⟨⟨ds',e⟩,c⟩
  have hfacts := haccept _ hcheck
  rw [Bool.and_eq_true,Bool.and_eq_true,List.isEmpty_iff,Bool.not_eq_true'] at hfacts
  obtain ⟨⟨hok,hreports⟩,hlowerable⟩ := hfacts
  obtain rfl := eq_ok_of_isOk hok
  refine ⟨_,_,ds',c,hparse,hcheck,hreports,?_⟩
  rintro ⟨s,hs⟩
  have hlowers := (completes_lowerProgram ds').of_runs (cons_ne_nil _ _) hs
  exact Bool.noConfusion (hlowerable.symm.trans hlowers)

def MiddleEnd (ds : List Node) (r : Reporter) : Prop :=
  ∃ ds' c l, (checkProgram ds).run { reporter := { r with stage := .str "Type Check" } } =
      ((ds',.ok ()),c) ∧ c.reporter.isClean = true ∧
    Runs (lowerProgram ds')
      { functions := c.functions,
        reporter := { c.reporter with stage := .str "Transforming AST to TAC" } } () l ∧
    l.reporter.isClean = true

def FrontEnd (source : String) (r : Reporter) : Prop :=
  ∃ ds r1, Runs (parse source) { r with stage := .str "Parsing" } (some ds) r1 ∧
    r1.isClean = true ∧ MiddleEnd ds r1

def Compilation.Assembled (s : Compilation) (base : String) : Prop :=
  ∃ text, s.files.get? (base ++ ".s") = some text ∧
    s.files.get? (base ++ ".x64-linux.s") = some text

namespace Compile

variable {s s' : Compilation}

theorem runs_runStage (h : Runs (runStage start reporter act) s a s') :
    ∃ t, Runs act (start s.reporter) a t ∧ s' = { s with reporter := reporter t } := by
  have hrun := runs_get.bind_iff.1 h
  rcases hact : act.run (start s.reporter) with ⟨result,t⟩
  simp only [hact] at hrun
  obtain ⟨_,s1,hset,hresult⟩ := hrun.of_bind
  obtain rfl := runs_set_iff.1 hset
  cases result with
  | error e => exact absurd hresult not_runs_throw
  | ok b =>
    obtain ⟨rfl,rfl⟩ := runs_pure_iff.1 hresult
    exact ⟨t,hact,rfl⟩

theorem runs_checkSource (h : Runs (checkSource ds) s (ds',functions) s') :
    ∃ c, (checkProgram ds).run { reporter := s.reporter } = ((ds',.ok ()),c) ∧
      functions = c.functions ∧ s' = { s with reporter := c.reporter } := by
  have hrun := runs_get.bind_iff.1 h
  rcases hact : (checkProgram ds).run { reporter := s.reporter } with ⟨⟨tree,result⟩,c⟩
  simp only [hact] at hrun
  obtain ⟨_,s1,hset,hresult⟩ := hrun.of_bind
  obtain rfl := runs_set_iff.1 hset
  cases result with
  | error e => exact absurd hresult not_runs_throw
  | ok =>
    simp only [runs_pure_iff,Prod.mk.injEq] at hresult
    obtain ⟨⟨rfl,rfl⟩,rfl⟩ := hresult
    exact ⟨c,rfl,rfl,rfl⟩

theorem runs_isClean : Runs isClean s b s' ↔ b = s.reporter.isClean ∧ s' = s := by
  simp only [isClean,runs_bind,runs_get_iff,runs_pure_iff]
  constructor
  · rintro ⟨_,_,⟨rfl,rfl⟩,h⟩
    exact h
  · exact fun h => ⟨s,s,⟨rfl,rfl⟩,h⟩

theorem files_assembleFile (hbase : Assemble.baseName name = .ok base)
    (h : Runs (assembleFile name) s () s') :
    s'.Assembled base := by
  simp only [assembleFile,runs_bind (x := get),runs_bind (x := runStage _ _ _),runs_get_iff,
    runs_modify_iff] at h
  obtain ⟨_,_,⟨rfl,rfl⟩,files,_,hstage,rfl⟩ := h
  obtain ⟨a,hfile,rfl⟩ := runs_runStage hstage
  simp only [Assemble.assembleFile,hbase,Assemble.lift,pure_bind] at hfile
  split at hfile
  · exact absurd hfile not_runs_throw
  split at hfile
  · exact absurd hfile not_runs_throw
  · obtain ⟨_,a1,-,hfile⟩ := hfile.of_bind
    simp only [runs_bind,runs_get_iff,runs_pure_iff] at hfile
    obtain ⟨_,_,⟨rfl,rfl⟩,rfl,-⟩ := hfile
    refine ⟨_,?_,Table.get?_insert_self _ _ _⟩
    have hne : base ++ ".s" ≠ base ++ ".x64-linux.s" := by simp
    rw [Table.get?_insert_of_ne _ _ hne,Table.get?_insert_self]
  · exact absurd hfile not_runs_throw

theorem files_generate (hbase : Assemble.baseName (base ++ ".tac.json") = .ok base)
    (h : Runs (generate base functions ds) s () s') :
    ∃ l, Runs (lowerProgram ds) { functions, reporter :=
        { s.reporter with stage := .str "Transforming AST to TAC" } } () l ∧
      if l.reporter.isClean then s'.Assembled base else s'.files = s.files := by
  simp only [generate,beginStage,runs_bind (x := modify _),runs_bind (x := lowerTree _ _),
    runs_bind (x := isClean),runs_modify_iff,runs_isClean] at h
  obtain ⟨_,_,rfl,items,s1,htree,clean,_,⟨rfl,rfl⟩,h⟩ := h
  obtain ⟨l,hrun,rfl⟩ := runs_runStage htree
  obtain ⟨_,l',hlower,hitems⟩ := hrun.of_bind
  simp only [runs_bind,runs_get_iff,runs_pure_iff] at hitems
  obtain ⟨_,_,⟨rfl,rfl⟩,rfl,rfl⟩ := hitems
  refine ⟨_,hlower,?_⟩
  split at h
  · rename_i hclean
    rw [if_pos hclean]
    split at h
    · exact absurd h not_runs_throw
    · simp only [runs_bind] at h
      obtain ⟨_,_,-,_,_,-,_,_,-,_,_,-,_,_,-,h⟩ := h
      exact files_assembleFile hbase h
  · rename_i hclean
    rw [if_neg hclean]
    obtain ⟨-,rfl⟩ := runs_pure_iff.1 h
    rfl

theorem files_check (hbase : Assemble.baseName (base ++ ".tac.json") = .ok base)
    {f : List Node × List String → Compile Unit}
    (hf : ∀ {x t}, Runs (f x) t () s' → ∃ output, Runs (generate base x.2 x.1) { t with output } () s')
    (h : Runs (do
      beginStage "Type Check"
      let x ← checkSource ds
      if ← isClean then f x) s () s') :
    MiddleEnd ds s.reporter ∧ s'.Assembled base ∨
      ¬MiddleEnd ds s.reporter ∧ s'.files = s.files := by
  simp only [beginStage,runs_bind (x := modify _),runs_bind (x := checkSource _),
    runs_bind (x := isClean),runs_modify_iff,runs_isClean] at h
  obtain ⟨_,_,rfl,⟨ds',functions⟩,s1,hsource,clean,_,⟨rfl,rfl⟩,h⟩ := h
  obtain ⟨c,hcheck,rfl,rfl⟩ := runs_checkSource hsource
  split at h
  case isFalse hclean =>
    obtain ⟨-,rfl⟩ := runs_pure_iff.1 h
    refine .inr ⟨fun ⟨_,_,_,hcheck',hc,_⟩ => hclean ?_,rfl⟩
    cases hcheck.symm.trans hcheck'
    exact hc
  case isTrue hclean =>
    obtain ⟨output,hgenerate⟩ := hf h
    obtain ⟨l,hlower,hfiles⟩ := files_generate hbase hgenerate
    split at hfiles
    case isTrue hl => exact .inl ⟨⟨ds',c,l,hcheck,hclean,hlower,hl⟩,hfiles⟩
    case isFalse hl =>
      refine .inr ⟨fun ⟨_,_,_,hcheck',_,hlower',hl'⟩ => hl ?_,hfiles⟩
      cases hcheck.symm.trans hcheck'
      rw [(hlower.unique hlower').2]
      exact hl'

theorem compile_writes_assembly {source base : String} {debug : Bool} {s s' : Compilation}
    (hbase : Assemble.baseName (base ++ ".tac.json") = .ok base)
    (h : Runs (compile source base debug) s () s') :
    FrontEnd source s.reporter ∧ s'.Assembled base ∨
      ¬FrontEnd source s.reporter ∧ s'.files = s.files := by
  simp only [compile,runs_bind (x := beginStage "Parsing"),runs_bind (x := parseSource _),
    runs_bind (x := isClean),runs_isClean] at h
  obtain ⟨_,_,hstage,tree,s₁,hsource,clean,_,⟨rfl,rfl⟩,h⟩ := h
  obtain rfl := runs_modify_iff.1 hstage
  obtain ⟨r₁,hparse,rfl⟩ := runs_runStage hsource
  split at h
  case isFalse hclean =>
    obtain ⟨-,rfl⟩ := runs_pure_iff.1 h
    refine .inr ⟨fun ⟨ds,r,hds,hr,_⟩ => hclean ?_,rfl⟩
    obtain ⟨-,rfl⟩ := hparse.unique hds
    exact hr
  case isTrue hclean =>
  cases tree with
  | none =>
    refine .inr ⟨fun ⟨ds,r,hds,_⟩ => (nomatch (hparse.unique hds).1),?_⟩
    cases debug
    · obtain ⟨-,rfl⟩ := runs_pure_iff.1 h
      rfl
    · obtain rfl := runs_modify_iff.1 h
      rfl
  | some ds =>
    have hchecked : MiddleEnd ds r₁ ∧ s'.Assembled base ∨ ¬MiddleEnd ds r₁ ∧ s'.files = s.files := by
      cases debug
      · simp only [Bool.false_eq_true,if_false] at h
        exact files_check (f := fun x => generate base x.2 x.1) hbase (fun hrest => ⟨_,hrest⟩) h
      · simp only [if_true] at h
        obtain ⟨_,_,hprint,h⟩ := h.of_bind
        obtain rfl := runs_modify_iff.1 hprint
        refine files_check (f := fun x => do
          print "Type Check successfull"
          print (Node.renderList x.1)
          generate base x.2 x.1) hbase (fun hrest => ?_) h
        simp only [print,runs_bind,runs_modify_iff] at hrest
        obtain ⟨_,_,rfl,_,_,rfl,hgenerate⟩ := hrest
        exact ⟨_,hgenerate⟩
    refine hchecked.imp (fun ⟨hmiddle,hfiles⟩ => ⟨⟨ds,r₁,hparse,hclean,hmiddle⟩,hfiles⟩)
      fun ⟨hmiddle,hfiles⟩ => ⟨fun ⟨ds',r,hds,_,hmiddle'⟩ => hmiddle ?_,hfiles⟩
    obtain ⟨htree,rfl⟩ := hparse.unique hds
    cases htree
    exact hmiddle'

def endsIn {σ : Type} (x : Run σ Unit) (s : σ) (p : σ → Bool) : Bool :=
  match x.run.run s with
  | (.ok _,t) => p t
  | _ => false

theorem exists_of_endsIn {x : Run σ Unit} {s : σ} {p : σ → Bool}
    (h : endsIn x s p = true) : ∃ t, Runs x s () t ∧ p t = true := by
  unfold endsIn at h
  split at h
  · rename_i t heq
    exact ⟨t,heq,h⟩
  · cases h

def plainChars (s : String) : List Char :=
  let cs := s.toByteArray.data.toList.map fun b => Char.ofNat b.toNat
  if String.ofList cs = s then cs else s.toList

theorem toList_eq_plainChars : String.toList = plainChars := by
  funext s
  simp only [plainChars]
  split
  · rename_i h
    conv_lhs => rw [← h,String.toList_ofList]
  · rfl

def returningSource : String := "def main()\x7breturn;\x7d"

theorem returningSource_compiled : ∃ s,
    Assemble.baseName ("m" ++ ".tac.json") = .ok "m" ∧
    Runs (compile returningSource "m" false) {} () s ∧
    FrontEnd returningSource {} ∧ s.Assembled "m" := by
  have hbase : Assemble.baseName ("m" ++ ".tac.json") = .ok "m" := by decide +kernel
  have hends : endsIn (compile returningSource "m" false) {}
      (fun s => (s.files.get? "m.s").isSome) = true := by
    decide +kernel
  obtain ⟨s,hs,hend⟩ := exists_of_endsIn hends
  have hfiles := compile_writes_assembly hbase hs
  refine ⟨s,hbase,hs,hfiles.resolve_right fun ⟨_,hnone⟩ => ?_⟩
  rw [hnone] at hend
  cases hend

def voidReturnSource : String := "def main()\x7breturn main();\x7d"

theorem voidReturnSource_assembled : ∃ s, Runs (compile voidReturnSource "m" false) {} () s ∧
    s.reporter.isClean = false ∧ (s.files.get? "m.s").isSome = true := by
  have hends : endsIn (compile voidReturnSource "m" false) {}
      (fun s => !s.reporter.isClean && (s.files.get? "m.s").isSome) = true := by
    -- The written document is read back, and decoding so long a text is slow.
    unfold compile generate assembleFile Assemble.assembleFile Json.read? String.length
    rw [toList_eq_plainChars]
    decide +kernel
  obtain ⟨s,hs,hend⟩ := exists_of_endsIn hends
  rw [Bool.and_eq_true,Bool.not_eq_true'] at hend
  exact ⟨s,hs,hend⟩

end Compile

end BxToolchain.Bx
