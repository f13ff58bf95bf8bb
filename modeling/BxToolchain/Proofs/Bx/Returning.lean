import BxToolchain.Proofs.Bx.AcceptedProgram
import BxToolchain.Proofs.Bx.RegisterUse

namespace BxToolchain.Bx

open Lower List

def goesOn (dead : Nat → Bool) (alive : Bool) (i : Instr) : Bool :=
  match i.setsLabel? with
  | some l => alive || !dead l
  | none => alive && !i.isFinal

def aliveAfter (dead : Nat → Bool) (alive : Bool) (code : List Instr) : Bool :=
  code.foldl (goesOn dead) alive

def Shuns (dead : Nat → Bool) : Bool → List Instr → Prop
  | _, [] => True
  | alive, i :: rest => (alive = true → ∀ l, i.branchesTo? = some l → dead l = false) ∧
      Shuns dead (goesOn dead alive i) rest

section

variable {dead : Nat → Bool} {alive : Bool} {code : List Instr}

theorem aliveAfter_append (dead : Nat → Bool) (alive : Bool) (c1 c2 : List Instr) :
    aliveAfter dead alive (c1 ++ c2) = aliveAfter dead (aliveAfter dead alive c1) c2 :=
  foldl_append

theorem shuns_append :
    Shuns dead alive (c1 ++ c2) ↔ Shuns dead alive c1 ∧ Shuns dead (aliveAfter dead alive c1) c2 := by
  induction c1 generalizing alive with
  | nil => exact (and_iff_right trivial).symm
  | cons i rest ih =>
    simp only [cons_append,Shuns,ih,and_assoc]
    rfl

theorem shuns_of_targets (h : ∀ l ∈ jumpTargets code, dead l = false) (alive : Bool) :
    Shuns dead alive code := by
  induction code generalizing alive with
  | nil => trivial
  | cons i rest ih =>
    refine ⟨fun _ l hl => h l ?_,ih (fun l hl => h l ?_) _⟩
    · rw [jumpTargets,filterMap_cons_some hl]
      exact mem_cons_self
    · obtain ⟨j,hj,hl⟩ := mem_filterMap.1 hl
      exact mem_filterMap.2 ⟨j,mem_cons_of_mem i hj,hl⟩

theorem unreached_of_labels (h : ∀ l ∈ setLabels code, dead l = true) :
    Shuns dead false code ∧ aliveAfter dead false code = false := by
  induction code with
  | nil => exact ⟨trivial,rfl⟩
  | cons i rest ih =>
    have hi : goesOn dead false i = false := by
      unfold goesOn
      split
      · rename_i l hl
        have hdead := h l (by
          rw [setLabels,filterMap_cons_some hl]
          exact mem_cons_self)
        simp [hdead]
      · rfl
    have hrest := ih fun l hl => h l (by
      obtain ⟨j,hj,hl⟩ := mem_filterMap.1 hl
      exact mem_filterMap.2 ⟨j,mem_cons_of_mem i hj,hl⟩)
    rw [Shuns,aliveAfter,foldl_cons,hi]
    exact ⟨⟨by simp,hrest.1⟩,hrest.2⟩

def Dies (dead : Nat → Bool) (code : List Instr) : Prop :=
  ∀ alive, Shuns dead alive code ∧ aliveAfter dead alive code = false

theorem Dies.append (h1 : Dies dead c1) (h2 : Dies dead c2) : Dies dead (c1 ++ c2) := by
  intro alive
  rw [shuns_append,aliveAfter_append]
  exact ⟨⟨(h1 alive).1,(h2 _).1⟩,(h2 _).2⟩

theorem Dies.append_dead (h1 : Dies dead c1) (h2 : ∀ l ∈ setLabels c2, dead l = true) :
    Dies dead (c1 ++ c2) := by
  intro alive
  rw [shuns_append,aliveAfter_append,(h1 alive).2]
  obtain ⟨hshuns,hend⟩ := unreached_of_labels h2
  exact ⟨⟨(h1 alive).1,hshuns⟩,hend⟩

theorem Dies.append_live (h1 : ∀ l ∈ jumpTargets c1, dead l = false) (h2 : Dies dead c2) :
    Dies dead (c1 ++ c2) := by
  intro alive
  rw [shuns_append,aliveAfter_append]
  exact ⟨⟨shuns_of_targets h1 alive,(h2 _).1⟩,(h2 _).2⟩

theorem dies_ret (dead : Nat → Bool) (args : List Datum) : Dies dead [.act "ret" args] := by
  intro alive
  refine ⟨⟨fun _ l hl => (by cases hl),trivial⟩,?_⟩
  cases alive
  · rfl
  · rfl

end

def CanDie (others : List Nat) (first past : Nat) (code : List Instr) : Prop :=
  Marked first past fun dead => (∀ l ∈ others, dead l = false) → Dies dead code

section

theorem Ranged.targets_live {dead : Nat → Bool} (h : Ranged others k k1 c1)
    (hown : ∀ l, k ≤ l → l < k1 → dead l = false) (hothers : ∀ l ∈ others, dead l = false) :
    ∀ l ∈ jumpTargets c1, dead l = false := by
  intro l hl
  obtain hl | hl := h.targets l hl
  · exact hothers l hl
  · exact hown l hl.1 hl.2

theorem Ranged.append_canDie (hr1 : Ranged others k k1 c1) (h2 : CanDie others k1 k2 c2) :
    CanDie others k k2 (c1 ++ c2) :=
  ((Marked.const false hr1.le).both h2).imp fun _ ⟨hown,hdies⟩ hothers =>
    .append_live (hr1.targets_live hown hothers) (hdies hothers)

theorem Ranged.canDie_return (h : Ranged others k k1 c1) (args : List Datum) :
    CanDie others k k1 (c1 ++ [.act "ret" args]) :=
  h.append_canDie ((Marked.const true (Nat.le_refl k1)).imp fun dead _ _ => dies_ret dead args)

theorem CanDie.append_ranged (h1 : CanDie others k k1 c1) (hr2 : Ranged others k1 k2 c2) :
    CanDie others k k2 (c1 ++ c2) := by
  refine (h1.both (Marked.const true hr2.le)).imp fun dead ⟨hdies,hown⟩ hothers =>
    (hdies hothers).append_dead fun l hl => ?_
  have hl := (hr2.mem_setLabels l).1 hl
  exact hown l hl.1 hl.2

theorem CanDie.ifElse (hc : Ranged (k :: (k + 1) :: others) (k + 3) k1 c1)
    (ha : CanDie others k1 k2 c2) (hb : CanDie others k2 k3 c3) :
    CanDie others k k3 (c1 ++ labelAt k :: c2 ++ jumpTo (k + 2) :: labelAt (k + 1) :: c3 ++
      [labelAt (k + 2)]) := by
  -- Only the label after the whole statement is dead, besides those in the branches.
  have hend := (Marked.const false (Nat.le_add_right k 2)).both
    (Marked.const true (Nat.le_succ (k + 2)))
  refine (((hend.both (Marked.const false hc.le)).both ha).both hb).imp ?_
  rintro dead ⟨⟨⟨⟨hlive,hdead⟩,hown⟩,hdiesa⟩,hdiesb⟩ hothers
  have hcond : ∀ l ∈ jumpTargets (c1 ++ [labelAt k]), dead l = false := by
    rw [jumpTargets_append,jumpTargets_labelAt,jumpTargets_nil,append_nil]
    refine hc.targets_live hown (forall_mem_cons.2 ⟨?_,forall_mem_cons.2 ⟨?_,hothers⟩⟩)
    · exact hlive k (by omega) (by omega)
    · exact hlive (k + 1) (by omega) (by omega)
  have hyes : Dies dead (c2 ++ [jumpTo (k + 2)]) := (hdiesa hothers).append_dead (by simp)
  have hno : Dies dead ([labelAt (k + 1)] ++ c3) := .append_live (by simp) (hdiesb hothers)
  have hlast : ∀ l ∈ setLabels [labelAt (k + 2)], dead l = true := by
    intro l hl
    obtain rfl : l = k + 2 := by simpa using hl
    exact hdead _ (by omega) (by omega)
  have h := ((hyes.append_live hcond).append hno).append_dead hlast
  simpa only [append_assoc,cons_append,nil_append] using h

end

mutual

theorem StatementEmits.canDie :
    StatementEmits σ n k c scopes vars k' → n.returns = true →
      CanDie σ.exits k.labels k'.labels c
  | .bareReturn _ k, _ => (Ranged.nil σ.exits k.labels).canDie_return []
  | .return _ _ h, _ => h.ranged.canDie_return _
  | .block _ h, hn => h.canDie (by simpa [Node.returns] using hn)
  | .ifElse _ hc ha hb, hn => by
    simp only [Node.returns,Bool.and_eq_true] at hn
    exact .ifElse hc.ranged (ha.canDie hn.1) (hb.canDie hn.2)
  | .other _ hn', hn => by
    unfold Node.returns at hn
    split at hn
    · cases hn'
    · cases hn'
    · cases hn'
    · cases hn

theorem StatementsEmit.canDie :
    StatementsEmit σ ns k c scopes vars k' → Node.returns.anyReturns ns = true →
      CanDie σ.exits k.labels k'.labels c
  | .cons hn hrest, hns => by
    simp only [Node.returns.anyReturns,Bool.or_eq_true] at hns
    obtain h | h := hns
    · exact (hn.canDie h).append_ranged hrest.ranged
    · exact hn.ranged.append_canDie (hrest.canDie h)

end

theorem Path.alive (h : Shuns dead true code) (hpath : Path code before p) :
    p ≤ code.length ∧ (aliveAfter dead true (code.take p) = true ∨
      ∃ i l, code[p]? = some i ∧ i.setsLabel? = some l ∧ dead l = false) := by
  have hsucc : ∀ {p i}, code[p]? = some i → aliveAfter dead true (code.take (p + 1)) =
      goesOn dead (aliveAfter dead true (code.take p)) i := by
    intro p i hi
    rw [take_add_one,hi,aliveAfter_append]
    rfl
  induction hpath with
  | start => exact ⟨Nat.zero_le _,.inl rfl⟩
  | @step before p q hpath hleads ih =>
    cases hleads with
    | @next i hi hfinal =>
      refine ⟨(List.getElem?_eq_some_iff.1 hi).1,.inl ?_⟩
      rw [hsucc hi,goesOn]
      obtain halive | ⟨j,l,hj,hl,hdead⟩ := ih.2
      · split
        · rw [halive,Bool.true_or]
        · rw [halive,hfinal]
          rfl
      · cases hi.symm.trans hj
        simp [hl,hdead]
    | @branch _ l i j hi hl hj hset =>
      refine ⟨Nat.le_of_lt (List.getElem?_eq_some_iff.1 hj).1,.inr ⟨j,l,hj,hset,?_⟩⟩
      obtain halive | ⟨i',l',hi',hl',-⟩ := ih.2
      · obtain ⟨hp,rfl⟩ := List.getElem?_eq_some_iff.1 hi
        rw [← take_append_drop p code,drop_eq_getElem_cons hp,shuns_append] at h
        exact h.2.1 halive l hl
      · cases hi.symm.trans hi'
        rw [setsLabel?_of_branchesTo? hl] at hl'
        cases hl'

theorem Path.lt_length (h : Dies dead code) (hpath : Path code before p) : p < code.length := by
  obtain ⟨hle,halive⟩ := hpath.alive (h true).1
  refine Nat.lt_of_le_of_ne hle ?_
  rintro rfl
  obtain halive | ⟨i,l,hi,-⟩ := halive
  · rw [take_length,(h true).2] at halive
    cases halive
  · simp at hi

theorem hasOpcode_ret_of_stuck (hclosed : jumpTargets code ⊆ setLabels code)
    (hnumbered : NamesNumbers code) (hi : code[p]? = some i) (hstuck : ∀ q, ¬Leads code p q) :
    i.hasOpcode "ret" = true := by
  have hfinal : i.isFinal = true := by
    by_contra hnot
    exact hstuck (p + 1) (.next hi (by simpa using hnot))
  obtain hjmp | hret := Bool.or_eq_true_iff.1 hfinal
  · have hbranch : i.isBranch = true := any_eq_true.2 ⟨"jmp",by decide,hjmp⟩
    obtain ⟨l,hargs⟩ := hnumbered i (mem_of_getElem? hi) (.inr hbranch)
    have hl : i.branchesTo? = some l := by
      rw [Instr.branchesTo?,if_pos hbranch,Instr.labelOperand?,hargs]
      rfl
    have htarget := hclosed (mem_filterMap.2 ⟨i,mem_of_getElem? hi,hl⟩)
    obtain ⟨j,hj,hset⟩ := mem_filterMap.1 htarget
    obtain ⟨q,hq⟩ := getElem?_of_mem hj
    exact absurd (.branch hi hl hq hset) (hstuck q)
  · exact hret

structure Returning (s : Lowering) : Prop where
  labelled : WellLabelled s
  dies : ∀ item ∈ s.items.toList, ∀ name params body, item = .procedure name params body →
    ∃ dead, Dies dead body

theorem keepsReturning_report (reason : String) (line : Int) :
    Respects (Keeps Returning) (Lower.report reason line) :=
  fun s _ s' hrun h => ⟨keepsLabels_report reason line s _ s' hrun h.labelled,by
    obtain rfl := runs_modify_iff.1 hrun
    exact h.dies⟩

theorem keepsReturning_bind (x r : String) : Respects (Keeps Returning) (Lower.bind x r) :=
  fun s _ s' hrun h => ⟨keepsLabels_bind x r s _ s' hrun h.labelled,
    respects_bind (R := fun s s' => s'.items = s.items) (fun _ => rfl) s _ s' hrun ▸ h.dies⟩

theorem keepsReturning_addGlobal (name : String) (init : Init) :
    Respects (Keeps Returning) (addGlobal name init) := by
  refine fun s _ s' hrun h => ⟨keepsLabels_addGlobal name init s _ s' hrun h.labelled,?_⟩
  obtain rfl := runs_modify_iff.1 hrun
  intro item hitem procedure params body heq
  rw [Array.toList_push,mem_append,mem_singleton] at hitem
  obtain hitem | rfl := hitem
  · exact h.dies item hitem procedure params body heq
  · cases heq

def Node.bodyReturns : Node → Bool
  | .procDecl _ _ body _ _ _ => body.returns
  | _ => true

theorem keepsReturning_lowerDeclaration (hd : d.bodyReturns = true) :
    Respects (Keeps Returning) (lowerDeclaration d) := by
  intro s a s' hrun h
  have hlabelled := keepsLabels_lowerDeclaration d s a s' hrun h.labelled
  cases d with
  | varDecl =>
    exact respects_lowerGlobals keepsReturning_report keepsReturning_addGlobal
      (fun name => keepsReturning_bind name _) _ _ _ _ _ hrun h
  | procDecl line name block params result raises =>
    obtain ⟨names,s1,bodyLine,statements,code,scopes,vars,henter,rfl,hcode,-,-,-,hitems⟩ :=
      emits_procedure hrun
    have h1 := respects_enterProcedure (fun x _ => keepsReturning_bind x _)
      (fun _ h => ⟨⟨h.labelled.body,h.labelled.exits,h.labelled.count,h.labelled.closed,
        h.labelled.numbered⟩,h.dies⟩) _ _ _ henter h
    have hexits : (s1.surroundings.withScopes ({} :: s1.scopes)).exits = [] := h1.labelled.exits
    rw [h1.labelled.body] at hitems
    refine ⟨hlabelled,fun item hitem procedure params' body heq => ?_⟩
    rw [hitems,mem_append,mem_singleton] at hitem
    obtain hitem | rfl := hitem
    · exact h1.dies item hitem procedure params' body heq
    · obtain ⟨-,-,rfl⟩ := Item.procedure.inj heq
      obtain ⟨-,own,hdies⟩ := hcode.canDie (by simpa [Node.bodyReturns,Node.returns] using hd)
      exact ⟨own,hdies own (fun _ _ _ => rfl) (by simp [hexits])⟩
  | _ =>
    cases hrun
    exact h

theorem keepsReturning_lowerProgram (hds : ∀ d ∈ ds, d.bodyReturns = true) :
    Respects (Keeps Returning) (lowerProgram ds) :=
  respects_lowerProgram keepsReturning_addGlobal (keepsReturning_bind _ _) fun d hd =>
    keepsReturning_lowerDeclaration (hds d hd)

mutual

theorem CheckedStatement.returns_eq {visible visible' allowed n n'} :
    CheckedStatement procedures visible allowed n n' visible' → n'.returns = n.returns
  | .varDecl .. | .assign .. | .eval .. | .loop .. | .jump .. | .bareReturn .. | .return ..
  | .tryExcept .. | .raise .. => rfl
  | .block _ h => by simpa only [Node.returns] using h.anyReturns_eq
  | .ifElse _ _ ha hb => by simp only [Node.returns,ha.returns_eq,hb.returns_eq]

theorem CheckedStatements.anyReturns_eq {visible visible' allowed ns ns'} : CheckedStatements
    procedures visible allowed ns ns' visible' →
      Node.returns.anyReturns ns' = Node.returns.anyReturns ns
  | .nil => rfl
  | .cons hn hrest => by
    simp only [Node.returns.anyReturns,hn.returns_eq,hrest.anyReturns_eq]

end

theorem CheckedDeclaration.bodyReturns_eq
    (h : CheckedDeclaration procedures visible d d' visible') : d'.bodyReturns = d.bodyReturns := by
  cases h with
  | varDecl => rfl
  | procDecl _ _ _ _ _ hbody =>
    simpa only [Node.bodyReturns,Node.returns] using hbody.anyReturns_eq
  | exceptionDecl => rfl

theorem CheckedDeclarations.bodyReturns (h : CheckedDeclarations procedures visible ds ds')
    (hds : ∀ d ∈ ds, d.bodyReturns = true) : ∀ d ∈ ds', d.bodyReturns = true := by
  induction h with
  | nil => simp
  | cons hd _ ih =>
    obtain ⟨hfirst,hrest⟩ := forall_mem_cons.1 hds
    exact forall_mem_cons.2 ⟨hd.bodyReturns_eq.trans hfirst,ih hrest⟩

theorem Accepted.bodyReturns {c functions}
    (h : Accepted ds ds' c functions) : ∀ d ∈ ds', d.bodyReturns = true := by
  refine h.declarations.bodyReturns fun d hd => ?_
  unfold Node.bodyReturns
  split
  · exact (h.collected _ _ _ _ _ _ hd).returns
  · rfl

theorem lowerProgram_paths_return (source : String) (r r' reporter : Reporter) (c' : Checker)
    (ds ds' : List Node) (functions : List String) (lowering : Reporter) (s : Lowering)
    (hparse : Runs (parse source) r (some ds) r')
    (hcheck : (checkProgram ds).run { reporter } = ((ds',.ok ()),c'))
    (haccept : c'.reporter.reports = reporter.reports)
    (hlower : Runs (lowerProgram ds') { functions, reporter := lowering } () s) :
    ∀ name params body, .procedure name params body ∈ s.items.toList →
      ∀ before p, Path body before p → ∃ i, body[p]? = some i ∧
        ((∀ q, ¬Leads body p q) → i.hasOpcode "ret" = true) := by
  obtain ⟨c,haccepted⟩ := accepted_of_checkProgram (isProgram_of_parse hparse) hcheck haccept
  have hs := keepsReturning_lowerProgram haccepted.bodyReturns _ _ _ hlower
    ⟨wellLabelled_start functions lowering,by simp⟩
  intro name params body hitem before p hpath
  obtain ⟨dead,hdies⟩ := hs.dies _ hitem name params body rfl
  have hp := hpath.lt_length hdies
  refine ⟨body[p],getElem?_eq_getElem hp,fun hstuck => ?_⟩
  exact hasOpcode_ret_of_stuck (hs.labelled.closed _ hitem) (hs.labelled.numbered _ hitem)
    (getElem?_eq_getElem hp) hstuck

def branchingSource : String :=
  "def f(x:int):int\x7bif(x<0)\x7breturn 0-x;\x7delse\x7breturn x;\x7dwhile(x<9)\x7bx=x+1;\x7d\x7d
def main()\x7bprint(f(3));return;\x7d"

theorem branchingSource_paths_return : ∃ ds r' ds' c' s,
    Runs (parse branchingSource) {} (some ds) r' ∧
    (checkProgram ds).run {} = ((ds',.ok ()),c') ∧ c'.reporter.reports = [] ∧
    Runs (lowerProgram ds') { functions := c'.functions, reporter := {} } () s ∧
    s.reporter.reports.isEmpty = true ∧
    ∀ name params body, .procedure name params body ∈ s.items.toList →
      ∀ before p, Path body before p → ∃ i, body[p]? = some i ∧
        ((∀ q, ¬Leads body p q) → i.hasOpcode "ret" = true) := by
  have hparse := runs_parse_of_isEmpty branchingSource (by decide +kernel)
  have hcheck := run_eq_ok (x := checkProgram (parsed branchingSource)) (s := {}) (by decide +kernel)
  have haccept : ((checkProgram (parsed branchingSource)).run {}).2.reporter.reports = [] :=
    List.isEmpty_iff.1 (by decide +kernel)
  have hlower := runs_of_isOk
    (x := lowerProgram ((checkProgram (parsed branchingSource)).run {}).1.1)
    (s := { functions := ((checkProgram (parsed branchingSource)).run {}).2.functions, reporter := {} })
    (by decide +kernel)
  have hpaths := lowerProgram_paths_return _ _ _ _ _ _ _ _ _ _ hparse hcheck haccept hlower
  exact ⟨_,_,_,_,_,hparse,hcheck,haccept,hlower,by decide +kernel,hpaths⟩

end BxToolchain.Bx
