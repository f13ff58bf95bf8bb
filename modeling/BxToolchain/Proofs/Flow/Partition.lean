import BxToolchain.Proofs.Flow.Edges

namespace BxToolchain.Flow

open Tac List

def unlabelled (code : List Instr) : List Instr := code.filter fun i => !i.isLabel

inductive Threads : List Instr → List Instr → Prop where
  | nil : Threads [] []
  | keep {i i' : Instr} {code code' : List Instr} : i.SameButLabels i' → Threads code code' →
      Threads (i :: code) (i' :: code')
  | jump {o : Operand} {code code' : List Instr} : Threads code code' →
      Threads code ({ opcode := .jmp, arg1 := o } :: code')

variable {i : Instr} {code : List Instr}

theorem unlabelled_append (first second : List Instr) :
    unlabelled (first ++ second) = unlabelled first ++ unlabelled second := filter_append ..

theorem unlabelled_cons (h : i.isLabel = false) (rest : List Instr) :
    unlabelled (i :: rest) = i :: unlabelled rest := filter_cons_of_pos (by simp [h])

theorem unlabelled_label (h : i.isLabel = true) (rest : List Instr) :
    unlabelled (i :: rest) = unlabelled rest := filter_cons_of_neg (by simp [h])

theorem unlabelled_eq_self (h : ∀ i ∈ code, i.isLabel = false) : unlabelled code = code :=
  filter_eq_self.2 fun i hi => by simp [h i hi]

theorem unlabelled_labelGroups (h : labelGroups name n inGroup code = .ok u) :
    unlabelled u = unlabelled code := by
  induction code generalizing n inGroup u with
  | nil =>
    obtain ⟨-,rfl⟩ := labelGroups_nil h
    rfl
  | cons i rest ih =>
    obtain ⟨n',g',r,before,after,hr,rfl,-,hadmin⟩ := labelGroups_cons h
    have hlabels : ∀ part, (∀ j ∈ part, j ∈ before ∨ j ∈ after) → unlabelled part = [] := by
      refine fun part hpart => filter_eq_nil_iff.2 fun j hj => ?_
      obtain ⟨m,rfl⟩ := mem_adminLabels hadmin (hpart j hj)
      simp
    rw [unlabelled_append,hlabels before fun _ => .inl,nil_append]
    cases hi : i.isLabel with
    | false =>
      rw [unlabelled_cons hi,unlabelled_cons hi,unlabelled_append,
        hlabels after fun _ => .inr,nil_append,ih hr]
    | true =>
      rw [unlabelled_label hi,unlabelled_label hi,unlabelled_append,
        hlabels after fun _ => .inr,nil_append,ih hr]

theorem unlabelled_numberLabels (h : numberLabels n group names code = .ok (u,names')) :
    unlabelled u = unlabelled code := by
  induction code generalizing n group names u with
  | nil =>
    cases h
    rfl
  | cons i rest ih =>
    rcases numberLabels_cons h with ⟨hi,u',hrest,rfl⟩ | ⟨hi,l,-,hrest⟩ | ⟨hi,-,u',rfl,hrest⟩
    · rw [unlabelled_cons hi,unlabelled_cons hi,ih hrest]
    · rw [unlabelled_label hi,ih hrest]
    · rw [unlabelled_label hi,unlabelled_label (isLabel_ofLabel _),ih hrest]

theorem threads_jumpToLabels (h : ∀ i ∈ unlabelled code, i.SameButLabels (i.renameLabels labels)) :
    Threads (unlabelled code)
      ((unlabelled (jumpToLabels code)).map (Instr.renameLabels labels)) := by
  induction code with
  | nil => exact .nil
  | cons i rest ih =>
    rw [jumpToLabels_cons]
    cases hi : i.isLabel with
    | true =>
      rw [unlabelled_label hi] at h ⊢
      rw [unlabelled_label hi,jumpBefore_label hi,nil_append]
      exact ih h
    | false =>
      rw [unlabelled_cons hi] at h ⊢
      have hrest := ih fun j hj => h j (by simp [hj])
      rw [unlabelled_cons hi,map_cons,unlabelled_append,
        unlabelled_eq_self fun j hj => isLabel_of_mem_jumpBefore hj,map_append]
      refine .keep (h i (by simp)) ?_
      -- At most one jump stands between an instruction and the next.
      cases rest with
      | nil => exact hrest
      | cons l rest =>
        rw [jumpBefore]
        split
        · exact .jump hrest
        · exact hrest

theorem unlabelled_flatMap_listing {bs : List Block} (h : ∀ b ∈ bs, b.Cut) :
    unlabelled (bs.flatMap Block.listing) = bs.flatMap Block.instrs := by
  induction bs with
  | nil => rfl
  | cons b bs ih =>
    rw [flatMap_cons,flatMap_cons,unlabelled_append,Block.listing,
      unlabelled_label (isLabel_ofLabel _),ih fun c hc => h c (by simp [hc]),
      unlabelled_eq_self fun i hi => (h b (by simp)).isLabel hi]

theorem instrs_of_infer (h : infer p = .ok (q,g)) :
    ∃ u body names, labelGroups p.name 1 false p.body = .ok u ∧
      numberLabels 0 none {} (jumpToLabels (adminLabel p.name 0 :: u)) = .ok (body,names) ∧
      unlabelled (adminLabel p.name 0 :: u) = unlabelled p.body ∧
      g.instrs = (unlabelled (jumpToLabels (adminLabel p.name 0 :: u))).map
        (Instr.renameLabels names.entries) := by
  obtain ⟨-,hq,hcut,-⟩ := sound_of_infer h
  obtain ⟨u,body,names,hu,hbody,rfl⟩ := canonical_eq_ok.1 hq
  refine ⟨u,body,names,hu,hbody,?_,?_⟩
  · rw [unlabelled_label (isLabel_adminLabel _ _),unlabelled_labelGroups hu]
  · rw [Graph.instrs,← unlabelled_flatMap_listing fun b hb => hcut.cut hb,hcut.listing,
      ← unlabelled_numberLabels hbody,unlabelled,unlabelled,filter_map]
    simp [Function.comp_def,isLabel_renameLabels]

theorem infer_partitions (hcheck : ∀ i ∈ p.body, i.check = .ok ())
    (hphi : ∀ i ∈ p.body, i.opcode ≠ .phi)
    (hsecond : ∀ i ∈ p.body, i.opcode.isPlain = true → ∀ s, i.arg2 = .name s →
      s ∉ labelNames p.body ∧ ∀ m, s ≠ adminText p.name m) (h : infer p = .ok (q,g)) :
    g.blocks.values.map Block.label = (List.range g.blocks.values.length).map numberText ∧
      (∀ b ∈ g.blocks.values, ∀ i ∈ b.body, i.isLabel = false ∧ i.opcode.endsBlock = false) ∧
      (∀ before b after, g.blocks.values = before ++ b :: after → after ≠ [] → b.Closed) ∧
      Threads (unlabelled p.body) g.instrs := by
  obtain ⟨-,-,hcut,-⟩ := sound_of_infer h
  obtain ⟨k,hk⟩ := hcut.labels
  refine ⟨?_,fun b hb i hi => (hcut.cut hb).body hi,
    fun _ _ _ heq hafter => hcut.closed heq (.inr hafter),?_⟩
  · have hlength := congrArg length hk
    rw [length_map,length_map,length_range'] at hlength
    rw [hk,hlength,range_eq_range']
  obtain ⟨u,body,names,hu,hbody,hcode,hinstrs⟩ := instrs_of_infer h
  rw [hinstrs,← hcode]
  refine threads_jumpToLabels fun i hi => ?_
  rw [hcode] at hi
  obtain ⟨hi,hlabel⟩ := mem_filter.1 hi
  exact sameButLabels_renameLabels
    (namesOnly_addLabels (hcheck i hi) (hphi i hi) (hsecond i hi) hu) (by simpa using hlabel)
    fun l hl => numberLabels_get? hbody hl

def choiceProcedure : Procedure :=
  ⟨"@main",[.str "%n"],[{ opcode := .branch .zero, arg1 := .name "%n", arg2 := .name "%.Lend" },
     { opcode := .binary .add, dest := .name "%n", arg1 := .name "%n", arg2 := .name "%n" },
     .ofLabel "%.Lend",{ opcode := .ret, arg1 := .name "%n" }]⟩

theorem choiceProcedure_partitioned :
    isWellLabelled choiceProcedure = true ∧ ∃ q g, infer choiceProcedure = .ok (q,g) ∧
      g.blocks.values.map Block.label = (List.range 3).map numberText ∧
      Threads (unlabelled choiceProcedure.body) g.instrs := by
  have hready : isWellLabelled choiceProcedure = true := rfl
  have hp := wellLabelled_of_isWellLabelled hready
  refine ⟨hready,_,_,rfl,?_⟩
  obtain ⟨hlabels,-,-,hthreads⟩ := infer_partitions hp.check hp.phi hp.second rfl
  exact ⟨hlabels,hthreads⟩

def capturedProcedure : Procedure :=
  ⟨"@main",[.str "%x"],[.ofLabel "%.La",{ opcode := .const, dest := .name "%.La", arg1 := .int 5 },
     { opcode := .binary .add, dest := .name "%y", arg1 := .name "%x", arg2 := .name "%.La" },
     { opcode := .ret, arg1 := .name "%y" }]⟩

theorem capturedProcedure_renamed :
    (∀ i ∈ capturedProcedure.body, i.check = .ok () ∧ i.opcode ≠ .phi ∧ i.jump? = none) ∧
    (labelNames capturedProcedure.body).Nodup ∧
    ∃ q g, infer capturedProcedure = .ok (q,g) ∧
      ¬Threads (unlabelled capturedProcedure.body) g.instrs := by
  refine ⟨by decide,by decide,_,_,rfl,fun h => ?_⟩
  cases h with
  | keep _ h =>
    cases h with
    | keep hadd _ => exact absurd (hadd.second rfl) (by decide)

end BxToolchain.Flow
