import BxToolchain.Proofs.Flow.Renaming

namespace BxToolchain.Flow

open Tac List

variable {s : String} {t : Table String String}

section

variable {labels : List (String × String)} {i : Instr}

theorem dest_renameLabels : (i.renameLabels labels).dest = i.dest := by
  unfold Instr.renameLabels
  split <;> rfl

theorem isPrint_renameLabels : (i.renameLabels labels).isPrint = i.isPrint := by
  unfold Instr.isPrint
  rw [opcode_renameLabels]
  by_cases ho : i.opcode = .call
  · have harg : (i.renameLabels labels).arg1 = i.arg1 := by
      unfold Instr.renameLabels
      split <;> simp_all
    rw [harg]
  · simp [ho]

theorem LabelTable.renameLabel_of_not_isLabel (ht : LabelTable t) (hs : Tac.isLabel s = false) :
    Instr.renameLabel t.entries s = s := by
  unfold Instr.renameLabel
  cases hlookup : t.entries.lookup s with
  | none => rfl
  | some l' =>
    rw [(ht s l' hlookup).1] at hs
    cases hs

theorem IsPlainName.not_isLabel (h : IsPlainName s) : Tac.isLabel s = false := by
  rcases h with htemp | ⟨hglobal,-⟩
  · simp only [isTemp,Bool.and_eq_true,Bool.not_eq_true'] at htemp
    exact htemp.2
  · simp only [isGlobal,startsWith, isPrefixOf_iff_prefix] at hglobal
    obtain ⟨rest,hrest⟩ := hglobal
    simp [Tac.isLabel,startsWith,← hrest,List.isPrefixOf]

theorem LabelTable.reads_renameLabels (ht : LabelTable t) (hcheck : i.check = .ok ())
    (hphi : i.opcode ≠ .phi) (hreads : ∀ s ∈ i.reads, IsPlainName s) :
    (i.renameLabels t.entries).reads = i.reads := by
  unfold Instr.reads
  rw [opcode_renameLabels]
  have hfirst : i.opcode.readsFirst = true → (i.renameLabels t.entries).arg1 = i.arg1 := by
    intro hreads
    unfold Instr.renameLabels
    split <;> simp_all [Opcode.readsFirst]
  have hsecond : i.opcode.readsSecond = true → (i.renameLabels t.entries).arg2 = i.arg2 := by
    intro hsecond
    obtain ⟨s,hs,hvariable⟩ := arg2_of_check hcheck hsecond
    have hin : s ∈ i.reads := by
      simp [Instr.reads,hsecond,hs,Operand.read?,ne_empty_of_isVariable hvariable]
    have hsame := ht.renameLabel_of_not_isLabel (hreads s hin).not_isLabel
    unfold Instr.renameLabels
    split <;> simp_all [Opcode.readsSecond,Operand.mapName]
  by_cases h1 : i.opcode.readsFirst = true <;> by_cases h2 : i.opcode.readsSecond = true <;>
    simp [h1,h2,hphi,hfirst,hsecond]

end

section

variable {p q : Procedure} {g : Graph} {i : Instr}

theorem mem_body_of_infer (h : infer p = .ok (q,g)) (hi : i ∈ g.instrs) : i ∈ q.body := by
  obtain ⟨-,-,hcut,-⟩ := sound_of_infer h
  obtain ⟨b,hb,hi⟩ := mem_flatMap.1 hi
  rw [← hcut.listing]
  exact mem_flatMap.2 ⟨b,hb,mem_cons_of_mem _ hi⟩

section

variable (hcheck : ∀ i ∈ p.body, i.check = .ok ()) (hphi : ∀ i ∈ p.body, i.opcode ≠ .phi)
  (h : infer p = .ok (q,g))
include hcheck h

theorem origin_infer :
    ∃ names : Table String String, LabelTable names ∧ ∀ i ∈ g.instrs,
      (∃ l, i = .jumpTo l) ∨ ∃ j ∈ p.body, i = j.renameLabels names.entries := by
  obtain ⟨hg,hq,-⟩ := sound_of_infer h
  obtain ⟨names,htable,horigin⟩ := origin_canonical hcheck hq
  refine ⟨names,htable,fun i hi => ?_⟩
  obtain ⟨b,hb,hib⟩ := mem_flatMap.1 hi
  have hlabel := (hg.cut (hg.mem_values.1 hb)).isLabel hib
  rcases horigin i (mem_body_of_infer h hi) with ⟨l,-,rfl | rfl⟩ | ⟨j,hj,-,hij⟩
  · cases hlabel
  · exact .inl ⟨l,rfl⟩
  · exact .inr ⟨j,hj,hij⟩

theorem dest_of_infer {P : Operand → Prop} (habsent : P .absent) (hdest : ∀ i ∈ p.body, P i.dest)
    (hi : i ∈ g.instrs) : P i.dest := by
  obtain ⟨names,-,horigin⟩ := origin_infer hcheck h
  rcases horigin i hi with ⟨l,rfl⟩ | ⟨j,hj,rfl⟩
  · exact habsent
  · rw [dest_renameLabels]
    exact hdest j hj

theorem print_of_infer (hprint : ∀ i ∈ p.body, i.isPrint = true → i.dest = .absent)
    (hi : i ∈ g.instrs) (hi' : i.isPrint = true) : i.dest = .absent := by
  obtain ⟨names,-,horigin⟩ := origin_infer hcheck h
  rcases horigin i hi with ⟨l,rfl⟩ | ⟨j,hj,rfl⟩
  · rfl
  · rw [isPrint_renameLabels] at hi'
    rw [dest_renameLabels]
    exact hprint j hj hi'

include hphi

theorem check_of_infer (hi : i ∈ g.instrs) : i.check = .ok () ∧ i.opcode ≠ .phi :=
  check_canonical hcheck hphi (sound_of_infer h).2.1 (mem_body_of_infer h hi)

theorem tight_of_infer (hjumps : ∀ b ∈ g.blocks.values, b.jumps ≠ []) : Tight g :=
  ⟨(sound_of_infer h).1,fun hb => hjumps _ hb,fun hb hj => (check_of_infer hcheck hphi h
    (mem_flatMap.2 ⟨_,hb,mem_append.2 (.inr hj)⟩)).1⟩

theorem reads_of_infer (hreads : ∀ i ∈ p.body, ∀ s ∈ i.reads, IsPlainName s) (hi : i ∈ g.instrs)
    (hs : s ∈ i.reads) : IsPlainName s := by
  obtain ⟨names,htable,horigin⟩ := origin_infer hcheck h
  rcases horigin i hi with ⟨l,rfl⟩ | ⟨j,hj,rfl⟩
  · simp [Instr.reads,Instr.jumpTo,Opcode.readsFirst,Opcode.readsSecond] at hs
  · rw [htable.reads_renameLabels (hcheck j hj) (hphi j hj) (hreads j hj)] at hs
    exact hreads j hj s hs

end

theorem nameable_of_infer (hname : isGlobal p.name = true)
    (hcheck : ∀ i ∈ p.body, i.check = .ok ()) (hphi : ∀ i ∈ p.body, i.opcode ≠ .phi)
    (hassigns : ∀ i ∈ p.body, Assigns i) (h : infer p = .ok (q,g)) (hfilled : Filled g) :
    Nameable g where
  sound := (sound_of_infer h).1
  filled := hfilled
  name := by
    obtain ⟨-,-,-,hgname,-⟩ := sound_of_infer h
    rwa [hgname]
  check hi := (check_of_infer hcheck hphi h hi).1
  phi hi := (check_of_infer hcheck hphi h hi).2
  assigns hi := dest_of_infer hcheck h (P := fun o => o = .absent ∨ ∃ s, o = .name s ∧ IsPlainName s)
    (.inl rfl) hassigns hi

theorem renamable_of_infer (hname : isGlobal p.name = true)
    (hcheck : ∀ i ∈ p.body, i.check = .ok ()) (hphi : ∀ i ∈ p.body, i.opcode ≠ .phi)
    (hassigns : ∀ i ∈ p.body, Assigns i) (h : infer p = .ok (q,g))
    (hjumps : ∀ b ∈ g.blocks.values, b.jumps ≠ []) : Renamable g :=
  have htight := tight_of_infer hcheck hphi h hjumps
  ⟨nameable_of_infer hname hcheck hphi hassigns h htight.filled,htight⟩

end

end BxToolchain.Flow
