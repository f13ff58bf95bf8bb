import BxToolchain.Proofs.Flow.DefUse
import BxToolchain.Proofs.Flow.Inferred
import BxToolchain.Proofs.Flow.Partition

namespace BxToolchain.Flow

open Tac List

variable {t : Table String String} {i : Instr} {p q : Procedure}

theorem LabelTable.temp?_mapName (ht : LabelTable t) (o : Operand) :
    (o.mapName (Instr.renameLabel t.entries)).temp? = o.temp? := by
  cases o with
  | name s =>
    cases hs : Tac.isLabel s with
    | false => rw [Operand.mapName,ht.renameLabel_of_not_isLabel hs]
    | true => simp [Operand.mapName,Operand.temp?,isTemp,hs,ht.isLabel_renameLabel hs]
  | _ => rfl

theorem LabelTable.uses_renameLabels (ht : LabelTable t) (hphi : i.opcode ≠ .phi) :
    (i.renameLabels t.entries).uses = i.uses := by
  unfold Instr.uses
  rw [opcode_renameLabels,if_neg hphi,if_neg hphi]
  unfold Instr.renameLabels
  split <;> simp_all [ht.temp?_mapName]

theorem renameLabels_of_phi (hcheck : i.check = .ok ()) (hphi : i.opcode = .phi)
    (labels : List (String × String)) :
    i.renameLabels labels =
      { i with arg1 := .pairs (i.sources.map fun e => (Instr.renameLabel labels e.1,e.2)) } := by
  obtain ⟨sources,hsources⟩ := exists_sources hcheck hphi
  simp [Instr.renameLabels,Instr.sources,hphi,hsources]

-- A phi takes a record of its sources; the pairs that renaming leaves are of no kind at all.
theorem check_renameLabels_of_phi (hcheck : i.check = .ok ()) (hphi : i.opcode = .phi)
    (labels : List (String × String)) :
    (i.renameLabels labels).check =
      .error (.badOperand "phi" "arg1" (i.renameLabels labels).arg1.text) := by
  have hdest := (check_eq_ok.1 hcheck).1
  rw [hphi] at hdest
  rw [renameLabels_of_phi hcheck hphi,Instr.check]
  simp only [hphi,hdest]
  rfl

theorem check_normalizeLabels_iff (hcheck : ∀ j ∈ p.body, j.check = .ok ())
    (h : normalizeLabels p = .ok q) :
    (∀ j ∈ q.body, j.check = .ok ()) ↔ ∀ j ∈ p.body, j.opcode ≠ .phi := by
  unfold normalizeLabels at h
  obtain ⟨⟨body,names⟩,hbody,hq⟩ := Except.bind_eq_ok.1 h
  cases hq
  have htable : LabelTable names := by
    refine labelTable_numberLabels hbody (by simp) (fun l l' h => by simp at h)
      fun j hj hlabel => ?_
    obtain ⟨l,hl,hl'⟩ := text_of_check (hcheck j hj) hlabel
    rwa [hl]
  constructor
  · intro hafter j hj hphi
    have hlabel : j.isLabel = false := by simp [Instr.isLabel,hphi]
    have hin : j ∈ unlabelled body := by
      rw [unlabelled_numberLabels hbody]
      exact mem_filter.2 ⟨hj,by simp [hlabel]⟩
    have hok := hafter _ (mem_map_of_mem (mem_filter.1 hin).1)
    rw [check_renameLabels_of_phi (hcheck j hj) hphi] at hok
    cases hok
  · intro hphi j hj
    obtain ⟨k,hk,rfl⟩ := mem_map.1 hj
    rcases mem_numberLabels hbody hk with ⟨m,rfl⟩ | ⟨hk,-⟩
    · exact check_eq_ok.2 ⟨rfl,isLabel_numberText m,rfl⟩
    · exact htable.check_renameLabels (hphi k hk) (hcheck k hk)

theorem renameLabels_keeps_all_but_phis (ht : LabelTable t) (hcheck : i.check = .ok ())
    (hj : i.renameLabels t.entries = j) :
    j.opcode = i.opcode ∧ j.dest = i.dest ∧ j.defs = i.defs ∧
    (i.opcode ≠ .phi → j.check = .ok () ∧ j.uses = i.uses ∧
      j.target = i.target.mapName (Instr.renameLabel t.entries)) ∧
    (i.opcode = .phi →
      j.arg1 = .pairs (i.sources.map fun e => (Instr.renameLabel t.entries e.1,e.2)) ∧
      j.check = .error (.badOperand "phi" "arg1" j.arg1.text) ∧ j.text? = .error .missingPart) ∧
    ∀ p q, (∀ i ∈ p.body, i.check = .ok ()) → normalizeLabels p = .ok q →
      ((∀ j ∈ q.body, j.check = .ok ()) ↔ ∀ i ∈ p.body, i.opcode ≠ .phi) := by
  subst hj
  refine ⟨opcode_renameLabels _ _,dest_renameLabels,by rw [Instr.defs,dest_renameLabels,Instr.defs],
    fun hphi => ⟨ht.check_renameLabels hphi hcheck,ht.uses_renameLabels hphi,
      target_renameLabels _ hphi⟩,
    fun hphi => ⟨by rw [renameLabels_of_phi hcheck hphi],check_renameLabels_of_phi hcheck hphi _,
      ?_⟩,
    fun p q hall h => check_normalizeLabels_iff hall h⟩
  rw [renameLabels_of_phi hcheck hphi]
  simp [Instr.text?,Instr.isBroken,hphi]

def loopingPhi : Procedure :=
  ⟨"@main",[.str "%a"],[.ofLabel "%.La",
     { opcode := .phi, dest := .name "%b", arg1 := .phi [("@main","%a"),("%.La","%b")] },
     { opcode := .branch .zero, arg1 := .name "%b", arg2 := .name "%.La" },
     { opcode := .ret, arg1 := .name "%b" }]⟩

theorem loopingPhi_breaks :
    ∃ j, joiningPhi.renameLabels [("%.L1","%.L7")] = j ∧
      j.arg1 = .pairs [("%.L7","%y"),("%.L2","@g")] ∧ j.text? = .error .missingPart ∧
      ∃ q, normalizeLabels loopingPhi = .ok q ∧ ¬∀ i ∈ q.body, i.check = .ok () := by
  have ht : LabelTable ⟨[("%.L1","%.L7")]⟩ :=
    labelTable_insert (t := {}) (fun l l' h => by simp at h) (by decide) (by decide)
  obtain ⟨-,-,-,-,hphi,hall⟩ := renameLabels_keeps_all_but_phis (i := joiningPhi) ht rfl rfl
  obtain ⟨harg,-,htext⟩ := hphi rfl
  refine ⟨_,rfl,harg,htext,_,rfl,fun hok => ?_⟩
  exact absurd ((hall loopingPhi _ (by decide) rfl).1 hok) (by decide)

theorem joiningPhi_unfit : joiningPhi.check = .ok () ∧
    (joiningPhi.renameLabels [("%.L1","%.L7")]).check ≠ .ok () := by decide

end BxToolchain.Flow
