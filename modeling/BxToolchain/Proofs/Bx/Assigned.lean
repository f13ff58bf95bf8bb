import BxToolchain.Proofs.Bx.Labels
import BxToolchain.Proofs.Bx.Syntax
import BxToolchain.Proofs.Bx.Written
import Mathlib.Order.Interval.Set.LinearOrder

namespace BxToolchain.Bx

open Lower List

variable {p l : Nat} {i : Instr}

def Instr.isFinal (i : Instr) : Bool := i.hasOpcode "jmp" || i.hasOpcode "ret"

inductive Leads (code : List Instr) : Nat → Nat → Prop where
  | next {p : Nat} {i : Instr} : code[p]? = some i → i.isFinal = false → Leads code p (p + 1)
  | branch {p q l i j} : code[p]? = some i → i.branchesTo? = some l →
      code[q]? = some j → j.setsLabel? = some l → Leads code p q

inductive Path (code : List Instr) : List Nat → Nat → Prop where
  | start : Path code [] 0
  | step {before p q} : Path code before p → Leads code p q → Path code (p :: before) q

section

variable (marks : Nat → Set Nat)

def assignedAfter (known : Set Nat) (i : Instr) : Set Nat :=
  match i.setsLabel? with
  | some l => marks l
  | none => known ∪ {n | i.writes n = true}

structure Admissible (known : Set Nat) (i : Instr) : Prop where
  reads : ∀ n, i.reads n = true → n ∈ known
  label : ∀ l, i.setsLabel? = some l → marks l ⊆ known
  branch : ∀ l, i.branchesTo? = some l → marks l ⊆ known

inductive Assigned : Set Nat → List Instr → Set Nat → Prop where
  | nil : known' ⊆ known → Assigned known [] known'
  | cons {known known' i rest} : Admissible marks known i →
      Assigned (assignedAfter marks known i) rest known' → Assigned known (i :: rest) known'

def knownAt (start : Set Nat) (code : List Instr) (p : Nat) : Set Nat :=
  (code.take p).foldl (assignedAfter marks) start

end

def writtenAt (code : List Instr) (positions : List Nat) : Set Nat :=
  {n | ∃ q ∈ positions, ∃ i, code[q]? = some i ∧ i.writes n = true}

section

variable {marks : Nat → Set Nat} {code : List Instr}

theorem Assigned.admissible (h : Assigned marks start code final) (hp : code[p]? = some i) :
    Admissible marks (knownAt marks start code p) i := by
  induction h generalizing p with
  | nil => simp at hp
  | @cons known known' j rest hj _ ih =>
    cases p with
    | zero =>
      obtain rfl : j = i := by simpa using hp
      exact hj
    | succ p => exact ih (by simpa using hp)

theorem knownAt_succ (hp : code[p]? = some i) :
    knownAt marks start code (p + 1) = assignedAfter marks (knownAt marks start code p) i := by
  rw [knownAt,take_add_one,hp,foldl_append]
  rfl

theorem writtenAt_subset_cons (p : Nat) (before : List Nat) :
    writtenAt code before ⊆ writtenAt code (p :: before) :=
  fun _ ⟨q,hq,hwrites⟩ => ⟨q,mem_cons_of_mem p hq,hwrites⟩

theorem isLabel_eq_false_of_isBranch (h : i.isBranch = true) : i.isLabel = false := by
  obtain ⟨op,hop,hi⟩ := any_eq_true.1 h
  rw [Bool.eq_false_iff]
  intro hlabel
  unfold Instr.hasOpcode at hi
  unfold Instr.isLabel Instr.hasOpcode at hlabel
  cases hopcode : i.opcode with
  | str s =>
    rw [hopcode] at hi hlabel
    obtain rfl : s = op := by simpa [Datum.same] using hi
    obtain rfl : s = "label" := by simpa [Datum.same] using hlabel
    simp [branchOpcodes] at hop
  | _ => rw [hopcode] at hlabel; cases hlabel

theorem setsLabel?_of_branchesTo? (h : i.branchesTo? = some l) : i.setsLabel? = none := by
  unfold Instr.branchesTo? at h
  split at h
  · rename_i hbranch
    rw [Instr.setsLabel?,isLabel_eq_false_of_isBranch hbranch]
    rfl
  · cases h

theorem reads_of_setsLabel? (n : Nat) (h : i.setsLabel? = some l) : i.reads n = false := by
  unfold Instr.setsLabel? Instr.labelOperand? at h
  split at h
  · split at h
    · rename_i hargs
      rw [Instr.reads,hargs]
      rfl
    · cases h
  · cases h

structure PathKnown (marks : Nat → Set Nat) (code : List Instr) (before : List Nat) (p : Nat) :
    Prop where
  label : ∀ i l, code[p]? = some i → i.setsLabel? = some l → marks l ⊆ writtenAt code before
  other : ∀ i, code[p]? = some i → i.setsLabel? = none →
    knownAt marks ∅ code p ⊆ writtenAt code before

variable (h : Assigned marks ∅ code final)
include h

theorem Path.pathKnown (hpath : Path code before p) : PathKnown marks code before p := by
  induction hpath with
  | start =>
    refine ⟨fun i l hi hl n hn => ?_,fun i _ _ n hn => hn.elim⟩
    exact ((h.admissible hi).label l hl hn).elim
  | @step before p q hpath hleads ih =>
    cases hleads with
    | @next i hi _ =>
      have hknown : knownAt marks ∅ code (p + 1) ⊆ writtenAt code (p :: before) := by
        rw [knownAt_succ hi,assignedAfter]
        split
        · rename_i l hl
          exact (ih.label i l hi hl).trans (writtenAt_subset_cons p before)
        · rename_i hl
          rintro n (hn | hn)
          · exact writtenAt_subset_cons p before (ih.other i hi hl hn)
          · exact ⟨p,mem_cons_self,i,hi,hn⟩
      refine ⟨fun j l hj hl => ?_,fun j _ _ => hknown⟩
      exact ((h.admissible hj).label l hl).trans hknown
    | @branch _ l i j hi hl hj hjl =>
      have hmarks : marks l ⊆ writtenAt code (p :: before) :=
        ((h.admissible hi).branch l hl).trans
          ((ih.other i hi (setsLabel?_of_branchesTo? hl)).trans (writtenAt_subset_cons p before))
      constructor
      · intro j' l' hj' hl'
        cases hj.symm.trans hj'
        cases hjl.symm.trans hl'
        exact hmarks
      · intro j' hj' hl'
        cases hj.symm.trans hj'
        rw [hjl] at hl'
        cases hl'

theorem Path.written (hpath : Path code before p) (hi : code[p]? = some i)
    (hreads : i.reads n = true) : ∃ q ∈ before, ∃ j, code[q]? = some j ∧ j.writes n = true := by
  cases hl : i.setsLabel? with
  | some l =>
    rw [reads_of_setsLabel? n hl] at hreads
    cases hreads
  | none => exact (hpath.pathKnown h).other i hi hl ((h.admissible hi).reads n hreads)

theorem Assigned.knownAt_subset (p : Nat) :
    knownAt marks ∅ code p ⊆ writtenAt code (List.range p) := by
  induction p with
  | zero => exact Set.empty_subset _
  | succ p ih =>
    have hmore : writtenAt code (List.range p) ⊆ writtenAt code (List.range (p + 1)) :=
      fun _ ⟨q,hq,hwrites⟩ => ⟨q,by simp at hq ⊢; omega,hwrites⟩
    cases hi : code[p]? with
    | none =>
      have hsame : knownAt marks ∅ code (p + 1) = knownAt marks ∅ code p := by
        rw [knownAt,take_add_one,hi,knownAt]
        simp
      exact hsame ▸ ih.trans hmore
    | some i =>
      rw [knownAt_succ hi,assignedAfter]
      split
      · rename_i l hl
        exact (((h.admissible hi).label l hl).trans ih).trans hmore
      · exact Set.union_subset (ih.trans hmore) fun n hn => ⟨p,by simp,i,hi,hn⟩

theorem Assigned.exists_writes (hi : i ∈ code) (hreads : i.reads n = true) : ∃ j ∈ code, j.writes n = true := by
  obtain ⟨p,hp⟩ := mem_iff_getElem?.1 hi
  obtain ⟨q,-,j,hj,hwrites⟩ := h.knownAt_subset p ((h.admissible hp).reads n hreads)
  exact ⟨j,mem_of_getElem? hj,hwrites⟩

end

section

variable {marks : Nat → Set Nat} {known known' : Set Nat} {code : List Instr}

theorem Admissible.mono (h : Admissible marks known i) (hmore : known ⊆ more) :
    Admissible marks more i :=
  ⟨fun n hn => hmore (h.reads n hn),fun l hl => (h.label l hl).trans hmore,
    fun l hl => (h.branch l hl).trans hmore⟩

theorem assignedAfter_mono (hmore : known ⊆ more) :
    assignedAfter marks known i ⊆ assignedAfter marks more i := by
  unfold assignedAfter
  split
  · exact subset_rfl
  · exact Set.union_subset_union_left _ hmore

namespace Assigned

theorem mono (h : Assigned marks known code known') (hmore : known ⊆ more) (hless : less ⊆ known') :
    Assigned marks more code less := by
  induction h generalizing more with
  | nil h => exact .nil ((hless.trans h).trans hmore)
  | cons hi _ ih => exact .cons (hi.mono hmore) (ih (assignedAfter_mono hmore) hless)

theorem append (h1 : Assigned marks known c1 middle) (h2 : Assigned marks middle c2 known') :
    Assigned marks known (c1 ++ c2) known' := by
  induction h1 with
  | nil h => exact h2.mono h subset_rfl
  | cons hi _ ih => exact .cons hi (ih h2)

theorem plain_cons (hplain : i.isPlain = true) (hreads : ∀ n, i.reads n = true → n ∈ known)
    (h : Assigned marks (known ∪ {n | i.writes n = true}) code known') :
    Assigned marks known (i :: code) known' := by
  obtain ⟨hlabel,hbranch⟩ : i.isLabel = false ∧ i.isBranch = false := by
    simpa [Instr.isPlain] using hplain
  have hset : i.setsLabel? = none := by simp [Instr.setsLabel?,hlabel]
  refine .cons ⟨hreads,by simp [hset],by simp [Instr.branchesTo?,hbranch]⟩ ?_
  rwa [assignedAfter,hset]

theorem ret_cons (hreads : ∀ n, (Instr.act "ret" args).reads n = true → n ∈ known)
    (h : Assigned marks known code known') :
    Assigned marks known (.act "ret" args :: code) known' :=
  plain_cons rfl hreads (h.mono Set.subset_union_left subset_rfl)

theorem branch_cons (hjump : jump ∈ branchOpcodes) (hl : marks l ⊆ known)
    (h : Assigned marks known code known') :
    Assigned marks known (branchTo jump l :: code) known' := by
  have hset : (branchTo jump l).setsLabel? = none := by
    simp [Instr.setsLabel?,isLabel_branchTo l hjump]
  refine .cons ⟨fun _ h => (by cases h),by simp [hset],fun l' hl' => ?_⟩ ?_
  · rw [branchesTo?_branchTo l hjump] at hl'
    cases hl'
    exact hl
  · rw [assignedAfter,hset]
    exact h.mono Set.subset_union_left subset_rfl

theorem jump_cons (hl : marks l ⊆ known) (h : Assigned marks known code known') :
    Assigned marks known (jumpTo l :: code) known' :=
  branch_cons (by decide) hl h

theorem label_cons (hl : marks l ⊆ known) (h : Assigned marks (marks l) code known') :
    Assigned marks known (labelAt l :: code) known' := by
  refine .cons ⟨nofun,fun l' hl' => ?_,nofun⟩ h
  cases hl'
  exact hl

end Assigned

end

end BxToolchain.Bx
