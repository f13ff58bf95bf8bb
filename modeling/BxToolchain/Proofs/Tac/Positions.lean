import BxToolchain.Proofs.Tac.Refinement

namespace BxToolchain.Tac

open List

variable {i : Instr} {rest code : List Instr} {l : String} {pc : Nat}

def skipLabels (code : List Instr) : List Instr := code.dropWhile Instr.isLabel

def labelNames (code : List Instr) : List String :=
  (code.filter Instr.isLabel).map fun i => i.arg1.text

def codeAfter (l : String) : List Instr → Option (List Instr)
  | [] => none
  | i :: rest => if i.isLabel && i.arg1.text == l then some (skipLabels rest) else codeAfter l rest

@[simp]
theorem skipLabels_nil : skipLabels [] = [] := rfl

theorem skipLabels_label (h : i.isLabel = true) (rest : List Instr) :
    skipLabels (i :: rest) = skipLabels rest := by
  simp [skipLabels,h]

theorem skipLabels_cons (h : i.isLabel = false) (rest : List Instr) :
    skipLabels (i :: rest) = i :: rest := by
  simp [skipLabels,h]

@[simp]
theorem skipLabels_skipLabels (code : List Instr) :
    skipLabels (skipLabels code) = skipLabels code := by
  induction code with
  | nil => rfl
  | cons i rest ih =>
    cases h : i.isLabel with
    | true => rw [skipLabels_label h,ih]
    | false => rw [skipLabels_cons h,skipLabels_cons h]

theorem isLabel_of_skipLabels (h : skipLabels code = i :: rest) : i.isLabel = false := by
  have hfixed := skipLabels_skipLabels code
  rw [h] at hfixed
  cases hi : i.isLabel with
  | false => rfl
  | true =>
    rw [skipLabels_label hi] at hfixed
    have hlength := congrArg List.length hfixed
    have hle := (dropWhile_sublist (l := rest) Instr.isLabel).length_le
    simp only [skipLabels,length_cons] at hlength
    omega

@[simp]
theorem labelNames_nil : labelNames [] = [] := rfl

theorem labelNames_label (h : i.isLabel = true) (rest : List Instr) :
    labelNames (i :: rest) = i.arg1.text :: labelNames rest := by
  simp [labelNames,h]

theorem labelNames_cons (h : i.isLabel = false) (rest : List Instr) :
    labelNames (i :: rest) = labelNames rest := by
  simp [labelNames,h]

@[simp]
theorem labelNames_append (first second : List Instr) :
    labelNames (first ++ second) = labelNames first ++ labelNames second := by
  simp [labelNames]

attribute [local grind] codeAfter

theorem codeAfter_label (h : i.isLabel = true) (rest : List Instr) :
    codeAfter i.arg1.text (i :: rest) = some (skipLabels rest) := by
  simp [codeAfter,h]

theorem codeAfter_cons (h : i.isLabel = true → i.arg1.text ≠ l) (rest : List Instr) :
    codeAfter l (i :: rest) = codeAfter l rest := by
  cases hi : i.isLabel with
  | false => simp [codeAfter,hi]
  | true => simp [codeAfter,hi,h hi]

theorem skipLabels_codeAfter (h : codeAfter l code = some s) : skipLabels s = s := by
  induction code with
  | nil => cases h
  | cons i rest ih =>
    unfold codeAfter at h
    split at h
    · cases h
      simp
    · exact ih h

theorem skipLabels_suffix (code : List Instr) : skipLabels code <:+ code :=
  dropWhile_suffix _

theorem codeAfter_suffix (h : codeAfter l code = some s) : s <:+ code := by
  induction code with
  | nil => cases h
  | cons i rest ih =>
    unfold codeAfter at h
    split at h
    · cases h
      exact (skipLabels_suffix rest).trans (suffix_cons i rest)
    · exact (ih h).trans (suffix_cons i rest)

theorem isSome_codeAfter (l : String) (code : List Instr) :
    (codeAfter l code).isSome ↔ l ∈ labelNames code := by
  induction code with
  | nil => simp [codeAfter]
  | cons i rest ih =>
    cases hi : i.isLabel with
    | false => rw [codeAfter_cons (by simp [hi]),labelNames_cons hi,ih]
    | true =>
      rw [labelNames_label hi,mem_cons]
      by_cases hl : i.arg1.text = l
      · subst hl
        simp [codeAfter_label hi]
      · rw [codeAfter_cons (fun _ => hl),ih]
        simp [Ne.symm hl]

theorem codeAfter_of_nodup (hnodup : (labelNames (before ++ i :: rest)).Nodup)
    (hi : i.isLabel = true) :
    codeAfter i.arg1.text (before ++ i :: rest) = some (skipLabels rest) := by
  induction before with
  | nil => exact codeAfter_label hi rest
  | cons j before ih =>
    rw [cons_append] at hnodup ⊢
    cases hj : j.isLabel with
    | false =>
      rw [labelNames_cons hj] at hnodup
      rw [codeAfter_cons (by simp [hj])]
      exact ih hnodup
    | true =>
      rw [labelNames_label hj,nodup_cons] at hnodup
      have hne : j.arg1.text ≠ i.arg1.text := by
        rintro heq
        refine hnodup.1 ?_
        rw [heq,labelNames_append,labelNames_label hi]
        simp
      rw [codeAfter_cons fun _ => hne]
      exact ih hnodup.2

theorem drop_afterLabels (code : List Instr) (n : Nat) :
    ∃ k, afterLabels code n = n + k ∧ code.drop k = skipLabels code := by
  induction code generalizing n with
  | nil => exact ⟨0,rfl,rfl⟩
  | cons i rest ih =>
    cases hi : i.isLabel with
    | false => exact ⟨0,by simp [afterLabels,hi],(skipLabels_cons hi rest).symm⟩
    | true =>
      obtain ⟨k,hk,hdrop⟩ := ih (n + 1)
      refine ⟨k + 1,?_,?_⟩
      · simp only [afterLabels,hi,if_true,hk]
        omega
      · rw [drop_succ_cons,hdrop,skipLabels_label hi]

theorem labelsFrom_isOk (n : Nat) (t : Table String Nat) (code : List Instr) :
    (∃ labels, labelsFrom n t code = .ok labels) ↔
      (labelNames code).Nodup ∧ ∀ l ∈ labelNames code, t.contains l = false := by
  induction code generalizing n t with
  | nil => simp [labelsFrom]
  | cons i rest ih =>
    cases hi : i.isLabel with
    | false => simp [labelsFrom,hi,labelNames_cons hi,ih]
    | true =>
      rw [labelNames_label hi]
      cases ht : t.contains i.arg1.text with
      | true => simp [labelsFrom,hi,ht]
      | false =>
        simp only [labelsFrom,hi,ht,if_true,Bool.false_eq_true,if_false,ih,
          Table.contains_insert,Bool.or_eq_false_iff,beq_eq_false_iff_ne,nodup_cons,
          mem_cons,forall_eq_or_imp,true_and]
        constructor
        · rintro ⟨hnodup,hfresh⟩
          exact ⟨⟨fun hmem => (hfresh _ hmem).1 rfl,hnodup⟩,fun l hl => (hfresh l hl).2⟩
        · rintro ⟨⟨hfresh,hnodup⟩,hrest⟩
          exact ⟨hnodup,fun l hl => ⟨fun heq => hfresh (heq ▸ hl),hrest l hl⟩⟩

theorem labelsFrom_get? (h : labelsFrom n t code = .ok labels) (l : String) :
    match codeAfter l code with
    | some rest => ∃ k, labels.get? l = some (n + k) ∧ code.drop k = rest
    | none => labels.get? l = t.get? l := by
  induction code generalizing n t with
  | nil =>
    cases h
    rfl
  | cons i rest ih =>
    simp only [labelsFrom] at h
    cases hi : i.isLabel with
    | false =>
      simp only [hi,Bool.false_eq_true,if_false] at h
      rw [codeAfter_cons (by simp [hi])]
      have hrest := ih h
      cases hafter : codeAfter l rest with
      | none => simpa only [hafter] using hrest
      | some s =>
        simp only [hafter] at hrest ⊢
        obtain ⟨k,hk,hdrop⟩ := hrest
        exact ⟨k + 1,by rw [hk,Nat.add_right_comm,Nat.add_assoc],hdrop⟩
    | true =>
      simp only [hi,if_true] at h
      cases ht : t.contains i.arg1.text with
      | true => simp [ht] at h
      | false =>
        simp only [ht,Bool.false_eq_true,if_false] at h
        have hrest := ih h
        by_cases hl : i.arg1.text = l
        · subst hl
          rw [codeAfter_label hi]
          -- The label does not stand in the rest, so its entry stays as it was made here.
          have hfresh : i.arg1.text ∉ labelNames rest := by
            intro hmem
            have hcontains := ((labelsFrom_isOk _ _ _).1 ⟨labels,h⟩).2 _ hmem
            simp [Table.contains_insert] at hcontains
          have hnone : codeAfter i.arg1.text rest = none := by
            rw [← Option.not_isSome_iff_eq_none,isSome_codeAfter]
            exact hfresh
          simp only [hnone,Table.get?_insert_self] at hrest
          obtain ⟨k,hk,hdrop⟩ := drop_afterLabels rest (n + 1)
          refine ⟨k + 1,?_,hdrop⟩
          rw [hrest,hk,Nat.add_right_comm,Nat.add_assoc]
        · rw [codeAfter_cons fun _ => hl]
          cases hafter : codeAfter l rest with
          | none =>
            simp only [hafter] at hrest ⊢
            rw [hrest,Table.get?_insert_of_ne _ _ (Ne.symm hl)]
          | some s =>
            simp only [hafter] at hrest ⊢
            obtain ⟨k,hk,hdrop⟩ := hrest
            exact ⟨k + 1,by rw [hk,Nat.add_right_comm,Nat.add_assoc],hdrop⟩

structure Loaded (a : Activation) (code : List Instr) : Prop where
  code_eq : a.code = code.toArray
  labels : labelsFrom 0 {} code = .ok a.labels
  quiet : a.options.showInstrs = false

def Activation.notes (a : Activation) (v : Datum) (w : World) : World :=
  if a.options.showProcs then
    w.print ("// " ++ a.options.indent ++ a.shown ++ " --> " ++ v.display)
  else w

theorem enter_eq_ok :
    enter p options args w = (.ok (a,f),w1) ↔
      ∃ w0 temps labels, bindParams p.params args w {} = .ok (w0,temps) ∧
        labelsFrom 0 {} p.body = .ok labels ∧
        w1 = (if options.showProcs then
          w0.print ("// " ++ options.indent ++ "entering " ++ showCall p.name temps) else w0) ∧
        a = ⟨p.name,p.body.toArray,labels,options,showCall p.name temps⟩ ∧
        f = { temps, left := temps, current := p.name } := by
  unfold enter
  cases bindParams p.params args w {} with
  | error e => simp
  | ok r =>
    obtain ⟨w0,temps⟩ := r
    cases labelsFrom 0 {} p.body with
    | error e => simp
    | ok labels =>
      constructor
      · intro h
        simp only [Prod.mk.injEq,Except.ok.injEq] at h
        exact ⟨w0,temps,labels,rfl,rfl,h.2.symm,h.1.1.symm,h.1.2.symm⟩
      · rintro ⟨w0,temps,labels,hbind,hlabels,rfl,rfl,rfl⟩
        cases hbind
        cases hlabels
        rfl

section

variable {a : Activation} {code rest : List Instr} {i : Instr} {f : Frame} {w : World}

theorem enter_body (hquiet : options.showInstrs = false)
    (h : enter p options args w = (.ok (a,f),w1)) (hnodup : (labelNames body).Nodup) :
    ∃ a', enter { p with body } options args w = (.ok (a',f),w1) ∧ Loaded a p.body ∧
      Loaded a' body ∧ a'.options = a.options ∧ a'.shown = a.shown := by
  obtain ⟨w0,temps,labels,hbind,hlabels,rfl,rfl,rfl⟩ := enter_eq_ok.1 h
  obtain ⟨labels',hlabels'⟩ := (labelsFrom_isOk 0 {} body).2 ⟨hnodup,fun _ _ => rfl⟩
  exact ⟨_,enter_eq_ok.2 ⟨w0,temps,labels',hbind,hlabels',rfl,rfl,rfl⟩,
    ⟨rfl,hlabels,hquiet⟩,⟨rfl,hlabels',hquiet⟩,rfl,rfl⟩

namespace Loaded

theorem drop_succ (h : code.drop f.pc = i :: rest) : code.drop (f.pc + 1) = rest := by
  rw [← drop_drop,h]
  rfl

variable (h : Loaded a code)
include h

theorem nodup : (labelNames code).Nodup :=
  ((labelsFrom_isOk _ _ _).1 ⟨_,h.labels⟩).1

theorem codeAfter_eq (hl : a.labels.get? l = some pc) :
    codeAfter l code = some (code.drop pc) := by
  have hget := labelsFrom_get? h.labels l
  cases hafter : codeAfter l code with
  | none =>
    simp only [hafter,hl] at hget
    cases hget
  | some s =>
    simp only [hafter,hl,Nat.zero_add] at hget
    obtain ⟨k,hk,hdrop⟩ := hget
    cases hk
    rw [hdrop]

theorem exists_label (hl : codeAfter l code = some s) :
    ∃ pc, a.labels.get? l = some pc ∧ code.drop pc = s := by
  have hget := labelsFrom_get? h.labels l
  simp only [hl,Nat.zero_add] at hget
  exact hget

theorem step_end (hend : code.drop f.pc = []) (w : World) :
    step a f w =
      (.ok (.done .null),w.print ("// " ++ a.options.indent ++ a.shown ++ " --> NONE")) := by
  have hget : code[f.pc]? = none := by
    rw [← head?_drop,hend]
    rfl
  simp only [step,h.code_eq,getElem?_toArray,hget]

variable (hrest : code.drop f.pc = i :: rest)

section

include hrest

theorem step_eq (w : World) :
    step a f w =
      match perform a i { f with pc := f.pc + 1 } w with
      | (.ok (.done v),w) => (.ok (.done v),a.notes v w)
      | r => r := by
  have hget : code[f.pc]? = some i := by
    rw [← head?_drop,hrest]
    rfl
  simp only [step,h.code_eq,getElem?_toArray,hget,h.quiet]
  rfl

theorem step_iff {o : Outcome} (ho : ∀ v, o ≠ .done v) :
    step a f w = (.ok o,w1) ↔ perform a i { f with pc := f.pc + 1 } w = (.ok o,w1) := by
  rw [h.step_eq hrest]
  rcases perform a i { f with pc := f.pc + 1 } w with ⟨_ | _ | _ | v,_⟩ <;> simp [(ho _).symm]

theorem step_done :
    step a f w = (.ok (.done v),w1) ↔
      ∃ w0, perform a i { f with pc := f.pc + 1 } w = (.ok (.done v),w0) ∧
        w1 = a.notes v w0 := by
  rw [h.step_eq hrest]
  rcases perform a i { f with pc := f.pc + 1 } w with ⟨_ | _ | _ | u,w0⟩
  · simp
  · simp
  · simp
  · constructor
    · intro heq
      simp only [Prod.mk.injEq,Except.ok.injEq,Outcome.done.injEq] at heq
      exact ⟨w0,by rw [heq.1],by rw [← heq.2,heq.1]⟩
    · rintro ⟨w2,heq,rfl⟩
      cases heq
      rfl

theorem lt_size : f.pc < a.code.size := by
  rw [h.code_eq,size_toArray]
  by_contra hle
  rw [drop_eq_nil_of_le (by omega)] at hrest
  cases hrest

end

theorem steps_skipLabels (f : Frame) (w : World) :
    ∃ f1, Steps a f w f1 w ∧ code.drop f1.pc = skipLabels (code.drop f.pc) ∧
      f1.temps = f.temps ∧ f1.params = f.params := by
  induction hrest : code.drop f.pc generalizing f with
  | nil => exact ⟨f,.refl,hrest,rfl,rfl⟩
  | cons i rest ih =>
    cases hi : i.isLabel with
    | false => exact ⟨f,.refl,by rw [hrest,skipLabels_cons hi],rfl,rfl⟩
    | true =>
      have ho : i.opcode = .label := by simpa [Instr.isLabel] using hi
      obtain ⟨f1,hsteps,hdrop,htemps,hparams⟩ :=
        ih { f with previous := some f.current, current := i.arg1.text, pc := f.pc + 1 }
          (drop_succ hrest)
      exact ⟨f1,.head ((h.step_iff hrest (by simp)).2 (perform_label ho)) hsteps,
        by rw [hdrop,skipLabels_label hi],htemps,hparams⟩

end Loaded

end

end BxToolchain.Tac
