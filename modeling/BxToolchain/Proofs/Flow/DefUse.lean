import BxToolchain.Proofs.Flow.Standing

namespace BxToolchain.Flow

open Tac List

variable {f : String → String} {i : Instr} {k : Kind} {o : Operand}

def isVariableKind (k : Kind) : Bool := k = .variable || k = .optional

def variablesAt (k : Kind) (o : Operand) : List String :=
  if isVariableKind k then o.name?.toList else []

def variablesOf (i : Instr) : List String :=
  variablesAt i.opcode.kinds.1 i.dest ++ variablesAt i.opcode.kinds.2.1 i.arg1 ++
    variablesAt i.opcode.kinds.2.2 i.arg2 ++ i.sources.map Prod.snd

def Use.rename (f : String → String) : Use → Use
  | .plain t => .plain (f t)
  | .along l t => .along l (f t)

theorem isVariableKind_kinds (op : Opcode) :
    isVariableKind op.kinds.1 = op.writes ∧ isVariableKind op.kinds.2.1 = op.readsFirst ∧
      isVariableKind op.kinds.2.2 = op.readsSecond := by
  cases op <;> exact ⟨rfl,rfl,rfl⟩

theorem isTemp_eq (h : isLabel s = false) : isTemp s = startsWith "%" s := by
  simp [isTemp,h]

theorem temp?_eq_none (h : k.accepts o = true) (hk : isVariableKind k = false) :
    o.temp? = none := by
  cases htemp : o.temp? with
  | none => rfl
  | some s =>
    obtain ⟨rfl,hs⟩ := Operand.temp?_eq_some.1 htemp
    have hglobal := isGlobal_of_isTemp hs
    have hlabel : isLabel s = false := by
      rw [isTemp,Bool.and_eq_true,Bool.not_eq_true'] at hs
      exact hs.2
    cases k <;> simp_all [Kind.accepts,isVariableKind]

theorem absent_or_variable (h : k.accepts o = true) (hk : isVariableKind k = true) :
    o = .absent ∨ ∃ s, o = .name s ∧ s.isEmpty = false := by
  cases o with
  | absent => exact .inl rfl
  | name s =>
    have hs : isVariable s = true := by cases k <;> simp_all [Kind.accepts,isVariableKind]
    exact .inr ⟨s,rfl,ne_empty_of_isVariable hs⟩
  | _ => cases k <;> simp_all [Kind.accepts,isVariableKind]

theorem temp?_of_accepts (h : k.accepts o = true)
    (hplain : ∀ s ∈ variablesAt k o, isLabel s = false) :
    o.temp?.toList = (if isVariableKind k then o.read?.toList else []).filter (startsWith "%") := by
  cases hk : isVariableKind k with
  | false => simp [temp?_eq_none h hk]
  | true =>
    obtain rfl | ⟨s,rfl,hs⟩ := absent_or_variable h hk
    · rfl
    · have hlabel : isLabel s = false := hplain s (by simp [variablesAt,hk,Operand.name?])
      simp only [Operand.temp?,Operand.read?,hs,isTemp_eq hlabel]
      cases hmark : startsWith "%" s <;> simp [hmark]

theorem mapTemp_of_accepts (hfix : ∀ s, isTemp s = false → f s = s) (h : k.accepts o = true) :
    o.mapTemp f = if isVariableKind k then o.mapRead f else o := by
  cases hk : isVariableKind k with
  | false => simp [Operand.mapTemp,temp?_eq_none h hk]
  | true =>
    obtain rfl | ⟨s,rfl,hs⟩ := absent_or_variable h hk
    · rfl
    · cases htemp : isTemp s <;>
        simp [Operand.mapTemp,Operand.mapRead,Operand.temp?,Operand.read?,htemp,hs,hfix]

theorem toList_mapTemp (htemp : ∀ s, isTemp s = true → isTemp (f s) = true) (o : Operand) :
    (o.mapTemp f).temp?.toList = o.temp?.toList.map f := by
  unfold Operand.mapTemp
  cases ho : o.temp? with
  | none => simp [ho]
  | some s =>
    have hs := htemp s (Operand.temp?_eq_some.1 ho).2
    simp [Operand.temp?,hs]

theorem mapSources_of_ne (h : i.opcode ≠ .phi) : i.mapSources f = i := by
  unfold Instr.mapSources
  split <;> simp_all

theorem exists_sources (h : i.check = .ok ()) (hphi : i.opcode = .phi) :
    ∃ sources, i.arg1 = .phi sources := by
  have harg := (check_eq_ok.1 h).2.1
  rw [hphi] at harg
  cases ho : i.arg1 with
  | phi sources => exact ⟨sources,rfl⟩
  | _ => simp [ho,Kind.accepts,Opcode.kinds] at harg

theorem renameTemps_eq (hcheck : i.check = .ok ()) (hfix : ∀ s, isTemp s = false → f s = s) :
    i.renameTemps f = i.renameVariables f := by
  obtain ⟨hdest,harg1,harg2⟩ := check_eq_ok.1 hcheck
  obtain ⟨hwrites,hfirst,hsecond⟩ := isVariableKind_kinds i.opcode
  simp only [Instr.renameTemps,Instr.renameVariables,Instr.renameReads,
    mapTemp_of_accepts hfix hdest,mapTemp_of_accepts hfix harg1,mapTemp_of_accepts hfix harg2,
    hwrites,hfirst,hsecond]
  unfold Instr.mapSources
  split <;> simp_all

theorem defs_renameTemps (htemp : ∀ s, isTemp s = true → isTemp (f s) = true) (i : Instr) :
    (i.renameTemps f).defs = i.defs.map f := by
  have hdest : (i.renameTemps f).dest = i.dest.mapTemp f := by
    unfold Instr.renameTemps Instr.mapSources
    split <;> rfl
  rw [Instr.defs,hdest,toList_mapTemp htemp,Instr.defs]

theorem uses_renameTemps (hcheck : i.check = .ok ()) (hfix : ∀ s, isTemp s = false → f s = s)
    (htemp : ∀ s, isTemp s = true → isTemp (f s) = true) :
    (i.renameTemps f).uses = i.uses.map (Use.rename f) := by
  have hsame (s : String) : isTemp (f s) = isTemp s := by
    cases hs : isTemp s with
    | false => rw [hfix s hs,hs]
    | true => exact htemp s hs
  by_cases hphi : i.opcode = .phi
  · obtain ⟨sources,hsources⟩ := exists_sources hcheck hphi
    have hrenamed : i.renameTemps f =
        { i with dest := i.dest.mapTemp f, arg1 := .phi (sources.map fun e => (e.1,f e.2)),
                 arg2 := i.arg2.mapTemp f } := by
      simp [Instr.renameTemps,Instr.mapSources,hphi,hsources,Operand.mapTemp,Operand.temp?]
    have hnone (sources) : (Operand.phi sources).temp? = none := rfl
    simp [hrenamed,Instr.uses,Instr.sources,hphi,hsources,hnone,toList_mapTemp htemp,filter_map,
      Function.comp_def,hsame,Use.rename]
  · rw [Instr.renameTemps,mapSources_of_ne (by exact hphi)]
    simp [Instr.uses,hphi,toList_mapTemp htemp,Use.rename,Function.comp_def]

theorem defUse_agree (hcheck : i.check = .ok ()) (hplain : ∀ s ∈ variablesOf i, isLabel s = false) :
    i.uses.map Use.temp = i.reads.filter (startsWith "%") ∧
    i.defs = i.written.filter (startsWith "%") ∧
    ∀ f : String → String, (∀ s, isTemp s = false → f s = s) →
      (∀ s, isTemp s = true → isTemp (f s) = true) →
      i.renameTemps f = i.renameVariables f ∧
      (i.renameTemps f).uses = i.uses.map (Use.rename f) ∧
      (i.renameTemps f).defs = i.defs.map f := by
  obtain ⟨hdest,harg1,harg2⟩ := check_eq_ok.1 hcheck
  obtain ⟨hwrites,hfirst,hsecond⟩ := isVariableKind_kinds i.opcode
  simp only [variablesOf,mem_append,or_imp,forall_and] at hplain
  obtain ⟨⟨⟨hd,ha⟩,hb⟩,hsources⟩ := hplain
  refine ⟨?_,?_,fun f hfix htemp => ⟨renameTemps_eq hcheck hfix,
    uses_renameTemps hcheck hfix htemp,defs_renameTemps htemp i⟩⟩
  · have hvalues : (i.sources.filter fun e => isTemp e.2).map Prod.snd =
        (i.sources.map Prod.snd).filter (startsWith "%") := by
      rw [filter_map]
      congr 1
      exact filter_congr fun e he => isTemp_eq (hsources e.2 (mem_map_of_mem he))
    simp only [Instr.uses,Instr.reads,temp?_of_accepts harg1 ha,temp?_of_accepts harg2 hb,
      hfirst,hsecond,map_append,map_map,filter_append]
    by_cases hphi : i.opcode = .phi <;> simp [hphi,← hvalues,Use.temp,Function.comp_def]
  · rw [Instr.defs,Instr.written,temp?_of_accepts hdest hd,hwrites]

def joiningPhi : Instr :=
  { opcode := .phi, dest := .name "%x", arg1 := .phi [("%.L1","%y"),("%.L2","@g")] }

theorem joiningPhi_defUse :
    joiningPhi.check = .ok () ∧ (∀ s ∈ variablesOf joiningPhi, isLabel s = false) ∧
    joiningPhi.uses.map Use.temp = joiningPhi.reads.filter (startsWith "%") ∧
    ∃ f : String → String, f "%y" = "%z" ∧
      joiningPhi.renameTemps f = joiningPhi.renameVariables f ∧
      (joiningPhi.renameTemps f).uses = [.along "%.L1" "%z"] := by
  have hplain : ∀ s ∈ variablesOf joiningPhi, isLabel s = false := by decide
  obtain ⟨huses,-,hrename⟩ := defUse_agree (i := joiningPhi) rfl hplain
  obtain ⟨hsame,hrenamed,-⟩ := hrename (fun s => if s = "%y" then "%z" else s)
    (fun s hs => if_neg fun h => by rw [h] at hs; exact absurd hs (by decide))
    (fun s hs => by split; decide; exact hs)
  exact ⟨rfl,hplain,huses,fun s => if s = "%y" then "%z" else s,rfl,hsame,hrenamed⟩

end BxToolchain.Flow
