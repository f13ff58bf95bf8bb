import BxToolchain.Proofs.Flow.Versions

namespace BxToolchain.Flow

open Tac List

def IsPlainName (s : String) : Prop :=
  isTemp s = true ∨ isGlobal s = true ∧ '.' ∉ s.toList

def Rooted (vs : Versions) : Prop :=
  ∀ t s, vs.get? t = some s →
    (isTemp t = true ∧ ∃ n, s = version t n) ∨ (isGlobal t = true ∧ s = t)

theorem isVariable_of_isTemp (h : isTemp s = true) : isVariable s = true := by
  simp [isVariable,startsWith_of_isTemp h]

theorem isVariable_of_isGlobal (h : isGlobal s = true) : isVariable s = true := by
  rw [isVariable,← isGlobal,h,Bool.or_true]

theorem not_startsWith_of_isGlobal (h : isGlobal s = true) : startsWith "%" s = false := by
  simp only [isGlobal,startsWith, isPrefixOf_iff_prefix] at h
  obtain ⟨rest,hrest⟩ := h
  simp [startsWith,← hrest,List.isPrefixOf]

variable {is : List Instr}

section

variable {vs : Versions} {i : Instr} {n : Nat} {s t : String}

theorem rooted_empty : Rooted {} := fun t s h => by cases h

theorem Rooted.root (h : Rooted vs) (ht : isTemp t = true) (hs : vs.get? t = some s) :
    rootOf s = t := by
  rcases h t s hs with ⟨-,n,rfl⟩ | ⟨hglobal,-⟩
  · exact rootOf_version t n
  · rw [isGlobal_of_isTemp ht] at hglobal
    cases hglobal

theorem Rooted.temp (h : Rooted vs) (ht : isTemp t = true) (hs : vs.get? t = some s) :
    isTemp s = true := by
  rcases h t s hs with ⟨-,n,rfl⟩ | ⟨-,rfl⟩
  · exact isTemp_version ht n
  · exact ht

theorem Rooted.current_global (h : Rooted vs) (ht : isGlobal t = true) : vs.current t = t := by
  unfold Versions.current
  cases hs : vs.get? t with
  | none => rfl
  | some s =>
    rcases h t s hs with ⟨htemp,-⟩ | ⟨-,rfl⟩
    · rw [isGlobal_of_isTemp htemp] at ht
      cases ht
    · rfl

theorem Rooted.isVariable_current (h : Rooted vs) (ht : isVariable t = true) :
    isVariable (vs.current t) = true := by
  unfold Versions.current
  cases hs : vs.get? t with
  | none => exact ht
  | some s =>
    rcases h t s hs with ⟨htemp,k,rfl⟩ | ⟨-,rfl⟩
    · exact isVariable_of_isTemp (isTemp_version htemp k)
    · exact ht

theorem Rooted.ne_version (h : Rooted vs) (ht : isTemp t = true) (hs : vs.get? t = some s)
    (hne : t ≠ d) : s ≠ version d n := by
  rintro rfl
  exact hne ((h.root ht hs).symm.trans (rootOf_version d n))

theorem versionInstr_absent (h : i.dest = .absent) (n : Nat) : versionInstr n i = (i,n) := by
  simp [versionInstr,h]

theorem versionInstr_temp (h : i.dest = .name s) (hs : isTemp s = true) (n : Nat) :
    versionInstr n i = ({ i with dest := .name (version s n) },n + 1) := by
  simp [versionInstr,h,startsWith_of_isTemp hs,version]

theorem versionInstr_global (h : i.dest = .name s) (hs : isGlobal s = true) (n : Nat) :
    versionInstr n i = (i,n) := by
  simp [versionInstr,h,not_startsWith_of_isGlobal hs]

theorem after_absent (h : i.dest = .absent) (vs : Versions) : vs.after i = vs := by
  simp [Versions.after,h,Operand.read?]

theorem after_version (hs : isTemp s = true) (i : Instr) (n : Nat) (vs : Versions) :
    vs.after { i with dest := .name (version s n) } = vs.insert s (version s n) := by
  have hversion := ne_empty_of_isVariable (isVariable_of_isTemp (isTemp_version hs n))
  simp [Versions.after,Operand.read?,hversion,rootOf_version]

theorem after_global (h : i.dest = .name s) (hs : isGlobal s = true) (hpoint : '.' ∉ s.toList)
    (vs : Versions) : vs.after i = vs.insert s s := by
  have hne := ne_empty_of_isVariable (isVariable_of_isGlobal hs)
  simp [Versions.after,Operand.read?,h,hne,rootOf_eq_self hpoint]

def Assigns (i : Instr) : Prop := i.dest = .absent ∨ ∃ s, i.dest = .name s ∧ IsPlainName s

theorem Rooted.insert (h : Rooted vs)
    (hs : (isTemp t = true ∧ ∃ n, s = version t n) ∨ (isGlobal t = true ∧ s = t)) :
    Rooted (vs.insert t s) := by
  intro t' s' hs'
  by_cases heq : t' = t
  · subst heq
    rw [Table.get?_insert_self] at hs'
    cases hs'
    exact hs
  · rw [Table.get?_insert_of_ne _ _ heq] at hs'
    exact h t' s' hs'

theorem Assigns.after (hi : Assigns i) (n : Nat) (vs : Versions) :
    (i.dest = .absent ∧ (versionInstr n i).1.dest = .absent ∧
      vs.after (versionInstr n i).1 = vs) ∨
    ∃ d s, i.dest = .name d ∧ (versionInstr n i).1.dest = .name s ∧
      vs.after (versionInstr n i).1 = vs.insert d s ∧
      ((isTemp d = true ∧ s = version d n) ∨ (isGlobal d = true ∧ s = d)) := by
  rcases hi with habsent | ⟨d,hd,htemp | ⟨hglobal,hpoint⟩⟩
  · rw [versionInstr_absent habsent]
    exact .inl ⟨habsent,habsent,after_absent habsent vs⟩
  · rw [versionInstr_temp hd htemp]
    exact .inr ⟨d,version d n,hd,rfl,after_version htemp i n vs,.inl ⟨htemp,rfl⟩⟩
  · rw [versionInstr_global hd hglobal]
    exact .inr ⟨d,d,hd,hd,after_global hd hglobal hpoint vs,.inr ⟨hglobal,rfl⟩⟩

theorem Rooted.after (h : Rooted vs) (hi : Assigns i) : Rooted (vs.after (versionInstr n i).1) := by
  rcases hi.after n vs with ⟨-,-,hafter⟩ | ⟨d,s,-,-,hafter,hs⟩
  · rwa [hafter]
  · rw [hafter]
    exact h.insert (hs.imp_left fun ⟨htemp,hs⟩ => ⟨htemp,n,hs⟩)

theorem Rooted.versionsBehind (h : Rooted vs) (his : ∀ i ∈ is, Assigns i) :
    Rooted (Flow.versionsBehind n vs is).2 := by
  induction is generalizing n vs with
  | nil => exact h
  | cons i rest ih =>
    exact ih (h.after (his i (by simp))) fun j hj => his j (by simp [hj])

theorem opcode_resolve (versions : Table String Versions) (i : Instr) :
    (resolve versions i).opcode = i.opcode := by
  unfold resolve
  split <;> rfl

theorem dest_resolve (versions : Table String Versions) (i : Instr) :
    (resolve versions i).dest = i.dest := by
  unfold resolve
  split <;> rfl

theorem arg2_resolve (versions : Table String Versions) (i : Instr) :
    (resolve versions i).arg2 = i.arg2 := by
  unfold resolve
  split <;> rfl

theorem resolve_of_ne (versions : Table String Versions) (h : i.opcode ≠ .phi) :
    resolve versions i = i := by
  unfold resolve
  split
  · exact absurd ‹_› h
  · rfl

variable {versions : Table String Versions}

theorem opcode_convert : (convert versions n vs i).opcode = i.opcode := by
  rw [convert,opcode_resolve]
  exact opcode_versionInstr n i

theorem dest_convert : (convert versions n vs i).dest = (versionInstr n i).1.dest := by
  rw [convert,dest_resolve]
  rfl

theorem arg2_convert : (convert versions n vs i).arg2 =
    if i.opcode.readsSecond then i.arg2.mapRead vs.current else i.arg2 := by
  rw [convert,arg2_resolve,Instr.renameReads,opcode_versionInstr,arg2_versionInstr]

theorem arg1_convert (h : i.opcode ≠ .phi) : (convert versions n vs i).arg1 =
    if i.opcode.readsFirst then i.arg1.mapRead vs.current else i.arg1 := by
  have hphi : ((versionInstr n i).1.renameReads vs.current).opcode ≠ .phi := by
    show (versionInstr n i).1.opcode ≠ .phi
    rwa [opcode_versionInstr]
  rw [convert,resolve_of_ne versions hphi,Instr.renameReads,opcode_versionInstr,
    arg1_versionInstr]

theorem arg1_convert_phi (h : i.opcode = .phi) (hsources : i.arg1 = .phi sources) :
    (convert versions n vs i).arg1 =
      .phi (sources.map fun e => (e.1,((versions.get? e.1).getD {}).current e.2)) := by
  have ho : ((versionInstr n i).1.renameReads vs.current).opcode = .phi := by
    show (versionInstr n i).1.opcode = .phi
    rwa [opcode_versionInstr]
  have harg : ((versionInstr n i).1.renameReads vs.current).arg1 = .phi sources := by
    rw [Instr.renameReads,opcode_versionInstr,arg1_versionInstr,h,hsources]
    rfl
  simp [convert,resolve,ho,harg]

theorem sources_convert_phiFor :
    (convert versions n vs (phiFor labels t)).sources =
      (phiFor labels t).sources.map fun e =>
        (e.1,((versions.get? e.1).getD {}).current e.2) := by
  rw [Instr.sources,arg1_convert_phi rfl rfl]
  rfl

theorem Kind.accepts_mapRead {k : Kind} {o : Operand} (hvs : Rooted vs)
    (hk : k = .variable ∨ k = .optional) (h : k.accepts o = true) :
    k.accepts (o.mapRead vs.current) = true := by
  cases o with
  | name s =>
    have hs : isVariable s = true := by
      rcases hk with rfl | rfl <;> exact h
    have hcurrent := hvs.isVariable_current hs
    rcases hk with rfl | rfl <;>
      simpa [Operand.mapRead,Operand.read?,ne_empty_of_isVariable hs,Kind.accepts] using hcurrent
  | _ => exact h

theorem check_convert (hvs : Rooted vs) (hends : ∀ l vs, versions.get? l = some vs → Rooted vs)
    (hassigns : Assigns i) (h : i.check = .ok ()) : (convert versions n vs i).check = .ok () := by
  obtain ⟨hdest,hfirst,hsecond⟩ := check_eq_ok.1 h
  rw [check_eq_ok,opcode_convert,dest_convert]
  refine ⟨?_,?_,?_⟩
  · rcases hassigns.after n vs with ⟨habsent,hinstr,-⟩ | ⟨d,s,hd,hinstr,-,hs⟩
    · rwa [hinstr,← habsent]
    · have hvariable : isVariable s = true := by
        rcases hs with ⟨htemp,rfl⟩ | ⟨hglobal,rfl⟩
        · exact isVariable_of_isTemp (isTemp_version htemp n)
        · exact isVariable_of_isGlobal hglobal
      rw [hinstr]
      cases ho : i.opcode <;> simp_all [Opcode.kinds,Kind.accepts]
  · by_cases hphi : i.opcode = .phi
    · rw [hphi] at hfirst ⊢
      cases harg : i.arg1 with
      | phi sources =>
        rw [arg1_convert_phi hphi harg]
        rw [harg] at hfirst
        simp only [Opcode.kinds,Kind.accepts,all_map,all_eq_true] at hfirst ⊢
        intro e he
        have hvariable := hfirst e he
        show isVariable (((versions.get? e.1).getD {}).current e.2) = true
        cases hv : versions.get? e.1 with
        | none => exact hvariable
        | some vs => exact (hends _ _ hv).isVariable_current hvariable
      | _ => simp [harg,Opcode.kinds,Kind.accepts] at hfirst
    · rw [arg1_convert hphi]
      split
      · rename_i hreads
        refine Kind.accepts_mapRead hvs ?_ hfirst
        cases ho : i.opcode <;> simp_all [Opcode.kinds,Opcode.readsFirst]
      · exact hfirst
  · rw [arg2_convert]
    split
    · rename_i hreads
      refine Kind.accepts_mapRead hvs ?_ hsecond
      cases ho : i.opcode <;> simp_all [Opcode.kinds,Opcode.readsSecond]
    · exact hsecond

theorem target_convert (h : i.opcode.endsBlock = true) :
    (convert versions n vs i).target = i.target := by
  have hphi : i.opcode ≠ .phi := by
    intro ho
    simp [ho,Opcode.endsBlock,Opcode.isBranch,Opcode.isFinal] at h
  rw [Instr.target,Instr.target,opcode_convert,arg1_convert hphi,arg2_convert]
  cases ho : i.opcode <;>
    simp_all [Opcode.endsBlock,Opcode.isBranch,Opcode.isFinal,Opcode.readsFirst,
      Opcode.readsSecond]

theorem map_target_convertAll (h : ∀ i ∈ is, i.opcode.endsBlock = true) :
    (convertAll versions n vs is).map Instr.target = is.map Instr.target := by
  induction is generalizing n vs with
  | nil => rfl
  | cons i rest ih =>
    rw [convertAll,map_cons,map_cons,target_convert (h i (by simp)),
      ih fun j hj => h j (by simp [hj])]

theorem map_opcode_convertAll (is : List Instr) :
    (convertAll versions n vs is).map Instr.opcode = is.map Instr.opcode := by
  induction is generalizing n vs with
  | nil => rfl
  | cons i rest ih => rw [convertAll,map_cons,map_cons,opcode_convert,ih]

theorem exists_getLast_convertAll (h : is.getLast? = some i) :
    ∃ i', (convertAll versions n vs is).getLast? = some i' ∧ i'.opcode = i.opcode := by
  have hlast : ((convertAll versions n vs is).map Instr.opcode).getLast? = some i.opcode := by
    rw [map_opcode_convertAll,getLast?_map,h]
    rfl
  rw [getLast?_map] at hlast
  exact Option.map_eq_some_iff.1 hlast

theorem mem_convertAll (hvs : Rooted vs) (his : ∀ i ∈ is, Assigns i)
    (h : i' ∈ convertAll versions n vs is) :
    ∃ i ∈ is, ∃ n vs, Rooted vs ∧ i' = convert versions n vs i := by
  induction is generalizing n vs with
  | nil => cases h
  | cons i rest ih =>
    rcases mem_cons.1 h with rfl | h
    · exact ⟨i,by simp,n,vs,hvs,rfl⟩
    · obtain ⟨j,hj,hrest⟩ :=
        ih (hvs.after (his i (by simp))) (fun j hj => his j (by simp [hj])) h
      exact ⟨j,by simp [hj],hrest⟩

end

theorem jumpsTo_iff_mem_map : JumpsTo jumps l ↔ .name l ∈ jumps.map Instr.target ∧ l ≠ "" := by
  constructor
  · rintro ⟨j,hj,htarget,hne⟩
    exact ⟨mem_map.2 ⟨j,hj,htarget⟩,hne⟩
  · rintro ⟨hmem,hne⟩
    obtain ⟨j,hj,htarget⟩ := mem_map.1 hmem
    exact ⟨j,hj,htarget,hne⟩

theorem isTemp_of_mem_uses {i : Instr} {u : Use} (h : u ∈ i.uses) : isTemp u.temp = true := by
  rcases mem_append.1 h with h | h
  · obtain ⟨t,ht,rfl⟩ := mem_map.1 h
    rcases mem_append.1 ht with ht | ht
    · exact (Operand.temp?_eq_some.1 (Option.mem_toList.1 ht)).2
    · exact (Operand.temp?_eq_some.1 (Option.mem_toList.1 ht)).2
  · split at h
    · obtain ⟨e,he,rfl⟩ := mem_map.1 h
      exact (mem_filter.1 he).2
    · cases h

structure Nameable (g : Graph) : Prop where
  sound : Sound g
  filled : Filled g
  name : isGlobal g.name = true
  check {i : Instr} : i ∈ g.instrs → i.check = .ok ()
  phi {i : Instr} : i ∈ g.instrs → i.opcode ≠ .phi
  assigns {i : Instr} : i ∈ g.instrs → Assigns i

structure Renamable (g : Graph) : Prop extends Nameable g where
  tight : Tight g

section

variable {g : Graph} {l : Liveness} {live : Lives} {b : Block} {i : Instr} {n : Nat} {t : String}

theorem mem_instrs (hb : (n,b) ∈ g.places) (hi : i ∈ b.instrs) : i ∈ g.instrs :=
  mem_flatMap.2 ⟨b,mem_values_of_places hb,hi⟩

theorem Nameable.exists_liveness (hg : Nameable g) :
    ∃ l live, liveness g = .ok l ∧ LiveSets g l live :=
  hg.sound.exists_liveness hg.filled fun _ hi => isBroken_of_check (hg.check hi)

theorem LiveSets.isTemp_before (hlive : LiveSets g l live) (h : t ∈ l.before.getD n []) :
    isTemp t = true := by
  obtain ⟨u,hu,rfl⟩ := hlive.before.1 h
  obtain ⟨i,-,v,hv,rfl | rfl⟩ := hlive.origin hu
  · exact isTemp_of_mem_uses hv
  · have htemp := isTemp_of_mem_uses hv
    exact htemp

theorem check_phiFor (ht : isTemp t = true) : (phiFor labels t).check = .ok () := by
  refine check_eq_ok.2 ⟨isVariable_of_isTemp ht,all_eq_true.2 fun e he => ?_,rfl⟩
  have he : e ∈ (phiFor labels t).sources := he
  rw [(mem_sources_phiFor he).2]
  exact isVariable_of_isTemp ht

theorem mem_addPhis (h : i ∈ (addPhis g l n b).instrs) :
    (∃ t ∈ l.before.getD n [], i = phiFor (g.comesFrom b.label) t) ∨ i ∈ b.instrs := by
  rw [instrs_addPhis] at h
  rcases mem_append.1 h with h | h
  · obtain ⟨t,ht,rfl⟩ := mem_map.1 h
    exact .inl ⟨t,ht,rfl⟩
  · exact .inr h

theorem keys_versioned (g : Graph) : g.versioned.blocks.keys = g.blocks.keys := by
  have hkeys := congrArg (List.map Prod.fst) (map_snd_numberBlocks 0 g.blocks.entries)
  rw [map_map] at hkeys
  simpa [Graph.versioned,Table.keys,Function.comp_def] using hkeys

theorem Block.Cut.convertBlock (hb : b.Cut) :
    (Flow.convertBlock versions c (addPhis g l n b)).Cut := by
  have hopcode : ∀ {i' is m vs}, i' ∈ convertAll versions m vs is → ∃ i ∈ is, i'.opcode = i.opcode := by
    intro i' is m vs hi'
    have hmem : i'.opcode ∈ (convertAll versions m vs is).map Instr.opcode :=
      mem_map.2 ⟨i',hi',rfl⟩
    rw [map_opcode_convertAll] at hmem
    obtain ⟨i,hi,heq⟩ := mem_map.1 hmem
    exact ⟨i,hi,heq.symm⟩
  refine ⟨fun hi' => ?_,fun hi' => ?_⟩
  · obtain ⟨i,hi,heq⟩ := hopcode hi'
    rw [Instr.isLabel,heq,← Instr.isLabel]
    rcases mem_append.1 hi with hi | hi
    · obtain ⟨t,-,rfl⟩ := mem_map.1 hi
      exact ⟨rfl,rfl⟩
    · exact hb.body hi
  · obtain ⟨i,hi,heq⟩ := hopcode hi'
    rw [heq]
    exact hb.jumps hi

section

variable (hg : Nameable g) (hlive : LiveSets g l live)
include hg hlive

theorem Nameable.live_plain (h : t ∈ l.before.getD n []) : .plain t ∈ live.getD n [] := by
  obtain ⟨u,hu,rfl⟩ := hlive.before.1 h
  obtain ⟨i,hi,v,hv,hor⟩ := hlive.origin hu
  have hplain : v = .plain v.temp := by
    rcases mem_append.1 hv with hv | hv
    · obtain ⟨t,-,rfl⟩ := mem_map.1 hv
      rfl
    · simp [hg.phi hi] at hv
  rcases hor with rfl | rfl
  · rwa [← hplain]
  · exact hu

theorem Nameable.assigns_addPhis (hb : (n,b) ∈ g.places) (h : i ∈ (addPhis g l n b).instrs) :
    Assigns i := by
  rcases mem_addPhis h with ⟨t,ht,rfl⟩ | h
  · exact .inr ⟨t,rfl,.inl (hlive.isTemp_before ht)⟩
  · exact hg.assigns (mem_instrs hb h)

theorem Nameable.check_addPhis (hb : (n,b) ∈ g.places) (h : i ∈ (addPhis g l n b).instrs) :
    i.check = .ok () := by
  rcases mem_addPhis h with ⟨t,ht,rfl⟩ | h
  · exact check_phiFor (hlive.isTemp_before ht)
  · exact hg.check (mem_instrs hb h)

theorem Nameable.rooted_ends (h : (g.ends l).get? label = some vs) : Rooted vs := by
  have hmem : (label,vs) ∈ (g.name,{}) :: _ := Table.mem_of_mem_ofList (Table.mem_of_get? h)
  rcases mem_cons.1 hmem with heq | hmem
  · cases heq
    exact rooted_empty
  · obtain ⟨⟨c,label',d⟩,hd,heq⟩ := mem_map.1 hmem
    cases heq
    obtain ⟨n,b,hb,-,rfl⟩ := mem_numberBlocks_withPhis hd
    exact rooted_empty.versionsBehind fun i hi => hg.assigns_addPhis hlive hb hi

theorem Nameable.mem_convertBlock (hb : (n,b) ∈ g.places)
    (h : i' ∈ (convertBlock (g.ends l) c (addPhis g l n b)).instrs) :
    i'.check = .ok () ∧ ∃ i ∈ (addPhis g l n b).instrs, ∃ m vs, Rooted vs ∧
      i' = convert (g.ends l) m vs i := by
  rw [instrs_convertBlock] at h
  obtain ⟨i,hi,m,vs,hvs,rfl⟩ :=
    mem_convertAll rooted_empty (fun i hi => hg.assigns_addPhis hlive hb hi) h
  exact ⟨check_convert hvs (fun _ _ => hg.rooted_ends hlive) (hg.assigns_addPhis hlive hb hi)
    (hg.check_addPhis hlive hb hi),i,hi,m,vs,hvs,rfl⟩

end

theorem Renamable.tight_versioned (hg : Renamable g) (hlive : LiveSets g l live) :
    Tight (g.withPhis l).versioned := by
  have hsound := hg.sound
  have hkeys : (g.withPhis l).versioned.blocks.keys = g.blocks.keys :=
    (keys_versioned _).trans hsound.keys_withPhis
  refine ⟨hsound.withBlocks hkeys fun {label b'} hmem => ?_,fun hb' => ?_,fun hb' hj => ?_⟩
  · obtain ⟨n,b,c,hb,rfl,rfl⟩ := mem_entries_versioned hmem
    have hvalue := mem_values_of_places hb
    have hget := hsound.mem_values.1 hvalue
    have hcut := hsound.cut hget
    refine ⟨b,Table.mem_of_get? hget,rfl,hcut.convertBlock,fun hne => ?_,fun m => ?_⟩
    · obtain ⟨j,hj,hfinal⟩ := (closed_iff_jumps (hg.tight.jumps hvalue)).1 (hg.tight.closed hvalue)
      obtain ⟨j',hj',hopcode⟩ := exists_getLast_convertAll hj
      exact (closed_iff_jumps hne).2 ⟨j',hj',hopcode ▸ hfinal⟩
    · rw [jumpsTo_iff_mem_map,jumpsTo_iff_mem_map]
      have hmap : (convertBlock (g.ends l) c (addPhis g l n b)).jumps.map Instr.target =
          b.jumps.map Instr.target := map_target_convertAll fun i hi => hcut.jumps hi
      rw [hmap]
  · obtain ⟨n,b,c,hb,rfl⟩ := mem_values_versioned hb'
    intro hnil
    have hlength := length_convertAll (g.ends l) (versionsBehind c {} (addPhis g l n b).body).1
      (versionsBehind c {} (addPhis g l n b).body).2 b.jumps
    rw [show convertAll (g.ends l) _ _ b.jumps = [] from hnil] at hlength
    exact hg.tight.jumps (mem_values_of_places hb) (length_eq_zero_iff.1 hlength.symm)
  · obtain ⟨n,b,c,hb,rfl⟩ := mem_values_versioned hb'
    exact (hg.mem_convertBlock hlive hb (mem_append.2 (.inr hj))).1

end

end BxToolchain.Flow
