import BxToolchain.Proofs.Flow.Elimination

namespace BxToolchain.Flow

open Tac List

variable {after before : List Instr} {s t x : String}

def defined (is : List Instr) : List String := is.flatMap Instr.defs

structure InSingleForm (params : List Datum) (g : Graph) : Prop where
  once : (defined g.instrs).Nodup
  param {t : String} : t ∈ defined g.instrs → .str t ∉ params
  reads {b : Block} {before after : List Instr} {i : Instr} {t : String} : b ∈ g.blocks.values →
    b.instrs = before ++ i :: after → i.opcode ≠ .phi → .plain t ∈ i.uses → t ∈ defined before
  labels {b : Block} {i : Instr} : b ∈ g.blocks.values → i ∈ b.instrs → i.opcode = .phi →
    ∃ before, g.predecessors b.label = .ok before ∧ ∀ x, x ∈ i.sources.map Prod.fst ↔
      x ∈ before ∨ x = g.name ∧ (b.label = g.entry ∨ before = [])
  sources {b : Block} {i : Instr} {x s : String} : b ∈ g.blocks.values → i ∈ b.instrs →
    i.opcode = .phi → (x,s) ∈ i.sources → if x = g.name then i.dest.name?.map rootOf = some s
      else ∃ c, g.blocks.get? x = some c ∧ s ∈ defined c.instrs

section

variable {n m : Nat} {ts : List String}

theorem version_injective (h : version s n = version t m) : n = m := by
  have hroot : s = t := by rw [← rootOf_version s n,h,rootOf_version]
  rw [hroot] at h
  exact toString_injective (append_left_cancel h)

def Counted (n m : Nat) (ts : List String) : Prop :=
  ∃ roots : List String, m = n + roots.length ∧ ts = (roots.zipIdx n).map fun e => version e.1 e.2

theorem Counted.append (h : Counted n m ts) (h' : Counted m k us) : Counted n k (ts ++ us) := by
  obtain ⟨roots,rfl,rfl⟩ := h
  obtain ⟨roots',rfl,rfl⟩ := h'
  exact ⟨roots ++ roots',by simp [Nat.add_assoc],by rw [zipIdx_append,map_append]⟩

theorem Counted.nodup (h : Counted n m ts) : ts.Nodup := by
  obtain ⟨roots,-,rfl⟩ := h
  have hnumbers : ((roots.zipIdx n).map Prod.snd).Nodup := by
    rw [zipIdx_map_snd]
    exact nodup_range'
  exact pairwise_map.2 ((pairwise_map.1 hnumbers).imp fun hne heq =>
    hne (version_injective heq))

theorem Counted.point (h : Counted n m ts) (ht : t ∈ ts) : '.' ∈ t.toList := by
  obtain ⟨roots,-,rfl⟩ := h
  obtain ⟨e,-,rfl⟩ := mem_map.1 ht
  simp [toList_version]

end

section

theorem counted_convert (hi : Assigns i) :
    Counted n (versionInstr n i).2 (convert versions n vs i).defs := by
  rw [Instr.defs,dest_convert]
  rcases hi with habsent | ⟨d,hd,htemp | ⟨hglobal,-⟩⟩
  · rw [versionInstr_absent habsent]
    exact ⟨[],rfl,by simp [habsent,Operand.temp?]⟩
  · rw [versionInstr_temp hd htemp]
    exact ⟨[d],rfl,by simp [Operand.temp?,isTemp_version htemp n]⟩
  · have htemp : isTemp d = false := by simp [isTemp,not_startsWith_of_isGlobal hglobal]
    rw [versionInstr_global hd hglobal]
    exact ⟨[],rfl,by simp [hd,Operand.temp?,htemp]⟩

theorem counted_convertAll (his : ∀ i ∈ is, Assigns i) :
    Counted n (versionsBehind n vs is).1 (defined (convertAll versions n vs is)) := by
  induction is generalizing n vs with
  | nil => exact ⟨[],rfl,rfl⟩
  | cons i rest ih =>
    exact (counted_convert (his i (by simp))).append (ih fun j hj => his j (by simp [hj]))

theorem counted_blocks (h : ∀ e ∈ entries, ∀ i ∈ e.2.instrs, Assigns i) : ∃ m, Counted n m (defined
      ((numberBlocks n entries).flatMap fun e => (convertBlock versions e.1 e.2.2).instrs)) := by
  induction entries generalizing n with
  | nil => exact ⟨n,[],rfl,rfl⟩
  | cons e rest ih =>
    obtain ⟨m,hm⟩ := @ih (versionsBehind n {} e.2.instrs).1 fun e' he' => h e' (by simp [he'])
    refine ⟨m,?_⟩
    rw [numberBlocks,flatMap_cons,defined,flatMap_append,instrs_convertBlock]
    exact (counted_convertAll (h e (by simp))).append hm

theorem convertAll_eq_append (h : convertAll versions n vs is = before ++ i' :: after) :
    ∃ pre i post, is = pre ++ i :: post ∧
      before = convertAll versions n vs pre ∧
      i' = convert versions (versionsBehind n vs pre).1 (versionsBehind n vs pre).2 i := by
  induction is generalizing n vs before with
  | nil => simp [convertAll] at h
  | cons i rest ih =>
    cases before with
    | nil =>
      obtain ⟨rfl,-⟩ := List.cons.inj h
      exact ⟨[],i,rest,rfl,rfl,rfl⟩
    | cons j before =>
      obtain ⟨rfl,hrest⟩ := List.cons.inj h
      obtain ⟨pre,i,post,rfl,rfl,rfl⟩ := ih hrest
      exact ⟨_ :: pre,i,post,rfl,rfl,rfl⟩

theorem temp?_mapRead {o : Operand} (hvs : Rooted vs)
    (h : (o.mapRead vs.current).temp? = some s) : ∃ t, o.temp? = some t ∧ s = vs.current t := by
  unfold Operand.mapRead at h
  split at h
  · rename_i t ht
    obtain ⟨rfl,-⟩ := Operand.read?_eq_some ht
    obtain ⟨heq,htemp⟩ := Operand.temp?_eq_some.1 h
    obtain rfl := Operand.name.inj heq
    refine ⟨t,Operand.temp?_eq_some.2 ⟨rfl,?_⟩,rfl⟩
    cases hs : vs.get? t with
    | none => simpa [Versions.current,hs] using htemp
    | some s =>
      rcases hvs t s hs with ⟨ht,-⟩ | ⟨-,rfl⟩
      · exact ht
      · simpa [Versions.current,hs] using htemp
  · rename_i hnone
    obtain ⟨rfl,htemp⟩ := Operand.temp?_eq_some.1 h
    simp [Operand.read?,ne_empty_of_isVariable (isVariable_of_isTemp htemp)] at hnone

theorem exists_use_of_convert (hvs : Rooted vs) (hcheck : i.check = .ok ())
    (hphi : i.opcode ≠ .phi) (h : .plain s ∈ (convert versions n vs i).uses) :
    ∃ t, .plain t ∈ i.uses ∧ s = vs.current t := by
  obtain ⟨-,hfirst,hsecond⟩ := check_eq_ok.1 hcheck
  simp only [Instr.uses,opcode_convert,if_neg hphi,append_nil,mem_map,Use.plain.injEq,
    exists_eq_right,mem_append,Option.mem_toList] at h ⊢
  rcases h with h | h
  · rw [arg1_convert hphi] at h
    split at h
    · obtain ⟨t,ht,hs⟩ := temp?_mapRead hvs h
      exact ⟨t,.inl ht,hs⟩
    · rename_i hreads
      obtain ⟨harg,htemp⟩ := Operand.temp?_eq_some.1 h
      cases ho : i.opcode <;>
        simp_all [Opcode.kinds,Kind.accepts,Opcode.readsFirst,isTemp,isGlobal_of_isTemp]
  · rw [arg2_convert] at h
    split at h
    · obtain ⟨t,ht,hs⟩ := temp?_mapRead hvs h
      exact ⟨t,.inr ht,hs⟩
    · obtain ⟨harg,htemp⟩ := Operand.temp?_eq_some.1 h
      cases ho : i.opcode <;>
        simp_all [Opcode.kinds,Kind.accepts,Opcode.readsSecond,isTemp]

end

section

variable {n : Nat}

theorem mem_defined_of_versionsBehind (versions : Table String Versions) (his : ∀ i ∈ is, Assigns i)
    (ht : isTemp t = true) (h : (versionsBehind n {} is).2.get? t = some s) :
    s ∈ defined (convertAll versions n {} is) := by
  obtain ⟨j,hj,hdest⟩ := (mem_dests_of_versionsBehind versions his h).resolve_left (by simp)
  exact mem_flatMap.2
    ⟨j,hj,(mem_defs_name hdest ((rooted_empty.versionsBehind his).temp ht h)).2 rfl⟩

theorem Nameable.reads_versioned (hg : Nameable g) (hlive : LiveSets g l live)
    (hb : (n,b) ∈ g.places)
    (hsplit : (convertBlock (g.ends l) c (addPhis g l n b)).instrs = before ++ i' :: after)
    (hphi : i'.opcode ≠ .phi) (hs : .plain s ∈ i'.uses) : s ∈ defined before := by
  rw [instrs_convertBlock] at hsplit
  obtain ⟨pre,i,post,hinstrs,rfl,rfl⟩ := convertAll_eq_append hsplit
  rw [opcode_convert] at hphi
  have hassigns : ∀ j ∈ pre, Assigns j := fun j hj =>
    hg.assigns_addPhis hlive hb (hinstrs ▸ mem_append.2 (.inl hj))
  obtain ⟨t,ht,rfl⟩ := exists_use_of_convert (rooted_empty.versionsBehind hassigns)
    (hg.check_addPhis hlive hb (hinstrs ▸ by simp)) hphi hs
  -- an instruction that is no phi stands behind all phis
  obtain ⟨pre',hb',rfl⟩ : ∃ pre', b.instrs = pre' ++ i :: post ∧
      pre = (l.before.getD n []).map (phiFor (g.comesFrom b.label)) ++ pre' := by
    rw [instrs_addPhis] at hinstrs
    rcases append_eq_append_iff.1 hinstrs with h | ⟨rest,hphis,hrest⟩
    · exact h.imp fun _ => And.symm
    · cases rest with
      | nil => exact ⟨[],by simpa using hrest.symm,by simpa using hphis.symm⟩
      | cons j rest =>
        obtain ⟨rfl,-⟩ := List.cons.inj hrest
        have hmem : i ∈ (l.before.getD n []).map (phiFor (g.comesFrom b.label)) := by
          rw [hphis]
          simp
        obtain ⟨t,-,rfl⟩ := mem_map.1 hmem
        exact absurd rfl hphi
  have hlive' := hlive.before_or_defs hb (k := pre'.length) (by simp [hb'])
    (hlive.use hb (by simp [hb']) ht)
  rw [hb',take_left] at hlive'
  obtain ⟨s,hs⟩ : ∃ s, (versionsBehind c {} _).2.get? t = some s :=
    exists_version hassigns (.inr (hlive.exists_defs_phis hlive'))
  rw [Versions.current,hs]
  exact mem_defined_of_versionsBehind _ hassigns (isTemp_of_mem_uses ht) hs

theorem Nameable.exists_phi_versioned (hg : Nameable g)
    (hb : (n,b) ∈ g.places) (hi : i' ∈ (convertBlock (g.ends l) c (addPhis g l n b)).instrs)
    (ho : i'.opcode = .phi) : ∃ t m vs, t ∈ l.before.getD n [] ∧
      i' = convert (g.ends l) m vs (phiFor (g.comesFrom b.label) t) := by
  obtain ⟨k,hk⟩ := mem_iff_getElem?.1 hi
  obtain ⟨i,hget,rfl⟩ := exists_of_getElem?_convertBlock hk
  obtain ⟨t,ht,rfl⟩ := hg.exists_phi hb hget (opcode_convert.symm.trans ho)
  exact ⟨t,_,_,mem_of_getElem? ht,rfl⟩

theorem mem_labels_convert_phiFor :
    x ∈ (convert versions n vs (phiFor labels t)).sources.map Prod.fst ↔ x ∈ labels := by
  rw [sources_convert_phiFor,map_map]
  constructor
  · intro h
    obtain ⟨e,he,rfl⟩ := mem_map.1 h
    exact (mem_sources_phiFor he).1
  · exact fun h => mem_map.2 ⟨_,exists_source_phiFor t h,rfl⟩

theorem Nameable.source_versioned (hg : Nameable g) (hlive : LiveSets g l live)
    (hb : (n,b) ∈ g.places) (ht : t ∈ l.before.getD n [])
    (hx : x ∈ g.comesFrom b.label) (hname : x ≠ g.name) :
    ∃ b', (g.withPhis l).versioned.blocks.get? x = some b' ∧
      (((g.ends l).get? x).getD {}).current t ∈ defined b'.instrs := by
  obtain ⟨before,hbefore,hedge⟩ := hg.sound.exists_predecessors ((Table.contains_iff _ _).2
    ⟨b,hg.sound.mem_values.1 (mem_values_of_places hb)⟩)
  have hfrom := hedge.2 (((mem_comesFrom hbefore).2.1 hx).resolve_right fun h => hname h.1)
  obtain ⟨b₀,hb₀⟩ := (Table.contains_iff _ _).1 (hg.sound.placed.edge hfrom).1
  obtain ⟨m,hm⟩ := exists_place (mem_map.2 ⟨_,Table.mem_of_get? hb₀,rfl⟩)
  obtain rfl := hg.sound.label (Table.mem_of_get? hb₀)
  obtain ⟨c,hfound,hends⟩ := hg.sound.exists_versioned hg.name l hm
  obtain ⟨c',s,hends',hs⟩ := hg.exists_end hlive hm hb hfrom ht
  rw [← Option.some.inj (hends.symm.trans hends')] at hs
  refine ⟨_,hfound,?_⟩
  rw [hends,Option.getD_some,Versions.current,hs,instrs_convertBlock]
  exact mem_defined_of_versionsBehind _ (fun i hi => hg.assigns_addPhis hlive hm hi)
    (hlive.isTemp_before ht) hs

theorem Nameable.inSingleForm (hg : Nameable g) (hlive : LiveSets g l live)
    (hparams : ∀ t, .str t ∈ params → '.' ∉ t.toList) :
    InSingleForm params (g.withPhis l).versioned := by
  have hassigns : ∀ e ∈ (g.withPhis l).blocks.entries, ∀ i ∈ e.2.instrs, Assigns i := by
    intro e he i hi
    obtain ⟨⟨n,b⟩,hb,rfl⟩ := mem_map.1 he
    exact hg.assigns_addPhis hlive hb hi
  obtain ⟨m,hcounted⟩ : ∃ m, Counted 0 m (defined _) := counted_blocks hassigns
  have hinstrs : (g.withPhis l).versioned.instrs =
      (numberBlocks 0 (g.withPhis l).blocks.entries).flatMap
        fun e => (convertBlock (g.ends l) e.1 e.2.2).instrs := by
    simp [Graph.instrs,Graph.versioned,Table.values,flatMap_map,Graph.ends]
  rw [← hinstrs] at hcounted
  refine ⟨hcounted.nodup,fun ht hmem => hparams _ hmem (hcounted.point ht),fun hb' => ?_,
    fun hb' hi ho => ?_,fun {b' i x s} hb' hi ho hs => ?_⟩
  · obtain ⟨n,b,c,hb,rfl⟩ := mem_values_versioned hb'
    exact hg.reads_versioned hlive hb
  · obtain ⟨n,b,c,hb,rfl⟩ := mem_values_versioned hb'
    obtain ⟨t,m,vs,-,rfl⟩ := hg.exists_phi_versioned hb hi ho
    obtain ⟨before,hbefore,-⟩ := hg.sound.exists_predecessors ((Table.contains_iff _ _).2
      ⟨b,hg.sound.mem_values.1 (mem_values_of_places hb)⟩)
    exact ⟨before,hbefore,fun x => mem_labels_convert_phiFor.trans (mem_comesFrom hbefore).2⟩
  · obtain ⟨n,b,c,hb,rfl⟩ := mem_values_versioned hb'
    obtain ⟨t,m,vs,ht,rfl⟩ := hg.exists_phi_versioned hb hi ho
    have hlabel := mem_labels_convert_phiFor.1 (mem_map.2 ⟨_,hs,rfl⟩)
    rw [mem_sources_convert_phiFor hs]
    split
    · rename_i hname
      rw [dest_convert,versionInstr_temp (s := t) rfl (hlive.isTemp_before ht),hname,
        show (g.ends l).get? (g.withPhis l).versioned.name = _ from hg.sound.get?_ends_name hg.name]
      simp [Operand.name?,rootOf_version,Versions.current]
    · rename_i hname
      exact hg.source_versioned hlive hb ht hlabel hname

end

theorem ssa_inSingleForm {p q : Procedure} {g : Graph} (hname : isGlobal p.name = true)
    (hparams : ∀ d ∈ p.params, ∃ t, d = .str t ∧ '.' ∉ t.toList)
    (hcheck : ∀ i ∈ p.body, i.check = .ok ()) (hphi : ∀ i ∈ p.body, i.opcode ≠ .phi)
    (hassigns : ∀ i ∈ p.body, Assigns i) (hinfer : infer p = .ok (q,g)) (hfilled : Filled g) :
    ∃ g', ssa p.params g = .ok g' ∧ InSingleForm p.params g' ∧
      g'.name = g.name ∧ g'.entry = g.entry ∧ g'.edges = g.edges ∧ g'.blocks.keys = g.blocks.keys ∧
      ∀ x b, g.blocks.get? x = some b → ∃ b' k, g'.blocks.get? x = some b' ∧
        b'.instrs.map Instr.opcode = List.replicate k .phi ++ b.instrs.map Instr.opcode := by
  have hg := nameable_of_infer hname hcheck hphi hassigns hinfer hfilled
  obtain ⟨l,live,hl,hlive⟩ := hg.exists_liveness
  have hplain : p.params.any isCompound = false := by
    rw [any_eq_false]
    intro d hd
    obtain ⟨t,rfl,-⟩ := hparams d hd
    simp [isCompound]
  refine ⟨(g.withPhis l).versioned,hg.sound.ssa_eq hg.name (fun i hi => hg.phi hi) hl hplain,
    hg.inSingleForm hlive fun t ht => ?_,rfl,rfl,rfl,?_,fun x b hb => ?_⟩
  · obtain ⟨t',heq,hpoint⟩ := hparams _ ht
    cases heq
    exact hpoint
  · rw [keys_versioned,hg.sound.keys_withPhis]
  · obtain ⟨n,hn⟩ := exists_place (hg.sound.mem_values.2 (hg.sound.label (Table.mem_of_get? hb) ▸ hb))
    obtain ⟨c,hfound,-⟩ := hg.sound.exists_versioned hg.name l hn
    rw [hg.sound.label (Table.mem_of_get? hb)] at hfound
    refine ⟨_,(l.before.getD n []).length,hfound,?_⟩
    rw [instrs_convertBlock,map_opcode_convertAll,instrs_addPhis,map_append,map_map,
      ← map_const']
    rfl

theorem countdownProcedure_inSingleForm :
    ∃ q g g', infer countdownProcedure = .ok (q,g) ∧ ssa countdownProcedure.params g = .ok g' ∧
      InSingleForm countdownProcedure.params g' := by
  have hfilled : (infer countdownProcedure).toOption.any
      (fun r => r.2.blocks.values.all fun b => !b.instrs.isEmpty) = true := by
    decide +kernel
  cases hinfer : infer countdownProcedure with
  | error e => simp [hinfer,Except.toOption] at hfilled
  | ok r =>
    obtain ⟨q,g⟩ := r
    simp only [hinfer,Except.toOption,Option.any_some,all_eq_true] at hfilled
    have hp : Removable countdownProcedure :=
      removable_of_writesTemps (by decide +kernel) (by decide +kernel)
    obtain ⟨g',hssa,hform,-⟩ := ssa_inSingleForm hp.name
      (fun d hd => ⟨"%n",mem_singleton.1 hd,by decide⟩) hp.check hp.phi (fun _ => hp.assigns)
      hinfer (fun b hb => by simpa using hfilled b hb)
    exact ⟨q,g,g',rfl,hssa,hform⟩

end BxToolchain.Flow
