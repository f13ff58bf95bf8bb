import BxToolchain.Proofs.Flow.Conversion
import BxToolchain.Proofs.Flow.DeadStores

namespace BxToolchain.Flow

open Tac List

section

theorem mem_dests_of_versionsBehind (versions : Table String Versions) (his : ∀ i ∈ is, Assigns i)
    (h : (versionsBehind n vs is).2.get? t = some s) :
    vs.get? t = some s ∨ ∃ j ∈ convertAll versions n vs is, j.dest = .name s := by
  induction is generalizing n vs with
  | nil => exact .inl h
  | cons i rest ih =>
    rcases ih (fun j hj => his j (by simp [hj])) h with hvs | ⟨j,hj,hdest⟩
    · rcases (his i (by simp)).after n vs with ⟨-,-,hafter⟩ | ⟨d,s',-,hdest,hafter,-⟩
      · rw [hafter] at hvs
        exact .inl hvs
      · rw [hafter,Table.get?_insert] at hvs
        split at hvs
        · cases hvs
          exact .inr ⟨_,mem_cons_self,dest_convert.trans hdest⟩
        · exact .inl hvs
    · exact .inr ⟨j,mem_cons_of_mem _ hj,hdest⟩

theorem exists_version (his : ∀ i ∈ is, Assigns i)
    (h : (∃ s, vs.get? t = some s) ∨ ∃ i ∈ is, t ∈ i.defs) :
    ∃ s, (versionsBehind n vs is).2.get? t = some s := by
  induction is generalizing n vs with
  | nil => exact h.resolve_right (by simp)
  | cons i rest ih =>
    refine ih (fun j hj => his j (by simp [hj])) ?_
    rcases h with ⟨s,hs⟩ | ⟨j,hj,hdef⟩
    · refine .inl ?_
      rcases (his i (by simp)).after n vs with ⟨-,-,hafter⟩ | ⟨d,s',-,-,hafter,-⟩
      · rw [hafter]
        exact ⟨s,hs⟩
      · rw [hafter,Table.get?_insert]
        split
        · exact ⟨_,rfl⟩
        · exact ⟨s,hs⟩
    · rcases mem_cons.1 hj with rfl | hj
      · obtain ⟨ht,-⟩ := Operand.temp?_eq_some.1 (Option.mem_toList.1 hdef)
        rcases (his j (by simp)).after n vs with ⟨habsent,-⟩ | ⟨d,s',hd,-,hafter,-⟩
        · rw [habsent] at ht
          cases ht
        · obtain rfl : d = t := by simpa [hd] using ht
          rw [hafter]
          exact .inl ⟨_,Table.get?_insert_self ..⟩
      · exact .inr ⟨j,hj,hdef⟩

end

variable {i' : Instr}

section

variable {g : Graph} {l : Liveness} {live : Lives} {b : Block} {i : Instr} {n m c k : Nat}
  {t x : String}

theorem LiveSets.before_or_defs (hlive : LiveSets g l live) (hb : (n,b) ∈ g.places)
    (hk : k < b.instrs.length) (h : u ∈ live.getD (n + k) []) :
    u.temp ∈ l.before.getD n [] ∨ ∃ i ∈ b.instrs.take k, u.temp ∈ i.defs := by
  by_cases hdefs : ∃ i ∈ b.instrs.take k, u.temp ∈ i.defs
  · exact .inr hdefs
  · refine .inl (hlive.before.2 ⟨u,?_,rfl⟩)
    refine hlive.back (j := 0) hb hk (Nat.zero_le k) (fun {m i} _ hm hi hdef => hdefs ?_) h
    exact ⟨i,mem_of_getElem? (by rwa [getElem?_take_of_lt hm]),hdef⟩

theorem LiveSets.exists_defs_phis (hlive : LiveSets g l live)
    (h : t ∈ l.before.getD n [] ∨ ∃ i ∈ is, t ∈ i.defs) :
    ∃ i ∈ (l.before.getD n []).map (phiFor labels) ++ is, t ∈ i.defs := by
  rcases h with hbefore | ⟨i,hi,hdef⟩
  · refine ⟨phiFor labels t,?_,?_⟩
    · exact mem_append.2 (.inl (mem_map.2 ⟨t,hbefore,rfl⟩))
    · exact (mem_defs_name rfl (hlive.isTemp_before hbefore)).2 rfl
  · exact ⟨i,mem_append.2 (.inr hi),hdef⟩

theorem Nameable.exists_end (hg : Nameable g) (hlive : LiveSets g l live)
    (hb : (n,b) ∈ g.places) (hm : (m,b') ∈ g.places) (hedge : (b.label,b'.label) ∈ g.edges)
    (ht : t ∈ l.before.getD m []) : ∃ c s,
      (g.ends l).get? b.label = some (versionsBehind c {} (addPhis g l n b).instrs).2 ∧
      (versionsBehind c {} (addPhis g l n b).instrs).2.get? t = some s := by
  obtain ⟨c,-,hends⟩ := hg.sound.exists_versioned hg.name l hb
  have hpos := length_pos_iff.2 (hg.filled b (mem_values_of_places hb))
  have hplain := hg.live_plain hlive ht
  have hdefined : t ∈ l.before.getD n [] ∨ ∃ i ∈ b.instrs, t ∈ i.defs := by
    by_cases hlast : t ∈ (b.instrs.getLast (length_pos_iff.1 hpos)).defs
    · exact .inr ⟨_,getLast_mem _,hlast⟩
    · refine (hlive.before_or_defs (u := .plain t) hb (Nat.sub_one_lt_of_lt hpos)
        (hlive.edge hb hm hedge (getLast?_eq_some_getLast _) ?_ hlast)).imp_right
          fun ⟨i,hi,hdef⟩ => ⟨i,mem_of_mem_take hi,hdef⟩
      split
      · exact hplain
      · exact mem_alongEdge.2 ⟨t,rfl,.inl hplain⟩
  obtain ⟨s,hs⟩ : ∃ s, (versionsBehind c {} (addPhis g l n b).instrs).2.get? t = some s :=
    exists_version (fun i hi => hg.assigns_addPhis hlive hb hi)
      (.inr (by rw [instrs_addPhis]; exact hlive.exists_defs_phis hdefined))
  exact ⟨c,s,hends,hs⟩

theorem mem_sources_convert_phiFor (h : (x,s) ∈ (convert versions n vs (phiFor labels t)).sources) :
    s = ((versions.get? x).getD {}).current t := by
  rw [sources_convert_phiFor] at h
  obtain ⟨e,he,heq⟩ := mem_map.1 h
  cases heq
  rw [(mem_sources_phiFor he).2]

theorem body_versioned (hk : k < (convertBlock (g.ends l) c (addPhis g l n b)).body.length) :
    (convertBlock (g.ends l) c (addPhis g l n b)).instrs[k]? =
      (convertBlock (g.ends l) c (addPhis g l n b)).body[k]? := by
  rw [Block.instrs,getElem?_append_left hk]

theorem Nameable.exists_phi (hg : Nameable g) (hb : (n,b) ∈ g.places)
    (hi : (addPhis g l n b).instrs[k]? = some i) (ho : i.opcode = .phi) :
    ∃ t, (l.before.getD n [])[k]? = some t ∧ i = phiFor (g.comesFrom b.label) t := by
  rw [instrs_addPhis] at hi
  by_cases hk : k < (l.before.getD n []).length
  · rw [getElem?_append_left (by simpa using hk),getElem?_map] at hi
    obtain ⟨t,ht,rfl⟩ := Option.map_eq_some_iff.1 hi
    exact ⟨t,ht,rfl⟩
  · rw [getElem?_append_right (by simpa using hk)] at hi
    exact absurd ho (hg.phi (mem_instrs hb (mem_of_getElem? hi)))

theorem Renamable.prunable (hg : Renamable g)
    (hprint : ∀ {i}, i ∈ g.instrs → i.isPrint = true → i.dest = .absent)
    (hdest : ∀ {i s}, i ∈ g.instrs → i.dest = .name s → isTemp s = true) : Prunable g := by
  have hbody : ∀ {b i}, b ∈ g.blocks.values → i ∈ b.body → i ∈ g.instrs := fun hb hi =>
    mem_flatMap.2 ⟨_,hb,mem_append.2 (.inl hi)⟩
  refine ⟨hg.tight,fun hb hi => hg.check (hbody hb hi),fun hb hi => hprint (hbody hb hi),
    fun hb hi => hdest (hbody hb hi),fun hb _ hi ho => absurd ho (hg.phi (hbody hb hi)),
    fun hb _ hsplit ho => absurd ho (hg.phi (hbody hb ?_))⟩
  rw [hsplit]
  exact mem_append.2 (.inr mem_cons_self)

theorem isPrint_convert : (convert versions n vs i).isPrint = i.isPrint := by
  unfold Instr.isPrint
  rw [opcode_convert]
  by_cases ho : i.opcode = .call
  · rw [arg1_convert (by simp [ho])]
    simp [ho,Opcode.readsFirst]
  · simp [ho]

theorem Nameable.exists_block (hg : Nameable g) (h : b' ∈ (g.withPhis l).versioned.blocks.values) :
    ∃ n b c, (n,b) ∈ g.places ∧ b' = convertBlock (g.ends l) c (addPhis g l n b) ∧
      (g.ends l).get? b.label = some (versionsBehind c {} (addPhis g l n b).instrs).2 := by
  obtain ⟨⟨label,b'⟩,he,rfl⟩ := mem_map.1 h
  obtain ⟨n,b,c,hb,rfl,-⟩ := mem_entries_versioned he
  obtain ⟨c',hfound,hends⟩ := hg.sound.exists_versioned hg.name l hb
  have hnodup : (g.withPhis l).versioned.blocks.keys.Nodup := by
    rw [keys_versioned,hg.sound.keys_withPhis]
    exact hg.sound.nodup
  exact ⟨n,b,c',hb,Option.some.inj ((Table.get?_of_mem hnodup he).symm.trans hfound),hends⟩

variable (hg : Renamable g) (hlive : LiveSets g l live)
include hg hlive

theorem Renamable.self_versioned (hb : (n,b) ∈ g.places) (hedge : (b.label,b.label) ∈ g.edges)
    (hi' : i' ∈ (convertBlock (g.ends l) c (addPhis g l n b)).body) (ho : i'.opcode = .phi)
    (hs : (b.label,s) ∈ i'.sources) (htemp : isTemp s = true)
    (hfound : (g.ends l).get? b.label = some (versionsBehind c {} (addPhis g l n b).instrs).2) :
    ∃ j ∈ (convertBlock (g.ends l) c (addPhis g l n b)).body, s ∈ j.defs := by
  obtain ⟨k,hk,hget⟩ := mem_iff_getElem.1 hi'
  have hik := (body_versioned hk).trans (getElem?_eq_getElem hk)
  obtain ⟨i,hi,hconvert⟩ := exists_of_getElem?_convertBlock hik
  rw [hget] at hconvert
  subst hconvert
  obtain ⟨t,ht,rfl⟩ := hg.exists_phi hb hi (opcode_convert.symm.trans ho)
  have hbefore := mem_of_getElem? ht
  obtain ⟨c',s',hends,hs'⟩ := hg.exists_end hlive hb hb hedge hbefore
  have heq := mem_sources_convert_phiFor hs
  rw [hends,Option.getD_some,Versions.current,hs',Option.getD_some] at heq
  subst heq
  have hsame : (versionsBehind c {} (addPhis g l n b).instrs).2.get? t = some s := by
    rw [← Option.some.inj (hends.symm.trans hfound)]
    exact hs'
  obtain ⟨j,hj,hdest⟩ := (mem_dests_of_versionsBehind (g.ends l)
    (fun i hi => hg.assigns_addPhis hlive hb hi) hsame).resolve_left (by simp)
  rw [← instrs_convertBlock] at hj
  refine ⟨j,?_,(mem_defs_name hdest htemp).2 rfl⟩
  rcases mem_append.1 hj with hj | hj
  · exact hj
  · have hcut : (convertBlock (g.ends l) c (addPhis g l n b)).Cut :=
      (hg.sound.cut (hg.sound.mem_values.1 (mem_values_of_places hb))).convertBlock
    have hcheck := (hg.mem_convertBlock hlive hb (mem_append.2 (.inr hj))).1
    rw [dest_of_endsBlock hcheck (hcut.jumps hj)] at hdest
    cases hdest

theorem Renamable.early_versioned (hb : (n,b) ∈ g.places) (hedge : (x,b.label) ∈ g.edges)
    (hbody : (convertBlock (g.ends l) c (addPhis g l n b)).body = pre ++ i' :: post)
    (ho : i'.opcode = .phi) (hs : (x,s) ∈ i'.sources) (hj : j ∈ pre) : s ∉ j.defs := by
  have hlength : (convertBlock (g.ends l) c (addPhis g l n b)).body.length =
      pre.length + (post.length + 1) := by
    rw [hbody,length_append,length_cons]
  obtain ⟨k,hk,hget⟩ := mem_iff_getElem.1 hj
  have hik : (convertBlock (g.ends l) c (addPhis g l n b)).instrs[pre.length]? = some i' := by
    rw [body_versioned (by omega),hbody]
    simp
  have hjk : (convertBlock (g.ends l) c (addPhis g l n b)).instrs[k]? = some j := by
    rw [body_versioned (by omega),hbody,getElem?_append_left hk,getElem?_eq_getElem hk,hget]
  obtain ⟨i,hi,rfl⟩ := exists_of_getElem?_convertBlock hik
  obtain ⟨t,ht,rfl⟩ := hg.exists_phi hb hi (opcode_convert.symm.trans ho)
  obtain ⟨j0,hj0,rfl⟩ := exists_of_getElem?_convertBlock hjk
  have hlt := (List.getElem?_eq_some_iff.1 ht).1
  have hphi : ∃ d, (l.before.getD n [])[k]? = some d ∧ j0 = phiFor (g.comesFrom b.label) d := by
    rw [instrs_addPhis,getElem?_append_left (by rw [length_map]; omega),getElem?_map] at hj0
    obtain ⟨d,hd,rfl⟩ := Option.map_eq_some_iff.1 hj0
    exact ⟨d,hd,rfl⟩
  obtain ⟨d,hd,rfl⟩ := hphi
  have htemp := hlive.isTemp_before (mem_of_getElem? hd)
  obtain ⟨n0,b0,m,b1,hn0,hm,rfl,hlabel⟩ := hg.sound.placed.exists_places hedge
  obtain rfl : b1 = b := by
    have hget1 := hg.sound.mem_values.1 (mem_values_of_places hm)
    rw [hlabel,hg.sound.mem_values.1 (mem_values_of_places hb)] at hget1
    exact (Option.some.inj hget1).symm
  obtain ⟨c',s',hends,hs'⟩ := hg.exists_end hlive hn0 hb hedge (mem_of_getElem? ht)
  have heq := mem_sources_convert_phiFor hs
  rw [hends,Option.getD_some,Versions.current,hs',Option.getD_some] at heq
  subst heq
  have hrooted := hg.rooted_ends hlive hends
  have hne : t ≠ d := by
    rintro rfl
    have hindex := (getElem?_inj hlt (hlive.nodup n)).1 (ht.trans hd.symm)
    omega
  intro hdef
  have hdest : (convert (g.ends l) (stateAt c (addPhis g l n b1) k).1
      (stateAt c (addPhis g l n b1) k).2 (phiFor (g.comesFrom b1.label) d)).dest =
        .name (version d (stateAt c (addPhis g l n b1) k).1) := by
    rw [dest_convert,versionInstr_temp (s := d) rfl htemp]
  rw [mem_defs_name hdest (isTemp_version htemp _)] at hdef
  exact hrooted.ne_version (hlive.isTemp_before (mem_of_getElem? ht)) hs' hne hdef

theorem Renamable.prunable_versioned
    (hprint : ∀ {i}, i ∈ g.instrs → i.isPrint = true → i.dest = .absent)
    (hdest : ∀ {i s}, i ∈ g.instrs → i.dest = .name s → isTemp s = true) :
    Prunable (g.withPhis l).versioned := by
  refine ⟨hg.tight_versioned hlive,fun hb' hi' => ?_,fun hb' hi' hprint' => ?_,
    fun {b' i' s} hb' hi' hs => ?_,fun hb' hedge hi' ho hs htemp => ?_,
    fun hb' hedge hbody ho hs hj => ?_⟩
  · obtain ⟨n,b,c,hb,rfl⟩ := mem_values_versioned hb'
    exact (hg.mem_convertBlock hlive hb (mem_append.2 (.inl hi'))).1
  · obtain ⟨n,b,c,hb,rfl⟩ := mem_values_versioned hb'
    obtain ⟨-,i,hi,m,vs,-,rfl⟩ :=
      hg.mem_convertBlock hlive hb (mem_append.2 (.inl hi'))
    rw [isPrint_convert] at hprint'
    rcases mem_addPhis hi with ⟨t,-,rfl⟩ | hi
    · cases hprint'
    · have habsent := hprint (mem_instrs hb hi) hprint'
      rw [dest_convert,versionInstr_absent habsent,habsent]
  · obtain ⟨n,b,c,hb,rfl⟩ := mem_values_versioned hb'
    obtain ⟨-,i,hi,m,vs,-,rfl⟩ :=
      hg.mem_convertBlock hlive hb (mem_append.2 (.inl hi'))
    have htemp : ∀ {d}, i.dest = .name d → isTemp d = true := by
      intro d hd
      rcases mem_addPhis hi with ⟨t,ht,rfl⟩ | hi
      · cases hd
        exact hlive.isTemp_before ht
      · exact hdest (mem_instrs hb hi) hd
    rw [dest_convert] at hs
    rcases (hg.assigns_addPhis hlive hb hi).after m vs with
      ⟨-,habsent,-⟩ | ⟨d,s',hd,hs',-,⟨-,rfl⟩ | ⟨-,rfl⟩⟩
    · rw [habsent] at hs
      cases hs
    · rw [hs'] at hs
      cases hs
      exact isTemp_version (htemp hd) m
    · rw [hs'] at hs
      cases hs
      exact htemp hd
  · obtain ⟨n,b,c,hb,rfl,hends⟩ := hg.exists_block hb'
    exact hg.self_versioned hlive hb hedge hi' ho hs htemp hends
  · obtain ⟨n,b,c,hb,rfl⟩ := mem_values_versioned hb'
    exact hg.early_versioned hlive hb hedge hbody ho hs hj

end

structure Removable (p : Procedure) : Prop where
  name : isGlobal p.name = true
  check : ∀ i ∈ p.body, i.check = .ok ()
  phi : ∀ i ∈ p.body, i.opcode ≠ .phi
  dest : ∀ i ∈ p.body, ∀ s, i.dest = .name s → isTemp s = true
  print : ∀ i ∈ p.body, i.isPrint = true → i.dest = .absent

section

theorem Removable.assigns (hp : Removable p) (hi : i ∈ p.body) : Assigns i :=
  (dest_of_check (hp.check i hi)).imp_right fun ⟨s,hs,_⟩ => ⟨s,hs,.inl (hp.dest i hi s hs)⟩

theorem Removable.prunable (hp : Removable p) (h : infer p = .ok (q,g))
    (hjumps : ∀ b ∈ g.blocks.values, b.jumps ≠ []) (hg1 : g1 = g ∨ ssa p.params g = .ok g1) :
    Prunable g1 := by
  have hg := renamable_of_infer hp.name hp.check hp.phi (fun _ => hp.assigns) h hjumps
  have hprint : ∀ {i}, i ∈ g.instrs → i.isPrint = true → i.dest = .absent := fun hi =>
    print_of_infer hp.check h hp.print hi
  have hdest : ∀ {i s}, i ∈ g.instrs → i.dest = .name s → isTemp s = true := fun {i s} hi hs =>
    dest_of_infer hp.check h (P := fun o => ∀ s, o = .name s → isTemp s = true) (by simp) hp.dest hi s hs
  rcases hg1 with rfl | hssa
  · exact hg.prunable hprint hdest
  · obtain ⟨l,live,hl,hlive⟩ := hg.exists_liveness
    have hparams : p.params.any isCompound = false := by
      cases hany : p.params.any isCompound with
      | false => rfl
      | true =>
        unfold ssa at hssa
        obtain ⟨g0,-,hssa⟩ := Except.bind_eq_ok.1 hssa
        simp [hany,bind,Except.bind,throw,throwThe,MonadExceptOf.throw] at hssa
    rw [hg.sound.ssa_eq hg.name (fun i hi => hg.phi hi) hl hparams] at hssa
    cases hssa
    exact hg.prunable_versioned hlive hprint hdest

end

theorem eliminateDead_clean_executesAlike {p q : Procedure} {g g₁ : Graph} (hp : Removable p)
    (hinfer : infer p = .ok (q,g)) (hjumps : ∀ b ∈ g.blocks.values, b.jumps ≠ [])
    (hg₁ : g₁ = g ∨ ssa p.params g = .ok g₁) :
    ∃ g', eliminateDead g₁ = .ok g' ∧
      (∃ l, liveness g' = .ok l ∧ ∀ {n b k i d}, (n,b) ∈ g'.places → b.body[k]? = some i →
        hasEffect i.opcode = false → i.dest = .name d → d ∈ l.after.getD (n + k) []) ∧
      ∃ body body', linearize g₁ = .ok body ∧ linearize g' = .ok body' ∧
        ∀ (procs : Table String Procedure) (options : Options) (name : String) (args : List Datum)
          (w : World) (fuel : Nat) (v : Datum) (w' : World), options.showInstrs = false →
          execute (procs.insert p.name { p with body }) fuel options name args w = (.ok v,w') →
          ∃ fuel', execute (procs.insert p.name { p with body := body' }) fuel' options name args w =
            (.ok v,w') := by
  have hg := hp.prunable hinfer hjumps hg₁
  obtain ⟨order,horder⟩ := hg.tight.sound.exists_order
  obtain ⟨g',heq,⟨l,hl,hclean⟩,hlist,hrefines⟩ :=
    hg.exists_dropAllDead (g₁.instrs.length + 1) horder (Nat.lt_succ_self _)
  refine ⟨g',heq,⟨l,hl,fun hb hi heffect hd => ?_⟩,g₁.code order,g'.code order,
    horder.linearize_eq hg.tight.sound,hlist,fun procs options name args w fuel v w' hquiet hrun => ?_⟩
  · have hlive := hclean hb hi
    rw [isDead,heffect,hd] at hlive
    simpa using hlive
  · exact returns_iff_execute.mp ((returns_iff_execute.mpr ⟨fuel,hrun⟩).refine
      ((RefinesAll.refl false procs).insert (hrefines false p) p.name) hquiet)

def writesTemps (p : Procedure) : Bool :=
  isGlobal p.name && p.body.all fun i =>
    i.check.isOk && i.opcode != .phi && match i.dest with | .name s => isTemp s | _ => true

theorem removable_of_writesTemps (h : writesTemps p = true)
    (hprint : (p.body.all fun i => !i.isPrint || i.dest == .absent) = true) : Removable p := by
  simp only [writesTemps,Bool.and_eq_true,all_eq_true,Bool.or_eq_true,Bool.not_eq_true',
    bne_iff_ne,beq_iff_eq] at h hprint
  refine ⟨h.1,fun i hi => ?_,fun i hi => (h.2 i hi).1.2,fun i hi s hs => ?_,
    fun i hi hi' => (hprint i hi).resolve_left (by simp [hi'])⟩
  · exact eq_ok_of_isOk (h.2 i hi).1.1
  · have hdest := (h.2 i hi).2
    rwa [hs] at hdest

def callWith (p : Procedure) (body : List Instr) (arg : Int) : Except Fault Datum × World :=
  execute (({} : Table String Procedure).insert p.name { p with body }) 60 {} p.name [.int arg] {}

def callsBoth (p : Procedure) (convert : Graph → Except Fault Graph) (arg : Int)
    (test test' : Except Fault Datum × World → Bool) : Bool :=
  match infer p with
  | .error _ => false
  | .ok (_,g) =>
    (g.blocks.values.all fun b => !b.jumps.isEmpty) &&
    match convert g with
    | .error _ => false
    | .ok g1 =>
      match linearize g1, eliminateDead g1 with
      | .ok body, .ok g' =>
        match linearize g' with
        | .ok body' => test (callWith p body arg) && test' (callWith p body' arg)
        | .error _ => false
      | _, _ => false

theorem exists_of_callsBoth {convert arg test test'}
    (h : callsBoth p convert arg test test' = true) :
    ∃ q g g1 g' body body', infer p = .ok (q,g) ∧ (∀ b ∈ g.blocks.values, b.jumps ≠ []) ∧
      convert g = .ok g1 ∧ eliminateDead g1 = .ok g' ∧ linearize g1 = .ok body ∧
      linearize g' = .ok body' ∧ test (callWith p body arg) = true ∧
      test' (callWith p body' arg) = true := by
  unfold callsBoth at h
  split at h
  · cases h
  · rename_i q g hinfer
    rw [Bool.and_eq_true,all_eq_true] at h
    obtain ⟨hjumps,h⟩ := h
    split at h
    · cases h
    · rename_i g1 hconvert
      split at h
      · rename_i body g' hbody hdead
        split at h
        · rename_i body' hbody'
          rw [Bool.and_eq_true] at h
          exact ⟨q,g,g1,g',body,body',hinfer,fun b hb => by simpa using hjumps b hb,hconvert,
            hdead,hbody,hbody',h⟩
        · cases h
      · cases h

def countdownProcedure : Procedure :=
  ⟨"@main",[.str "%n"],[{ opcode := .const, dest := .name "%a", arg1 := .int 1 },
     .ofLabel "%.Lloop",{ opcode := .branch .zero, arg1 := .name "%n", arg2 := .name "%.Lend" },
     { opcode := .binary .add, dest := .name "%b", arg1 := .name "%a", arg2 := .name "%n" },
     { opcode := .binary .mul, dest := .name "%a", arg1 := .name "%b", arg2 := .name "%b" },
     { opcode := .const, dest := .name "%d", arg1 := .int 1 },
     { opcode := .binary .sub, dest := .name "%n", arg1 := .name "%n", arg2 := .name "%d" },
     .jumpTo "%.Lloop",.ofLabel "%.Lend",{ opcode := .ret, arg1 := .name "%n" }]⟩

theorem countdownProcedure_eliminateDead :
    ∃ q g g₁, infer countdownProcedure = .ok (q,g) ∧
      ssa countdownProcedure.params g = .ok g₁ ∧
      ∃ g', eliminateDead g₁ = .ok g' ∧ ∃ body', linearize g' = .ok body' ∧
        ∃ fuel w, execute (({} : Table String Procedure).insert countdownProcedure.name
          { countdownProcedure with body := body' }) fuel {} "@main" [.int 3] {} =
            (.ok (.int 0),w) := by
  have hcalls : callsBoth countdownProcedure (ssa countdownProcedure.params) 3 (givesNumber · 0 "")
      (fun _ => true) = true := by
    decide +kernel
  obtain ⟨q,g,g₁,-,body,-,hinfer,hjumps,hssa,-,hbody,-,hrun,-⟩ :=
    exists_of_callsBoth hcalls
  obtain ⟨g',heq,-,body₁,body',hbody₁,hbody',hruns⟩ := eliminateDead_clean_executesAlike
    (removable_of_writesTemps (by decide +kernel) (by decide +kernel)) hinfer hjumps (.inr hssa)
  cases hbody.symm.trans hbody₁
  obtain ⟨w,hrun,-⟩ := givesNumber_eq_true hrun
  obtain ⟨fuel,hfuel⟩ := hruns {} {} _ _ _ _ _ _ rfl hrun
  exact ⟨q,g,g₁,hinfer,hssa,g',heq,body',hbody',fuel,w,hfuel⟩

def printingProcedure : Procedure :=
  ⟨"@main",[.str "%p"],[{ opcode := .const, dest := .name "%x", arg1 := .int 5 },
     { opcode := .param, arg1 := .int 1, arg2 := .name "%p" },
     { opcode := .call, dest := .name "%x", arg1 := .name "@__bx_print_int", arg2 := .int 1 },
     { opcode := .ret, arg1 := .name "%x" }]⟩

theorem printingProcedure_eliminateDead :
    writesTemps printingProcedure = true ∧
    ∃ q g g' body body', infer printingProcedure = .ok (q,g) ∧
      (∀ b ∈ g.blocks.values, b.jumps ≠ []) ∧ eliminateDead g = .ok g' ∧
      linearize g = .ok body ∧ linearize g' = .ok body' ∧
      (∃ w, callWith printingProcedure body 7 = (.ok (.int 5),w)) ∧
      (callWith printingProcedure body' 7).1 = .error (.missingKey "'%x'") := by
  have hcalls : callsBoth printingProcedure .ok 7 (givesNumber · 5 "7\n")
      (givesFault · (.missingKey "'%x'")) = true := by
    decide +kernel
  obtain ⟨q,g,g₁,g',body,body',hinfer,hjumps,hsame,hdead,hbody,hbody',hrun,hfault⟩ :=
    exists_of_callsBoth hcalls
  cases hsame
  exact ⟨by decide +kernel,q,g,g',body,body',hinfer,hjumps,hdead,hbody,hbody',
    (givesNumber_eq_true hrun).imp fun w hw => hw.1,givesFault_eq_true hfault⟩

end BxToolchain.Flow
