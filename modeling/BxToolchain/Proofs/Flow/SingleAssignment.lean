import BxToolchain.Proofs.Flow.Renaming

namespace BxToolchain.Flow

open Tac List

variable {m : Nat} {vs : Versions} {x t : String} {temps : Temps} {params' : List Datum}

def Holds (vs : Versions) (temps : Temps) (t : String) (v : Datum) : Prop :=
  ∃ s, vs.get? t = some s ∧ temps.get? s = some v

section

theorem Holds.insert_self (vs : Versions) (temps : Temps) (s t : String) (v : Datum) :
    Holds (vs.insert t s) (temps.insert s v) t v :=
  ⟨s,Table.get?_insert_self ..,Table.get?_insert_self ..⟩

theorem Holds.insert_of_ne (h : Holds vs temps t v) (hvs : Rooted vs) (ht : isTemp t = true)
    (hne : t ≠ d) : Holds (vs.insert d (version d m)) (temps.insert (version d m) u) t v := by
  obtain ⟨s,hs,hv⟩ := h
  refine ⟨s,by rwa [Table.get?_insert_of_ne _ _ hne],?_⟩
  rwa [Table.get?_insert_of_ne _ _ (hvs.ne_version ht hs hne)]

theorem Holds.insert_global (h : Holds vs temps t v) (hne : t ≠ d) :
    Holds (vs.insert d s) temps t v := by
  obtain ⟨s',hs,hv⟩ := h
  exact ⟨s',by rwa [Table.get?_insert_of_ne _ _ hne],hv⟩

end

def versionedBlock (g : Graph) (l : Liveness) (n : Nat) (b : Block) (c : Nat) : Block :=
  convertBlock (g.ends l) c (addPhis g l n b)

def phiCount (l : Liveness) (n : Nat) : Nat := (l.before.getD n []).length

def versionsAt (g : Graph) (l : Liveness) (n : Nat) (b : Block) (c k : Nat) : Nat × Versions :=
  stateAt c (addPhis g l n b) (phiCount l n + k)

structure Beside (g : Graph) (l : Liveness) (live : Lives) (order : List String) (n : Nat)
    (b : Block) (c k : Nat) (f f' : Frame) : Prop where
  place : (n,b) ∈ g.places
  found : (g.withPhis l).versioned.blocks.get? b.label = some (versionedBlock g l n b c)
  ends : (g.ends l).get? b.label = some (versionsBehind c {} (addPhis g l n b).instrs).2
  stands : Stands (g.code order) b k f
  stands' : Stands ((g.withPhis l).versioned.code order) (versionedBlock g l n b c)
    (phiCount l n + k) f'
  params : f'.params = f.params
  temps {t : String} : .plain t ∈ live.getD (n + k) [] → ∃ v, f.temps.get? t = some v ∧
    checkWord v = .ok () ∧ Holds (versionsAt g l n b c k).2 f'.temps t v

variable {params : List Datum}

section

variable {g : Graph} {l : Liveness} {live : Lives} {order : List String} {b : Block} {i : Instr}
  {n c k : Nat} {f f' : Frame} {w : World}

theorem getElem?_addPhis (g : Graph) (l : Liveness) (n : Nat) (b : Block) (k : Nat) :
    (addPhis g l n b).instrs[phiCount l n + k]? = b.instrs[k]? := by
  rw [instrs_addPhis,getElem?_append_right (by simp [phiCount]),length_map,phiCount,
    Nat.add_sub_cancel_left]

theorem length_versionedBlock (g : Graph) (l : Liveness) (n : Nat) (b : Block) (c : Nat) :
    (versionedBlock g l n b c).instrs.length = phiCount l n + b.instrs.length := by
  rw [versionedBlock,instrs_convertBlock,length_convertAll,instrs_addPhis,length_append,
    length_map,phiCount]

theorem versionsAt_succ (hi : b.instrs[k]? = some i) :
    versionsAt g l n b c (k + 1) = ((versionInstr (versionsAt g l n b c k).1 i).2,
      (versionsAt g l n b c k).2.after (versionInstr (versionsAt g l n b c k).1 i).1) :=
  stateAt_succ ((getElem?_addPhis g l n b k).trans hi)

theorem versionsBehind_absent (h : ∀ i ∈ is, i.dest = .absent) :
    versionsBehind m vs is = (m,vs) := by
  induction is with
  | nil => rfl
  | cons i rest ih =>
    have habsent := h i (by simp)
    rw [versionsBehind,versionInstr_absent habsent,after_absent habsent]
    exact ih fun j hj => h j (by simp [hj])

theorem find?_source {sources : List (String × String)} (version : String → String)
    (h : ∀ e ∈ sources, e.2 = version e.1) (hx : ∃ e ∈ sources, e.1 = x) :
    (sources.find? fun e => some e.1 = some x) = some (x,version x) := by
  induction sources with
  | nil => simp at hx
  | cons e rest ih =>
    rw [find?_cons]
    by_cases heq : e.1 = x
    · have hsource := h e (by simp)
      rw [heq] at hsource
      simp [heq,← hsource,Prod.ext_iff]
    · rw [decide_eq_false (by simpa using heq)]
      refine ih (fun e' he' => h e' (by simp [he'])) ?_
      obtain ⟨e',he',rfl⟩ := hx
      rcases mem_cons.1 he' with rfl | he'
      · exact absurd rfl heq
      · exact ⟨e',he',rfl⟩

theorem find?_convert_phiFor (hx : x ∈ labels) :
    ((convert versions m vs (phiFor labels t)).sources.find? fun e => some e.1 = some x) =
      some (x,((versions.get? x).getD {}).current t) := by
  rw [sources_convert_phiFor]
  refine find?_source (fun y => ((versions.get? y).getD {}).current t) ?_ ?_
  · intro e he
    obtain ⟨e',he',rfl⟩ := mem_map.1 he
    simp only [(mem_sources_phiFor he').2]
  · exact ⟨_,mem_map.2 ⟨_,exists_source_phiFor t hx,rfl⟩,rfl⟩

theorem step_phi (ht : isTemp t = true) (hx : x ∈ labels) (hprevious : f.previous = some x)
    (hword : checkWord v = .ok ())
    (hsource : isGlobal (((versions.get? x).getD {}).current t) = false)
    (hleft : f.left.get? (((versions.get? x).getD {}).current t) = some v) (w : World) :
    perform a (convert versions m vs (phiFor labels t)) f w =
      (.ok (.next { f with temps := f.temps.insert (version t m) v }),w) := by
  have hdest : (convert versions m vs (phiFor labels t)).dest = .name (version t m) := by
    rw [dest_convert,versionInstr_temp (s := t) rfl ht]
  refine (perform_phi opcode_convert).2 ⟨x,_,v,?_,(World.read_eq_ok hsource).2 hleft,?_⟩
  · rw [hprevious]
    exact find?_convert_phiFor hx
  · have hversion := isTemp_version ht m
    refine store_eq_ok.2 ⟨f.temps.insert (version t m) v,?_,rfl⟩
    rw [hdest,Operand.text_name]
    refine World.write_eq_ok.2 ⟨isVariable_of_isTemp hversion,hword,?_⟩
    simp [isGlobal_of_isTemp hversion]

theorem mapRead_name (hs : isVariable s = true) (f : String → String) :
    (Operand.name s).mapRead f = .name (f s) := by
  simp [Operand.mapRead,Operand.read?,ne_empty_of_isVariable hs]

section

variable (hg : Renamable g) (hlive : LiveSets g l live)
include hg

theorem Renamable.versionsAt_jump (hb : (n,b) ∈ g.places) (hk : b.body.length ≤ k) (c : Nat) :
    (versionsAt g l n b c k).2 = (versionsBehind c {} (addPhis g l n b).instrs).2 := by
  have hcut := hg.sound.cut (hg.sound.mem_values.1 (mem_values_of_places hb))
  have habsent : ∀ i ∈ (addPhis g l n b).instrs.drop (phiCount l n + k), i.dest = .absent := by
    intro i hi
    rw [instrs_addPhis,drop_append,length_map,phiCount,Nat.add_sub_cancel_left,
      drop_eq_nil_of_le (by simp),nil_append,Block.instrs,drop_append,
      drop_eq_nil_of_le hk,nil_append] at hi
    have hj := mem_of_mem_drop hi
    exact dest_of_endsBlock (hg.check (mem_instrs hb (mem_append.2 (.inr hj))))
      (hcut.jumps hj)
  rw [← take_append_drop (phiCount l n + k) (addPhis g l n b).instrs,versionsBehind_append,
    versionsBehind_absent habsent]
  rfl

include hlive

theorem Renamable.rooted_stateAt (hb : (n,b) ∈ g.places) (c k : Nat) :
    Rooted (stateAt c (addPhis g l n b) k).2 :=
  rooted_empty.versionsBehind fun _ hi => hg.assigns_addPhis hlive hb (mem_of_mem_take hi)

theorem Renamable.rooted_versionsAt (hb : (n,b) ∈ g.places) (c k : Nat) :
    Rooted (versionsAt g l n b c k).2 :=
  hg.rooted_stateAt hlive hb c _

theorem Renamable.steps_phis (hb : (n,b) ∈ g.places)
    (ha' : Loaded a' ((g.withPhis l).versioned.code order)) (hx : x ∈ g.comesFrom b.label)
    (w : World) (d : Nat) (hj : j + d = phiCount l n)
    (hstands : Stands ((g.withPhis l).versioned.code order) (versionedBlock g l n b c) j f')
    (hprevious : f'.previous = some x)
    (hvalues : ∀ t ∈ l.before.getD n [], ∃ v, temps.get? t = some v ∧ checkWord v = .ok () ∧
      isGlobal ((((g.ends l).get? x).getD {}).current t) = false ∧
      f'.left.get? ((((g.ends l).get? x).getD {}).current t) = some v)
    (hdone : ∀ t ∈ (l.before.getD n []).take j, ∀ v, temps.get? t = some v →
      Holds (stateAt c (addPhis g l n b) j).2 f'.temps t v) :
    ∃ f'', Steps a' f' w f'' w ∧
      Stands ((g.withPhis l).versioned.code order) (versionedBlock g l n b c) (phiCount l n) f'' ∧
      f''.params = f'.params ∧ ∀ t ∈ l.before.getD n [], ∀ v, temps.get? t = some v →
        Holds (stateAt c (addPhis g l n b) (phiCount l n)).2 f''.temps t v := by
  induction d generalizing j f' with
  | zero =>
    obtain rfl : j = phiCount l n := hj
    exact ⟨f',.refl,hstands,rfl,by rwa [phiCount,take_length] at hdone⟩
  | succ d ih =>
    have hlt : j < (l.before.getD n []).length := by rw [← phiCount]; omega
    have hmem : (l.before.getD n [])[j] ∈ l.before.getD n [] := getElem_mem hlt
    generalize ht : (l.before.getD n [])[j] = t at hmem
    have htemp := hlive.isTemp_before hmem
    have hphi : (addPhis g l n b).instrs[j]? = some (phiFor (g.comesFrom b.label) t) := by
      rw [instrs_addPhis,getElem?_append_left (by simpa using hlt),getElem?_map,
        getElem?_eq_getElem hlt,ht]
      rfl
    obtain ⟨v,hv,hword,hsource,hleft⟩ := hvalues t hmem
    obtain ⟨i,rest,hi,hrest⟩ := hstands.cons
    rw [versionedBlock,getElem?_convertBlock hphi] at hi
    cases hi
    have hfilled := length_pos_iff.2 (hg.filled b (mem_values_of_places hb))
    have hlength := length_versionedBlock g l n b c
    have hstep := (ha'.step_iff (w := w) hrest (by simp)).2
      (step_phi (f := { f' with pc := f'.pc + 1 }) htemp hx hprevious hword hsource hleft w)
    have hstate := stateAt_succ (c := c) hphi
    rw [versionInstr_temp (s := t) rfl htemp,after_version htemp] at hstate
    have hnext : ∀ t' ∈ (l.before.getD n []).take (j + 1), ∀ v', temps.get? t' = some v' →
        Holds (stateAt c (addPhis g l n b) (j + 1)).2
          (f'.temps.insert (version t (stateAt c (addPhis g l n b) j).1) v) t' v' := by
      intro t' ht' v' hv'
      rw [hstate]
      by_cases heq : t' = t
      · subst heq
        cases hv.symm.trans hv'
        exact .insert_self ..
      · rw [take_add_one,getElem?_eq_getElem hlt,ht] at ht'
        have ht' : t' ∈ (l.before.getD n []).take j := by simpa [heq] using ht'
        exact (hdone t' ht' v' hv').insert_of_ne (hg.rooted_stateAt hlive hb c j)
          (hlive.isTemp_before (mem_of_mem_take ht')) heq
    have hstands1 : Stands ((g.withPhis l).versioned.code order) (versionedBlock g l n b c) (j + 1)
        { f' with
          pc := f'.pc + 1
          temps := f'.temps.insert (version t (stateAt c (addPhis g l n b) j).1) v } :=
      hstands.next (by omega) rfl rfl
    obtain ⟨f'',hsteps,hrest''⟩ := ih (by omega) hstands1 hprevious hvalues hnext
    exact ⟨f'',.head hstep hsteps,hrest''⟩

def Follows (g : Graph) (l : Liveness) (live : Lives) (order : List String) (f f' : Frame) : Prop :=
  ∃ n b c k, Beside g l live order n b c k f f'

theorem Renamable.catchesUp (hb : (n,b) ∈ g.places)
    (ha' : Loaded a' ((g.withPhis l).versioned.code order))
    (hfound : (g.withPhis l).versioned.blocks.get? b.label = some (versionedBlock g l n b c))
    (hends : (g.ends l).get? b.label = some (versionsBehind c {} (addPhis g l n b).instrs).2)
    (hstands : Stands (g.code order) b 0 f)
    (hstands' : Stands ((g.withPhis l).versioned.code order) (versionedBlock g l n b c) 0 f')
    (hparams : f'.params = f.params) (hx : x ∈ g.comesFrom b.label)
    (hprevious : f'.previous = some x)
    (hvalues : ∀ t ∈ l.before.getD n [], ∃ v, f.temps.get? t = some v ∧ checkWord v = .ok () ∧
      isGlobal ((((g.ends l).get? x).getD {}).current t) = false ∧
      f'.left.get? ((((g.ends l).get? x).getD {}).current t) = some v) :
    CatchesUp a' (Follows g l live order) f f' := by
  intro w
  obtain ⟨f'',hsteps,hstands'',hparams',hall⟩ := hg.steps_phis hlive hb ha' hx w _
    (Nat.zero_add _) hstands' hprevious hvalues (by simp)
  refine ⟨f'',hsteps,n,b,c,0,hb,hfound,hends,hstands,hstands'',hparams'.trans hparams,?_⟩
  intro t ht
  have hbefore : t ∈ l.before.getD n [] := hlive.before.2 ⟨_,ht,rfl⟩
  obtain ⟨v,hv,hword,-⟩ := hvalues t hbefore
  exact ⟨v,hv,hword,hall t hbefore v hv⟩

variable (h : Beside g l live order n b c k f f')
include h

theorem Beside.jump (horder : Order g order) (ha : Loaded a (g.code order))
    (ha' : Loaded a' ((g.withPhis l).versioned.code order)) (hi : b.instrs[k]? = some i)
    (hjump : i.jump? = some x) (hl : a.labels.get? x = some pc) :
    ∃ pc', a'.labels.get? x = some pc' ∧
      CatchesUp a' (Follows g l live order) (f.jump x pc) (f'.jump x pc') := by
  have hsound := hg.sound
  have hvalue := mem_values_of_places h.place
  obtain ⟨d,hd,rfl⟩ := exists_listed hsound horder ha hl
  obtain ⟨hdorder,hdget⟩ := (mem_listed hsound).1 hd
  have hdvalue := hsound.mem_values.2 hdget
  have hcontains := (Table.contains_iff _ _).2 ⟨d,hdget⟩
  obtain ⟨m,hm⟩ := exists_place hdvalue
  have hedge := hg.tight.edge hvalue (mem_of_getElem? hi) hjump hcontains
  have hk := (hsound.cut (hsound.mem_values.1 hvalue)).body_le hi (endsBlock_of_jump? hjump)
  obtain ⟨q,hfound,hends⟩ := hsound.exists_versioned hg.name l hm
  have htight := hg.tight_versioned hlive
  have hd' : versionedBlock g l m d q ∈ listed _ order := (mem_listed htight.sound).2 ⟨hdorder,hfound⟩
  have hfilled' := htight.filled _ (htight.sound.mem_values.2 ((mem_listed htight.sound).1 hd').2)
  obtain ⟨pc1,hpc1,hstands⟩ := Stands.jump hsound ha hd (hg.filled d hdvalue) f
  cases hl.symm.trans hpc1
  obtain ⟨pc',hpc',hstands'⟩ := Stands.jump htight.sound ha' hd' hfilled' f'
  refine ⟨pc',hpc',hg.catchesUp hlive hm ha' hfound hends hstands hstands' h.params
    ((hsound.exists_sourceLabels hcontains).2.1 hedge) (congrArg some h.stands'.current) ?_⟩
  intro t ht
  have hplain := hg.live_plain hlive ht
  have hhere : .plain t ∈ live.getD (n + k) [] := by
    refine live_at_jump hg.tight hlive h.place hm hedge hk h.stands.lt ?_
    split
    · exact hplain
    · exact mem_alongEdge.2 ⟨t,rfl,.inl hplain⟩
  obtain ⟨v,hv,hword,s,hs,hv'⟩ := h.temps hhere
  rw [hg.versionsAt_jump h.place hk] at hs
  have htemp := (hg.rooted_ends hlive h.ends).temp (hlive.isTemp_before ht) hs
  refine ⟨v,hv,hword,?_⟩
  rw [h.ends,Option.getD_some,Versions.current,hs,Option.getD_some]
  exact ⟨isGlobal_of_isTemp htemp,hv'⟩

omit hlive in
theorem Beside.advance
    (hi : b.instrs[k]? = some i) (hfinal : i.opcode.isFinal = false) (hparams : params' = params)
    (htemps : ∀ {t}, .plain t ∈ live.getD (n + (k + 1)) [] → ∃ v, temps.get? t = some v ∧
      checkWord v = .ok () ∧ Holds (versionsAt g l n b c (k + 1)).2 temps' t v) :
    Beside g l live order n b c (k + 1) { f with pc := f.pc + 1, temps, params }
      { f' with pc := f'.pc + 1, temps := temps', params := params' } := by
  have hk := (hg.tight.closed (mem_values_of_places h.place)).lt hi hfinal
  have hlength := length_versionedBlock g l n b c
  refine ⟨h.place,h.found,h.ends,h.stands.next hk rfl rfl,?_,hparams,htemps⟩
  exact h.stands'.next (by omega) rfl rfl

variable (hi : b.instrs[k]? = some i)
include hi

theorem Beside.stay (hfinal : i.opcode.isFinal = false) (hdest : i.dest = .absent)
    (hparams : params' = params) :
    Beside g l live order n b c (k + 1) { f with pc := f.pc + 1, params }
      { f' with pc := f'.pc + 1, params := params' } := by
  have hk := (hg.tight.closed (mem_values_of_places h.place)).lt hi hfinal
  refine h.advance hg hi hfinal hparams fun {t} ht => ?_
  rw [versionsAt_succ hi,versionInstr_absent hdest,after_absent hdest]
  exact h.temps (hlive.inner h.place hi hk ht (by simp [Instr.defs,hdest,Operand.temp?]))

theorem Beside.write (hfinal : i.opcode.isFinal = false)
    (hwrite : w.write f.temps i.dest.text v = .ok (w1,temps)) :
    ∃ temps', w.write f'.temps (convert (g.ends l) (versionsAt g l n b c k).1
        (versionsAt g l n b c k).2 i).dest.text v = .ok (w1,temps') ∧
      ∀ params, Follows g l live order { f with pc := f.pc + 1, temps, params }
        { f' with pc := f'.pc + 1, temps := temps', params } := by
  have hmem := mem_instrs h.place (mem_of_getElem? hi)
  obtain ⟨s,hdest,hwrite⟩ := dest_of_write (hg.check hmem) hwrite
  have hk := (hg.tight.closed (mem_values_of_places h.place)).lt hi hfinal
  have hstate := versionsAt_succ (g := g) (l := l) (n := n) (c := c) hi
  have hback : ∀ {t}, .plain t ∈ live.getD (n + (k + 1)) [] → t ≠ s → isTemp t = true ∧
      ∃ v, f.temps.get? t = some v ∧ checkWord v = .ok () ∧
        Holds (versionsAt g l n b c k).2 f'.temps t v := by
    intro t ht hne
    have hbefore := hlive.before.2 ⟨_,ht,rfl⟩
    refine ⟨hlive.isTemp_before hbefore,h.temps (hlive.inner h.place hi hk ht ?_)⟩
    simp only [Instr.defs,hdest,Operand.temp?,Use.temp]
    split <;> simp [hne]
  obtain ⟨hvariable,hword,hrest⟩ := World.write_eq_ok.1 hwrite
  rcases hg.assigns hmem with habsent | ⟨d,hd,hplain⟩
  · rw [habsent] at hdest
    cases hdest
  · obtain rfl : d = s := by simpa [hd] using hdest
    rcases hplain with htemp | ⟨hglobal,hpoint⟩
    · have hsame := versionInstr_temp hd htemp (versionsAt g l n b c k).1
      simp only [isGlobal_of_isTemp htemp,Bool.false_eq_true,if_false] at hrest
      obtain ⟨rfl,rfl⟩ := hrest
      rw [hsame,after_version htemp] at hstate
      have hversion := isTemp_version htemp (versionsAt g l n b c k).1
      rw [dest_convert,hsame,Operand.text_name]
      refine ⟨f'.temps.insert (version d (versionsAt g l n b c k).1) v,
        World.write_eq_ok.2 ⟨isVariable_of_isTemp hversion,hword,?_⟩,
        fun _ => ⟨n,b,c,k + 1,h.advance hg hi hfinal rfl fun {t} ht => ?_⟩⟩
      · simp [isGlobal_of_isTemp hversion]
      · rw [hstate]
        by_cases heq : t = d
        · subst heq
          exact ⟨v,Table.get?_insert_self ..,hword,.insert_self ..⟩
        · obtain ⟨ht',v',hv',hword',hholds⟩ := hback ht heq
          refine ⟨v',by rwa [Table.get?_insert_of_ne _ _ heq],hword',?_⟩
          exact hholds.insert_of_ne (hg.rooted_versionsAt hlive h.place c k) ht' heq
    · have hsame := versionInstr_global hd hglobal (versionsAt g l n b c k).1
      simp only [hglobal,if_true] at hrest
      obtain ⟨hcontains,rfl,rfl⟩ := hrest
      rw [hsame,after_global hd hglobal hpoint] at hstate
      rw [dest_convert,hsame,hd,Operand.text_name]
      refine ⟨f'.temps,World.write_eq_ok.2 ⟨hvariable,hword,?_⟩,
        fun _ => ⟨n,b,c,k + 1,h.advance hg hi hfinal rfl fun {t} ht => ?_⟩⟩
      · simp [hglobal,hcontains]
      · have hne : t ≠ d := by
          rintro rfl
          have htemp : isTemp t = true := hlive.isTemp_before (hlive.before.2 ⟨_,ht,rfl⟩)
          rw [isGlobal_of_isTemp htemp] at hglobal
          cases hglobal
        obtain ⟨-,v',hv',hword',hholds⟩ := hback ht hne
        rw [hstate]
        exact ⟨v',hv',hword',hholds.insert_global hne⟩

theorem Beside.read (hs : isGlobal s = true ∨ .plain s ∈ i.uses)
    (hread : w.read f.temps s = .ok v) :
    w.read f'.temps ((versionsAt g l n b c k).2.current s) = .ok v := by
  have hrooted := hg.rooted_versionsAt hlive h.place c k
  rcases hs with hglobal | huse
  · rw [hrooted.current_global hglobal,World.read_global hglobal,hread]
  · have htemp : isTemp s = true := isTemp_of_mem_uses huse
    obtain ⟨v',hv',-,s',hs',hvalue⟩ := h.temps (hlive.use h.place hi huse)
    rw [World.read_eq_ok (isGlobal_of_isTemp htemp)] at hread
    cases hread.symm.trans hv'
    rw [Versions.current,hs',Option.getD_some,
      World.read_eq_ok (isGlobal_of_isTemp (hrooted.temp htemp hs'))]
    exact hvalue

theorem Beside.readsAlike (hreads : ∀ s ∈ i.reads, isTemp s = true ∨ isGlobal s = true)
    (w : World) :
    i.ReadsAlike (convert (g.ends l) (versionsAt g l n b c k).1 (versionsAt g l n b c k).2 i)
      (w.read f.temps) (w.read f'.temps) := by
  have hmem := mem_instrs h.place (mem_of_getElem? hi)
  have hcheck := hg.check hmem
  have hname : ∀ {x s}, (x = i.arg1 ∧ i.opcode.readsFirst = true ∨
      x = i.arg2 ∧ i.opcode.readsSecond = true) → x = .name s → isVariable s = true →
      isGlobal s = true ∨ .plain s ∈ i.uses := by
    intro x s hx hs hvariable
    have hread : (Operand.name s).read? = some s := by
      simp [Operand.read?,ne_empty_of_isVariable hvariable]
    have hin : s ∈ i.reads := by
      rcases hx with ⟨rfl,hfirst⟩ | ⟨rfl,hsecond⟩
      · simp [Instr.reads,hfirst,hs,hread]
      · simp [Instr.reads,hsecond,hs,hread]
    refine (hreads s hin).symm.imp_right fun htemp => ?_
    refine mem_append.2 (.inl (mem_map.2 ⟨s,?_,rfl⟩))
    rcases hx with ⟨rfl,-⟩ | ⟨rfl,-⟩
    · simp [hs,Operand.temp?,htemp]
    · simp [hs,Operand.temp?,htemp]
  refine ⟨opcode_convert,?_,?_⟩
  · rw [arg1_convert (hg.phi hmem)]
    split
    · rename_i hfirst
      rcases arg1_of_check hcheck hfirst with habsent | ⟨s,hs,hvariable⟩
      · have ho : i.opcode = .ret := by
          have ha := (check_eq_ok.1 hcheck).2.1
          cases ho : i.opcode <;> simp_all [Opcode.kinds,Kind.accepts,Opcode.readsFirst]
        rw [habsent]
        exact ⟨by simp [Operand.mapRead,Operand.read?],fun hpresent => absurd rfl (hpresent ho)⟩
      · rw [hs,mapRead_name hvariable]
        refine ⟨by simp,fun _ v hread => h.read hg hlive hi ?_ hread⟩
        exact hname (.inl ⟨rfl,hfirst⟩) hs hvariable
    · exact fun _ => rfl
  · rw [arg2_convert]
    split
    · rename_i hsecond
      obtain ⟨s,hs,hvariable⟩ := arg2_of_check hcheck hsecond
      rw [hs,mapRead_name hvariable]
      intro v hread
      exact h.read hg hlive hi (hname (.inr ⟨rfl,hsecond⟩) hs hvariable) hread
    · exact fun _ => rfl

end

structure Versionable (g : Graph) : Prop extends Renamable g where
  print {i : Instr} : i ∈ g.instrs → i.isPrint = true → i.dest = .absent
  reads {i : Instr} {s : String} : i ∈ g.instrs → s ∈ i.reads → isTemp s = true ∨ isGlobal s = true

theorem read?_dest_convert (h : Assigns i) :
    (convert versions m vs i).dest.read? = none ↔ i.dest.read? = none := by
  rw [dest_convert]
  rcases h with habsent | ⟨s,hs,htemp | ⟨hglobal,-⟩⟩
  · rw [versionInstr_absent habsent]
  · rw [versionInstr_temp hs htemp,hs]
    simp [Operand.read?,ne_empty_of_isVariable (isVariable_of_isTemp htemp),
      ne_empty_of_isVariable (isVariable_of_isTemp (isTemp_version htemp m))]
  · rw [versionInstr_global hs hglobal]

theorem jump?_convert (hphi : i.opcode ≠ .phi) : (convert versions m vs i).jump? = i.jump? := by
  simp only [Instr.jump?,opcode_convert,arg1_convert hphi,arg2_convert]
  cases ho : i.opcode <;> simp [Opcode.readsFirst,Opcode.readsSecond]

theorem bindParams_temp (ht : isTemp t = true)
    (h : bindParams params args w temps0 = .ok (w0,temps))
    (hbound : .str t ∈ params ∨ ∃ v, temps0.get? t = some v ∧ checkWord v = .ok ()) :
    ∃ v, temps.get? t = some v ∧ checkWord v = .ok () := by
  induction params generalizing args w temps0 with
  | nil =>
    cases h
    exact hbound.resolve_left (by simp)
  | cons p params ih =>
    cases args with
    | nil => simp [bindParams] at h
    | cons v args =>
      cases p with
      | str p =>
        rw [bindParams] at h
        cases hwrite : w.write temps0 p v with
        | error e => simp [hwrite] at h
        | ok r =>
          obtain ⟨w',temps'⟩ := r
          rw [hwrite] at h
          refine ih h ?_
          obtain ⟨-,hword,hrest⟩ := World.write_eq_ok.1 hwrite
          by_cases htp : t = p
          · subst htp
            simp only [isGlobal_of_isTemp ht,Bool.false_eq_true,if_false] at hrest
            exact .inr ⟨v,by rw [hrest.2,Table.get?_insert_self],hword⟩
          · refine hbound.imp (fun hmem => by simpa [htp] using hmem) ?_
            rintro ⟨v',hv',hword'⟩
            refine ⟨v',?_,hword'⟩
            split at hrest
            · rw [hrest.2.2,hv']
            · rw [hrest.2,Table.get?_insert_of_ne _ _ htp,hv']
      | _ => simp [bindParams] at h

variable (hg : Versionable g) (hlive : LiveSets g l live) (horder : Order g order)
include hg hlive horder

theorem Beside.run (h : Beside g l live order n b c k f f') (ha : Loaded a (g.code order))
    (ha' : Loaded a' ((g.withPhis l).versioned.code order)) (hoptions : a'.options = a.options)
    (hi : b.instrs[k]? = some i) (hperform : perform a i { f with pc := f.pc + 1 } w = (.ok o,w1)) :
    ∃ o', perform a' (convert (g.ends l) (versionsAt g l n b c k).1 (versionsAt g l n b c k).2 i)
        { f' with pc := f'.pc + 1 } w = (.ok o',w1) ∧
      o.Alike (CatchesUp a' (Follows g l live order)) o' := by
  have hmem := mem_instrs h.place (mem_of_getElem? hi)
  have hcut := hg.sound.cut (hg.sound.mem_values.1 (mem_values_of_places h.place))
  refine alike_of_perform (f := { f with pc := f.pc + 1 }) (g := { f' with pc := f'.pc + 1 })
    (by simpa [Instr.isLabel] using hcut.isLabel (mem_of_getElem? hi)) (hg.phi hmem) h.params
    hoptions (h.readsAlike hg.toRenamable hlive hi (fun s => hg.reads hmem) w)
    (read?_dest_convert (hg.assigns hmem)) (fun hfinal _ _ _ _ hwrite => ?_)
    (fun hfinal hstays _ => .of_rel ⟨n,b,c,k + 1,?_⟩) (fun {x pc} hjump hl => ?_) hperform
  · obtain ⟨temps',hwrite',hfollows⟩ := h.write hg.toRenamable hlive hi hfinal hwrite
    exact ⟨temps',hwrite',fun params => .of_rel (hfollows params)⟩
  · exact h.stay hg.toRenamable hlive hi hfinal
      (dest_eq_absent (hg.check hmem) (hg.print hmem) hstays) rfl
  · obtain ⟨pc',hl',hcatches⟩ := h.jump hg.toRenamable hlive horder ha ha' hi hjump hl
    exact ⟨x,pc',by rw [jump?_convert (hg.phi hmem),hjump],hl',hcatches⟩

structure Begins (g : Graph) (l : Liveness) (f : Frame) : Prop where
  pc : f.pc = 0
  current : f.current = g.name
  left : f.left = f.temps
  temps {n : Nat} {b : Block} {t : String} : (n,b) ∈ g.places → b.label = g.entry →
    t ∈ l.before.getD n [] → ∃ v, f.temps.get? t = some v ∧ checkWord v = .ok ()

theorem Versionable.mirrors (ha : Loaded a (g.code order))
    (ha' : Loaded a' ((g.withPhis l).versioned.code order)) (hoptions : a'.options = a.options)
    (hshown : a'.shown = a.shown) (strict : Bool) :
    Mirrors strict a a' (g.code order) ((g.withPhis l).versioned.code order)
      (fun f f' => (f' = f ∧ Begins g l f) ∨ Follows g l live order f f') := by
  have hcatch : ∀ {f f'}, CatchesUp a' (Follows g l live order) f f' →
      CatchesUp a' (fun f f' => (f' = f ∧ Begins g l f) ∨ Follows g l live order f f') f f' := by
    intro f f' h w
    obtain ⟨f'',hsteps,hfollows⟩ := h w
    exact ⟨f'',hsteps,.inr hfollows⟩
  have hsound := hg.sound
  have htight := hg.tight_versioned hlive
  refine ⟨hoptions,hshown,?_⟩
  rintro f f' (⟨rfl,hbegins⟩ | ⟨n,b,c,k,h⟩)
  · obtain ⟨b,rest,hb,hlabel,hcode,hstands⟩ := hg.tight.start horder
    obtain ⟨b',rest',hb',hlabel',hcode',hstands'⟩ := htight.start (horder.withBlocks _)
    have hget := ((mem_listed hsound).1 hb).2
    obtain ⟨n,hn⟩ := exists_place (hsound.mem_values.2 hget)
    obtain ⟨c,hfound,hends⟩ := hsound.exists_versioned hg.name l hn
    obtain rfl : b' = versionedBlock g l n b c := by
      have hget' := ((mem_listed htight.sound).1 hb').2
      have hentry : b'.label = b.label := hlabel'.trans hlabel.symm
      rw [hentry,hfound] at hget'
      exact (Option.some.inj hget').symm
    refine .inr ⟨_,_,by rw [hbegins.pc,drop_zero,hcode],fun hperform => .inr ?_⟩
    rw [perform_label rfl] at hperform
    cases hperform
    refine ⟨_,_,_,by rw [hbegins.pc,drop_zero,hcode'],perform_label rfl,.next (hcatch ?_)⟩
    have hfrom := (hsound.exists_sourceLabels ((Table.contains_iff _ _).2 ⟨b,hget⟩)).2.2.1 hlabel
    refine hg.catchesUp hlive hn ha' hfound hends (hstands (by simp [hbegins.pc]) rfl)
      (hstands' (by simp [hbegins.pc]) rfl) rfl hfrom (congrArg some hbegins.current) ?_
    intro t ht
    obtain ⟨v,hv,hword⟩ := hbegins.temps hn hlabel ht
    have htemp := hlive.isTemp_before ht
    refine ⟨v,hv,hword,?_⟩
    rw [hsound.get?_ends_name hg.name,Option.getD_some]
    refine ⟨isGlobal_of_isTemp htemp,?_⟩
    show f'.left.get? t = some v
    rw [hbegins.left,hv]
  · obtain ⟨i,rest,hi,hrest⟩ := h.stands.cons
    obtain ⟨i',rest',hi',hrest'⟩ := h.stands'.cons
    cases hi'.symm.trans (getElem?_convertBlock ((getElem?_addPhis g l _ _ _).trans hi))
    refine .inr ⟨i,rest,hrest,fun {w w1 o} hperform => .inr ?_⟩
    obtain ⟨o',hperform',halike⟩ := h.run hg hlive horder ha ha' hoptions hi hperform
    exact ⟨_,rest',o',hrest',hperform',halike.mono hcatch⟩

theorem Versionable.refines (strict : Bool) {p : Procedure} (hname : p.name = g.name)
    (hentry : ∀ {n b t}, (n,b) ∈ g.places → b.label = g.entry → t ∈ l.before.getD n [] →
      .str t ∈ p.params) :
    Refines strict { p with body := g.code order }
      { p with body := (g.withPhis l).versioned.code order } := by
  refine .of_mirrors fun _ => ⟨?_,fun ha ha' hoptions hshown hstart => ?_⟩
  · rw [Graph.code,labelNames_listed (hg.tight_versioned hlive).sound (horder.withBlocks _)]
    exact horder.nodup
  · obtain ⟨args,w,w0,temps,hbind,rfl⟩ := hstart
    refine ⟨_,.of_rel (.inl ⟨rfl,rfl,hname,rfl,fun hn hlabel ht => ?_⟩),
      hg.mirrors hlive horder ha ha' hoptions hshown strict⟩
    exact bindParams_temp (hlive.isTemp_before ht) hbind (.inl (hentry hn hlabel ht))

end

end BxToolchain.Flow
