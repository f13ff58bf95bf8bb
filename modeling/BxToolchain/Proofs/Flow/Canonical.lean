import BxToolchain.Proofs.Flow.Labelling

namespace BxToolchain.Flow

open Tac List

variable {p : Procedure} {s l : String} {t : Table String String}
variable {name : String} {n : Nat} {i : Instr} {code u : List Instr}

theorem mem_labelGroups (h : labelGroups name n inGroup code = .ok u) (hi : i ∈ u) :
    i ∈ code ∨ ∃ m, i = adminLabel name m := by
  induction code generalizing n inGroup u with
  | nil =>
    obtain ⟨-,rfl⟩ := labelGroups_nil h
    simp at hi
  | cons j rest ih =>
    obtain ⟨n',g',r,before,after,hr,rfl,-,hadmin⟩ := labelGroups_cons h
    simp only [mem_append,mem_cons] at hi
    rcases hi with hi | rfl | hi | hi
    · exact .inr (mem_adminLabels hadmin (.inl hi))
    · exact .inl (by simp)
    · exact .inr (mem_adminLabels hadmin (.inr hi))
    · exact (ih hr hi).imp_left fun h => by simp [h]

theorem mem_addLabels (hu : labelGroups name n inGroup code = .ok u)
    (hi : i ∈ adminLabel name m :: u) : i ∈ code ∨ ∃ m, i = adminLabel name m := by
  rcases mem_cons.1 hi with rfl | hi
  · exact .inr ⟨m,rfl⟩
  · exact mem_labelGroups hu hi

theorem mem_labelNames_addLabels (hu : labelGroups name n inGroup code = .ok u)
    (hl : l ∈ labelNames (jumpToLabels (adminLabel name m :: u))) :
    l ∈ labelNames code ∨ ∃ m, l = adminText name m := by
  rw [labelNames_jumpToLabels] at hl
  obtain ⟨j,hj,rfl⟩ := mem_map.1 hl
  obtain ⟨hj,hlabel⟩ := mem_filter.1 hj
  rcases mem_addLabels hu hj with hj | ⟨m,rfl⟩
  · exact .inl (mem_map.2 ⟨j,mem_filter.2 ⟨hj,hlabel⟩,rfl⟩)
  · exact .inr ⟨m,rfl⟩

theorem mem_jumpToLabels (hi : i ∈ jumpToLabels code) :
    i ∈ code ∨ ∃ l ∈ code, l.isLabel = true ∧ i = { opcode := .jmp, arg1 := l.arg1 } := by
  induction code with
  | nil => simp [jumpToLabels] at hi
  | cons j rest ih =>
    rw [jumpToLabels_cons,mem_cons,mem_append] at hi
    rcases hi with rfl | hi | hi
    · exact .inl (by simp)
    · cases rest with
      | nil => simp [jumpBefore] at hi
      | cons l rest =>
        rw [jumpBefore] at hi
        split at hi
        · rename_i hjump
          exact .inr ⟨l,by simp,by simp_all,mem_singleton.1 hi⟩
        · simp at hi
    · rcases ih hi with hi | ⟨l,hl,hlabel,rfl⟩
      · exact .inl (by simp [hi])
      · exact .inr ⟨l,by simp [hl],hlabel,rfl⟩

theorem canonical_eq_ok :
    canonical p = .ok q ↔ ∃ u body names, labelGroups p.name 1 false p.body = .ok u ∧
      numberLabels 0 none {} (jumpToLabels (adminLabel p.name 0 :: u)) = .ok (body,names) ∧
      q = { p with body := body.map (Instr.renameLabels names.entries) } := by
  unfold canonical addLabels
  constructor
  · intro h
    obtain ⟨q1,hq1,h⟩ := Except.bind_eq_ok.1 h
    obtain ⟨u,hu,hq1⟩ := Except.bind_eq_ok.1 hq1
    cases hq1
    obtain ⟨⟨body,names⟩,hbody,hq⟩ := Except.bind_eq_ok.1 h
    cases hq
    exact ⟨u,body,names,hu,hbody,rfl⟩
  · rintro ⟨u,body,names,hu,hbody,rfl⟩
    simp only [normalizeLabels,addJumps,hu,hbody,bind,Except.bind,pure,Except.pure]

structure WellLabelled (p : Procedure) : Prop where
  check : ∀ i ∈ p.body, i.check = .ok ()
  phi : ∀ i ∈ p.body, i.opcode ≠ .phi
  admin : ∀ l ∈ labelNames p.body, ∀ m, l ≠ adminText p.name m
  second : ∀ i ∈ p.body, i.opcode.isPlain = true → ∀ s, i.arg2 = .name s →
    s ∉ labelNames p.body ∧ ∀ m, s ≠ adminText p.name m

theorem check_eq_ok :
    i.check = .ok () ↔ i.opcode.kinds.1.accepts i.dest = true ∧
      i.opcode.kinds.2.1.accepts i.arg1 = true ∧ i.opcode.kinds.2.2.accepts i.arg2 = true := by
  unfold Instr.check
  obtain ⟨d,a,b⟩ := i.opcode.kinds
  cases hd : d.accepts i.dest with
  | false => simp [hd]
  | true =>
    cases ha : a.accepts i.arg1 with
    | false => simp [hd,ha]
    | true => cases hb : b.accepts i.arg2 <;> simp [hd,ha,hb]

theorem exists_name_of_label (h : Kind.accepts .label o = true) :
    ∃ l, o = .name l ∧ Tac.isLabel l = true := by
  cases o with
  | name l => exact ⟨l,rfl,h⟩
  | _ => simp [Kind.accepts] at h

theorem exists_target (h : i.check = .ok ()) (hends : i.opcode.endsBlock = true)
    (hret : i.opcode ≠ .ret) : ∃ l, i.target = .name l ∧ Tac.isLabel l = true := by
  obtain ⟨-,hfirst,hsecond⟩ := check_eq_ok.1 h
  cases ho : i.opcode with
  | jmp =>
    rw [ho] at hfirst
    simpa [Instr.target,ho] using exists_name_of_label hfirst
  | branch c =>
    rw [ho] at hsecond
    simpa [Instr.target,ho] using exists_name_of_label hsecond
  | ret => exact absurd ho hret
  | _ => simp [ho,Opcode.endsBlock,Opcode.isFinal,Opcode.isBranch] at hends

theorem text_of_check (h : i.check = .ok ()) (hlabel : i.isLabel = true) :
    ∃ l, i.arg1 = .name l ∧ Tac.isLabel l = true := by
  obtain ⟨-,hfirst,-⟩ := check_eq_ok.1 h
  have ho : i.opcode = .label := by simpa [Instr.isLabel] using hlabel
  rw [ho] at hfirst
  exact exists_name_of_label hfirst

theorem namesOnly_addLabels (hcheck : i.check = .ok ()) (hphi : i.opcode ≠ .phi)
    (hsecond : i.opcode.isPlain = true → ∀ s, i.arg2 = .name s →
      s ∉ labelNames code ∧ ∀ m, s ≠ adminText name m)
    (hu : labelGroups name 1 false code = .ok u) :
    NamesOnly (labelNames (jumpToLabels (adminLabel name 0 :: u))) i := by
  refine ⟨hphi,fun hends hret => ?_,fun hplain l hl heq => ?_⟩
  · obtain ⟨l,hl,-⟩ := exists_target hcheck hends hret
    exact ⟨l,hl⟩
  · obtain ⟨hbody,hadmin⟩ := hsecond hplain l heq
    obtain hl | ⟨m,hm⟩ := mem_labelNames_addLabels hu hl
    · exact hbody hl
    · exact hadmin m hm

theorem namesOnly_jumpToLabels (h : WellLabelled p) (hu : labelGroups p.name 1 false p.body = .ok u)
    (hi : i ∈ jumpToLabels (adminLabel p.name 0 :: u)) :
    NamesOnly (labelNames (jumpToLabels (adminLabel p.name 0 :: u))) i := by
  rcases mem_jumpToLabels hi with hi | ⟨l,hl,hlabel,rfl⟩
  · rcases mem_addLabels hu hi with hi | ⟨m,rfl⟩
    · exact namesOnly_addLabels (h.check i hi) (h.phi i hi) (h.second i hi) hu
    · exact ⟨by simp [adminLabel,Instr.ofLabel],by simp [adminLabel,Instr.ofLabel,
        Opcode.endsBlock,Opcode.isFinal,Opcode.isBranch],by simp [adminLabel,Instr.ofLabel]⟩
  · refine ⟨by simp,fun _ _ => ?_,by simp⟩
    simp only [Instr.target]
    rcases mem_addLabels hu hl with hl | ⟨m,rfl⟩
    · obtain ⟨m,hm,-⟩ := text_of_check (h.check l hl) hlabel
      exact ⟨m,hm⟩
    · exact ⟨_,rfl⟩

theorem refines_canonical (strict : Bool) (hp : WellLabelled p) (h : canonical p = .ok q) :
    Refines strict p q := by
  obtain ⟨u,body,names,hu,hbody,rfl⟩ := canonical_eq_ok.1 h
  have hphi : ∀ i ∈ adminLabel p.name 0 :: u, i.opcode ≠ .phi := by
    intro i hi
    rcases mem_addLabels hu hi with hi | ⟨m,rfl⟩
    · exact hp.phi i hi
    · simp [adminLabel,Instr.ofLabel]
  have hgroups : Refines strict p { p with body := adminLabel p.name 0 :: u } :=
    Tracks.refines fun hnodup =>
      ⟨nodup_addLabels hnodup hp.admin hu,_,tracks_addLabels strict hp.phi hp.admin hu⟩
  have hjumps : Refines strict { p with body := adminLabel p.name 0 :: u }
      { p with body := jumpToLabels (adminLabel p.name 0 :: u) } :=
    Tracks.refines (p := { p with body := adminLabel p.name 0 :: u }) fun hnodup =>
      ⟨by rwa [labelNames_jumpToLabels],_,tracks_jumpToLabels strict hphi hnodup⟩
  have hnumbers : Refines strict { p with body := jumpToLabels (adminLabel p.name 0 :: u) }
      { p with body := body.map (Instr.renameLabels names.entries) } :=
    Tracks.refines (p := { p with body := jumpToLabels (adminLabel p.name 0 :: u) })
      fun hnodup => by
        refine ⟨?_,_,tracks_numberLabels strict hnodup
          (fun i hi => namesOnly_jumpToLabels hp hu hi) hbody⟩
        obtain ⟨k,hk⟩ := numberLabels_labelNames hbody
        rw [labelNames_map_renameLabels,hk]
        exact List.Nodup.map (fun m n => numberText_injective) nodup_range'
  exact (hgroups.trans hjumps).trans hnumbers

theorem isLabel_adminText (name : String) (n : Nat) : Tac.isLabel (adminText name n) = true := by
  simp [Tac.isLabel,startsWith,adminText,List.isPrefixOf]

theorem isLabel_numberText (n : Nat) : Tac.isLabel (numberText n) = true := by
  simp [Tac.isLabel,startsWith,numberText,List.isPrefixOf]

theorem isVariable_of_isLabel (h : Tac.isLabel s = true) : isVariable s = true := by
  simp only [Tac.isLabel,startsWith, isPrefixOf_iff_prefix] at h
  obtain ⟨rest,hrest⟩ := h
  simp [isVariable,startsWith,← hrest,List.isPrefixOf]

theorem isLabel_of_mem_labelNames (hcode : ∀ i ∈ code, i.check = .ok ())
    (hl : l ∈ labelNames code) : Tac.isLabel l = true := by
  obtain ⟨i,hi,rfl⟩ := mem_map.1 hl
  obtain ⟨hi,hlabel⟩ := mem_filter.1 hi
  obtain ⟨l,hl,hlabel⟩ := text_of_check (hcode i hi) hlabel
  rwa [hl]

theorem ne_adminText (h : ('%' :: '.' :: 'L' :: name.toList.drop 1).isPrefixOf l.toList = false)
    (m : Nat) : l ≠ adminText name m := by
  rintro rfl
  rw [← Bool.not_eq_true, isPrefixOf_iff_prefix] at h
  exact h ⟨(toString m).toList,by simp [adminText]⟩

def isWellLabelled (p : Procedure) : Bool :=
  p.body.all fun i =>
    i.check.isOk && i.opcode != .phi &&
    (!i.isLabel || !('%' :: '.' :: 'L' :: p.name.toList.drop 1).isPrefixOf i.arg1.text.toList) &&
    (!i.opcode.isPlain || match i.arg2 with | .name s => !Tac.isLabel s | _ => true)

theorem wellLabelled_of_isWellLabelled (h : isWellLabelled p = true) : WellLabelled p := by
  have hall : ∀ i ∈ p.body, i.check = .ok () ∧ i.opcode ≠ .phi ∧
      (i.isLabel = true →
        ('%' :: '.' :: 'L' :: p.name.toList.drop 1).isPrefixOf i.arg1.text.toList = false) ∧
      (i.opcode.isPlain = true → ∀ s, i.arg2 = .name s → Tac.isLabel s = false) := by
    intro i hi
    have hi := all_eq_true.1 h i hi
    simp only [Bool.and_eq_true,Bool.or_eq_true,Bool.not_eq_true',bne_iff_ne] at hi
    obtain ⟨⟨⟨hcheck,hphi⟩,hadmin⟩,hsecond⟩ := hi
    refine ⟨?_,hphi,fun hlabel => hadmin.resolve_left (by simp [hlabel]),fun hplain s hs => ?_⟩
    · obtain ⟨u,hu⟩ := Except.exists_of_isOk hcheck
      exact hu
    · simpa [hplain,hs] using hsecond
  have hcheck : ∀ i ∈ p.body, i.check = .ok () := fun i hi => (hall i hi).1
  refine ⟨hcheck,fun i hi => (hall i hi).2.1,fun l hl m => ?_,fun i hi hplain s hs => ?_⟩
  · obtain ⟨i,hi,rfl⟩ := mem_map.1 hl
    obtain ⟨hi,hlabel⟩ := mem_filter.1 hi
    exact ne_adminText ((hall i hi).2.2.1 hlabel) m
  · have hlabel := (hall i hi).2.2.2 hplain s hs
    refine ⟨fun hmem => ?_,?_⟩
    · simp [isLabel_of_mem_labelNames hcheck hmem] at hlabel
    · rintro m rfl
      simp [isLabel_adminText] at hlabel

def LabelTable (t : Table String String) : Prop :=
  ∀ l l', t.get? l = some l' → Tac.isLabel l = true ∧ Tac.isLabel l' = true

theorem labelTable_insert (ht : LabelTable t) (hl : Tac.isLabel l = true)
    (hl' : Tac.isLabel l' = true) : LabelTable (t.insert l l') := by
  intro m m' hm
  by_cases hml : m = l
  · subst hml
    rw [Table.get?_insert_self] at hm
    cases hm
    exact ⟨hl,hl'⟩
  · rw [Table.get?_insert_of_ne _ _ hml] at hm
    exact ht m m' hm

theorem LabelTable.isLabel_renameLabel (ht : LabelTable t) (hl : Tac.isLabel l = true) :
    Tac.isLabel (Instr.renameLabel t.entries l) = true := by
  unfold Instr.renameLabel
  cases hlookup : t.entries.lookup l with
  | none => exact hl
  | some l' => exact (ht l l' hlookup).2

theorem labelTable_numberLabels (h : numberLabels n group names code = .ok (u,names'))
    (hgroup : ∀ g, group = some g → Tac.isLabel g = true) (hnames : LabelTable names)
    (hcode : ∀ i ∈ code, i.isLabel = true → Tac.isLabel i.arg1.text = true) :
    LabelTable names' := by
  induction code generalizing n group names u with
  | nil =>
    cases h
    exact hnames
  | cons i rest ih =>
    have hrest : ∀ j ∈ rest, j.isLabel = true → Tac.isLabel j.arg1.text = true :=
      fun j hj => hcode j (by simp [hj])
    rcases numberLabels_cons h with ⟨-,u',h',-⟩ | ⟨hi,g,hg,h'⟩ | ⟨hi,-,u',-,h'⟩
    · exact ih h' (by simp) hnames hrest
    · have hl := hgroup g hg
      refine ih h' (fun g' hg' => ?_) (labelTable_insert hnames (hcode i (by simp) hi) hl) hrest
      cases hg'
      exact hl
    · have hl := isLabel_numberText n
      refine ih h' (fun g' hg' => ?_) (labelTable_insert hnames (hcode i (by simp) hi) hl) hrest
      cases hg'
      exact hl

theorem mem_numberLabels (h : numberLabels n group names code = .ok (u,names')) (hi : i ∈ u) :
    (∃ m, i = .ofLabel (numberText m)) ∨ i ∈ code ∧ i.isLabel = false := by
  induction code generalizing n group names u with
  | nil =>
    cases h
    simp at hi
  | cons j rest ih =>
    have hlater : (i ∈ rest ∧ i.isLabel = false) → i ∈ j :: rest ∧ i.isLabel = false :=
      fun h => ⟨by simp [h.1],h.2⟩
    rcases numberLabels_cons h with ⟨hj,u',h',rfl⟩ | ⟨-,g,-,h'⟩ | ⟨-,-,u',rfl,h'⟩
    · rcases mem_cons.1 hi with rfl | hi
      · exact .inr ⟨by simp,hj⟩
      · exact (ih h' hi).imp_right hlater
    · exact (ih h' hi).imp_right hlater
    · rcases mem_cons.1 hi with rfl | hi
      · exact .inl ⟨n,rfl⟩
      · exact (ih h' hi).imp_right hlater

theorem origin_canonical (hcheck : ∀ i ∈ p.body, i.check = .ok ()) (h : canonical p = .ok q) :
    ∃ names : Table String String, LabelTable names ∧ ∀ i ∈ q.body,
      (∃ l, Tac.isLabel l = true ∧ (i = .ofLabel l ∨ i = .jumpTo l)) ∨
      ∃ j ∈ p.body, j.isLabel = false ∧ i = j.renameLabels names.entries := by
  obtain ⟨u,body,names,hu,hbody,rfl⟩ := canonical_eq_ok.1 h
  have hmem : ∀ j ∈ adminLabel p.name 0 :: u,
      (∃ l, Tac.isLabel l = true ∧ j = .ofLabel l) ∨ j ∈ p.body := by
    intro j hj
    rcases mem_addLabels hu hj with hj | ⟨m,rfl⟩
    · exact .inr hj
    · exact .inl ⟨_,isLabel_adminText p.name m,rfl⟩
  have hlabels : ∀ j ∈ adminLabel p.name 0 :: u, j.isLabel = true →
      ∃ l, j.arg1 = .name l ∧ Tac.isLabel l = true := by
    intro j hj hlabel
    rcases hmem j hj with ⟨l,hl,rfl⟩ | hj
    · exact ⟨l,rfl,hl⟩
    · exact text_of_check (hcheck j hj) hlabel
  have htable : LabelTable names := by
    refine labelTable_numberLabels hbody (by simp) (fun l l' h => by simp at h) ?_
    intro j hj hlabel
    rcases mem_jumpToLabels hj with hj | ⟨l,-,-,rfl⟩
    · obtain ⟨l,hl,hl'⟩ := hlabels j hj hlabel
      rwa [hl]
    · cases hlabel
  refine ⟨names,htable,fun i hi => ?_⟩
  obtain ⟨j,hj,rfl⟩ := mem_map.1 hi
  rcases mem_numberLabels hbody hj with ⟨m,rfl⟩ | ⟨hj,hlabel⟩
  · exact .inl ⟨numberText m,isLabel_numberText m,.inl rfl⟩
  · rcases mem_jumpToLabels hj with hj | ⟨l,hl,hl',rfl⟩
    · rcases hmem j hj with ⟨l,-,rfl⟩ | hj
      · cases hlabel
      · exact .inr ⟨j,hj,hlabel,rfl⟩
    · obtain ⟨m,hm,hm'⟩ := hlabels l hl hl'
      rw [hm]
      exact .inl ⟨_,htable.isLabel_renameLabel hm',.inr rfl⟩

theorem LabelTable.isVariable_renameLabel (ht : LabelTable t) (hs : isVariable s = true) :
    isVariable (Instr.renameLabel t.entries s) = true := by
  unfold Instr.renameLabel
  cases hlookup : t.entries.lookup s with
  | none => exact hs
  | some l' => exact isVariable_of_isLabel (ht s l' hlookup).2

theorem LabelTable.accepts_mapName (ht : LabelTable t) {k : Kind} (hk : k ≠ .global)
    (h : k.accepts o = true) : k.accepts (o.mapName (Instr.renameLabel t.entries)) = true := by
  cases o with
  | name s =>
    cases k <;> simp_all [Kind.accepts,Operand.mapName,ht.isLabel_renameLabel,
      ht.isVariable_renameLabel]
  | _ => exact h

theorem LabelTable.check_renameLabels (ht : LabelTable t) (hphi : i.opcode ≠ .phi)
    (h : i.check = .ok ()) : (i.renameLabels t.entries).check = .ok () := by
  obtain ⟨hdest,hfirst,hsecond⟩ := check_eq_ok.1 h
  have hkind : i.opcode.kinds.2.2 ≠ .global := by
    cases i.opcode <;> simp [Opcode.kinds]
  have hsecond' := ht.accepts_mapName hkind hsecond
  rw [check_eq_ok]
  cases ho : i.opcode with
  | phi => exact absurd ho hphi
  | jmp =>
    rw [ho] at hfirst
    simp only [Instr.renameLabels,ho] at *
    exact ⟨hdest,ht.accepts_mapName (by simp [Opcode.kinds]) hfirst,hsecond⟩
  | ret =>
    simp only [Instr.renameLabels,ho] at *
    exact ⟨hdest,hfirst,hsecond⟩
  | _ =>
    simp only [Instr.renameLabels,ho] at *
    exact ⟨hdest,hfirst,hsecond'⟩

theorem check_canonical (hcheck : ∀ i ∈ p.body, i.check = .ok ())
    (hphi : ∀ i ∈ p.body, i.opcode ≠ .phi) (h : canonical p = .ok q) (hi : i ∈ q.body) :
    i.check = .ok () ∧ i.opcode ≠ .phi := by
  obtain ⟨names,htable,horigin⟩ := origin_canonical hcheck h
  rcases horigin i hi with ⟨l,hl,rfl | rfl⟩ | ⟨j,hj,-,rfl⟩
  · exact ⟨check_eq_ok.2 ⟨rfl,hl,rfl⟩,by simp [Instr.ofLabel]⟩
  · exact ⟨check_eq_ok.2 ⟨rfl,hl,rfl⟩,by simp [Instr.jumpTo]⟩
  · rw [opcode_renameLabels]
    exact ⟨htable.check_renameLabels (hphi j hj) (hcheck j hj),hphi j hj⟩

end BxToolchain.Flow
