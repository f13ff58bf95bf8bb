import BxToolchain.Flow.Infer
import BxToolchain.Proofs.Numeral
import BxToolchain.Proofs.Tac.Tracking

namespace BxToolchain.Flow

open Tac List

def adminText (name : String) (n : Nat) : String :=
  "%.L" ++ String.ofList (name.toList.drop 1) ++ toString n

@[simp]
theorem isLabel_ofLabel (l : String) : (Instr.ofLabel l).isLabel = true := rfl

@[simp]
theorem isLabel_adminLabel (name : String) (n : Nat) : (adminLabel name n).isLabel = true := rfl

theorem text_adminLabel (name : String) (n : Nat) :
    (adminLabel name n).arg1.text = adminText name n := rfl

variable {m : Nat}

theorem adminText_injective (h : adminText name m = adminText name n) : m = n :=
  toString_injective (append_left_cancel h)

theorem skipLabels_append (h : ∀ i ∈ front, i.isLabel = true) (rest : List Instr) :
    skipLabels (front ++ rest) = skipLabels rest := by
  induction front with
  | nil => rfl
  | cons i front ih =>
    rw [cons_append,skipLabels_label (h i (by simp)),ih fun j hj => h j (by simp [hj])]

theorem codeAfter_append (h : ∀ i ∈ front, i.isLabel = true → i.arg1.text ≠ l) (rest : List Instr) :
    codeAfter l (front ++ rest) = codeAfter l rest := by
  induction front with
  | nil => rfl
  | cons i front ih =>
    rw [cons_append,codeAfter_cons (h i (by simp)),ih fun j hj => h j (by simp [hj])]

variable {j : Instr}

section Groups

variable {name : String} {n : Nat} {inGroup : Bool} {i : Instr} {code u s : List Instr}

theorem labelGroups_nil (h : labelGroups name n inGroup [] = .ok u) : inGroup = false ∧ u = [] := by
  cases inGroup with
  | true => simp [labelGroups] at h
  | false => exact ⟨rfl,(Except.ok.inj h).symm⟩

theorem labelGroups_cons (h : labelGroups name n inGroup (i :: rest) = .ok u) :
    ∃ n' inGroup' r before after, labelGroups name n' inGroup' rest = .ok r ∧
      u = before ++ i :: (after ++ r) ∧ n ≤ n' ∧
      before ++ after = (List.range' n (n' - n)).map (adminLabel name) := by
  unfold labelGroups at h
  split at h
  · obtain ⟨r,hr,hu⟩ := Except.bind_eq_ok.1 h
    cases hu
    exact ⟨n,true,r,[],[],hr,rfl,Nat.le_refl n,by simp⟩
  · split at h
    · split at h
      · obtain ⟨r,hr,hu⟩ := Except.bind_eq_ok.1 h
        cases hu
        exact ⟨n + 1,false,r,[],[adminLabel name n],hr,rfl,by omega,by simp⟩
      · obtain ⟨r,hr,hu⟩ := Except.bind_eq_ok.1 h
        cases hu
        exact ⟨n + 1,false,r,[adminLabel name n],[],hr,rfl,by omega,by simp⟩
    · obtain ⟨r,hr,hu⟩ := Except.bind_eq_ok.1 h
      cases hu
      exact ⟨n,false,r,[],[],hr,rfl,Nat.le_refl n,by simp⟩

theorem mem_adminLabels {before after k}
    (h : before ++ after = (List.range' n k).map (adminLabel name)) (hj : j ∈ before ∨ j ∈ after) :
    ∃ m, j = adminLabel name m := by
  have hmem : j ∈ before ++ after := mem_append.2 hj
  rw [h] at hmem
  obtain ⟨m,-,rfl⟩ := mem_map.1 hmem
  exact ⟨m,rfl⟩

variable (h : labelGroups name n inGroup code = .ok u)
include h

theorem labelGroups_skipLabels :
    ∃ n' inGroup' u', labelGroups name n' inGroup' (skipLabels code) = .ok u' ∧
      skipLabels u = skipLabels u' := by
  induction code generalizing n inGroup u with
  | nil => exact ⟨n,inGroup,u,h,rfl⟩
  | cons i rest ih =>
    cases hi : i.isLabel with
    | false => exact ⟨n,inGroup,u,by rwa [skipLabels_cons hi],rfl⟩
    | true =>
      obtain ⟨n1,g1,r,before,after,hr,rfl,-,hadmin⟩ := labelGroups_cons h
      obtain ⟨n',g',u',hu',hskip⟩ := ih hr
      refine ⟨n',g',u',by rwa [skipLabels_label hi],?_⟩
      have hlabels : ∀ j, j ∈ before ∨ j ∈ after → j.isLabel = true := by
        intro j hj
        obtain ⟨m,rfl⟩ := mem_adminLabels hadmin hj
        rfl
      rw [skipLabels_append fun j hj => hlabels j (.inl hj),skipLabels_label hi,
        skipLabels_append fun j hj => hlabels j (.inr hj),hskip]

theorem labelGroups_codeAfter {l} (hl : ∀ m, l ≠ adminText name m)
    (hs : codeAfter l code = some s) :
    ∃ s' n' inGroup' u', codeAfter l u = some s' ∧ labelGroups name n' inGroup' s = .ok u' ∧
      s' = skipLabels u' := by
  induction code generalizing n inGroup u with
  | nil => cases hs
  | cons i rest ih =>
    obtain ⟨n1,g1,r,before,after,hr,rfl,-,hadmin⟩ := labelGroups_cons h
    have hother : ∀ j, j ∈ before ∨ j ∈ after → j.isLabel = true → j.arg1.text ≠ l := by
      intro j hj _ heq
      obtain ⟨m,rfl⟩ := mem_adminLabels hadmin hj
      exact hl m (heq.symm.trans (text_adminLabel name m))
    have hlabels : ∀ j, j ∈ after → j.isLabel = true := by
      intro j hj
      obtain ⟨m,rfl⟩ := mem_adminLabels hadmin (.inr hj)
      rfl
    rw [codeAfter_append fun j hj => hother j (.inl hj)]
    by_cases hi : i.isLabel = true ∧ i.arg1.text = l
    · obtain ⟨hlabel,rfl⟩ := hi
      rw [codeAfter_label hlabel] at hs ⊢
      cases hs
      obtain ⟨n',g',u',hu',hskip⟩ := labelGroups_skipLabels hr
      exact ⟨_,n',g',u',rfl,hu',by rw [skipLabels_append hlabels,hskip]⟩
    · have hne : i.isLabel = true → i.arg1.text ≠ l := fun h h' => hi ⟨h,h'⟩
      rw [codeAfter_cons hne] at hs ⊢
      rw [codeAfter_append fun j hj => hother j (.inr hj)]
      exact ih hr hs

theorem labelGroups_labelNames :
    ∃ k, (labelNames u).Perm (labelNames code ++ (List.range' n k).map (adminText name)) := by
  induction code generalizing n inGroup u with
  | nil =>
    obtain ⟨-,rfl⟩ := labelGroups_nil h
    exact ⟨0,by simp⟩
  | cons i rest ih =>
    obtain ⟨n1,g1,r,before,after,hr,rfl,hle,hadmin⟩ := labelGroups_cons h
    obtain ⟨k,hperm⟩ := ih hr
    refine ⟨n1 - n + k,?_⟩
    have hnames : labelNames before ++ labelNames after =
        (List.range' n (n1 - n)).map (adminText name) := by
      rw [← labelNames_append,hadmin,labelNames,filter_map,filter_eq_self.2 (by simp),map_map]
      rfl
    have hrange : List.range' n (n1 - n + k) = List.range' n (n1 - n) ++ List.range' n1 k := by
      rw [← range'_append_1,Nat.add_sub_cancel' hle]
    have hsplit : labelNames (before ++ i :: (after ++ r)) =
        labelNames before ++ (labelNames [i] ++ (labelNames after ++ labelNames r)) := by
      rw [labelNames_append,← singleton_append (x := i),labelNames_append,labelNames_append]
    have hsplit' : labelNames (i :: rest) = labelNames [i] ++ labelNames rest := by
      rw [← singleton_append (x := i),labelNames_append]
    rw [hsplit,hsplit',hrange,map_append,← hnames]
    rw [perm_iff_count] at hperm ⊢
    intro l
    have hcount := hperm l
    simp only [count_append] at hcount ⊢
    omega

omit h

def Grouped (name : String) (s t : List Instr) : Prop :=
  skipLabels s = s ∧ (∀ i ∈ s, i.opcode ≠ .phi) ∧
    ∃ n inGroup u, labelGroups name n inGroup s = .ok u ∧ t = skipLabels u

theorem grouped_skipLabels (hphi : ∀ i ∈ code, i.opcode ≠ .phi)
    (h : labelGroups name n inGroup code = .ok u) :
    Grouped name (skipLabels code) (skipLabels u) := by
  obtain ⟨n',g',u',hu',hskip⟩ := labelGroups_skipLabels h
  exact ⟨skipLabels_skipLabels code,
    fun i hi => hphi i ((skipLabels_suffix code).subset hi),n',g',u',hu',hskip⟩

theorem tracks_addLabels (strict : Bool) (hphi : ∀ i ∈ code, i.opcode ≠ .phi)
    (hadmin : ∀ l ∈ labelNames code, ∀ m, l ≠ adminText name m)
    (h : labelGroups name 1 false code = .ok u) :
    Tracks strict code (adminLabel name 0 :: u) (Grouped name) where
  start := .inl (by
    rw [skipLabels_label (isLabel_adminLabel name 0)]
    exact grouped_skipLabels hphi h)
  nil := by
    rintro t ⟨-,-,n,g,u,hu,rfl⟩
    obtain ⟨-,rfl⟩ := labelGroups_nil hu
    exact .inr rfl
  cons := by
    rintro i rest t ⟨hfront,hphis,n,g,u',hu,rfl⟩
    have hi : i.isLabel = false := isLabel_of_skipLabels hfront
    obtain ⟨n',g',r,before,after,hr,rfl,-,hnames⟩ := labelGroups_cons hu
    have hlabels : ∀ j, j ∈ before ∨ j ∈ after → j.isLabel = true := by
      intro j hj
      obtain ⟨m,rfl⟩ := mem_adminLabels hnames hj
      rfl
    refine ⟨hi,hphis i (by simp),i,after ++ r,?_,.refl i,fun _ => .inl ?_,?_⟩
    · rw [skipLabels_append fun j hj => hlabels j (.inl hj),skipLabels_cons hi]
    · rw [skipLabels_append fun j hj => hlabels j (.inr hj)]
      exact grouped_skipLabels (fun j hj => hphis j (by simp [hj])) hr
    · intro l s hjump hs
      have hl := hadmin l ((isSome_codeAfter l code).1 (by simp [hs]))
      obtain ⟨s',n',g',u',hs',hu',hskip⟩ := labelGroups_codeAfter h hl hs
      refine ⟨l,s',hjump,?_,.inl ⟨skipLabels_codeAfter hs,?_,n',g',u',hu',hskip⟩⟩
      · rw [codeAfter_cons fun _ heq => hl 0 (heq.symm.trans (text_adminLabel name 0)),hs']
      · exact fun j hj => hphi j ((codeAfter_suffix hs).subset hj)

theorem nodup_addLabels (hnodup : (labelNames code).Nodup)
    (hadmin : ∀ l ∈ labelNames code, ∀ m, l ≠ adminText name m)
    (h : labelGroups name 1 false code = .ok u) :
    (labelNames (adminLabel name 0 :: u)).Nodup := by
  obtain ⟨k,hperm⟩ := labelGroups_labelNames h
  have hinjective : Function.Injective (adminText name) := fun m n => adminText_injective
  rw [labelNames_label (isLabel_adminLabel name 0),text_adminLabel]
  refine nodup_cons.2 ⟨?_,?_⟩
  · rw [hperm.mem_iff,mem_append]
    rintro (hmem | hmem)
    · exact hadmin _ hmem 0 rfl
    · obtain ⟨m,hm,heq⟩ := mem_map.1 hmem
      have hzero := adminText_injective heq
      have hle := (mem_range'_1.1 hm).1
      omega
  · rw [hperm.nodup_iff,nodup_append]
    refine ⟨hnodup,List.Nodup.map hinjective nodup_range',?_⟩
    rintro l hl l' hl' rfl
    obtain ⟨m,-,heq⟩ := mem_map.1 hl'
    exact hadmin l hl m heq.symm

end Groups

section Jumps

variable {i : Instr} {rest code s : List Instr} {l : String}

def jumpBefore (i : Instr) : List Instr → List Instr
  | l :: _ =>
    if !i.isLabel && !i.opcode.isFinal && l.isLabel then [{ opcode := .jmp, arg1 := l.arg1 }] else []
  | [] => []

theorem jumpToLabels_cons (i : Instr) (rest : List Instr) :
    jumpToLabels (i :: rest) = i :: (jumpBefore i rest ++ jumpToLabels rest) := by
  cases rest with
  | nil => rfl
  | cons l rest =>
    rw [jumpToLabels,jumpBefore]
    split <;> simp

theorem jumpBefore_label (hi : i.isLabel = true) (rest : List Instr) : jumpBefore i rest = [] := by
  cases rest <;> simp [jumpBefore,hi]

theorem isLabel_of_mem_jumpBefore (hj : j ∈ jumpBefore i rest) : j.isLabel = false := by
  cases rest with
  | nil => simp [jumpBefore] at hj
  | cons l rest =>
    rw [jumpBefore] at hj
    split at hj
    · rw [mem_singleton.1 hj]
      rfl
    · simp at hj

theorem skipLabels_jumpToLabels (code : List Instr) :
    skipLabels (jumpToLabels code) = jumpToLabels (skipLabels code) := by
  induction code with
  | nil => rfl
  | cons i rest ih =>
    cases hi : i.isLabel with
    | false => rw [jumpToLabels_cons,skipLabels_cons hi,skipLabels_cons hi,jumpToLabels_cons]
    | true =>
      rw [jumpToLabels_cons,jumpBefore_label hi,skipLabels_label hi,skipLabels_label hi]
      exact ih

theorem codeAfter_jumpToLabels (l : String) (code : List Instr) :
    codeAfter l (jumpToLabels code) = (codeAfter l code).map jumpToLabels := by
  induction code with
  | nil => rfl
  | cons i rest ih =>
    rw [jumpToLabels_cons]
    by_cases hi : i.isLabel = true ∧ i.arg1.text = l
    · obtain ⟨hlabel,rfl⟩ := hi
      rw [codeAfter_label hlabel,codeAfter_label hlabel,jumpBefore_label hlabel]
      simp [skipLabels_jumpToLabels]
    · have hne : i.isLabel = true → i.arg1.text ≠ l := fun h h' => hi ⟨h,h'⟩
      rw [codeAfter_cons hne,codeAfter_cons hne,codeAfter_append,ih]
      intro j hj hlabel
      simp [isLabel_of_mem_jumpBefore hj] at hlabel

theorem labelNames_jumpToLabels (code : List Instr) :
    labelNames (jumpToLabels code) = labelNames code := by
  induction code with
  | nil => rfl
  | cons i rest ih =>
    have hjumps : labelNames (jumpBefore i rest) = [] := by
      have hfilter : (jumpBefore i rest).filter Instr.isLabel = [] :=
        filter_eq_nil_iff.2 fun j hj => by simp [isLabel_of_mem_jumpBefore hj]
      rw [labelNames,hfilter]
      rfl
    rw [jumpToLabels_cons]
    cases hi : i.isLabel with
    | false => rw [labelNames_cons hi,labelNames_cons hi,labelNames_append,hjumps,ih]; rfl
    | true => rw [labelNames_label hi,labelNames_label hi,labelNames_append,hjumps,ih]; rfl

def Bridged (code s t : List Instr) : Prop :=
  skipLabels s = s ∧ s <:+ code ∧ t = jumpToLabels s

theorem bridged_skipLabels (h : s <:+ code) :
    Bridged code (skipLabels s) (skipLabels (jumpToLabels s)) :=
  ⟨skipLabels_skipLabels s,(skipLabels_suffix s).trans h,skipLabels_jumpToLabels s⟩

theorem tracks_jumpToLabels (strict : Bool) (hphi : ∀ i ∈ code, i.opcode ≠ .phi)
    (hnodup : (labelNames code).Nodup) :
    Tracks strict code (jumpToLabels code) (Bridged code) where
  start := .inl (bridged_skipLabels (suffix_refl code))
  nil := by
    rintro t ⟨-,-,rfl⟩
    exact .inr rfl
  cons := by
    rintro i rest t ⟨hfront,hsuffix,rfl⟩
    have hrest : rest <:+ code := (suffix_cons i rest).trans hsuffix
    refine ⟨isLabel_of_skipLabels hfront,hphi i (hsuffix.subset (by simp)),i,
      jumpBefore i rest ++ jumpToLabels rest,jumpToLabels_cons i rest,.refl i,fun _ => ?_,?_⟩
    · cases rest with
      | nil => exact .inl (bridged_skipLabels hrest)
      | cons l rest =>
        rw [jumpBefore]
        split
        · -- Control would run into the label `l`; the jump leads to the code behind it.
          rename_i hjump
          have hl : l.isLabel = true := by simp_all
          obtain ⟨before,rfl⟩ := hrest
          have hcode := codeAfter_of_nodup hnodup hl
          refine .inr ⟨_,_,jumpToLabels (skipLabels rest),skipLabels_cons rfl _,rfl,?_,?_⟩
          · rw [codeAfter_jumpToLabels,hcode]
            rfl
          · rw [skipLabels_label hl]
            exact ⟨skipLabels_skipLabels rest,codeAfter_suffix hcode,rfl⟩
        · exact .inl (bridged_skipLabels hrest)
    · intro l s hjump hs
      refine ⟨l,jumpToLabels s,hjump,by rw [codeAfter_jumpToLabels,hs]; rfl,.inl ?_⟩
      exact ⟨skipLabels_codeAfter hs,codeAfter_suffix hs,rfl⟩

end Jumps

variable {t : Table String String}

section Numbering

variable {n : Nat} {group : Option String} {names names' : Table String String} {i : Instr}
  {rest code u s : List Instr} {l : String}

def numberText (n : Nat) : String := "%.L" ++ toString n

theorem numberText_injective (h : numberText m = numberText n) : m = n :=
  toString_injective (append_left_cancel h)

theorem numberLabels_cons (h : numberLabels n group names (i :: rest) = .ok (u,names')) :
    (i.isLabel = false ∧ ∃ u', numberLabels n none names rest = .ok (u',names') ∧ u = i :: u') ∨
    (i.isLabel = true ∧ ∃ l, group = some l ∧
      numberLabels n (some l) (names.insert i.arg1.text l) rest = .ok (u,names')) ∨
    (i.isLabel = true ∧ group = none ∧ ∃ u', u = .ofLabel (numberText n) :: u' ∧
      numberLabels (n + 1) (some (numberText n)) (names.insert i.arg1.text (numberText n)) rest =
        .ok (u',names')) := by
  unfold numberLabels at h
  cases hi : i.isLabel with
  | false =>
    simp only [hi,Bool.false_eq_true,if_false] at h
    obtain ⟨⟨u',names1⟩,hrest,hu⟩ := Except.bind_eq_ok.1 h
    cases hu
    exact .inl ⟨rfl,u',hrest,rfl⟩
  | true =>
    simp only [hi,if_true] at h
    cases group with
    | some l => exact .inr (.inl ⟨rfl,l,rfl,h⟩)
    | none =>
      dsimp only at h
      split at h
      · cases h
      · obtain ⟨⟨u',names1⟩,hrest,hu⟩ := Except.bind_eq_ok.1 h
        cases hu
        exact .inr (.inr ⟨rfl,rfl,u',rfl,hrest⟩)

variable (h : numberLabels n group names code = .ok (u,names'))
include h

theorem numberLabels_labelNames : ∃ k, labelNames u = (List.range' n k).map numberText := by
  induction code generalizing n group names u with
  | nil =>
    cases h
    exact ⟨0,rfl⟩
  | cons i rest ih =>
    rcases numberLabels_cons h with ⟨hi,u',hrest,rfl⟩ | ⟨hi,l,-,hrest⟩ | ⟨hi,-,u',rfl,hrest⟩
    · obtain ⟨k,hk⟩ := ih hrest
      exact ⟨k,by rw [labelNames_cons hi,hk]⟩
    · exact ih hrest
    · obtain ⟨k,hk⟩ := ih hrest
      refine ⟨k + 1,?_⟩
      rw [labelNames_label (isLabel_ofLabel _),hk,range'_succ]
      rfl

theorem numberLabels_get? (hl : l ∉ labelNames code) : names'.get? l = names.get? l := by
  induction code generalizing n group names u with
  | nil =>
    cases h
    rfl
  | cons i rest ih =>
    rcases numberLabels_cons h with ⟨hi,u',hrest,-⟩ | ⟨hi,g,-,hrest⟩ | ⟨hi,-,u',-,hrest⟩
    · rw [labelNames_cons hi] at hl
      exact ih hrest hl
    · rw [labelNames_label hi,mem_cons,not_or] at hl
      rw [ih hrest hl.2,Table.get?_insert_of_ne _ _ hl.1]
    · rw [labelNames_label hi,mem_cons,not_or] at hl
      rw [ih hrest hl.2,Table.get?_insert_of_ne _ _ hl.1]

theorem numberLabels_skipLabels :
    ∃ n' names1 u', numberLabels n' none names1 (skipLabels code) = .ok (u',names') ∧
      skipLabels u = skipLabels u' := by
  induction code generalizing n group names u with
  | nil =>
    cases h
    exact ⟨n,names',[],rfl,rfl⟩
  | cons i rest ih =>
    rcases numberLabels_cons h with ⟨hi,u',hrest,rfl⟩ | ⟨hi,l,-,hrest⟩ | ⟨hi,-,u',rfl,hrest⟩
    · refine ⟨n,names,i :: u',?_,rfl⟩
      rw [skipLabels_cons hi,numberLabels]
      simp [hi,hrest,bind,Except.bind,pure,Except.pure]
    · rw [skipLabels_label hi]
      exact ih hrest
    · rw [skipLabels_label hi,skipLabels_label (isLabel_ofLabel _)]
      exact ih hrest

theorem numberLabels_codeAfter (hnodup : (labelNames code).Nodup) (hs : codeAfter l code = some s) :
    ∃ l' n' names1 u', names'.get? l = some l' ∧
      numberLabels n' none names1 s = .ok (u',names') ∧
      (codeAfter l' u = some (skipLabels u') ∨ group = some l' ∧ skipLabels u = skipLabels u') := by
  induction code generalizing n group names u with
  | nil => cases hs
  | cons i rest ih =>
    rcases numberLabels_cons h with ⟨hi,u',hrest,rfl⟩ | ⟨hi,g,rfl,hrest⟩ |
      ⟨hi,rfl,u',rfl,hrest⟩
    · rw [codeAfter_cons (by simp [hi])] at hs
      rw [labelNames_cons hi] at hnodup
      obtain ⟨l',n',names1,u'',hget,hu'',hafter | ⟨hnone,-⟩⟩ := ih hrest hnodup hs
      · exact ⟨l',n',names1,u'',hget,hu'',.inl (by rwa [codeAfter_cons (by simp [hi])])⟩
      · cases hnone
    · rw [labelNames_label hi,nodup_cons] at hnodup
      by_cases hl : i.arg1.text = l
      · subst hl
        rw [codeAfter_label hi] at hs
        cases hs
        obtain ⟨n',names1,u',hu',hskip⟩ := numberLabels_skipLabels hrest
        refine ⟨g,n',names1,u',?_,hu',.inr ⟨rfl,hskip⟩⟩
        rw [numberLabels_get? hrest hnodup.1,Table.get?_insert_self]
      · rw [codeAfter_cons fun _ => hl] at hs
        exact ih hrest hnodup.2 hs
    · rw [labelNames_label hi,nodup_cons] at hnodup
      by_cases hl : i.arg1.text = l
      · subst hl
        rw [codeAfter_label hi] at hs
        cases hs
        obtain ⟨n',names1,u'',hu'',hskip⟩ := numberLabels_skipLabels hrest
        refine ⟨numberText n,n',names1,u'',?_,hu'',.inl ?_⟩
        · rw [numberLabels_get? hrest hnodup.1,Table.get?_insert_self]
        · rw [← hskip]
          exact codeAfter_label (isLabel_ofLabel (numberText n)) u'
      · rw [codeAfter_cons fun _ => hl] at hs
        obtain ⟨l',n',names1,u'',hget,hu'',hafter | ⟨hl',hskip⟩⟩ := ih hrest hnodup.2 hs
        · -- The labels behind this one have larger numbers.
          obtain ⟨k,hk⟩ := numberLabels_labelNames hrest
          have hmem := (isSome_codeAfter l' u').1 (by simp [hafter])
          rw [hk] at hmem
          obtain ⟨m,hm,rfl⟩ := mem_map.1 hmem
          have hne : (Instr.ofLabel (numberText n)).arg1.text ≠ numberText m := by
            intro heq
            have hle := (mem_range'_1.1 hm).1
            have hnm : n = m := numberText_injective heq
            omega
          exact ⟨_,n',names1,u'',hget,hu'',.inl (by rwa [codeAfter_cons fun _ => hne])⟩
        · cases hl'
          refine ⟨_,n',names1,u'',hget,hu'',.inl ?_⟩
          rw [← hskip]
          exact codeAfter_label (isLabel_ofLabel (numberText n)) u'

omit h

variable (labels : List (String × String))

theorem opcode_renameLabels (i : Instr) : (i.renameLabels labels).opcode = i.opcode := by
  unfold Instr.renameLabels
  split <;> rfl

theorem isLabel_renameLabels (i : Instr) : (i.renameLabels labels).isLabel = i.isLabel := by
  rw [Instr.isLabel,opcode_renameLabels,Instr.isLabel]

theorem skipLabels_map_renameLabels (code : List Instr) :
    skipLabels (code.map (Instr.renameLabels labels)) =
      (skipLabels code).map (Instr.renameLabels labels) := by
  induction code with
  | nil => rfl
  | cons i rest ih =>
    cases hi : i.isLabel with
    | false =>
      rw [skipLabels_cons hi,map_cons,skipLabels_cons (by rw [isLabel_renameLabels,hi])]
    | true =>
      rw [skipLabels_label hi,map_cons,skipLabels_label (by rw [isLabel_renameLabels,hi]),ih]

theorem text_renameLabels (hi : i.isLabel = true) :
    (i.renameLabels labels).arg1.text = i.arg1.text := by
  have ho : i.opcode = .label := by simpa [Instr.isLabel] using hi
  simp [Instr.renameLabels,ho]

theorem codeAfter_map_renameLabels (l : String) (code : List Instr) :
    codeAfter l (code.map (Instr.renameLabels labels)) =
      (codeAfter l code).map (List.map (Instr.renameLabels labels)) := by
  induction code with
  | nil => rfl
  | cons i rest ih =>
    have hlabel := isLabel_renameLabels labels i
    rw [map_cons]
    cases hi : i.isLabel with
    | false =>
      rw [hi] at hlabel
      rw [codeAfter_cons (by simp [hlabel]),codeAfter_cons (by simp [hi]),ih]
    | true =>
      have htext := text_renameLabels labels hi
      simp only [codeAfter,hlabel,hi,htext]
      split
      · simp [skipLabels_map_renameLabels]
      · exact ih

theorem labelNames_map_renameLabels (code : List Instr) :
    labelNames (code.map (Instr.renameLabels labels)) = labelNames code := by
  induction code with
  | nil => rfl
  | cons i rest ih =>
    have hlabel := isLabel_renameLabels labels i
    rw [map_cons]
    cases hi : i.isLabel with
    | false =>
      rw [hi] at hlabel
      rw [labelNames_cons hlabel,labelNames_cons hi,ih]
    | true =>
      rw [hi] at hlabel
      rw [labelNames_label hlabel,labelNames_label hi,ih,text_renameLabels labels hi]

structure NamesOnly (ls : List String) (i : Instr) : Prop where
  opcode : i.opcode ≠ .phi
  target : i.opcode.endsBlock = true → i.opcode ≠ .ret → ∃ l, i.target = .name l
  second : i.opcode.isPlain = true → ∀ l ∈ ls, i.arg2 ≠ .name l

theorem sameButLabels_renameLabels (hi : NamesOnly (labelNames code) i)
    (hlabel : i.isLabel = false) (ht : ∀ l, l ∉ labelNames code → t.get? l = none) :
    i.SameButLabels (i.renameLabels t.entries) := by
  rcases i.opcode.plain_or_control with hplain | ho | ho | ho | ho | ⟨c,ho⟩
  · have hkeep : i.arg2.mapName (Instr.renameLabel t.entries) = i.arg2 := by
      cases harg : i.arg2 with
      | name s =>
        have hs : s ∉ labelNames code := fun hmem => hi.second hplain s hmem harg
        have hlookup : t.entries.lookup s = none := ht s hs
        simp [Operand.mapName,Instr.renameLabel,hlookup]
      | _ => rfl
    have hrename : i.renameLabels t.entries = i := by
      unfold Instr.renameLabels
      split <;> simp_all [Opcode.isPlain,Opcode.endsBlock,Opcode.isFinal]
    rw [hrename]
    exact .refl i
  · simp [Instr.isLabel,ho] at hlabel
  · exact absurd ho hi.opcode
  · simp only [Instr.renameLabels,ho]
    exact ⟨ho.symm,rfl,fun h => absurd ho h,fun _ => rfl⟩
  · simp only [Instr.renameLabels,ho]
    exact .refl i
  · simp only [Instr.renameLabels,ho]
    exact ⟨ho.symm,rfl,fun _ => rfl,by simp [ho,Opcode.isBranch]⟩

theorem target_renameLabels (h : i.opcode ≠ .phi) :
    (i.renameLabels labels).target = i.target.mapName (Instr.renameLabel labels) := by
  unfold Instr.renameLabels
  split <;> simp_all [Instr.target,Operand.mapName]

theorem jump?_eq_some :
    i.jump? = some l ↔ i.opcode.endsBlock = true ∧ i.opcode ≠ .ret ∧ i.target.text = l := by
  cases ho : i.opcode <;>
    simp [Instr.jump?,Instr.target,ho,Opcode.endsBlock,Opcode.isFinal,Opcode.isBranch]

theorem jump?_renameLabels (hi : NamesOnly (labelNames code) i) (hjump : i.jump? = some l)
    (hl : t.get? l = some l') :
    (i.renameLabels t.entries).jump? = some l' := by
  obtain ⟨hends,hret,rfl⟩ := jump?_eq_some.1 hjump
  obtain ⟨m,hm⟩ := hi.target hends hret
  have hlookup : t.entries.lookup m = some l' := by rwa [hm] at hl
  rw [jump?_eq_some,opcode_renameLabels,target_renameLabels _ hi.opcode,hm]
  exact ⟨hends,hret,by simp [Operand.mapName,Instr.renameLabel,hlookup]⟩

def Numbered (code : List Instr) (names : Table String String) (s t : List Instr) : Prop :=
  skipLabels s = s ∧ s <:+ code ∧ ∃ n names1 u, numberLabels n none names1 s = .ok (u,names) ∧
    t = skipLabels (u.map (Instr.renameLabels names.entries))

theorem numbered_skipLabels (hsuffix : s <:+ code)
    (h : numberLabels n group names s = .ok (u,names')) :
    Numbered code names' (skipLabels s)
      (skipLabels (u.map (Instr.renameLabels names'.entries))) := by
  obtain ⟨n',names1,u',hu',hskip⟩ := numberLabels_skipLabels h
  refine ⟨skipLabels_skipLabels s,(skipLabels_suffix s).trans hsuffix,n',names1,u',hu',?_⟩
  rw [skipLabels_map_renameLabels,hskip,skipLabels_map_renameLabels]

theorem tracks_numberLabels (strict : Bool) (hnodup : (labelNames code).Nodup)
    (hcode : ∀ i ∈ code, NamesOnly (labelNames code) i)
    (h : numberLabels 0 none {} code = .ok (u,names')) :
    Tracks strict code (u.map (Instr.renameLabels names'.entries)) (Numbered code names') where
  start := .inl (numbered_skipLabels (suffix_refl code) h)
  nil := by
    rintro t ⟨-,-,n,names1,u,hu,rfl⟩
    cases hu
    exact .inr rfl
  cons := by
    rintro i rest t ⟨hfront,hsuffix,n,names1,u',hu,rfl⟩
    have hlabel : i.isLabel = false := isLabel_of_skipLabels hfront
    have hi := hcode i (hsuffix.subset (by simp))
    have hkeys : ∀ l, l ∉ labelNames code → names'.get? l = none :=
      fun l hl => numberLabels_get? h hl
    obtain ⟨-,u'',hrest,rfl⟩ | ⟨hlabel',-⟩ | ⟨hlabel',-⟩ := numberLabels_cons hu
    · refine ⟨hlabel,hi.opcode,_,u''.map (Instr.renameLabels names'.entries),?_,
        sameButLabels_renameLabels hi hlabel hkeys,fun _ => .inl ?_,?_⟩
      · rw [skipLabels_map_renameLabels,skipLabels_cons hlabel,map_cons]
      · exact numbered_skipLabels ((suffix_cons i rest).trans hsuffix) hrest
      · intro l s hjump hs
        obtain ⟨l',n',names2,u2,hget,hu2,hafter | ⟨hnone,-⟩⟩ :=
          numberLabels_codeAfter h hnodup hs
        · refine ⟨l',_,jump?_renameLabels hi hjump hget,
            by rw [codeAfter_map_renameLabels,hafter]; rfl,.inl ?_⟩
          exact ⟨skipLabels_codeAfter hs,codeAfter_suffix hs,n',names2,u2,hu2,
            (skipLabels_map_renameLabels _ _).symm⟩
        · cases hnone
    · simp [hlabel] at hlabel'
    · simp [hlabel] at hlabel'

end Numbering

end BxToolchain.Flow
