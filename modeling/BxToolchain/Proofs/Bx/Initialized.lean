import BxToolchain.Proofs.Bx.Assigned

namespace BxToolchain.Bx

open Lower List

variable {known : Set Nat} {i : Instr} {k k' : Counters} {σ : Surroundings} {marks : Nat → Set Nat}
  {l yes no : Nat} {exits : List Nat} {c : List Instr} {x : Datum} {line : Int} {n : Node}

def IsKnown (known : Set Nat) (v : Datum) : Prop := ∀ n, isRegister n v = true → n ∈ known

theorem IsKnown.mono (h : IsKnown known v) (hmore : known ⊆ more) :
    IsKnown more v := fun n hn => hmore (h n hn)

theorem reads_of_isKnown (hargs : i.args = .list args) (h : ∀ v ∈ args, IsKnown known v) (n : Nat)
    (hn : i.reads n = true) : n ∈ known := by
  rw [Instr.reads,hargs] at hn
  obtain ⟨v,hv,hreads⟩ := any_eq_true.1 hn
  exact h v hv n hreads

theorem isKnown_pending (known : Set Nat) : IsKnown known pending := by
  intro n hn
  rw [isRegister_pending] at hn
  cases hn

theorem isKnown_register (h : k.temps ∈ known) : IsKnown known k.register := by
  intro n hn
  rw [isRegister_counters,decide_eq_true_eq] at hn
  exact hn ▸ h

theorem isKnown_registerOf (hσ : ∀ n, Visible σ.scopes n → n ∈ known)
    (x : String) : IsKnown known (σ.registerOf x) :=
  fun n hn => hσ n (visible_of_isRegister_registerOf hn)

def Marked {M : Type} (first past : Nat) (P : (Nat → M) → Prop) : Prop :=
  first ≤ past ∧ ∃ own : Nat → M, ∀ marks, (∀ l, first ≤ l → l < past → marks l = own l) → P marks

namespace Marked

theorem const (mark : M) (h : first ≤ past) :
    Marked first past fun marks => ∀ l, first ≤ l → l < past → marks l = mark :=
  ⟨h,fun _ => mark,fun _ hown => hown⟩

theorem imp (h : Marked first past P) (hPQ : ∀ marks, P marks → Q marks) : Marked first past Q :=
  ⟨h.1,h.2.imp fun _ h marks hown => hPQ marks (h marks hown)⟩

theorem both (h1 : Marked first middle P) (h2 : Marked middle past Q) :
    Marked first past fun marks => P marks ∧ Q marks := by
  obtain ⟨hle1,own1,h1⟩ := h1
  obtain ⟨hle2,own2,h2⟩ := h2
  refine ⟨hle1.trans hle2,fun l => if l < middle then own1 l else own2 l,fun marks hown =>
    ⟨h1 marks fun l hl hl' => ?_,h2 marks fun l hl hl' => ?_⟩⟩
  · exact (hown l hl (by omega)).trans (if_pos hl')
  · exact (hown l (by omega) hl').trans (if_neg (by omega))

end Marked

structure Straight (exits : List Nat) (k k' : Counters) (known : Set Nat) (code : List Instr) :
    Prop where
  temps : k.temps ≤ k'.temps
  marked : Marked k.labels k'.labels fun marks =>
    (∀ l, k.labels ≤ l → l < k'.labels →
      known ⊆ marks l ∧ marks l ⊆ known ∪ Set.Ico k.temps k'.temps) ∧
    ((∀ l ∈ exits, marks l ⊆ known) →
      Assigned marks known code (known ∪ Set.Ico k.temps k'.temps))

theorem union_Ico_union_Ico (known : Set Nat) {c} (hab : a ≤ b) (hbc : b ≤ c) :
    known ∪ Set.Ico a b ∪ Set.Ico b c = known ∪ Set.Ico a c := by
  rw [Set.union_assoc,Set.Ico_union_Ico_eq_Ico hab hbc]

theorem subset_union_Ico {c} (h : b ≤ c) : known ∪ Set.Ico a b ⊆ known ∪ Set.Ico a c :=
  Set.union_subset_union_right known (Set.Ico_subset_Ico_right h)

namespace Straight

variable {k : Counters} {known : Set Nat}

theorem append (h1 : Straight exits k k1 known c1)
    (h2 : Straight exits k1 k2 (known ∪ Set.Ico k.temps k1.temps) c2) :
    Straight exits k k2 known (c1 ++ c2) := by
  refine ⟨h1.temps.trans h2.temps,(h1.marked.both h2.marked).imp ?_⟩
  rintro marks ⟨⟨hbetween1,hcode1⟩,hbetween2,hcode2⟩
  rw [union_Ico_union_Ico known h1.temps h2.temps] at hbetween2 hcode2
  refine ⟨fun l hl hl' => ?_,fun hexits => (hcode1 hexits).append (hcode2 fun l hl => ?_)⟩
  · by_cases hlt : l < k1.labels
    · exact ⟨(hbetween1 l hl hlt).1,(hbetween1 l hl hlt).2.trans (subset_union_Ico h2.temps)⟩
    · have hbetween := hbetween2 l (by omega) hl'
      exact ⟨Set.subset_union_left.trans hbetween.1,hbetween.2⟩
  · exact (hexits l hl).trans Set.subset_union_left

theorem cons (h1 : Straight exits k k1 known [i])
    (h2 : Straight exits k1 k2 (known ∪ Set.Ico k.temps k1.temps) code) :
    Straight exits k k2 known (i :: code) := h1.append h2

theorem of_assigned (htemps : k.temps ≤ k1.temps) (hlabels : k1.labels = k.labels)
    (h : ∀ marks, Assigned marks known code (known ∪ Set.Ico k.temps k1.temps)) :
    Straight exits k k1 known code :=
  ⟨htemps,(Marked.const ∅ hlabels.ge).imp fun marks _ => ⟨fun l hl hl' => by omega,fun _ => h marks⟩⟩

theorem nil (exits : List Nat) (k : Counters) (known : Set Nat) : Straight exits k k known [] :=
  of_assigned (Nat.le_refl _) rfl fun _ => .nil (by simp)

theorem plain (hplain : i.isPlain = true) (hreads : ∀ n, i.reads n = true → n ∈ known)
    (hlabels : k1.labels = k.labels) (htemps : k.temps ≤ k1.temps)
    (hwrites : ∀ n, k.temps ≤ n → n < k1.temps → i.writes n = true) :
    Straight exits k k1 known [i] :=
  of_assigned htemps hlabels fun _ => .plain_cons hplain hreads
    (.nil (Set.union_subset_union_right known fun n hn => hwrites n hn.1 hn.2))

theorem silent (hplain : i.isPlain = true) (hreads : ∀ n, i.reads n = true → n ∈ known) :
    Straight exits k k known [i] :=
  plain hplain hreads rfl (Nat.le_refl _) fun n hn hn' => by omega

theorem register (hplain : i.isPlain = true) (hreads : ∀ n, i.reads n = true → n ∈ known)
    (hresult : i.result = k.register) : Straight exits k k.addTemp known [i] := by
  refine plain hplain hreads rfl (Nat.le_succ _) fun n hn hn' => ?_
  simp only [Counters.addTemp] at hn'
  rw [Instr.writes,hresult,isRegister_counters,decide_eq_true_eq]
  omega

end Straight

namespace Assigned

variable {marks : Nat → Set Nat} {known : Set Nat}

theorem const_cons {n} (h : Assigned marks (known ∪ {k.temps}) code known') :
    Assigned marks known (.make "const" [.int n] k.register :: code) known' := by
  refine .plain_cons rfl (reads_of_isKnown rfl (by simp [IsKnown,isRegister])) (h.mono ?_ subset_rfl)
  refine Set.union_subset_union_right known fun m hm => ?_
  obtain rfl : m = k.temps := hm
  simp

theorem compare_cons (hx : IsKnown known x) (hy : IsKnown known y)
    (h : Assigned marks known code known') :
    Assigned marks known (.act "cmpq" [x,y] :: code) known' := by
  refine .plain_cons rfl (reads_of_isKnown rfl ?_) (h.mono Set.subset_union_left subset_rfl)
  simp only [mem_cons,not_mem_nil,or_false,forall_eq_or_imp,forall_eq]
  exact ⟨hx,hy⟩

theorem copy_cons (hx : IsKnown known x) (h : Assigned marks known code known') :
    Assigned marks known (.make "copy" [x] r :: code) known' :=
  .plain_cons rfl (reads_of_isKnown rfl (by simpa using hx)) (h.mono Set.subset_union_left subset_rfl)

theorem return_cons (hx : IsKnown known x) (h : Assigned marks known code known') :
    Assigned marks known (.act "ret" [x] :: code) known' :=
  .ret_cons (reads_of_isKnown rfl (by simpa using hx)) h

theorem leave_cons (hexits : ∀ l ∈ σ.exits, marks l ⊆ known) (hfiller : IsKnown known filler)
    (h : Assigned marks known code known') :
    Assigned marks known (σ.leave filler :: code) known' := by
  unfold Surroundings.leave
  split
  · rename_i handler rest hhandlers
    exact .jump_cons (hexits handler (by simp [Surroundings.exits,hhandlers])) h
  · split
    · exact .return_cons hfiller h
    · exact .ret_cons (reads_of_isKnown rfl (by simp)) h

theorem passPending {next} (hexits : ∀ l ∈ σ.exits, marks l ⊆ known)
    (hnext : marks next ⊆ known ∪ {k.temps}) :
    Assigned marks known (passPending σ k.register next) (marks next) := by
  have hzero : IsKnown (known ∪ {k.temps}) k.register := isKnown_register (.inr rfl)
  refine .const_cons (.compare_cons hzero (isKnown_pending _) (.branch_cons (by decide) hnext
    (.leave_cons (fun l hl => ?_) hzero (.label_cons hnext (.nil subset_rfl)))))
  exact (hexits l hl).trans Set.subset_union_left

end Assigned

theorem straight_afterCall (σ : Surroundings) (k : Counters) (known : Set Nat) :
    Straight σ.exits k (k.addTemp.addLabels 1) known (afterCall σ k) := by
  have hspan : known ∪ Set.Ico k.temps (k.addTemp.addLabels 1).temps = known ∪ {k.temps} := by
    ext n
    simp only [Counters.addTemp,Counters.addLabels,Set.mem_union,Set.mem_Ico,
      Set.mem_singleton_iff]
    grind
  refine ⟨Nat.le_succ _,(Marked.const (known ∪ {k.temps}) (Nat.le_succ k.labels)).imp ?_⟩
  intro marks hmarks
  have hnext : marks k.labels = known ∪ {k.temps} :=
    hmarks k.labels (Nat.le_refl _) (Nat.lt_succ_self _)
  rw [hspan]
  refine ⟨fun l hl hl' => ?_,fun hexits => ?_⟩
  · rw [hmarks l hl hl']
    exact ⟨Set.subset_union_left,subset_rfl⟩
  · have h := Assigned.passPending hexits hnext.subset
    rwa [hnext] at h

theorem isKnown_of_isExpr_number (h : (Node.number line type value).isExpr = true) :
    IsKnown known value := by
  unfold Node.isExpr at h
  cases value with
  | int n => exact nofun
  | _ => cases h

theorem isKnown_next (known : Set Nat) (h : a ≤ k.temps) :
    IsKnown (known ∪ Set.Ico a k.addTemp.temps) k.register :=
  isKnown_register (.inr ⟨h,Nat.lt_succ_self _⟩)

theorem isKnown_callArgs (known : Set Nat) (name : String) (count : Nat) :
    ∀ v ∈ callArgs name count, IsKnown known v := by
  simp [callArgs,IsKnown,isRegister,register_ne_at]

mutual

theorem ExprEmits.straight {σ n k k' v c known} (hσ : ∀ m, Visible σ.scopes m → m ∈ known) :
    ExprEmits σ n k v c k' → n.isExpr = true →
      Straight σ.exits k k' known c ∧ IsKnown (known ∪ Set.Ico k.temps k'.temps) v
  | .var _ _ x k, _ =>
    ⟨.nil _ k known,(isKnown_registerOf hσ x).mono Set.subset_union_left⟩
  | .other k _, _ => ⟨.nil _ k known,nofun⟩
  | .number _ _ _ k, hn => by
    refine ⟨.register rfl (reads_of_isKnown rfl ?_) rfl,isKnown_next known (Nat.le_refl _)⟩
    simpa using isKnown_of_isExpr_number hn
  | .boolean _ _ _ k, hn => by
    refine ⟨.register rfl (reads_of_isKnown rfl ?_) rfl,isKnown_next known (Nat.le_refl _)⟩
    simp [IsKnown,isRegister]
  | .binary _ _ op ha hb, hn => by
    simp only [Node.isExpr,Bool.and_eq_true] at hn
    obtain ⟨hca,hx⟩ := ha.straight hσ hn.1.2
    obtain ⟨hcb,hy⟩ := hb.straight (fun m hm => Set.mem_union_left _ (hσ m hm)) hn.2
    rw [union_Ico_union_Ico known hca.temps hcb.temps] at hy
    have hab := hca.append hcb
    refine ⟨hab.append (.register (isPlain_binaryOpcode op _ _) (reads_of_isKnown rfl ?_) rfl),
      isKnown_next known hab.temps⟩
    simp only [mem_cons,not_mem_nil,or_false,forall_eq_or_imp,forall_eq]
    exact ⟨hx.mono (subset_union_Ico hcb.temps),hy⟩
  | .unary _ _ op ha, hn => by
    simp only [Node.isExpr,Bool.and_eq_true] at hn
    obtain ⟨hca,hx⟩ := ha.straight hσ hn.2
    refine ⟨hca.append (.register (isPlain_unaryOpcode op _ _) (reads_of_isKnown rfl ?_) rfl),
      isKnown_next known hca.temps⟩
    simpa using hx
  | .function _ _ hargs _, hn => by
    simp only [Node.isExpr,Bool.and_eq_true] at hn
    have hcode := hargs.straight hσ hn.2
    refine ⟨hcode.append (.cons (.register rfl
      (reads_of_isKnown rfl (isKnown_callArgs _ _ _)) rfl) (straight_afterCall σ _ _)),?_⟩
    exact (isKnown_next known hcode.temps).mono (subset_union_Ico (Nat.le_succ _))
  | .subroutine _ _ hargs _, hn => by
    simp only [Node.isExpr,Bool.and_eq_true] at hn
    refine ⟨(hargs.straight hσ hn.2).append (.cons (.silent rfl
      (reads_of_isKnown rfl (isKnown_callArgs _ _ _))) (straight_afterCall σ _ _)),nofun⟩

theorem ArgsEmit.straight {σ count index args k k' c known}
    (hσ : ∀ m, Visible σ.scopes m → m ∈ known) :
    ArgsEmit σ count index args k c k' → Node.areExprs args = true → Straight σ.exits k k' known c
  | .nil _ _ k, _ => .nil _ k known
  | .cons harg hrest, hargs => by
    simp only [Node.areExprs,Bool.and_eq_true] at hargs
    obtain ⟨hcode,hx⟩ := harg.straight hσ hargs.1
    refine hcode.append (.cons (.silent rfl (reads_of_isKnown rfl ?_)) ?_)
    · simp only [mem_cons,not_mem_nil,or_false,forall_eq_or_imp,forall_eq]
      exact ⟨nofun,hx⟩
    · exact hrest.straight (fun m hm => .inl (.inl (hσ m hm))) hargs.2

end

def Decided (exits : List Nat) (yes no : Nat) (k k' : Counters) (known : Set Nat)
    (code : List Instr) : Prop :=
  ∃ first, known ⊆ first ∧ Marked k.labels k'.labels fun marks =>
    (k.labels < k'.labels → marks k.labels = first) ∧ ((∀ l ∈ exits, marks l ⊆ known) →
      (∀ l ∈ [yes,no], marks l ⊆ known ∨ l = k.labels ∧ marks l = first) →
      Assigned marks known code first)

theorem decided_of_assigned (hlabels : k'.labels = k.labels)
    (h : ∀ marks, (∀ l ∈ [yes,no], marks l ⊆ known) → Assigned marks known code known) :
    Decided exits yes no k k' known code := by
  refine ⟨known,subset_rfl,(Marked.const ∅ hlabels.ge).imp fun marks _ =>
    ⟨fun hlt => by omega,fun _ htargets => h marks fun l hl => ?_⟩⟩
  obtain hl | ⟨-,hl⟩ := htargets l hl
  · exact hl
  · exact hl.subset

theorem Decided.logical (h1 : Decided exits yes' no' k k1 known c1)
    (htargets : ∀ l ∈ [yes',no'], l ∈ [yes,no] ∨ l = k.labels)
    (h2 : ∀ known', known ⊆ known' → Decided exits yes no (k1.addLabels 1) k2 known' c2) :
    Decided exits yes no k k2 known (c1 ++ labelAt k1.labels :: c2) := by
  obtain ⟨first,hfirst,h1⟩ := h1
  obtain ⟨first2,hfirst2,h2⟩ := h2 first hfirst
  refine ⟨first,hfirst,((h1.both (Marked.const first (Nat.le_succ _))).both h2).imp ?_⟩
  rintro marks ⟨⟨⟨hown1,hcode1⟩,hnext⟩,hown2,hcode2⟩
  have hnext : marks k1.labels = first := hnext _ (Nat.le_refl _) (Nat.lt_succ_self _)
  have hmark : marks k.labels = first := by
    obtain hlt | heq := Nat.lt_or_eq_of_le h1.1
    · exact hown1 hlt
    · rw [heq,hnext]
  refine ⟨fun _ => hmark,fun hexits hyes => ?_⟩
  have hleft := hcode1 hexits fun l hl => ?_
  · refine hleft.append (.label_cons hnext.subset ?_)
    rw [hnext]
    refine (hcode2 (fun l hl => (hexits l hl).trans hfirst) fun l hl => .inl ?_).mono subset_rfl hfirst2
    obtain hl | ⟨-,hl⟩ := hyes l hl
    · exact hl.trans hfirst
    · exact hl.subset
  · obtain hl | rfl := htargets l hl
    · exact hyes l hl
    · exact .inr ⟨rfl,hmark⟩

theorem CondEmits.decided (h : CondEmits σ n yes no k c k') (hn : n.isExpr = true)
    (hσ : ∀ m, Visible σ.scopes m → m ∈ known) : Decided σ.exits yes no k k' known c := by
  induction h generalizing known with
  | isTrue | isFalse =>
    exact decided_of_assigned rfl fun _ htargets => .jump_cons (htargets _ (by simp)) (.nil subset_rfl)
  | var line type x yes no k =>
    refine decided_of_assigned rfl fun marks htargets => ?_
    have hjumps : Assigned marks known [branchTo "jnz" yes,jumpTo no] known :=
      .branch_cons (by decide) (htargets yes (by simp))
        (.jump_cons (htargets no (by simp)) (.nil subset_rfl))
    exact .const_cons (.compare_cons (isKnown_register (.inr rfl))
      ((isKnown_registerOf hσ x).mono Set.subset_union_left)
      (hjumps.mono Set.subset_union_left subset_rfl))
  | @comparison line type op jump yes no a b k k1 k2 x y c1 c2 hjump ha hb =>
    simp only [Node.isExpr,Bool.and_eq_true] at hn
    obtain ⟨hca,hx⟩ := ha.straight hσ hn.1.2
    obtain ⟨hcb,hy⟩ := hb.straight (fun m hm => Set.mem_union_left _ (hσ m hm)) hn.2
    rw [union_Ico_union_Ico known hca.temps hcb.temps] at hy
    obtain ⟨hle,own,h⟩ := (hca.append hcb).marked
    obtain ⟨first,hknown,hfirst,hown⟩ : ∃ first, known ⊆ first ∧
        first ⊆ known ∪ Set.Ico k.temps k2.temps ∧ (k.labels < k2.labels → own k.labels = first) := by
      by_cases hlt : k.labels < k2.labels
      · obtain ⟨hless,hmore⟩ := (h own fun _ _ _ => rfl).1 _ (Nat.le_refl _) hlt
        exact ⟨_,hless,hmore,fun _ => rfl⟩
      · exact ⟨known,subset_rfl,Set.subset_union_left,fun h => absurd h hlt⟩
    refine ⟨first,hknown,hle,own,fun marks hmarks => ⟨fun hlt => ?_,fun hexits htargets => ?_⟩⟩
    · rw [hmarks _ (Nat.le_refl _) hlt,hown hlt]
    · have htarget : ∀ l ∈ [yes,no], marks l ⊆ known ∪ Set.Ico k.temps k2.temps := by
        intro l hl
        obtain hl | ⟨-,hl⟩ := htargets l hl
        · exact hl.trans Set.subset_union_left
        · exact hl.subset.trans hfirst
      refine ((h marks hmarks).2 hexits).append ?_
      exact .compare_cons (hx.mono (subset_union_Ico hcb.temps)) hy
        (.branch_cons (comparisonJump?_mem hjump) (htarget yes (by simp))
          (.jump_cons (htarget no (by simp)) (.nil hfirst)))
  | and line type ha hb iha ihb | or line type ha hb iha ihb =>
    simp only [Node.isExpr,Bool.and_eq_true] at hn
    exact (iha hn.1.2 hσ).logical (by simp) fun known' hmore => ihb hn.2 fun m hm => hmore (hσ m hm)
  | not line type ha ih =>
    simp only [Node.isExpr,Bool.and_eq_true] at hn
    obtain ⟨first,hfirst,h⟩ := ih hn.2 hσ
    refine ⟨first,hfirst,h.imp fun marks h => ⟨h.1,fun hexits htargets => h.2 hexits fun l hl => ?_⟩⟩
    exact htargets l (by simpa [or_comm] using hl)
  | other yes no k => exact decided_of_assigned rfl fun _ _ => .nil subset_rfl

def Safe (exits : List Nat) (first past : Nat) (known : Set Nat) (code : List Instr)
    (known' : Set Nat) : Prop :=
  Marked first past fun marks => (∀ l ∈ exits, marks l ⊆ known) → Assigned marks known code known'

namespace Safe

theorem of_assigned (h : ∀ marks, (∀ l ∈ exits, marks l ⊆ known) → Assigned marks known code known') :
    Safe exits first first known code known' :=
  (Marked.const ∅ (Nat.le_refl _)).imp fun marks _ => h marks

theorem append (h1 : Safe exits first middle known c1 known1) (hmore : known ⊆ known1)
    (h2 : Safe exits middle past known1 c2 known') : Safe exits first past known (c1 ++ c2) known' :=
  (h1.both h2).imp fun _ ⟨h1,h2⟩ hexits =>
    (h1 hexits).append (h2 fun l hl => (hexits l hl).trans hmore)

theorem weaken (h : Safe exits first past known code known') (hless : less ⊆ known') :
    Safe exits first past known code less :=
  h.imp fun _ h hexits => (h hexits).mono subset_rfl hless

end Safe

theorem Straight.safe (h : Straight exits k k' known code) :
    Safe exits k.labels k'.labels known code (known ∪ Set.Ico k.temps k'.temps) :=
  h.marked.imp fun _ h => h.2

def visibleSet (scopes : List (Table String String)) : Set Nat := {n | Visible scopes n}

variable {scopes : List (Table String String)} {inits : List Node}

theorem InitsEmit.safe (h : InitsEmit σ inits k c scopes vars k')
    (hinits : ∀ x value line, .varInit x value line ∈ inits → value.isExpr = true)
    (hσ : visibleSet σ.scopes ⊆ known) :
    Safe σ.exits k.labels k'.labels known c (known ∪ visibleSet scopes) := by
  induction h generalizing known with
  | nil σ k => exact .of_assigned fun marks _ => .nil (Set.union_subset subset_rfl hσ)
  | @cons σ x value line rest k k1 k2 v c1 c2 scopes vars hvalue hrest ih =>
    obtain ⟨hcode,hv⟩ := hvalue.straight (fun m hm => hσ hm) (hinits x value line mem_cons_self)
    have hcopy := hcode.append (.register (i := .make "copy" [v] k1.register) rfl
      (reads_of_isKnown rfl (by simpa using hv)) rfl)
    have hscopes : visibleSet (bindIn x (register k1.temps) σ.scopes) ⊆
        known ∪ Set.Ico k.temps k1.addTemp.temps := by
      intro m hm
      obtain hm | rfl := Visible.of_bindIn_register hm
      · exact .inl (hσ hm)
      · exact .inr ⟨hcode.temps,Nat.lt_succ_self _⟩
    have hall := hcopy.safe.append Set.subset_union_left
      (ih (fun x value line hmem => hinits x value line (mem_cons_of_mem _ hmem)) hscopes)
    rw [append_assoc] at hall
    exact hall.weaken (Set.union_subset_union_left _ Set.subset_union_left)

theorem StatementEmits.scopes_eq {σ n k k' c scopes vars}
    (h : StatementEmits σ n k c scopes vars k') (hn : n.isStatement = true)
    (hbranch : n.isBranch = true) : scopes = σ.scopes := by
  cases h with
  | ifElse _ _ ha hb =>
    simp only [Node.isStatement,Bool.and_eq_true] at hn
    have hsa := ha.scopes_eq hn.1.2.2 (Node.isBranch_of_isBlock hn.1.2.1)
    exact (hb.scopes_eq hn.2.2 hn.2.1).trans hsa
  | block | other => rfl
  | _ => cases hbranch

theorem CatchesEmit.scopes_eq {σ done ns k k' c scopes vars}
    (h : CatchesEmit σ done ns k c scopes vars k') (hns : Node.areCatches ns = true) :
    scopes = σ.scopes := by
  induction ns generalizing σ k c scopes vars with
  | nil =>
    cases h
    rfl
  | cons n rest ih =>
    obtain _ | ⟨_,_,hb,hr⟩ := h
    simp only [Node.areCatches,Bool.and_eq_true] at hns
    have hsb := hb.scopes_eq hns.1.2.2 (Node.isBranch_of_isBlock hns.1.2.1)
    exact (ih hr hns.2).trans hsb

theorem CondEmits.safe (h : CondEmits σ n yes no k c k') (hn : n.isExpr = true)
    (hσ : visibleSet σ.scopes ⊆ known) :
    Safe (yes :: no :: σ.exits) k.labels k'.labels known c known := by
  obtain ⟨first,hfirst,h⟩ := h.decided hn fun m hm => hσ hm
  refine h.imp fun marks h hexits => (h.2 (fun l hl => hexits l (by simp [hl])) fun l hl => .inl ?_).mono
    subset_rfl hfirst
  exact hexits l (by simp at hl ⊢; tauto)

variable {inner : List Nat}

section

variable {k k1 k2 k3 : Nat} {known : Set Nat} {c1 c2 c3 : List Instr}

theorem Safe.ifElse (hc : Safe (k :: (k + 1) :: exits) (k + 3) k1 known c1 known)
    (ha : Safe exits k1 k2 known c2 known) (hb : Safe exits k2 k3 known c3 known) :
    Safe exits k k3 known (c1 ++ labelAt k :: c2 ++ jumpTo (k + 2) :: labelAt (k + 1) :: c3 ++
      [labelAt (k + 2)]) known := by
  refine ((((Marked.const known (Nat.le_add_right k 3)).both hc).both ha).both hb).imp ?_
  rintro marks ⟨⟨⟨hmarks,h1⟩,h2⟩,h3⟩ hexits
  have hyes : marks k = known := hmarks k (by omega) (by omega)
  have hno : marks (k + 1) = known := hmarks (k + 1) (by omega) (by omega)
  have hend : marks (k + 2) = known := hmarks (k + 2) (by omega) (by omega)
  have hcond := h1 (forall_mem_cons.2 ⟨hyes.subset,forall_mem_cons.2 ⟨hno.subset,hexits⟩⟩)
  have hthen : Assigned marks known (labelAt k :: c2) known :=
    .label_cons hyes.subset (hyes ▸ h2 hexits)
  have helse : Assigned marks known (labelAt (k + 1) :: c3) known :=
    .label_cons hno.subset (hno ▸ h3 hexits)
  have hlast : Assigned marks known [labelAt (k + 2)] known :=
    .label_cons hend.subset (.nil hend.superset)
  exact ((hcond.append hthen).append (.jump_cons hend.subset helse)).append hlast

theorem Safe.loop (hc : Safe ((k + 1) :: (k + 2) :: inner) (k + 3) k1 known c1 known)
    (hb : Safe inner k1 k2 known c2 known) (hinner : ∀ l ∈ inner, l = k ∨ l = k + 2 ∨ l ∈ exits) :
    Safe exits k k2 known (labelAt k :: c1 ++ labelAt (k + 1) :: c2 ++
      [jumpTo k,labelAt (k + 2)]) known := by
  refine (((Marked.const known (Nat.le_add_right k 3)).both hc).both hb).imp ?_
  rintro marks ⟨⟨hmarks,h1⟩,h2⟩ hexits
  have hhead : marks k = known := hmarks k (by omega) (by omega)
  have hbody : marks (k + 1) = known := hmarks (k + 1) (by omega) (by omega)
  have hdone : marks (k + 2) = known := hmarks (k + 2) (by omega) (by omega)
  have hinside : ∀ l ∈ inner, marks l ⊆ known := by
    intro l hl
    obtain rfl | rfl | hl := hinner l hl
    · exact hhead.subset
    · exact hdone.subset
    · exact hexits l hl
  have hcond : Assigned marks known (labelAt k :: c1) known := .label_cons hhead.subset (hhead ▸
    h1 (forall_mem_cons.2 ⟨hbody.subset,forall_mem_cons.2 ⟨hdone.subset,hinside⟩⟩))
  have hstatements : Assigned marks known (labelAt (k + 1) :: c2) known :=
    .label_cons hbody.subset (hbody ▸ h2 hinside)
  have hlast : Assigned marks known [jumpTo k,labelAt (k + 2)] known :=
    .jump_cons hhead.subset (.label_cons hdone.subset (.nil hdone.superset))
  exact (hcond.append hstatements).append hlast

theorem Safe.tryExcept {c : Counters} (hb : Safe (k :: σ.exits) (k + 2) k1 known c1 known)
    (hc : Safe ((k + 1) :: σ.exits) k1 k2 known c2 known) :
    Safe σ.exits k k2 known
      (c1 ++ jumpTo (k + 1) :: labelAt k :: c2 ++ passPending σ c.register (k + 1)) known := by
  refine (((Marked.const known (Nat.le_add_right k 2)).both hb).both hc).imp ?_
  rintro marks ⟨⟨hmarks,h1⟩,h2⟩ hexits
  have hhandler : marks k = known := hmarks k (by omega) (by omega)
  have hdone : marks (k + 1) = known := hmarks (k + 1) (by omega) (by omega)
  have hbody := h1 (forall_mem_cons.2 ⟨hhandler.subset,hexits⟩)
  have hcatches : Assigned marks known (labelAt k :: c2) known := .label_cons hhandler.subset
    (hhandler ▸ h2 (forall_mem_cons.2 ⟨hdone.subset,hexits⟩))
  have hlast := Assigned.passPending (k := c) hexits (hdone.subset.trans Set.subset_union_left)
  rw [hdone] at hlast
  exact (hbody.append (.jump_cons hdone.subset hcatches)).append hlast

theorem Safe.catchClause {done name c} (hb : Safe exits (c.labels + 1) k1 known c2 known)
    (hr : Safe (done :: exits) k1 k2 known c3 known) :
    Safe (done :: exits) c.labels k2 known
      (catchTest name c ++ c2 ++ jumpTo done :: labelAt c.labels :: c3) known := by
  refine (((Marked.const known (Nat.le_succ c.labels)).both hb).both hr).imp ?_
  rintro marks ⟨⟨hmarks,h2⟩,h3⟩ hexits
  have hother : marks c.labels = known := hmarks c.labels (Nat.le_refl _) (Nat.lt_succ_self _)
  obtain ⟨hdone,hothers⟩ := forall_mem_cons.1 hexits
  have htest : Assigned marks known (catchTest name c) known :=
    .const_cons (.compare_cons (isKnown_register (.inr rfl)) (isKnown_pending _)
      (.branch_cons (by decide) (hother.subset.trans Set.subset_union_left)
        (.const_cons (.copy_cons (isKnown_register (.inr rfl))
          (.nil (Set.subset_union_left.trans Set.subset_union_left))))))
  have hrest : Assigned marks known (labelAt c.labels :: c3) known :=
    .label_cons hother.subset (hother ▸ h3 hexits)
  exact (htest.append (h2 hothers)).append (.jump_cons hdone hrest)

end

theorem isExpr_of_isStatement_return (h : (Node.return' line value).isStatement = true)
    (habsent : value ≠ .absent) :
    value.isExpr = true := by
  unfold Node.isStatement at h
  split at h
  all_goals simp_all

theorem Safe.visible (h : Safe exits first past known code known)
    (hscopes : visibleSet scopes ⊆ known) :
    Safe exits first past known code (known ∪ visibleSet scopes) :=
  h.weaken (Set.union_subset subset_rfl hscopes)

theorem Safe.exit (hl : l ∈ exits) : Safe exits first first known [jumpTo l] known :=
  .of_assigned fun _ hexits => .jump_cons (hexits l hl) (.nil subset_rfl)

mutual

theorem StatementEmits.safe {σ n k k' c scopes vars known} :
    StatementEmits σ n k c scopes vars k' → n.isStatement = true →
      visibleSet σ.scopes ⊆ known →
        Safe σ.exits k.labels k'.labels known c (known ∪ visibleSet scopes)
  | .varDecl _ _ h, hn, hσ => by
    simp only [Node.isStatement,Bool.and_eq_true] at hn
    exact h.safe (isExpr_of_areInitializers hn.1) hσ
  | .assign _ x h, hn, hσ => by
    simp only [Node.isStatement,Bool.and_eq_true] at hn
    obtain ⟨hcode,hv⟩ := h.straight (fun m hm => hσ hm) hn.2
    exact (hcode.safe.append Set.subset_union_left (.of_assigned fun _ _ =>
      .copy_cons hv (.nil Set.subset_union_left))).visible hσ
  | .eval _ h, hn, hσ => by
    simp only [Node.isStatement] at hn
    obtain ⟨hcode,-⟩ := h.straight (fun m hm => hσ hm) hn
    exact (hcode.safe.weaken Set.subset_union_left).visible hσ
  | .block _ h, hn, hσ => by
    simp only [Node.isStatement] at hn
    have hbody := h.safe hn hσ
    exact (hbody.weaken Set.subset_union_left).visible hσ
  | .ifElse _ hc ha hb, hn, hσ => by
    simp only [Node.isStatement,Bool.and_eq_true] at hn
    have hsa := ha.scopes_eq hn.1.2.2 (Node.isBranch_of_isBlock hn.1.2.1)
    have hsb := hb.scopes_eq hn.2.2 hn.2.1
    subst hsb hsa
    have hthen := (ha.safe hn.1.2.2 hσ).weaken Set.subset_union_left
    have helse := (hb.safe hn.2.2 hσ).weaken Set.subset_union_left
    exact (Safe.ifElse (hc.safe hn.1.1 hσ) hthen helse).visible hσ
  | .loop _ hc hb, hn, hσ => by
    simp only [Node.isStatement,Bool.and_eq_true] at hn
    have hscopes := hb.scopes_eq hn.2.2 (Node.isBranch_of_isBlock hn.2.1)
    subst hscopes
    have hbody := (hb.safe hn.2.2 hσ).weaken Set.subset_union_left
    exact (Safe.loop (hc.safe hn.1 hσ) hbody fun l => (mem_exits_inLoop σ _ _ l).1).visible hσ
  | .break _ k hloops, _, hσ | .continue _ k hloops, _, hσ =>
    (Safe.exit (by simp [Surroundings.exits,hloops])).visible hσ
  | .noJump .., _, hσ | .other .., _, hσ => .of_assigned fun _ _ => .nil (Set.union_subset subset_rfl hσ)
  | .bareReturn .., _, hσ => .of_assigned fun _ _ =>
    .ret_cons (reads_of_isKnown rfl (by simp)) (.nil (Set.union_subset subset_rfl hσ))
  | .return _ habsent h, hn, hσ => by
    have hvalue := isExpr_of_isStatement_return hn habsent
    obtain ⟨hcode,hv⟩ := h.straight (fun m hm => hσ hm) hvalue
    exact (hcode.safe.append Set.subset_union_left (.of_assigned fun _ _ =>
      .return_cons hv (.nil Set.subset_union_left))).visible hσ
  | .tryExcept _ hb hc, hn, hσ => by
    simp only [Node.isStatement,Bool.and_eq_true] at hn
    have hsb := hb.scopes_eq hn.1.2 (Node.isBranch_of_isBlock hn.1.1)
    subst hsb
    have hsc := hc.scopes_eq hn.2
    subst hsc
    have hbody := (hb.safe hn.1.2 hσ).weaken Set.subset_union_left
    have hcatches := hc.safe hn.2 hσ
    exact (Safe.tryExcept hbody hcatches).visible hσ
  | .raise _ name k, _, hσ => Safe.visible (.of_assigned fun marks hexits => by
    refine .const_cons (.copy_cons (isKnown_register (.inr rfl)) (.leave_cons (fun l hl => ?_)
      (isKnown_register (.inr rfl)) (.nil Set.subset_union_left)))
    exact (hexits l hl).trans Set.subset_union_left) hσ

theorem StatementsEmit.safe {σ ns k k' c scopes vars known} :
    StatementsEmit σ ns k c scopes vars k' → Node.areStatements ns = true →
      visibleSet σ.scopes ⊆ known →
        Safe σ.exits k.labels k'.labels known c (known ∪ visibleSet scopes)
  | .nil _ k, _, hσ => .of_assigned fun _ _ => .nil (Set.union_subset subset_rfl hσ)
  | .cons hn hrest, hns, hσ => by
    simp only [Node.areStatements,Bool.and_eq_true] at hns
    have hall := (hn.safe hns.1 hσ).append Set.subset_union_left
      (hrest.safe hns.2 Set.subset_union_right)
    exact hall.weaken (Set.union_subset_union_left _ Set.subset_union_left)

theorem CatchesEmit.safe {σ done ns k k' c scopes vars known} :
    CatchesEmit σ done ns k c scopes vars k' → Node.areCatches ns = true →
      visibleSet σ.scopes ⊆ known → Safe (done :: σ.exits) k.labels k'.labels known c known
  | .nil _ _ k, _, hσ => .of_assigned fun _ _ => .nil subset_rfl
  | .cons _ name hb hr, hns, hσ => by
    simp only [Node.areCatches,Bool.and_eq_true] at hns
    have hsb := hb.scopes_eq hns.1.2.2 (Node.isBranch_of_isBlock hns.1.2.1)
    subst hsb
    have hbody := (hb.safe hns.1.2.2 hσ).weaken Set.subset_union_left
    exact .catchClause hbody (hr.safe hns.2 hσ)

end

end BxToolchain.Bx
