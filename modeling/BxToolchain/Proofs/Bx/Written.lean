import BxToolchain.Proofs.Bx.Emitted
import BxToolchain.Proofs.Numeral

namespace BxToolchain.Bx

open Lower List

variable {σ : Surroundings} {x : String} {n past : Nat} {scopes : List (Table String String)}
  {c : List Instr} {i : Instr} {inits : List Node} {k k' : Counters} {vars : List Nat}

def isRegister (n : Nat) : Datum → Bool
  | .str r => r == register n
  | _ => false

namespace Instr

def reads (i : Instr) (n : Nat) : Bool :=
  match i.args with
  | .list xs => xs.any (isRegister n)
  | _ => false

def writes (i : Instr) (n : Nat) : Bool := isRegister n i.result

end Instr

def writers (n : Nat) (code : List Instr) : Nat := code.countP (·.writes n)

theorem register_ne_at (n : Nat) (x : String) : "@" ++ x ≠ register n := by
  intro h
  have hl := congrArg String.toList h
  simp [register,String.toList_append] at hl

@[simp]
theorem isRegister_register (n m : Nat) : isRegister n (.str (register m)) = decide (m = n) := by
  rw [isRegister,Bool.eq_iff_iff,beq_iff_eq,decide_eq_true_iff]
  exact ⟨register_injective,congrArg register⟩

@[simp]
theorem isRegister_at (n : Nat) (x : String) : isRegister n (.str ("@" ++ x)) = false :=
  beq_eq_false_iff_ne.2 (register_ne_at n x)

@[simp]
theorem isRegister_pending (n : Nat) : isRegister n pending = false := isRegister_at n "exception"

@[simp]
theorem isRegister_counters (n : Nat) (k : Counters) :
    isRegister n k.register = decide (k.temps = n) := isRegister_register n k.temps

@[simp]
theorem writers_nil (n : Nat) : writers n [] = 0 := rfl

@[simp]
theorem writers_append (n : Nat) (c1 c2 : List Instr) :
    writers n (c1 ++ c2) = writers n c1 + writers n c2 := countP_append

@[simp]
theorem writers_cons (n : Nat) (i : Instr) (code : List Instr) :
    writers n (i :: code) = writers n code + if i.writes n then 1 else 0 := countP_cons

@[simp]
theorem writes_make (n : Nat) (op : String) (args : List Datum) (r : Datum) :
    (Instr.make op args r).writes n = isRegister n r := rfl

@[simp]
theorem writes_act (n : Nat) (op : String) (args : List Datum) :
    (Instr.act op args).writes n = false := rfl

@[simp]
theorem writes_labelAt (n l : Nat) : (labelAt l).writes n = false := rfl

@[simp]
theorem writes_jumpTo (n l : Nat) : (jumpTo l).writes n = false := rfl

@[simp]
theorem writes_branchTo (n : Nat) (jump : String) (l : Nat) : (branchTo jump l).writes n = false := rfl

@[simp]
theorem writes_leave (n : Nat) (σ : Surroundings) (filler : Datum) :
    (σ.leave filler).writes n = false := by
  unfold Surroundings.leave
  split
  · rfl
  · split <;> rfl

theorem leave_not_const (σ : Surroundings) (filler : Datum) :
    (σ.leave filler).hasOpcode "const" = false := by
  unfold Surroundings.leave
  split
  · rfl
  · split <;> rfl

theorem branchTo_not_const (h : comparisonJump? op = some jump) (l : Nat) :
    (branchTo jump l).hasOpcode "const" = false := by
  unfold comparisonJump? at h
  split at h <;> cases h <;> rfl

def Visible (scopes : List (Table String String)) (n : Nat) : Prop :=
  ∃ x, lookupRegister x scopes = some (register n)

theorem visible_of_isRegister_registerOf (h : isRegister n (σ.registerOf x) = true) :
    Visible σ.scopes n := by
  unfold Surroundings.registerOf at h
  split at h
  · rename_i r hr
    exact ⟨x,by rw [hr,beq_iff_eq.1 h]⟩
  · cases h

theorem Visible.of_bindIn (h : Visible (bindIn x r scopes) n) :
    Visible scopes n ∨ r = register n := by
  obtain ⟨y,hy⟩ := h
  cases scopes with
  | nil => exact .inl ⟨y,hy⟩
  | cons t rest =>
    by_cases hyx : y = x
    · obtain rfl := hyx
      rw [lookupRegister_bindIn_self (cons_ne_nil t rest)] at hy
      exact .inr (Option.some.inj hy)
    · refine .inl ⟨y,?_⟩
      rw [← hy]
      simp only [bindIn,lookupRegister,Table.get?_insert_of_ne _ _ hyx]

theorem Visible.of_bindIn_register (h : Visible (bindIn x (register m) scopes) n) :
    Visible scopes n ∨ n = m :=
  h.of_bindIn.imp_right fun h => (register_injective h).symm

structure WritesOnce (first past : Nat) (code : List Instr) : Prop where
  le : first ≤ past
  count : ∀ n, writers n code = if first ≤ n ∧ n < past then 1 else 0
  consts : ∀ i ∈ code, i.hasOpcode "const" = true → ∃ n, i.writes n = true

namespace WritesOnce

theorem nil (n : Nat) : WritesOnce n n [] := by
  refine ⟨Nat.le_refl n,fun m => ?_,nofun⟩
  rw [if_neg (by omega)]
  rfl

theorem append (h1 : WritesOnce first middle c1) (h2 : WritesOnce middle past c2) :
    WritesOnce first past (c1 ++ c2) := by
  have hle1 := h1.le
  have hle2 := h2.le
  refine ⟨by omega,fun n => ?_,forall_mem_append.2 ⟨h1.consts,h2.consts⟩⟩
  rw [writers_append,h1.count,h2.count]
  split_ifs <;> omega

theorem silent_cons (hi : ∀ n, i.writes n = false) (h : WritesOnce first past code)
    (hconst : i.hasOpcode "const" = false := by rfl) : WritesOnce first past (i :: code) := by
  refine ⟨h.le,fun n => ?_,forall_mem_cons.2 ⟨by simp [hconst],h.consts⟩⟩
  rw [writers_cons,hi,h.count]
  rfl

theorem register_cons (hi : ∀ n, i.writes n = decide (first = n))
    (h : WritesOnce (first + 1) past code) : WritesOnce first past (i :: code) := by
  have hle := h.le
  refine ⟨by omega,fun n => ?_,forall_mem_cons.2 ⟨fun _ => ⟨first,by simp [hi]⟩,h.consts⟩⟩
  rw [writers_cons,hi,h.count]
  simp only [decide_eq_true_eq]
  split_ifs <;> omega

end WritesOnce

theorem writesOnce_passPending (σ : Surroundings) (k : Counters) (next : Nat) :
    WritesOnce k.temps (k.temps + 1) (passPending σ k.register next) :=
  .register_cons (by simp) (.silent_cons (by simp) (.silent_cons (by simp)
    (.silent_cons (by simp) (.silent_cons (by simp) (.nil _)) (leave_not_const σ _))))

mutual

theorem ExprEmits.writesOnce {σ n k k' v c} : ExprEmits σ n k v c k' → WritesOnce k.temps k'.temps c
  | .var _ _ _ k | .other k _ => .nil k.temps
  | .number _ _ _ k | .boolean _ _ _ k => .register_cons (by simp) (.nil _)
  | .binary _ _ _ ha hb =>
    (ha.writesOnce.append hb.writesOnce).append
      (.register_cons (by simp [Instr.writes]) (.nil _))
  | .unary _ _ _ ha =>
    ha.writesOnce.append (.register_cons (by simp [Instr.writes]) (.nil _))
  | .function _ _ hargs _ =>
    hargs.writesOnce.append (.register_cons (by simp) (writesOnce_passPending σ (Counters.addTemp _) _))
  | .subroutine _ _ hargs _ =>
    hargs.writesOnce.append (.silent_cons (by simp) (writesOnce_passPending σ _ _))

theorem ArgsEmit.writesOnce {σ count index args k k' c} :
    ArgsEmit σ count index args k c k' → WritesOnce k.temps k'.temps c
  | .nil _ _ k => .nil k.temps
  | .cons harg hrest => harg.writesOnce.append (.silent_cons (by simp) hrest.writesOnce)

end

theorem CondEmits.writesOnce {n yes no} (h : CondEmits σ n yes no k c k') :
    WritesOnce k.temps k'.temps c := by
  induction h with
  | isTrue | isFalse => exact .silent_cons (by simp) (.nil _)
  | var =>
    exact .register_cons (by simp) (.silent_cons (by simp) (.silent_cons (by simp)
      (.silent_cons (by simp) (.nil _))))
  | comparison line type yes no hjump ha hb =>
    exact (ha.writesOnce.append hb.writesOnce).append (.silent_cons (by simp)
      (.silent_cons (by simp) (.silent_cons (by simp) (.nil _)) (branchTo_not_const hjump _)))
  | and line type ha hb iha ihb | or line type ha hb iha ihb =>
    exact iha.append (.silent_cons (by simp) ihb)
  | not line type ha ih => exact ih
  | other yes no k => exact .nil k.temps

structure Allots (old : Nat → Prop) (vars : List Nat) (first past : Nat) (code : List Instr) :
    Prop where
  le : first ≤ past
  range : ∀ n ∈ vars, first ≤ n ∧ n < past
  nodup : vars.Nodup
  count : ∀ n, n ∉ vars → ¬old n → writers n code = if first ≤ n ∧ n < past then 1 else 0
  consts : ∀ i ∈ code, i.hasOpcode "const" = true →
    ∃ n, i.writes n = true ∧ n ∉ vars ∧ first ≤ n ∧ n < past

namespace Allots

variable {old : Nat → Prop} {first past : Nat}

theorem of_writesOnce (h : WritesOnce first past code) : Allots old [] first past code := by
  refine ⟨h.le,by simp,.nil,fun n _ _ => h.count n,fun i hi hconst => ?_⟩
  obtain ⟨n,hn⟩ := h.consts i hi hconst
  have hpos : 0 < writers n code := countP_pos_iff.2 ⟨i,hi,hn⟩
  rw [h.count] at hpos
  exact ⟨n,hn,by simp,by_contra fun hrange => by simp [hrange] at hpos⟩

theorem nil (n : Nat) : Allots old [] n n [] := of_writesOnce (.nil n)

theorem append (h1 : Allots old vars first middle c1) (h2 : Allots old' vars' middle past c2)
    (hold : ∀ n, old' n → old n ∨ n ∈ vars) :
    Allots old (vars ++ vars') first past (c1 ++ c2) := by
  have hle1 := h1.le
  have hle2 := h2.le
  refine ⟨by omega,?_,?_,?_,?_⟩
  · intro n hn
    obtain hn | hn := mem_append.1 hn
    · have := h1.range n hn
      omega
    · have := h2.range n hn
      omega
  · refine h1.nodup.append h2.nodup fun n hn hn' => ?_
    have := h1.range n hn
    have := h2.range n hn'
    omega
  · intro n hn hnold
    obtain ⟨hn1,hn2⟩ := not_or.1 (mt mem_append.2 hn)
    have hnold' : ¬old' n := fun h => (hold n h).elim hnold hn1
    rw [writers_append,h1.count n hn1 hnold,h2.count n hn2 hnold']
    split_ifs <;> omega
  · refine forall_mem_append.2 ⟨fun i hi hconst => ?_,fun i hi hconst => ?_⟩
    · obtain ⟨n,hn,hvars,hrange⟩ := h1.consts i hi hconst
      refine ⟨n,hn,fun h => ?_,by omega⟩
      have := h2.range n ((mem_append.1 h).resolve_left hvars)
      omega
    · obtain ⟨n,hn,hvars,hrange⟩ := h2.consts i hi hconst
      refine ⟨n,hn,fun h => ?_,by omega⟩
      have := h1.range n ((mem_append.1 h).resolve_right hvars)
      omega

theorem prepend (h1 : WritesOnce first middle c1) (h2 : Allots old vars middle past c2) :
    Allots old vars first past (c1 ++ c2) :=
  (of_writesOnce h1).append h2 fun _ hold => .inl hold

theorem extend (h1 : Allots old vars first middle c1) (h2 : WritesOnce middle past c2) :
    Allots old vars first past (c1 ++ c2) := by
  have h2 : Allots old [] middle past c2 := of_writesOnce h2
  have h := h1.append h2 fun _ hold => .inl hold
  rwa [append_nil] at h

theorem silent_cons (hi : ∀ n, i.writes n = true → old n ∨ n ∈ vars)
    (h : Allots old vars first past code) (hconst : i.hasOpcode "const" = false := by rfl) :
    Allots old vars first past (i :: code) := by
  refine ⟨h.le,h.range,h.nodup,fun n hn hnold => ?_,forall_mem_cons.2 ⟨by simp [hconst],h.consts⟩⟩
  have hwrites : i.writes n = false := by
    rw [Bool.eq_false_iff]
    exact fun hw => (hi n hw).elim hnold hn
  rw [writers_cons,hwrites,h.count n hn hnold]
  rfl

theorem variable_cons (hi : ∀ n, i.writes n = decide (first = n))
    (h : Allots old' vars (first + 1) past code) (hold : ∀ n, old' n → old n ∨ n = first)
    (hconst : i.hasOpcode "const" = false := by rfl) :
    Allots old (first :: vars) first past (i :: code) := by
  have hle := h.le
  refine ⟨by omega,?_,?_,?_,forall_mem_cons.2 ⟨by simp [hconst],fun j hj hconst => ?_⟩⟩
  · intro n hn
    obtain rfl | hn := mem_cons.1 hn
    · omega
    · have := h.range n hn
      omega
  · refine nodup_cons.2 ⟨fun hn => ?_,h.nodup⟩
    have := h.range first hn
    omega
  · intro n hn hnold
    obtain ⟨hne,hn⟩ := not_or.1 (mt mem_cons.2 hn)
    rw [writers_cons,hi,h.count n hn fun h => (hold n h).elim hnold hne]
    simp only [decide_eq_true_eq]
    split_ifs <;> omega
  · obtain ⟨n,hn,hvars,hrange⟩ := h.consts j hj hconst
    exact ⟨n,hn,by grind,by omega⟩

end Allots

theorem InitsEmit.visible (h : InitsEmit σ inits k c scopes vars k') (hn : Visible scopes n) :
    Visible σ.scopes n ∨ n ∈ vars := by
  induction h with
  | nil => exact .inl hn
  | cons line hvalue hrest ih =>
    obtain h | h := ih hn
    · obtain h | rfl := h.of_bindIn_register
      · exact .inl h
      · exact .inr mem_cons_self
    · exact .inr (mem_cons_of_mem _ h)

theorem InitsEmit.allots (h : InitsEmit σ inits k c scopes vars k') :
    Allots (Visible σ.scopes) vars k.temps k'.temps c := by
  induction h with
  | nil σ k => exact .nil k.temps
  | cons line hvalue hrest ih =>
    exact .prepend hvalue.writesOnce (.variable_cons (by simp) ih fun n hn => hn.of_bindIn_register)

mutual

theorem StatementEmits.visible {σ n k k' c scopes vars m} :
    StatementEmits σ n k c scopes vars k' → Visible scopes m → Visible σ.scopes m ∨ m ∈ vars
  | .varDecl _ _ h, hm => h.visible hm
  | .assign .., hm | .eval .., hm | .block .., hm | .break .., hm | .continue .., hm
  | .noJump .., hm | .bareReturn .., hm | .return .., hm | .raise .., hm | .other .., hm => .inl hm
  | .ifElse _ _ ha hb, hm => by
    have h := (hb.visible hm).imp_left ha.visible
    rw [mem_append]
    tauto
  | .loop _ _ hb, hm => hb.visible hm
  | .tryExcept _ hb hc, hm => by
    have h := (hc.visible hm).imp_left hb.visible
    rw [mem_append]
    tauto

theorem CatchesEmit.visible {σ done ns k k' c scopes vars m} :
    CatchesEmit σ done ns k c scopes vars k' → Visible scopes m → Visible σ.scopes m ∨ m ∈ vars
  | .nil .., hm => .inl hm
  | .cons _ _ hb hr, hm => by
    have h := (hr.visible hm).imp_left hb.visible
    rw [mem_append]
    tauto

end

theorem writesOnce_catchTest (name : String) (k : Counters) :
    WritesOnce k.temps (k.temps + 2) (catchTest name k) :=
  .register_cons (by simp) (.silent_cons (by simp) (.silent_cons (by simp)
    (.register_cons (by simp [Counters.addTemp]) (.silent_cons (by simp) (.nil _)))))

theorem Allots.label_cons (l : Nat) (h : Allots old vars first past code) :
    Allots old vars first past (labelAt l :: code) := .silent_cons (by simp) h

theorem Allots.jump_cons (l : Nat) (h : Allots old vars first past code) :
    Allots old vars first past (jumpTo l :: code) := .silent_cons (by simp) h

mutual

theorem StatementEmits.allots {σ n k k' c scopes vars} :
    StatementEmits σ n k c scopes vars k' →
      Allots (Visible σ.scopes) vars k.temps k'.temps c
  | .varDecl _ _ h => h.allots
  | .assign _ x h =>
    .prepend h.writesOnce (.silent_cons
      (fun _ hm => .inl (visible_of_isRegister_registerOf hm)) (.nil _))
  | .eval _ h => .of_writesOnce h.writesOnce
  | .block _ h => h.allots
  | .ifElse _ hc ha hb =>
    ((Allots.prepend hc.writesOnce (ha.allots.label_cons _)).append
      ((hb.allots.label_cons _).jump_cons _) fun _ => ha.visible).extend
        (.silent_cons (by simp) (.nil _))
  | .loop _ hc hb =>
    (Allots.prepend (.silent_cons (by simp) hc.writesOnce)
      (hb.allots.label_cons _)).extend
        (.silent_cons (by simp) (.silent_cons (by simp) (.nil _)))
  | .break .. | .continue .. => .jump_cons _ (.nil _)
  | .noJump .. | .other .. => .nil _
  | .bareReturn .. => .silent_cons (by simp) (.nil _)
  | .return _ _ h => .prepend h.writesOnce (.silent_cons (by simp) (.nil _))
  | .tryExcept _ hb hc =>
    (hb.allots.append ((hc.allots.label_cons _).jump_cons _) fun _ => hb.visible).extend
      (writesOnce_passPending σ _ _)
  | .raise .. => .of_writesOnce (.register_cons (by simp) (.silent_cons (by simp)
      (.silent_cons (by simp) (.nil _) (leave_not_const σ _))))

theorem StatementsEmit.allots {σ ns k k' c scopes vars} :
    StatementsEmit σ ns k c scopes vars k' →
      Allots (Visible σ.scopes) vars k.temps k'.temps c
  | .nil _ k => .nil k.temps
  | .cons hn hrest => hn.allots.append hrest.allots fun _ => hn.visible

theorem CatchesEmit.allots {σ done ns k k' c scopes vars} :
    CatchesEmit σ done ns k c scopes vars k' →
      Allots (Visible σ.scopes) vars k.temps k'.temps c
  | .nil _ _ k => .nil k.temps
  | .cons _ name hb hr =>
    (Allots.prepend (writesOnce_catchTest name _) hb.allots).append
      ((hr.allots.label_cons _).jump_cons _) fun _ => hb.visible

end

end BxToolchain.Bx
