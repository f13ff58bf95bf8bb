import BxToolchain.Proofs.Bx.Fragment
import BxToolchain.Proofs.Numeral
import BxToolchain.Proofs.Table

namespace BxToolchain.Bx

open Lower (register lookupRegister)
open List

variable {limit : Nat} {r : String} {scopes : List (Table String String)} {σ : Store} {env : Scopes}
  {level : List String} {t : Table String String}

def Old (limit : Nat) (r : String) : Prop := ∀ k, limit ≤ k → r ≠ register k

theorem Old.mono (h : Old m r) (hmn : m ≤ n) : Old n r :=
  fun k hk => h k (Nat.le_trans hmn hk)

theorem old_register (n : Nat) : Old (n + 1) (register n) := by
  intro k hk h
  have := Lower.register_injective h
  omega

theorem Old.ne_register (h : Old n r) : r ≠ register n := h n (Nat.le_refl n)

def registers : Declared → List (Table String String) → List String
  | level :: names, t :: scopes => level.filterMap t.get? ++ registers names scopes
  | _, _ => []

def Allocated (limit : Nat) : Declared → List (Table String String) → Prop
  | [], _ => True
  | _ :: _, [] => False
  | level :: names, t :: scopes =>
    (∀ x ∈ level, ∃ r, t.get? x = some r ∧ Old limit r ∧ r ∉ registers names scopes) ∧
    (∀ x ∈ level, ∀ y ∈ level, t.get? x = t.get? y → x = y) ∧
    (names ≠ [] → ∀ x r, t.get? x = some r → x ∈ level) ∧
    Allocated limit names scopes

def Holds (σ : Store) : Scopes → Declared → List (Table String String) → Prop
  | [], [], _ => True
  | e :: env, level :: names, t :: scopes =>
    (∀ x ∈ level, ∃ v r, e.get? x = some v ∧ t.get? x = some r ∧ σ r = some v) ∧
    (∀ x v, e.get? x = some v → x ∈ level) ∧
    Holds σ env names scopes
  | _, _, _ => False

variable {names : Declared}

theorem Allocated.mono (hmn : m ≤ n) (h : Allocated m names scopes) : Allocated n names scopes := by
  induction names generalizing scopes with
  | nil => trivial
  | cons level names ih =>
    cases scopes with
    | nil => exact h.elim
    | cons t scopes =>
      obtain ⟨hr,hinj,hexact,hrest⟩ := h
      refine ⟨?_,hinj,hexact,ih hrest⟩
      intro x hx
      obtain ⟨r,hget,hold,hnot⟩ := hr x hx
      exact ⟨r,hget,hold.mono hmn,hnot⟩

theorem Allocated.own (h : Allocated limit (level :: names) (t :: scopes)) (hx : x ∈ level)
    (ht : t.get? x = some r) : Old limit r ∧ r ∉ registers names scopes := by
  obtain ⟨r',ht',hr⟩ := h.1 x hx
  cases ht.symm.trans ht'
  exact hr

theorem Allocated.old (h : Allocated limit names scopes) (hr : r ∈ registers names scopes) :
    Old limit r := by
  induction names generalizing scopes with
  | nil => simp [registers] at hr
  | cons level names ih =>
    cases scopes with
    | nil => exact h.elim
    | cons t scopes =>
      rw [registers,mem_append,mem_filterMap] at hr
      rcases hr with ⟨x,hx,hget⟩ | hr
      · exact (h.own hx hget).1
      · exact ih h.2.2.2 hr

variable {x : String}

theorem Allocated.outer (h : Allocated limit (level :: names) (t :: scopes))
    (hx : x ∈ (level :: names).flatten) (hmem : x ∉ level) :
    x ∈ names.flatten ∧ t.get? x = none := by
  have hx' : x ∈ names.flatten := by simpa [hmem] using hx
  refine ⟨hx',Option.eq_none_iff_forall_ne_some.2 fun r ht => hmem (h.2.2.1 ?_ x r ht)⟩
  rintro rfl
  simp at hx'

theorem Allocated.lookup (h : Allocated limit names scopes) (hx : x ∈ names.flatten) :
    ∃ r, lookupRegister x scopes = some r ∧ Old limit r := by
  induction names generalizing scopes with
  | nil => simp at hx
  | cons level names ih =>
    cases scopes with
    | nil => exact h.elim
    | cons t scopes =>
      by_cases hmem : x ∈ level
      · obtain ⟨r,ht,hold,-⟩ := h.1 x hmem
        exact ⟨r,by simp [lookupRegister,ht],hold⟩
      · obtain ⟨hx',ht⟩ := h.outer hx hmem
        obtain ⟨r,hreg,hold⟩ := ih h.2.2.2 hx'
        exact ⟨r,by simp [lookupRegister,ht,hreg],hold⟩

section

variable (h : Holds σ env names scopes)
include h

theorem Holds.congr (hσ : ∀ r ∈ registers names scopes, σ' r = σ r) :
    Holds σ' env names scopes := by
  induction env generalizing names scopes with
  | nil =>
    cases names with
    | nil => trivial
    | cons => exact h.elim
  | cons e env ih =>
    match names, scopes, h with
    | level :: names, t :: scopes, ⟨hlevel,hexact,hrest⟩ =>
      refine ⟨?_,hexact,ih hrest fun r hr => hσ r (by simp [registers,hr])⟩
      intro x hx
      obtain ⟨v,r,he,ht,hv⟩ := hlevel x hx
      refine ⟨v,r,he,ht,?_⟩
      rw [hσ r,hv]
      simp only [registers,mem_append,mem_filterMap]
      exact Or.inl ⟨x,hx,ht⟩

theorem Holds.frame (ha : Allocated limit names scopes) (hσ : ∀ r, Old limit r → σ' r = σ r) :
    Holds σ' env names scopes :=
  h.congr fun _ hr => hσ _ (ha.old hr)

theorem Holds.lookup (ha : Allocated limit names scopes) (hx : x ∈ names.flatten)
    (hreg : lookupRegister x scopes = some r) : ∃ v, env.lookup x = some v ∧ σ r = some v := by
  induction env generalizing names scopes with
  | nil =>
    cases names with
    | nil => simp at hx
    | cons => exact h.elim
  | cons e env ih =>
    match names, scopes, h with
    | level :: names, t :: scopes, ⟨hlevel,hexact,hrest⟩ =>
      by_cases hmem : x ∈ level
      · obtain ⟨v,r',he,ht,hv⟩ := hlevel x hmem
        simp only [lookupRegister,ht,Option.some.injEq] at hreg
        exact ⟨v,by simp [Scopes.lookup,he],hreg ▸ hv⟩
      · obtain ⟨hx',ht⟩ := ha.outer hx hmem
        have he : e.get? x = none := Option.eq_none_iff_forall_ne_some.2
          fun v he => hmem (hexact x v he)
        simp only [lookupRegister,ht] at hreg
        obtain ⟨v,hv,hσ⟩ := ih hrest ha.2.2.2 hx' hreg
        exact ⟨v,by simp [Scopes.lookup,he,hv],hσ⟩

theorem Holds.assign (ha : Allocated limit names scopes) (hx : x ∈ names.flatten) (v : Word) :
    ∃ r env', lookupRegister x scopes = some r ∧ r ∈ registers names scopes ∧
      env.assign x v = some env' ∧ Holds (σ.set r v) env' names scopes := by
  induction env generalizing names scopes with
  | nil =>
    cases names with
    | nil => simp at hx
    | cons => exact h.elim
  | cons e env ih =>
    match names, scopes, h with
    | level :: names, t :: scopes, ⟨hlevel,hexact,hrest⟩ =>
      have ⟨_,hinj,_,hscopes⟩ := ha
      by_cases hmem : x ∈ level
      · obtain ⟨u,r,he,ht,-⟩ := hlevel x hmem
        refine ⟨r,e.insert x v :: env,by simp [lookupRegister,ht],?_,?_,?_,?_,?_⟩
        · simp only [registers,mem_append,mem_filterMap]
          exact Or.inl ⟨x,hmem,ht⟩
        · simp [Scopes.assign,Table.contains,he]
        · intro y hy
          by_cases hyx : y = x
          · subst hyx
            exact ⟨v,r,by simp,ht,by simp [Store.set]⟩
          · obtain ⟨w,q,hw,hq,hσ⟩ := hlevel y hy
            have hne : q ≠ r := by
              rintro rfl
              exact hyx (hinj y hy x hmem (hq.trans ht.symm))
            exact ⟨w,q,by simp [hyx,hw],hq,by simp [Store.set,hne,hσ]⟩
        · intro y w hy
          by_cases hyx : y = x
          · exact hyx ▸ hmem
          · rw [Table.get?_insert_of_ne _ _ hyx] at hy
            exact hexact y w hy
        · refine hrest.congr fun q hq => ?_
          have hne : q ≠ r := by rintro rfl; exact (ha.own hmem ht).2 hq
          simp [Store.set,hne]
      · obtain ⟨hx',ht⟩ := ha.outer hx hmem
        have he : e.get? x = none := Option.eq_none_iff_forall_ne_some.2
          fun v he => hmem (hexact x v he)
        obtain ⟨r,env',hreg,hmemr,hassign,hholds⟩ := ih hrest hscopes hx'
        refine ⟨r,e :: env',by simp [lookupRegister,ht,hreg],by simp [registers,hmemr],
          by simp [Scopes.assign,Table.contains,he,hassign],?_,hexact,hholds⟩
        intro y hy
        obtain ⟨w,q,hw,hq,hσ⟩ := hlevel y hy
        have hne : q ≠ r := by rintro rfl; exact (ha.own hy hq).2 hmemr
        exact ⟨w,q,hw,hq,by simp [Store.set,hne,hσ]⟩

end

theorem Allocated.declare (h : Allocated limit (level :: names) (t :: scopes)) (x : String) :
    Allocated (limit + 1) ((x :: level) :: names) (t.insert x (register limit) :: scopes) := by
  have hnew : ∀ y ∈ level, t.get? y ≠ some (register limit) :=
    fun y hy hget => (h.own hy hget).1.ne_register rfl
  obtain ⟨hr,hinj,hlocal,hrest⟩ := h
  refine ⟨?_,?_,?_,hrest.mono (Nat.le_succ _)⟩
  · intro y hy
    by_cases hyx : y = x
    · subst hyx
      exact ⟨register limit,by simp,old_register limit,fun hmem => (hrest.old hmem).ne_register rfl⟩
    · obtain ⟨r,hget,hold,hout⟩ := hr y (by simpa [hyx] using hy)
      exact ⟨r,by simp [hyx,hget],hold.mono (Nat.le_succ _),hout⟩
  · intro y hy z hz hyz
    rw [Table.get?_insert,Table.get?_insert] at hyz
    by_cases hyx : y = x <;> by_cases hzx : z = x
    · rw [hyx,hzx]
    · simp only [hyx,beq_self_eq_true,if_true,beq_iff_eq,hzx,if_false] at hyz
      exact absurd hyz.symm (hnew z (by simpa [hzx] using hz))
    · simp only [hzx,beq_self_eq_true,if_true,beq_iff_eq,hyx,if_false] at hyz
      exact absurd hyz (hnew y (by simpa [hyx] using hy))
    · simp only [beq_iff_eq,hyx,hzx,if_false] at hyz
      exact hinj y (by simpa [hyx] using hy) z (by simpa [hzx] using hz) hyz
  · intro hne y r hy
    by_cases hyx : y = x
    · simp [hyx]
    · rw [Table.get?_insert_of_ne _ _ hyx] at hy
      simp [hlocal hne y r hy]

theorem Holds.declare (h : Holds σ (e :: env) (level :: names) (t :: scopes))
    (ha : Allocated limit (level :: names) (t :: scopes)) (x : String) (v : Word) :
    Holds (σ.set (register limit) v) (e.insert x v :: env) ((x :: level) :: names)
      (t.insert x (register limit) :: scopes) := by
  have hframe : ∀ r, Old limit r → σ.set (register limit) v r = σ r :=
    fun r hr => by simp [Store.set,hr.ne_register]
  obtain ⟨hlevel,hexact,hrest⟩ := h.frame ha hframe
  refine ⟨?_,?_,hrest⟩
  · intro y hy
    by_cases hyx : y = x
    · subst hyx
      exact ⟨v,register limit,by simp,by simp,by simp [Store.set]⟩
    · obtain ⟨w,q,hw,hq,hσ⟩ := hlevel y (by simpa [hyx] using hy)
      exact ⟨w,q,by simp [hyx,hw],by simp [hyx,hq],hσ⟩
  · intro y w hy
    by_cases hyx : y = x
    · simp [hyx]
    · rw [Table.get?_insert_of_ne _ _ hyx] at hy
      simp [hexact y w hy]

theorem Allocated.enter (h : Allocated limit names scopes) :
    Allocated limit ([] :: names) ({} :: scopes) := by
  refine ⟨by simp,by simp,?_,h⟩
  intro _ x r hx
  simp at hx

theorem Holds.enter (h : Holds σ env names scopes) :
    Holds σ ({} :: env) ([] :: names) ({} :: scopes) := by
  refine ⟨by simp,?_,h⟩
  intro x v hx
  simp at hx

theorem Holds.leave (h : Holds σ env names scopes) (hn : names ≠ []) :
    Holds σ (env.drop 1) (names.drop 1) (scopes.drop 1) := by
  match env, names, scopes, h with
  | _ :: _, _ :: _, _ :: _, ⟨_,_,h⟩ => exact h
  | [], [], _, _ => exact absurd rfl hn

end BxToolchain.Bx
