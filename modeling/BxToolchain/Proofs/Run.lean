import BxToolchain.Fault

namespace BxToolchain

variable {σ α β : Type}

def Runs (x : Run σ α) (s : σ) (a : α) (s' : σ) : Prop := x.run.run s = (.ok a,s')

variable {x : Run σ α} {a : α} {f : α → Run σ β} {b : β} {s s' : σ}

theorem Runs.bind (h : Runs x s a s') (h' : Runs (f a) s' b s'') : Runs (x >>= f) s b s'' := by
  simp only [Runs,ExceptT.run_bind,StateT.run_bind] at h h' ⊢
  rw [h]
  exact h'

theorem Runs.of_bind (h : Runs (x >>= f) s b s'') :
    ∃ a s', Runs x s a s' ∧ Runs (f a) s' b s'' := by
  simp only [Runs,ExceptT.run_bind,StateT.run_bind] at h ⊢
  cases hx : x.run.run s with
  | mk result s' =>
    rw [hx] at h
    cases result with
    | ok a => exact ⟨a,s',rfl,h⟩
    | error e => cases h

theorem Runs.unique {s1 s2 b} (h : Runs x s a s1) (h' : Runs x s b s2) : a = b ∧ s1 = s2 := by
  obtain ⟨hresult,hstate⟩ := Prod.mk.inj (h.symm.trans h')
  exact ⟨Except.ok.inj hresult,hstate⟩

theorem Runs.bind_iff (h : Runs x s a s') : Runs (x >>= f) s b s'' ↔ Runs (f a) s' b s'' := by
  constructor
  · intro hbind
    obtain ⟨_,_,hx,hf⟩ := hbind.of_bind
    obtain ⟨rfl,rfl⟩ := h.unique hx
    exact hf
  · exact h.bind

theorem runs_pure : Runs (pure a) s a s := rfl

theorem runs_get : Runs (get : Run σ σ) s s s := rfl

theorem runs_set : Runs (set s' : Run σ PUnit) s () s' := rfl

theorem runs_modify {f} : Runs (modify f : Run σ PUnit) s () (f s) := rfl

theorem runs_bind : Runs (x >>= f) s b s'' ↔ ∃ a s', Runs x s a s' ∧ Runs (f a) s' b s'' :=
  ⟨Runs.of_bind,fun ⟨_,_,h,h'⟩ => h.bind h'⟩

theorem runs_pure_iff {b} : Runs (pure a) s b s' ↔ b = a ∧ s' = s :=
  ⟨fun h => h.unique runs_pure,fun ⟨hb,hs⟩ => hb ▸ hs ▸ runs_pure⟩

theorem runs_get_iff : Runs (get : Run σ σ) s t s' ↔ t = s ∧ s' = s := by
  constructor
  · exact fun h => h.unique runs_get
  · rintro ⟨rfl,rfl⟩
    exact runs_get

theorem runs_set_iff : Runs (set t : Run σ PUnit) s u s' ↔ s' = t :=
  ⟨fun h => (h.unique runs_set).2,fun h => h ▸ runs_set⟩

theorem runs_modify_iff {f} : Runs (modify f : Run σ PUnit) s u s' ↔ s' = f s :=
  ⟨fun h => (h.unique runs_modify).2,fun h => h ▸ runs_modify⟩

theorem not_runs_throw : ¬Runs (throw e : Run σ α) s a s' := by
  intro h
  cases h

theorem not_runs_throw_bind : ¬Runs (throw e >>= f) s b s' := by
  intro h
  obtain ⟨_,_,hthrow,-⟩ := h.of_bind
  exact not_runs_throw hthrow

theorem eq_ok_of_isOk {ε : Type} {r : Except ε Unit} (h : r.isOk = true) : r = .ok () := by
  cases r with
  | ok u => rfl
  | error e => cases h

theorem runs_of_isOk {x} (h : (x.run.run s).1.isOk = true) : Runs x s () (x.run.run s).2 :=
  Prod.ext (eq_ok_of_isOk h) rfl

def Respects (R : σ → σ → Prop) (x : Run σ α) : Prop := ∀ s a s', Runs x s a s' → R s s'

namespace Respects

variable {R : σ → σ → Prop}

theorem throw : Respects R (MonadExcept.throw e : Run σ α) := by
  intro s b s' h
  cases h

theorem throw_bind : Respects R (MonadExcept.throw e >>= f) := by
  intro s b s' h
  exact absurd h not_runs_throw_bind

theorem modify (hg : ∀ s, R s (g s)) : Respects R (modifyThe σ g : Run σ PUnit) := by
  intro s b s' h
  cases h
  exact hg s

theorem seq [Trans R S T] (hx : Respects R x) (hf : ∀ a, Respects S (f a)) :
    Respects T (x >>= f) := by
  intro s b s'' h
  obtain ⟨a,s',hxs,hfs⟩ := h.of_bind
  exact Trans.trans (hx s a s' hxs) (hf a s' b s'' hfs)

theorem bind [Trans R R R] (hx : Respects R x) (hf : ∀ a, Respects R (f a)) :
    Respects R (x >>= f) := hx.seq hf

theorem pure [Std.Refl R] : Respects R (Pure.pure a : Run σ α) := by
  intro s b s' h
  cases h
  exact Std.Refl.refl s

end Respects

def Keeps (P : σ → Prop) (s s' : σ) : Prop := P s → P s'

instance {P : σ → Prop} : Std.Refl (Keeps P) := ⟨fun _ h => h⟩

instance {P : σ → Prop} : Trans (Keeps P) (Keeps P) (Keeps P) := ⟨fun h h' hs => h' (h hs)⟩

end BxToolchain
