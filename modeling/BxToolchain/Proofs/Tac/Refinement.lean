import BxToolchain.Proofs.Tac.Effects
import BxToolchain.Proofs.Tac.Execution

namespace BxToolchain.Tac

structure Simulation (strict : Bool) (a a' : Activation) (R : Frame → Frame → Prop) : Prop where
  options : a'.options = a.options
  next {f f' f1 : Frame} {w w1 : World} : R f f' → step a f w = (.ok (.next f1),w1) →
    ∃ f1', Steps a' f' w f1' w1 ∧ R f1 f1'
  call {f f' f1 : Frame} {w w1 : World} {name : String} {args : List Datum} {dest : Operand} :
    R f f' → step a f w = (.ok (.call name args dest f1),w1) →
    ∃ g dest' f1' w0, Steps a' f' w g w0 ∧
      step a' g w0 = (.ok (.call name args dest' f1'),w1) ∧
      ∀ {v w2 f2 w3}, resume f1 dest v w2 = (.ok f2,w3) →
        ∃ f2', resume f1' dest' v w2 = (.ok f2',w3) ∧ R f2 f2'
  done {f f' : Frame} {w w1 : World} {v : Datum} : R f f' →
    step a f w = (.ok (.done v),w1) → (strict = true → f.pc < a.code.size) →
    ∃ g w0, Steps a' f' w g w0 ∧ step a' g w0 = (.ok (.done v),w1) ∧
      (strict = true → g.pc < a'.code.size)

namespace Simulation

theorem refl (strict : Bool) (a : Activation) : Simulation strict a a Eq where
  options := rfl
  next := by
    rintro f _ f1 w w1 rfl hstep
    exact ⟨f1,.one hstep,rfl⟩
  call := by
    rintro f _ f1 w w1 name args dest rfl hstep
    exact ⟨f,dest,f1,w,.refl,hstep,fun hresume => ⟨_,hresume,rfl⟩⟩
  done := by
    rintro f _ w w1 v rfl hstep hret
    exact ⟨f,w,.refl,hstep,hret⟩

variable (h : Simulation strict a a' R)
include h

theorem inner : a'.inner = a.inner := by
  rw [Activation.inner,h.options,Activation.inner]

theorem steps (hR : R f f') (hsteps : Steps a f w f1 w1) :
    ∃ f1', Steps a' f' w f1' w1 ∧ R f1 f1' := by
  induction hsteps generalizing f' with
  | refl => exact ⟨f',.refl,hR⟩
  | head hstep _ ih =>
    obtain ⟨g,hfirst,hg⟩ := h.next hR hstep
    obtain ⟨f1',hrest,hf1⟩ := ih hg
    exact ⟨f1',hfirst.trans hrest,hf1⟩

theorem trans (h' : Simulation strict a' a'' S) :
    Simulation strict a a'' (fun f f'' => ∃ f', R f f' ∧ S f' f'') where
  options := h'.options.trans h.options
  next := by
    rintro f f'' f1 w w1 ⟨f',hR,hS⟩ hstep
    obtain ⟨f1',hsteps,hR1⟩ := h.next hR hstep
    obtain ⟨f1'',hsteps',hS1⟩ := h'.steps hS hsteps
    exact ⟨f1'',hsteps',f1',hR1,hS1⟩
  call := by
    rintro f f'' f1 w w1 name args dest ⟨f',hR,hS⟩ hstep
    obtain ⟨g,dest',f1',w0,hsteps,hcall,hresume⟩ := h.call hR hstep
    obtain ⟨g',hsteps',hg⟩ := h'.steps hS hsteps
    obtain ⟨k,dest'',f1'',w0',hbefore,hcall',hresume'⟩ := h'.call hg hcall
    refine ⟨k,dest'',f1'',w0',hsteps'.trans hbefore,hcall',fun hf2 => ?_⟩
    obtain ⟨f2',hf2',hR2⟩ := hresume hf2
    obtain ⟨f2'',hf2'',hS2⟩ := hresume' hf2'
    exact ⟨f2'',hf2'',f2',hR2,hS2⟩
  done := by
    rintro f f'' w w1 v ⟨f',hR,hS⟩ hstep hret
    obtain ⟨g,w0,hsteps,hdone,hret'⟩ := h.done hR hstep hret
    obtain ⟨g',hsteps',hg⟩ := h'.steps hS hsteps
    obtain ⟨k,w0',hbefore,hdone',hret''⟩ := h'.done hg hdone hret'
    exact ⟨k,w0',hsteps'.trans hbefore,hdone',hret''⟩

end Simulation

structure Refines (strict : Bool) (p p' : Procedure) : Prop where
  follows {options : Options} {args : List Datum} {w w1 : World} {a : Activation} {f : Frame} :
    options.showInstrs = false → enter p options args w = (.ok (a,f),w1) →
    ∃ a' f' R, enter p' options args w = (.ok (a',f'),w1) ∧ R f f' ∧ Simulation strict a a' R

theorem Refines.refl (strict : Bool) (p : Procedure) : Refines strict p p :=
  ⟨fun _ henter => ⟨_,_,Eq,henter,rfl,.refl strict _⟩⟩

variable {p p' : Procedure}

theorem Refines.trans (h : Refines strict p p') (h' : Refines strict p' p'') :
    Refines strict p p'' := by
  refine ⟨fun hquiet henter => ?_⟩
  obtain ⟨a',f',R,henter',hR,hsim⟩ := h.follows hquiet henter
  obtain ⟨a'',f'',S,henter'',hS,hsim'⟩ := h'.follows hquiet henter'
  exact ⟨a'',f'',_,henter'',⟨f',hR,hS⟩,hsim.trans hsim'⟩

theorem enter_options (h : enter p options args w = (.ok (a,f),w1)) : a.options = options := by
  unfold enter at h
  split at h
  · simp at h
  · dsimp only at h
    split at h
    · simp at h
    · simp only [Prod.mk.injEq,Except.ok.injEq] at h
      simp [← h.1.1]

def RefinesAll (strict : Bool) (procs procs' : Table String Procedure) : Prop :=
  ∀ name p, procs.get? name = some p → ∃ p', procs'.get? name = some p' ∧ Refines strict p p'

section

theorem RefinesAll.refl (strict : Bool) (procs : Table String Procedure) :
    RefinesAll strict procs procs :=
  fun _ p hp => ⟨p,hp,.refl strict p⟩

variable (hprocs : RefinesAll strict procs procs')
include hprocs

theorem Finishes.refine (h : Finishes procs strict a f w v w')
    (hquiet : a.options.showInstrs = false) (hsim : Simulation strict a a' R) (hR : R f f') :
    Finishes procs' strict a' f' w v w' := by
  induction h generalizing a' f' R with
  | done hstep hret =>
    obtain ⟨g,w0,hsteps,hdone,hret'⟩ := hsim.done hR hstep hret
    exact hsteps.finishes (.done hdone hret')
  | next hstep _ ih =>
    obtain ⟨f1',hsteps,hR1⟩ := hsim.next hR hstep
    exact hsteps.finishes (ih hquiet hsim hR1)
  | call hstep hname henter _ hresume _ ihcall ihrest =>
    obtain ⟨g,dest',f1',w0,hsteps,hcall,hresumes⟩ := hsim.call hR hstep
    obtain ⟨p',hname',hrefines⟩ := hprocs _ _ hname
    obtain ⟨b',g',S,henter',hS,hinner⟩ := hrefines.follows (by exact hquiet) henter
    obtain ⟨f2',hresume',hR2⟩ := hresumes hresume
    have hoptions := enter_options henter
    have hcall' := ihcall (by rw [hoptions]; exact hquiet) hinner hS
    rw [← hsim.inner] at henter'
    exact hsteps.finishes
      (.call hcall hname' henter' hcall' hresume' (ihrest hquiet hsim hR2))

theorem Returns.refine (hquiet : options.showInstrs = false)
    (h : Returns procs strict options name args w v w') :
    Returns procs' strict options name args w v w' := by
  obtain ⟨p,a,f,w1,hname,henter,hrun⟩ := h
  obtain ⟨p',hname',hrefines⟩ := hprocs _ _ hname
  obtain ⟨a',f',R,henter',hR,hsim⟩ := hrefines.follows hquiet henter
  have hoptions := enter_options henter
  exact ⟨p',a',f',w1,hname',henter',hrun.refine hprocs (by rw [hoptions]; exact hquiet) hsim hR⟩

theorem RefinesAll.insert (h : Refines strict p p') (name : String) :
    RefinesAll strict (procs.insert name p) (procs'.insert name p') := by
  intro other q hq
  by_cases hname : other = name
  · subst hname
    rw [Table.get?_insert_self] at hq
    cases hq
    exact ⟨p',Table.get?_insert_self ..,h⟩
  · rw [Table.get?_insert_of_ne _ _ hname] at hq ⊢
    exact hprocs _ _ hq

end

def Program.mapProcedures (f : Procedure → Except Fault Procedure) :
    Program → Except Fault Program
  | [] => .ok []
  | .procedure p :: rest => do
    let q ← f p
    return .procedure q :: (← Program.mapProcedures f rest)
  | d :: rest => do return d :: (← Program.mapProcedures f rest)

variable {program : Program}

theorem mapProcedures_isOk (h : ∀ p, .procedure p ∈ program → ∃ q, f p = .ok q) :
    ∃ program', program.mapProcedures f = .ok program' := by
  induction program with
  | nil => exact ⟨[],rfl⟩
  | cons d rest ih =>
    obtain ⟨rest',hrest⟩ := ih fun p hp => h p (by simp [hp])
    cases d with
    | procedure p =>
      obtain ⟨q,hq⟩ := h p (by simp)
      exact ⟨.procedure q :: rest',by simp [Program.mapProcedures,hq,hrest,bind,Except.bind,
        pure,Except.pure]⟩
    | blank =>
      exact ⟨.blank :: rest',by simp [Program.mapProcedures,hrest,bind,Except.bind,pure,
        Except.pure]⟩
    | global g =>
      exact ⟨.global g :: rest',by simp [Program.mapProcedures,hrest,bind,Except.bind,pure,
        Except.pure]⟩

theorem refinesAll_mapProcedures₂ {strict : Bool} {f f' : Procedure → Except Fault Procedure}
    {program program1 program2 : Program} (h1 : program.mapProcedures f = .ok program1)
    (h2 : program.mapProcedures f' = .ok program2)
    (hf : ∀ p q q', .procedure p ∈ program → f p = .ok q → f' p = .ok q' →
      q'.name = q.name ∧ Refines strict q q')
    {procs procs' : Table String Procedure} (hprocs : RefinesAll strict procs procs') :
    RefinesAll strict (program1.procedures procs) (program2.procedures procs') := by
  induction program generalizing program1 program2 procs procs' with
  | nil =>
    cases h1
    cases h2
    exact hprocs
  | cons d rest ih =>
    have hrest : ∀ p q q', .procedure p ∈ rest → f p = .ok q → f' p = .ok q' →
        q'.name = q.name ∧ Refines strict q q' := fun p q q' hp => hf p q q' (by simp [hp])
    cases d with
    | procedure p =>
      obtain ⟨q,hq,h1⟩ := Except.bind_eq_ok.1 h1
      obtain ⟨rest1,hrest1,h1⟩ := Except.bind_eq_ok.1 h1
      obtain ⟨q',hq',h2⟩ := Except.bind_eq_ok.1 h2
      obtain ⟨rest2,hrest2,h2⟩ := Except.bind_eq_ok.1 h2
      cases h1
      cases h2
      obtain ⟨hname,hrefines⟩ := hf p q q' (by simp) hq hq'
      simp only [Program.procedures,hname]
      exact ih hrest1 hrest2 hrest (hprocs.insert hrefines q.name)
    | blank | global =>
      obtain ⟨rest1,hrest1,h1⟩ := Except.bind_eq_ok.1 h1
      obtain ⟨rest2,hrest2,h2⟩ := Except.bind_eq_ok.1 h2
      cases h1
      cases h2
      exact ih hrest1 hrest2 hrest hprocs

theorem mapProcedures_ok (program : Program) : program.mapProcedures .ok = .ok program := by
  induction program with
  | nil => rfl
  | cons d rest ih => cases d <;> simp [Program.mapProcedures,ih,bind,Except.bind,pure,Except.pure]

theorem refinesAll_mapProcedures (h : program.mapProcedures f = .ok program')
    (hf : ∀ p q, .procedure p ∈ program → f p = .ok q → q.name = p.name ∧ Refines strict p q)
    (hprocs : RefinesAll strict procs procs') :
    RefinesAll strict (program.procedures procs) (program'.procedures procs') := by
  refine refinesAll_mapProcedures₂ (mapProcedures_ok program) h (fun p q q' hp hq hq' => ?_) hprocs
  cases hq
  exact hf p q' hp hq'

def Program.allProcedures (test : Procedure → Bool) (program : Program) : Bool :=
  program.all fun
    | .procedure p => test p
    | _ => true

theorem of_allProcedures (h : program.allProcedures test = true) (hp : .procedure p ∈ program) :
    test p = true :=
  List.all_eq_true.1 h _ hp

end BxToolchain.Tac
