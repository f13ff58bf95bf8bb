import BxToolchain.Tac.Execute
import BxToolchain.Proofs.Table

namespace BxToolchain.Tac

inductive Steps (a : Activation) : Frame → World → Frame → World → Prop where
  | refl : Steps a f w f w
  | head (hstep : step a f w = (.ok (.next f1),w1) )
      (hrest : Steps a f1 w1 f2 w2) : Steps a f w f2 w2

namespace Steps

theorem one (h : step a f w = (.ok (.next f1),w1)) : Steps a f w f1 w1 :=
  .head h .refl

theorem trans (h : Steps a f w f1 w1) (h' : Steps a f1 w1 f2 w2) : Steps a f w f2 w2 := by
  induction h with
  | refl => exact h'
  | head hstep _ ih => exact .head hstep (ih h')

end Steps

def Activation.inner (a : Activation) : Options := { a.options with depth := a.options.depth + 1 }

inductive Finishes (procs : Table String Procedure) (strict : Bool) :
    Activation → Frame → World → Datum → World → Prop where
  | done (hstep : step a f w = (.ok (.done v),w') )
      (hret : strict = true → f.pc < a.code.size) : Finishes procs strict a f w v w'
  | next (hstep : step a f w = (.ok (.next f1),w1) )
      (hrest : Finishes procs strict a f1 w1 v w') : Finishes procs strict a f w v w'
  | call (hstep : step a f w =
      (.ok (.call name args dest f1),w1) ) (hname : procs.get? name = some p) (henter : enter p
      a.inner args w1 = (.ok (b,g),w2) ) (hcall : Finishes procs strict b g w2 u w3)
      (hresume : resume f1 dest u w3 = (.ok f2,w4)) (hrest : Finishes procs strict a f2 w4 v w') :
      Finishes procs strict a f w v w'

def Returns (procs : Table String Procedure) (strict : Bool) (options : Options) (name : String)
    (args : List Datum) (w : World) (v : Datum) (w' : World) : Prop :=
  ∃ p a f w1, procs.get? name = some p ∧ enter p options args w = (.ok (a,f),w1) ∧
    Finishes procs strict a f w1 v w'

variable {fuel : Nat}

section

variable {procs : Table String Procedure} {a : Activation} {f : Frame} {w w1 w' : World} {v : Datum}
  {options : Options} {name : String} {args : List Datum}

theorem Finishes.lenient (h : Finishes procs strict a f w v w') :
    Finishes procs false a f w v w' := by
  induction h with
  | done hstep _ => exact .done hstep (by simp)
  | next hstep _ ih => exact .next hstep ih
  | call hstep hname henter _ hresume _ ihcall ihrest =>
    exact .call hstep hname henter ihcall hresume ihrest

theorem Returns.lenient (h : Returns procs strict options name args w v w') :
    Returns procs false options name args w v w' := by
  obtain ⟨p,a,f,w1,hname,henter,hrun⟩ := h
  exact ⟨p,a,f,w1,hname,henter,hrun.lenient⟩

theorem Steps.finishes (h : Steps a f w f1 w1) (h' : Finishes procs strict a f1 w1 v w') :
    Finishes procs strict a f w v w' := by
  induction h with
  | refl => exact h'
  | head hstep _ ih => exact .next hstep (ih h')

attribute [local grind] execute continueFrom

theorem execute_succ_eq_ok :
    execute procs (fuel + 1) options name args w = (.ok v,w') ↔
      ∃ p a f w1, procs.get? name = some p ∧ enter p options args w = (.ok (a,f),w1) ∧
        continueFrom procs fuel a f w1 = (.ok v,w') := by
  rw [execute]
  cases procs.get? name with
  | none => simp
  | some p =>
    rcases henter : enter p options args w with ⟨_ | ⟨a,f⟩,w1⟩ <;> simp [henter]

theorem continueFrom_succ_eq_ok :
    continueFrom procs (fuel + 1) a f w = (.ok v,w') ↔
      step a f w = (.ok (.done v),w') ∨
      (∃ f1 w1, step a f w = (.ok (.next f1),w1) ∧
        continueFrom procs fuel a f1 w1 = (.ok v,w')) ∨
      ∃ name args dest f1 w1 u w2 f2 w3, step a f w = (.ok (.call name args dest f1),w1) ∧
        execute procs fuel a.inner name args w1 = (.ok u,w2) ∧
        resume f1 dest u w2 = (.ok f2,w3) ∧
        continueFrom procs fuel a f2 w3 = (.ok v,w') := by
  rw [continueFrom]
  rcases step a f w with ⟨_ | f1 | ⟨name,args,dest,f1⟩ | u,w1⟩
  · simp
  · simp
  · rcases hcall : execute procs fuel a.inner name args w1 with ⟨_ | u,w2⟩
    · simp_all [Activation.inner]
    · rcases hresume : resume f1 dest u w2 with ⟨_ | f2,w3⟩ <;> simp_all [Activation.inner]
  · simp

theorem finishes_of_run (fuel : Nat) :
    (∀ {options name args w v w'}, execute procs fuel options name args w = (.ok v,w') →
      Returns procs false options name args w v w') ∧
    (∀ {a f w v w'}, continueFrom procs fuel a f w = (.ok v,w') →
      Finishes procs false a f w v w') := by
  induction fuel with
  | zero => simp [execute,continueFrom]
  | succ fuel ih =>
    refine ⟨fun {options name args w v w'} h => ?_,fun {a f w v w'} h => ?_⟩
    · obtain ⟨p,a,f,w1,hname,henter,hrun⟩ := execute_succ_eq_ok.1 h
      exact ⟨p,a,f,w1,hname,henter,ih.2 hrun⟩
    · rcases continueFrom_succ_eq_ok.1 h with hdone | ⟨f1,w1,hstep,hrest⟩ |
        ⟨name,args,dest,f1,w1,u,w2,f2,w3,hstep,hcall,hresume,hrest⟩
      · exact .done hdone (by simp)
      · exact .next hstep (ih.2 hrest)
      · obtain ⟨p,b,g,w1',hname,henter,hinner⟩ := ih.1 hcall
        exact .call hstep hname henter hinner hresume (ih.2 hrest)

theorem Finishes.run (h : Finishes procs strict a f w v w') :
    ∃ n, ∀ k, continueFrom procs (n + k) a f w = (.ok v,w') := by
  induction h with
  | done hstep _ =>
    refine ⟨1,fun k => ?_⟩
    rw [Nat.add_comm]
    exact continueFrom_succ_eq_ok.2 (.inl hstep)
  | next hstep _ ih =>
    obtain ⟨n,hrun⟩ := ih
    refine ⟨n + 1,fun k => ?_⟩
    rw [Nat.succ_add]
    exact continueFrom_succ_eq_ok.2 (.inr (.inl ⟨_,_,hstep,hrun k⟩))
  | call hstep hname henter _ hresume _ ihcall ihrest =>
    obtain ⟨m,hcall⟩ := ihcall
    obtain ⟨n,hrest⟩ := ihrest
    refine ⟨m + n + 2,fun k => ?_⟩
    have hexecute := execute_succ_eq_ok.2 ⟨_,_,_,_,hname,henter,hcall (n + k)⟩
    have hrest := hrest (m + 1 + k)
    rw [show n + (m + 1 + k) = m + (n + k) + 1 by omega] at hrest
    rw [show m + n + 2 + k = m + (n + k) + 1 + 1 by omega]
    exact continueFrom_succ_eq_ok.2 (.inr (.inr
      ⟨_,_,_,_,_,_,_,_,_,hstep,hexecute,hresume,hrest⟩))

theorem returns_iff_execute :
    Returns procs false options name args w v w' ↔
      ∃ fuel, execute procs fuel options name args w = (.ok v,w') := by
  constructor
  · rintro ⟨p,a,f,w1,hname,henter,hrun⟩
    obtain ⟨fuel,hfuel⟩ := hrun.run
    exact ⟨fuel + 1,by simpa [execute,hname,henter] using hfuel 0⟩
  · rintro ⟨fuel,hfuel⟩
    exact (finishes_of_run fuel).1 hfuel

mutual

def returns? (procs : Table String Procedure) :
    Nat → Options → String → List Datum → World → Option (Datum × World)
  | 0, _, _, _, _ => none
  | fuel + 1, options, name, args, w =>
    (procs.get? name).bind fun p =>
      match enter p options args w with
      | (.ok (a,f),w) => finishes? procs fuel a f w
      | _ => none

def finishes? (procs : Table String Procedure) :
    Nat → Activation → Frame → World → Option (Datum × World)
  | 0, _, _, _ => none
  | fuel + 1, a, f, w =>
    match step a f w with
    | (.ok (.done v),w) => if f.pc < a.code.size then some (v,w) else none
    | (.ok (.next f),w) => finishes? procs fuel a f w
    | (.ok (.call name args dest f),w) =>
      (returns? procs fuel a.inner name args w).bind fun r =>
        match resume f dest r.1 r.2 with
        | (.ok f,w) => finishes? procs fuel a f w
        | _ => none
    | _ => none

end

theorem returns_of_eq_some (fuel : Nat) :
    (∀ {options name args w v w'}, returns? procs fuel options name args w = some (v,w') →
      Returns procs true options name args w v w') ∧
    (∀ {a f w v w'}, finishes? procs fuel a f w = some (v,w') → Finishes procs true a f w v w') := by
  induction fuel with
  | zero => exact ⟨nofun,nofun⟩
  | succ fuel ih =>
    refine ⟨fun h => ?_,fun h => ?_⟩
    · obtain ⟨p,hname,h⟩ := Option.bind_eq_some_iff.1 h
      split at h
      · exact ⟨p,_,_,_,hname,‹_›,ih.2 h⟩
      · cases h
    · rw [finishes?] at h
      split at h
      · split at h <;> cases h
        exact .done ‹_› fun _ => ‹_›
      · exact .next ‹_› (ih.2 h)
      · obtain ⟨⟨u,w1⟩,hcall,h⟩ := Option.bind_eq_some_iff.1 h
        obtain ⟨p,a,g,w2,hname,henter,hinner⟩ := ih.1 hcall
        split at h
        · exact .call ‹_› hname henter hinner ‹_› (ih.2 h)
        · cases h
      · cases h

end

def givesNumber (r : Except Fault Datum × World) (n : Int) (output : String) : Bool :=
  match r with
  | (.ok (.int m),w) => m == n && w.output == output
  | _ => false

variable {r : Except Fault Datum × World}

theorem givesNumber_eq_true (h : givesNumber r n output = true) :
    ∃ w, r = (.ok (.int n),w) ∧ w.output = output := by
  obtain ⟨r,w⟩ := r
  match r, h with
  | .ok (.int m), h =>
    simp only [givesNumber,Bool.and_eq_true,beq_iff_eq] at h
    exact ⟨w,by rw [h.1],h.2⟩

def givesFault (r : Except Fault Datum × World) (e : Fault) : Bool :=
  match r.1 with
  | .error e' => e' = e
  | .ok _ => false

theorem givesFault_eq_true (h : givesFault r e = true) : r.1 = .error e := by
  unfold givesFault at h
  split at h
  · rename_i heq
    rw [heq,of_decide_eq_true h]
  · cases h

end BxToolchain.Tac
