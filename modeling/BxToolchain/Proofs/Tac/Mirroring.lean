import BxToolchain.Proofs.Tac.Positions

namespace BxToolchain.Tac

def Instr.jump? (i : Instr) : Option String :=
  match i.opcode with
  | .jmp => some i.arg1.text
  | .branch _ => some i.arg2.text
  | _ => none

inductive Outcome.Alike (R : Frame → Frame → Prop) : Outcome → Outcome → Prop where
  | next (h : R f f') : Alike R (.next f) (.next f')
  | call
      (h : ∀ {v w2 f2 w3}, resume f dest v w2 = (.ok f2,w3) →   ∃ f2', resume f' dest' v w2 = (.ok f2',w3) ∧ R f2 f2')
      : Alike R (.call name args dest f) (.call name args dest' f')
  | done : Alike R (.done v) (.done v)

theorem Outcome.Alike.mono {R S : Frame → Frame → Prop} (h : ∀ {f f'}, R f f' → S f f')
    {o o' : Outcome} (ho : o.Alike R o') : o.Alike S o' := by
  cases ho with
  | next hR => exact .next (h hR)
  | call hR =>
    refine .call fun hresume => ?_
    obtain ⟨f2',hresume',hR2⟩ := hR hresume
    exact ⟨f2',hresume',h hR2⟩
  | done => exact .done

variable {a a' : Activation} {i i' : Instr} {f f' g : Frame} {w w1 : World} {o : Outcome}
  {R : Frame → Frame → Prop}

-- The two instructions may name different labels and write different places: `hjump` and `hwrite`
-- say that the calls stay together there.
theorem alike_of_perform (hlabel : i.opcode ≠ .label) (hphi : i.opcode ≠ .phi)
    (hparams : g.params = f.params) (hoptions : a'.options = a.options)
    (halike : i.ReadsAlike i' (w.read f.temps) (w.read g.temps))
    (hdest : i'.dest.read? = none ↔ i.dest.read? = none)
    (hwrite : i.opcode.isFinal = false → ∀ {w2 w3 : World} {v temps},
      w2.write f.temps i.dest.text v = .ok (w3,temps) →
      ∃ temps', w2.write g.temps i'.dest.text v = .ok (w3,temps') ∧
        ∀ params, R { f with temps, params } { g with temps := temps', params })
    (hstay : i.opcode.isFinal = false →
      i.opcode.writes = false ∨ i.isPrint = true ∨ i.dest.read? = none →
      ∀ params, R { f with params } { g with params })
    (hjump : ∀ {l pc}, i.jump? = some l → a.labels.get? l = some pc →
      ∃ l' pc', i'.jump? = some l' ∧ a'.labels.get? l' = some pc' ∧ R (f.jump l pc) (g.jump l' pc'))
    (h : perform a i f w = (.ok o,w1)) :
    ∃ o', perform a' i' g w = (.ok o',w1) ∧ o.Alike R o' := by
  obtain ⟨hopcode,hfirst,-⟩ := id halike
  rcases i.opcode.plain_or_control with hplain | ho | ho | ho | ho | ⟨c,ho⟩
  · have hfinal := Opcode.isFinal_of_isPlain hplain
    rcases perform_plain hplain hparams hoptions halike with
      ⟨v,h1,h2⟩ | ⟨params,w2,hkind,h1,h2⟩ | ⟨name,args,h1,h2⟩ | ⟨e,w2,h1⟩
    · obtain ⟨temps,hstore,rfl⟩ := store_eq_ok.1 (h1.symm.trans h)
      obtain ⟨temps',hstore',hR⟩ := hwrite hfinal hstore
      refine ⟨.next { g with temps := temps' },?_,.next ?_⟩
      · exact h2.trans (store_eq_ok.2 ⟨temps',hstore',rfl⟩)
      · rw [hparams]
        exact hR f.params
    · cases h1.symm.trans h
      exact ⟨_,h2,.next (hstay hfinal (hkind.imp_right .inl) params)⟩
    · cases h1.symm.trans h
      refine ⟨_,h2,.call fun hresume => ?_⟩
      rcases resume_eq_ok.1 hresume with ⟨hread,rfl,rfl⟩ | ⟨s,temps,hread,hstore,rfl⟩
      · exact ⟨_,resume_eq_ok.2 (.inl ⟨hdest.2 hread,rfl,rfl⟩),hstay hfinal (.inr (.inr hread)) []⟩
      · cases hread' : i'.dest.read? with
        | none => simp [hdest.1 hread'] at hread
        | some s' =>
          rw [← Operand.text_name s,← (Operand.read?_eq_some hread).1] at hstore
          obtain ⟨temps',hstore',hR⟩ := hwrite hfinal hstore
          rw [(Operand.read?_eq_some hread').1,Operand.text_name] at hstore'
          exact ⟨_,resume_eq_ok.2 (.inr ⟨s',temps',hread',hstore',rfl⟩),hR []⟩
    · cases h1.symm.trans h
  · exact absurd ho hlabel
  · exact absurd ho hphi
  · obtain ⟨pc,hl,rfl,rfl⟩ := (perform_jmp ho).1 h
    rw [ho] at hopcode
    obtain ⟨l',pc',hl',hpc',hR⟩ := hjump (by simp [Instr.jump?,ho]) hl
    simp only [Instr.jump?,hopcode,Option.some.injEq] at hl'
    subst hl'
    exact ⟨_,(perform_jmp hopcode).2 ⟨pc',hpc',rfl,rfl⟩,.next hR⟩
  · obtain ⟨v,hv,rfl,rfl⟩ := (perform_ret ho).1 h
    rw [ho] at hopcode
    simp only [ho,Opcode.readsFirst,if_true] at hfirst
    refine ⟨_,(perform_ret hopcode).2 ⟨v,?_,rfl,rfl⟩,.done⟩
    by_cases habsent : i.arg1 = .absent
    · rw [if_pos habsent] at hv
      rwa [if_pos (hfirst.1.2 habsent)]
    · rw [if_neg habsent] at hv
      rw [if_neg (mt hfirst.1.1 habsent)]
      exact hfirst.2 (fun _ => habsent) v hv
  · obtain ⟨v,pc,b,hread,hl,htaken,rfl,rfl⟩ := (perform_branch ho).1 h
    rw [ho] at hopcode
    simp only [ho,Opcode.readsFirst,if_true] at hfirst
    obtain ⟨l',pc',hl',hpc',hR⟩ := hjump (by simp [Instr.jump?,ho]) hl
    simp only [Instr.jump?,hopcode,Option.some.injEq] at hl'
    subst hl'
    refine ⟨_,(perform_branch hopcode).2
      ⟨v,pc',b,hfirst.2 (by simp) v hread,hpc',htaken,rfl,rfl⟩,.next ?_⟩
    cases b with
    | true => exact hR
    | false =>
      have hR : R f { g with params := f.params } :=
        hstay (by simp [ho,Opcode.isFinal]) (.inl (by simp [ho,Opcode.writes])) f.params
      rwa [← hparams] at hR

def CatchesUp (a' : Activation) (R : Frame → Frame → Prop) (f f' : Frame) : Prop :=
  ∀ w, ∃ g, Steps a' f' w g w ∧ R f g

theorem CatchesUp.of_rel (h : R f f') : CatchesUp a' R f f' :=
  fun _ => ⟨f',.refl,h⟩

structure Mirrors (strict : Bool) (a a' : Activation) (code code' : List Instr)
    (R : Frame → Frame → Prop) : Prop where
  options : a'.options = a.options
  shown : a'.shown = a.shown
  step {f f' : Frame} : R f f' →
    (code.drop f.pc = [] ∧ (strict = true ∨ code'.drop f'.pc = [])) ∨
    ∃ i rest, code.drop f.pc = i :: rest ∧
    ∀ {w w1 : World} {o : Outcome}, perform a i { f with pc := f.pc + 1 } w = (.ok o,w1) →
      (∃ f1, o = .next f1 ∧ w1 = w ∧ CatchesUp a' R f1 f') ∨
      ∃ i' rest' o', code'.drop f'.pc = i' :: rest' ∧
        perform a' i' { f' with pc := f'.pc + 1 } w = (.ok o',w1) ∧ o.Alike (CatchesUp a' R) o'

theorem Mirrors.simulation (h : Mirrors strict a a' code code' R) (ha : Loaded a code)
    (ha' : Loaded a' code') : Simulation strict a a' (CatchesUp a' R) where
  options := h.options
  next := by
    intro f f' f1 w w1 hR hstep
    obtain ⟨g,hsteps,hRg⟩ := hR w
    rcases h.step hRg with ⟨hend,-⟩ | ⟨i,rest,hrest,hmirror⟩
    · rw [ha.step_end hend] at hstep
      cases hstep
    rcases hmirror ((ha.step_iff hrest (by simp)).1 hstep) with
      ⟨f2,heq,rfl,hR1⟩ | ⟨i',rest',o',hrest',hperform,halike⟩
    · cases heq
      exact ⟨g,hsteps,hR1⟩
    · cases halike with
      | next hR1 => exact ⟨_,hsteps.trans (.one ((ha'.step_iff hrest' (by simp)).2 hperform)),hR1⟩
  call := by
    intro f f' f1 w w1 name args dest hR hstep
    obtain ⟨g,hsteps,hRg⟩ := hR w
    rcases h.step hRg with ⟨hend,-⟩ | ⟨i,rest,hrest,hmirror⟩
    · rw [ha.step_end hend] at hstep
      cases hstep
    rcases hmirror ((ha.step_iff hrest (by simp)).1 hstep) with
      ⟨f2,heq,-⟩ | ⟨i',rest',o',hrest',hperform,halike⟩
    · cases heq
    · cases halike with
      | call hresume => exact ⟨g,_,_,w,hsteps,(ha'.step_iff hrest' (by simp)).2 hperform,hresume⟩
  done := by
    intro f f' w w1 v hR hstep hret
    obtain ⟨g,hsteps,hRg⟩ := hR w
    rcases h.step hRg with ⟨hend,hend'⟩ | ⟨i,rest,hrest,hmirror⟩
    · have hlax : strict ≠ true := by
        intro hstrict
        have hlt := hret hstrict
        rw [ha.code_eq,List.size_toArray] at hlt
        exact absurd (List.drop_eq_nil_iff.1 hend) (by omega)
      rw [ha.step_end hend] at hstep
      refine ⟨g,w,hsteps,?_,fun hstrict => absurd hstrict hlax⟩
      rw [ha'.step_end (hend'.resolve_left hlax),h.options,h.shown,hstep]
    obtain ⟨w0,hdone,rfl⟩ := (ha.step_done hrest).1 hstep
    rcases hmirror hdone with ⟨f2,heq,-⟩ | ⟨i',rest',o',hrest',hperform,halike⟩
    · cases heq
    · cases halike with
      | done =>
        refine ⟨g,w,hsteps,(ha'.step_done hrest').2 ⟨w0,hperform,?_⟩,fun _ => ha'.lt_size hrest'⟩
        simp [Activation.notes,h.options,h.shown]

def Starts (p : Procedure) (f : Frame) : Prop :=
  ∃ args w w0 temps, bindParams p.params args w {} = .ok (w0,temps) ∧
    f = { temps, left := temps, current := p.name }

theorem Refines.of_mirrors (h : (labelNames code).Nodup →
      (labelNames code').Nodup ∧ ∀ {a a' f}, Loaded a code → Loaded a' code' →
        a'.options = a.options → a'.shown = a.shown → Starts p f →
        ∃ R, CatchesUp a' R f f ∧ Mirrors strict a a' code code' R) :
    Refines strict { p with body := code } { p with body := code' } := by
  refine ⟨fun {options args w w1 a f} hquiet henter => ?_⟩
  obtain ⟨w0,temps,labels,hbind,hlabels,-,-,hf⟩ := enter_eq_ok.1 henter
  obtain ⟨hnodup,hmirrors⟩ := h ((labelsFrom_isOk _ _ _).1 ⟨labels,hlabels⟩).1
  obtain ⟨a',henter',ha,ha',hoptions,hshown⟩ := enter_body hquiet henter hnodup
  obtain ⟨R,hR,hmirrors⟩ := hmirrors ha ha' hoptions hshown ⟨args,w,w0,temps,hbind,hf⟩
  exact ⟨a',f,_,henter',hR,hmirrors.simulation ha ha'⟩

end BxToolchain.Tac
