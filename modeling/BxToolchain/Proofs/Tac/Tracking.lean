import BxToolchain.Proofs.Tac.Mirroring

namespace BxToolchain.Tac

structure Instr.SameButLabels (i i' : Instr) : Prop where
  opcode : i'.opcode = i.opcode
  dest : i'.dest = i.dest
  first : i.opcode ≠ .jmp → i'.arg1 = i.arg1
  second : i.opcode.isBranch = false → i'.arg2 = i.arg2

theorem Instr.SameButLabels.refl (i : Instr) : i.SameButLabels i :=
  ⟨rfl,rfl,fun _ => rfl,fun _ => rfl⟩

def Leads (code' : List Instr) (Rel : List Instr → List Instr → Prop) (s t : List Instr) : Prop :=
  Rel s t ∨ ∃ j t' u, t = j :: t' ∧ j.opcode = .jmp ∧ codeAfter j.arg1.text code' = some u ∧ Rel s u

structure Tracks (strict : Bool) (code code' : List Instr)
    (Rel : List Instr → List Instr → Prop) : Prop where
  start : Leads code' Rel (skipLabels code) (skipLabels code')
  nil {t : List Instr} : Rel [] t → strict = true ∨ t = []
  cons {i : Instr} {rest t : List Instr} : Rel (i :: rest) t →
    i.isLabel = false ∧ i.opcode ≠ .phi ∧ ∃ i' rest', t = i' :: rest' ∧ i.SameButLabels i' ∧
      (i.opcode.isFinal = false → Leads code' Rel (skipLabels rest) (skipLabels rest')) ∧
      ∀ {l s}, i.jump? = some l → codeAfter l code = some s →
        ∃ l' s', i'.jump? = some l' ∧ codeAfter l' code' = some s' ∧ Leads code' Rel s s'

def Level (code code' : List Instr) (Rel : List Instr → List Instr → Prop) (f f' : Frame) : Prop :=
  f'.temps = f.temps ∧ f'.params = f.params ∧ Rel (skipLabels (code.drop f.pc)) (code'.drop f'.pc)

section

variable {strict : Bool} {a a' : Activation} {code code' : List Instr}
  {Rel : List Instr → List Instr → Prop} {i i' : Instr} {f f' : Frame}

theorem Instr.SameButLabels.readsAlike (h : i.SameButLabels i')
    (read : String → Except Fault Datum) : i.ReadsAlike i' read read := by
  refine ⟨h.opcode,?_,?_⟩
  · split
    · rename_i hreads
      rw [h.first (by intro ho; simp [ho,Opcode.readsFirst] at hreads)]
      exact ⟨Iff.rfl,fun _ _ => id⟩
    · exact h.first
  · split
    · rename_i hreads
      rw [h.second (by cases ho : i.opcode <;> simp_all [Opcode.readsSecond,Opcode.isBranch])]
      exact fun _ => id
    · exact h.second

theorem Leads.catchesUp (ha' : Loaded a' code') (htemps : f'.temps = f.temps)
    (hparams : f'.params = f.params)
    (h : Leads code' Rel (skipLabels (code.drop f.pc)) (skipLabels (code'.drop f'.pc))) :
    CatchesUp a' (Level code code' Rel) f f' := by
  intro w
  obtain ⟨g,hsteps,hdrop,htemps',hparams'⟩ := ha'.steps_skipLabels f' w
  rcases h with hrel | ⟨j,t,u,ht,ho,hu,hrel⟩
  · exact ⟨g,hsteps,htemps'.trans htemps,hparams'.trans hparams,by rwa [hdrop]⟩
  · obtain ⟨pc,hl,hpc⟩ := ha'.exists_label hu
    have hjump := (ha'.step_iff (w := w) (hdrop.trans ht) (by simp)).2
      ((perform_jmp ho).2 ⟨pc,hl,rfl,rfl⟩)
    refine ⟨_,hsteps.trans (.one hjump),htemps'.trans htemps,hparams'.trans hparams,?_⟩
    simp only [Frame.jump]
    rwa [hpc]

theorem Tracks.mirrors (h : Tracks strict code code' Rel) (ha : Loaded a code)
    (ha' : Loaded a' code') (hoptions : a'.options = a.options) (hshown : a'.shown = a.shown) :
    Mirrors strict a a' code code' (Level code code' Rel) := by
  refine ⟨hoptions,hshown,fun {f f'} ⟨htemps,hparams,hrel⟩ => ?_⟩
  cases hrest : code.drop f.pc with
  | nil =>
    rw [hrest] at hrel
    exact .inl ⟨rfl,h.nil hrel⟩
  | cons i rest =>
    refine .inr ⟨i,rest,rfl,fun hperform => ?_⟩
    rw [hrest] at hrel
    cases hlabel : i.isLabel with
    | true =>
      rw [perform_label (by simpa [Instr.isLabel] using hlabel)] at hperform
      cases hperform
      rw [skipLabels_label hlabel,← Loaded.drop_succ hrest] at hrel
      exact .inl ⟨_,rfl,rfl,.of_rel ⟨htemps,hparams,hrel⟩⟩
    | false =>
      rw [skipLabels_cons hlabel] at hrel
      obtain ⟨-,hphi,i',rest',hrest',hsame,hnext,hjump⟩ := h.cons hrel
      rw [← Loaded.drop_succ hrest,← Loaded.drop_succ hrest'] at hnext
      have hgoes : ∀ {l pc}, i.jump? = some l → a.labels.get? l = some pc →
          ∃ l' pc', i'.jump? = some l' ∧ a'.labels.get? l' = some pc' ∧
            CatchesUp a' (Level code code' Rel) ({ f with pc := f.pc + 1 }.jump l pc)
              ({ f' with pc := f'.pc + 1 }.jump l' pc') := by
        intro l pc hl hpc
        have hcode := ha.codeAfter_eq hpc
        obtain ⟨l',s',hl',hcode',hleads⟩ := hjump hl hcode
        obtain ⟨pc',hpc',hdrop⟩ := ha'.exists_label hcode'
        refine ⟨l',pc',hl',hpc',Leads.catchesUp ha' htemps hparams ?_⟩
        simp only [Frame.jump]
        rwa [hdrop,skipLabels_codeAfter hcode,skipLabels_codeAfter hcode']
      obtain ⟨o',hperform',halike⟩ := alike_of_perform (f := { f with pc := f.pc + 1 })
        (g := { f' with pc := f'.pc + 1 }) (by simpa [Instr.isLabel] using hlabel) hphi hparams hoptions
        (by rw [htemps]; exact hsame.readsAlike _) (by rw [hsame.dest])
        (fun hfinal _ _ _ temps hwrite => ⟨temps,by rwa [htemps,hsame.dest],
          fun _ => (hnext hfinal).catchesUp ha' rfl rfl⟩)
        (fun hfinal _ _ => (hnext hfinal).catchesUp ha' htemps rfl) hgoes hperform
      exact .inr ⟨i',rest',o',hrest',hperform',halike⟩

theorem Tracks.refines (h : (labelNames p.body).Nodup →
      (labelNames body).Nodup ∧ ∃ Rel, Tracks strict p.body body Rel) :
    Refines strict p { p with body } := by
  refine .of_mirrors (p := p) fun hnodup => ?_
  obtain ⟨hnodup',Rel,htracks⟩ := h hnodup
  refine ⟨hnodup',fun ha ha' hoptions hshown hstart => ?_⟩
  obtain ⟨args,w,w0,temps,-,rfl⟩ := hstart
  exact ⟨_,htracks.start.catchesUp ha' rfl rfl,htracks.mirrors ha ha' hoptions hshown⟩

end

end BxToolchain.Tac
