import BxToolchain.Proofs.Flow.Inferred
import BxToolchain.Proofs.Flow.SingleAssignment

namespace BxToolchain.Flow

open Tac

def singleAssignment (p : Procedure) : Except Fault Procedure := do
  let (_,g) ← infer p
  return { p with body := ← linearize (← ssa p.params g) }

def LiveAtEntry (g : Graph) (t : String) : Prop :=
  ∃ l n b, liveness g = .ok l ∧ (n,b) ∈ g.places ∧ b.label = g.entry ∧ t ∈ l.before.getD n []

structure Convertible (p : Procedure) : Prop where
  name : isGlobal p.name = true
  params : p.params.any isCompound = false
  check : ∀ i ∈ p.body, i.check = .ok ()
  phi : ∀ i ∈ p.body, i.opcode ≠ .phi
  names : ∀ i ∈ p.body, ∀ s ∈ i.reads ++ i.written, IsPlainName s
  print : ∀ i ∈ p.body, i.isPrint = true → i.dest = .absent
  graph : ∃ q g, infer p = .ok (q,g) ∧ (∀ b ∈ g.blocks.values, b.jumps ≠ []) ∧
    ∀ t, LiveAtEntry g t → .str t ∈ p.params

section

theorem Convertible.assigns (hp : Convertible p) (hi : i ∈ p.body) : Assigns i := by
  rcases dest_of_check (hp.check i hi) with habsent | ⟨s,hs,hvariable⟩
  · exact .inl habsent
  · refine .inr ⟨s,hs,hp.names i hi s (List.mem_append.2 (.inr ?_))⟩
    have hwrites : i.opcode.writes = true := by
      have hd := (check_eq_ok.1 (hp.check i hi)).1
      cases ho : i.opcode <;> simp_all [Opcode.kinds,Kind.accepts,Opcode.writes]
    simp [Instr.written,hwrites,hs,Operand.read?,ne_empty_of_isVariable hvariable]

theorem Convertible.versionable (hp : Convertible p) (h : infer p = .ok (q,g))
    (hjumps : ∀ b ∈ g.blocks.values, b.jumps ≠ []) : Versionable g where
  toRenamable := renamable_of_infer hp.name hp.check hp.phi (fun _ => hp.assigns) h hjumps
  print hi := print_of_infer hp.check h hp.print hi
  reads hi hs :=
    (reads_of_infer hp.check hp.phi h (fun i hi s hs => hp.names i hi s (by simp [hs])) hi hs).imp_right
      And.left

theorem Convertible.refines (hp : Convertible p) (strict : Bool) :
    ∃ p1 p2, roundTrip p = .ok p1 ∧ singleAssignment p = .ok p2 ∧ p2.name = p1.name ∧
      Refines strict p1 p2 := by
  obtain ⟨q,g,hinfer,hjumps,hentry⟩ := hp.graph
  have hg := hp.versionable hinfer hjumps
  obtain ⟨l,live,hl,hlive⟩ := hg.exists_liveness
  obtain ⟨order,horder⟩ := hg.sound.exists_order
  have hssa := hg.sound.ssa_eq hg.name (fun i hi => hg.phi hi) hl hp.params
  have hlist := horder.linearize_eq hg.sound
  have horder' : Order (g.withPhis l).versioned order := horder.withBlocks _
  have hlist' := horder'.linearize_eq (hg.tight_versioned hlive).sound
  refine ⟨{ p with body := g.code order },{ p with body := (g.withPhis l).versioned.code order },
    ?_,?_,rfl,?_⟩
  · simp only [roundTrip,hinfer,hlist,bind,Except.bind,pure,Except.pure]
    rfl
  · simp only [singleAssignment,hinfer,hssa,hlist',bind,Except.bind,pure,Except.pure]
    rfl
  · obtain ⟨-,-,-,hname,-⟩ := sound_of_infer hinfer
    exact hg.refines hlive horder strict hname.symm fun hn hlabel ht =>
      hentry _ ⟨l,_,_,hl,hn,hlabel,ht⟩

end

theorem singleAssignment_executesAlike {program : Program}
    (h : ∀ p, .procedure p ∈ program → Convertible p) :
    ∃ listed converted, program.mapProcedures roundTrip = .ok listed ∧
      program.mapProcedures singleAssignment = .ok converted ∧
      ∀ (options : Options) (name : String) (args : List Datum) (w : World) (fuel : Nat) (v : Datum)
        (w' : World), options.showInstrs = false →
        execute (listed.procedures {}) fuel options name args w = (.ok v,w') →
        ∃ fuel', execute (converted.procedures {}) fuel' options name args w = (.ok v,w') := by
  have hall := fun p hp => (h p hp).refines false
  obtain ⟨program₁,h₁⟩ := mapProcedures_isOk fun p hp => by
    obtain ⟨p₁,p₂,hp₁,-⟩ := hall p hp
    exact ⟨p₁,hp₁⟩
  obtain ⟨program₂,h₂⟩ := mapProcedures_isOk fun p hp => by
    obtain ⟨p₁,p₂,-,hp₂,-⟩ := hall p hp
    exact ⟨p₂,hp₂⟩
  refine ⟨program₁,program₂,h₁,h₂,fun options name args w fuel v w' hquiet hrun => ?_⟩
  have hprocs : RefinesAll false (program₁.procedures {}) (program₂.procedures {}) := by
    refine refinesAll_mapProcedures₂ h₁ h₂ (fun p q q' hp hq hq' => ?_) (.refl false {})
    obtain ⟨p₁,p₂,hp₁,hp₂,hname,hrefines⟩ := hall p hp
    cases hq.symm.trans hp₁
    cases hq'.symm.trans hp₂
    exact ⟨hname,hrefines⟩
  exact returns_iff_execute.mp ((returns_iff_execute.mpr ⟨fuel,hrun⟩).refine hprocs hquiet)

def isPlainName (s : String) : Bool := isTemp s || isGlobal s && !s.toList.contains '.'

theorem isPlainName_iff : isPlainName s = true ↔ IsPlainName s := by
  simp [isPlainName,IsPlainName]

def isNamed (t : String) : Datum → Bool
  | .str s => s = t
  | _ => false

def isCandidate (p : Procedure) : Bool :=
  isGlobal p.name && !p.params.any isCompound &&
  (p.body.all fun i =>
    i.check.isOk && i.opcode != .phi && (i.reads ++ i.written).all isPlainName) &&
  match infer p with
  | .ok (_,g) =>
    (g.blocks.values.all fun b => !b.instrs.isEmpty) &&
    match liveness g with
    | .ok l => g.places.all fun e =>
        e.2.label != g.entry || (l.before.getD e.1 []).all fun t => p.params.any (isNamed t)
    | .error _ => false
  | .error _ => false

def isConvertible (p : Procedure) : Bool :=
  isCandidate p && (p.body.all fun i => !i.isPrint || i.dest == .absent) &&
  match infer p with
  | .ok (_,g) => g.blocks.values.all fun b => !b.jumps.isEmpty
  | .error _ => false

theorem convertible_of_isConvertible (h : isConvertible p = true) : Convertible p := by
  simp only [isConvertible,isCandidate,Bool.and_eq_true,List.all_eq_true,Bool.not_eq_true',
    Bool.or_eq_true,beq_iff_eq,bne_iff_ne] at h
  obtain ⟨⟨⟨⟨⟨hname,hparams⟩,hbody⟩,hgraph⟩,hprint⟩,hjumps⟩ := h
  refine ⟨hname,hparams,fun i hi => ?_,fun i hi => (hbody i hi).1.2,fun i hi s hs => ?_,
    fun i hi hi' => ?_,?_⟩
  · exact eq_ok_of_isOk (hbody i hi).1.1
  · exact isPlainName_iff.1 ((hbody i hi).2 s hs)
  · exact (hprint i hi).resolve_left (by simp [hi'])
  · cases hinfer : infer p with
    | error e => simp [hinfer] at hjumps
    | ok r =>
      obtain ⟨q,g⟩ := r
      simp only [hinfer,Bool.and_eq_true,List.all_eq_true,Bool.not_eq_true'] at hjumps hgraph
      refine ⟨q,g,rfl,fun b hb => ?_,?_⟩
      · simpa using hjumps b hb
      · rintro t ⟨l,n,b,hl,hn,hlabel,ht⟩
        simp only [hl,List.all_eq_true,Bool.or_eq_true,bne_iff_ne,List.any_eq_true] at hgraph
        obtain ⟨d,hd,hname⟩ := (hgraph.2 (n,b) hn).resolve_left (by simp [hlabel]) t ht
        cases d with
        | str s =>
          rw [← of_decide_eq_true hname]
          exact hd
        | _ => cases hname

def tallyProgram : Program :=
  [.global ⟨"@total",.int 0⟩,.procedure ⟨"@main",[.str "%n"],[.ofLabel "%.Lloop",
     { opcode := .branch .zero, arg1 := .name "%n", arg2 := .name "%.Lend" },
     { opcode := .binary .add, dest := .name "@total", arg1 := .name "@total", arg2 := .name "%n" },
     { opcode := .param, arg1 := .int 1, arg2 := .name "%n" },
     { opcode := .call, arg1 := .name "@__bx_print_int", arg2 := .int 1 },
     { opcode := .const, dest := .name "%d", arg1 := .int 1 },
     { opcode := .binary .sub, dest := .name "%n", arg1 := .name "%n", arg2 := .name "%d" },
     .jumpTo "%.Lloop",.ofLabel "%.Lend",
     { opcode := .copy, dest := .name "%r", arg1 := .name "@total" },
     { opcode := .ret, arg1 := .name "%r" }]⟩]

theorem tallyProgram_executesAlike :
    tallyProgram.allProcedures isConvertible = true ∧
    ∃ converted, tallyProgram.mapProcedures singleAssignment = .ok converted ∧
      ∃ fuel w, execute (converted.procedures {}) fuel {} "@main" [.int 3]
          { globals := tallyProgram.globals {} } = (.ok (.int 6),w) ∧ w.output = "3\n2\n1\n" := by
  have hall : tallyProgram.allProcedures isConvertible = true := by decide +kernel
  obtain ⟨listed,converted,hlisted,hconverted,hruns⟩ := singleAssignment_executesAlike
    fun p hp => convertible_of_isConvertible (of_allProcedures hall hp)
  have hrun : (match tallyProgram.mapProcedures roundTrip with
      | .ok listed => givesNumber (execute (listed.procedures {}) 60 {} "@main" [.int 3]
          { globals := tallyProgram.globals {} }) 6 "3\n2\n1\n"
      | .error _ => false) = true := by
    decide +kernel
  rw [hlisted] at hrun
  obtain ⟨w,hrun,houtput⟩ := givesNumber_eq_true hrun
  obtain ⟨fuel,hfuel⟩ := hruns {} _ _ _ _ _ _ rfl hrun
  exact ⟨hall,converted,hconverted,fuel,w,hfuel,houtput⟩

def runsBoth (program : Program) (arg : Int) (test test' : Except Fault Datum × World → Bool) :
    Bool :=
  match program.mapProcedures roundTrip, program.mapProcedures singleAssignment with
  | .ok listed, .ok converted =>
    test (execute (listed.procedures {}) 20 {} "@main" [.int arg] {}) &&
      test' (execute (converted.procedures {}) 20 {} "@main" [.int arg] {})
  | _, _ => false

theorem exists_of_runsBoth (h : runsBoth program arg test test' = true) :
    ∃ listed converted, program.mapProcedures roundTrip = .ok listed ∧
      program.mapProcedures singleAssignment = .ok converted ∧
      test (execute (listed.procedures {}) 20 {} "@main" [.int arg] {}) = true ∧
      test' (execute (converted.procedures {}) 20 {} "@main" [.int arg] {}) = true := by
  unfold runsBoth at h
  split at h
  · rename_i listed converted hlisted hconverted
    rw [Bool.and_eq_true] at h
    exact ⟨listed,converted,hlisted,hconverted,h⟩
  · cases h

def fallingProgram : Program :=
  [.procedure ⟨"@main",[.str "%x"],
    [{ opcode := .branch .zero, arg1 := .name "%x", arg2 := .name "%.Lb" },.jumpTo "%.Lc",
     .ofLabel "%.Lb",.jumpTo "%.Ld",.ofLabel "%.Lc",{ opcode := .ret, arg1 := .name "%x" },
     .ofLabel "%.Ld",{ opcode := .nop }]⟩]

theorem fallingProgram_convert :
    fallingProgram.allProcedures isCandidate = true ∧
    ∃ listed converted, fallingProgram.mapProcedures roundTrip = .ok listed ∧
      fallingProgram.mapProcedures singleAssignment = .ok converted ∧
      (∃ w, execute (listed.procedures {}) 20 {} "@main" [.int 0] {} = (.ok (.int 0),w)) ∧
      (execute (converted.procedures {}) 20 {} "@main" [.int 0] {}).1 =
        .error (.unresolvedPhi "%.L3" ["%.L0"]) := by
  have hboth : runsBoth fallingProgram 0 (givesNumber · 0 "")
      (givesFault · (.unresolvedPhi "%.L3" ["%.L0"])) = true := by
    decide +kernel
  obtain ⟨listed,converted,hlisted,hconverted,hrun,hfault⟩ := exists_of_runsBoth hboth
  exact ⟨by decide +kernel,listed,converted,hlisted,hconverted,
    (givesNumber_eq_true hrun).imp fun w hw => hw.1,givesFault_eq_true hfault⟩

end BxToolchain.Flow
