import BxToolchain.Proofs.X64.Listing

namespace BxToolchain.Bx

open List
open X64 (Line Row)

variable {a : Assembly} {body : List Instr} {d : Datum} {name x y : String} {params : List String}

theorem mem_of_placed (h : Placed names x) (hx : isGlobalName x = false) : x ∈ names :=
  h.resolve_left (by simp [hx])

theorem mem_slotOrder (h : x ∈ body.flatMap Instr.names ++ params.take 6)
    (hx : isGlobalName x = false) : x ∈ slotOrder params body := by
  obtain h | h := mem_append.1 h
  · exact mem_of_placed ((placed_meetAll [] h).meetAll _) hx
  · exact mem_of_placed (placed_meetAll _ h) hx

theorem idxOf_slotOrder (params : List String) (h : x ∈ body.flatMap Instr.names)
    (hx : isGlobalName x = false) :
    (slotOrder params body).idxOf x = (meetAll [] (body.flatMap Instr.names)).idxOf x := by
  have hsame := operandAt_meetAll (placed_meetAll [] h) (params.take 6)
  simp only [operandAt,hx,Bool.false_eq_true,if_false,X64.Operand.slot.injEq] at hsame
  rw [slotOrder]
  omega

theorem stack_slots_apart (hparams : ∀ p ∈ params, p ≠ "") (hbody : ∀ i ∈ body, i.IsWritable)
    (hd : (Item.procedure name params body).toDatum? = some d) (hslots : a.slots = {})
    (hempty : a.body = #[]) :
    ∃ (size : Nat) (place : String → X64.Operand) (slot : String → Nat) (a' : Assembly),
      Runs (Assemble.assembleProcedure d) a () a' ∧ a'.slots = {} ∧
      a'.lines.toList = a.lines.toList ++ (entryLines (unmarked name) size ++
        argumentLines place argumentRegisters (params.take 6)).map Line.render ++
        (body.flatMap (Instr.rows place (unmarked name))).map Row.render ++
        (exitLines (unmarked name)).map Line.render ∧
      .arithmetic .sub (.immediate size) (.register .rsp) ∈ entryLines (unmarked name) size ∧
      16 ∣ size ∧
      (∀ x, isGlobalName x = false → (place x).render = Text.decimal (-8 * slot x) ++ "(%rbp)") ∧
      (∀ x ∈ body.flatMap Instr.names, isGlobalName x = false → 1 ≤ slot x ∧ slot x ≤ size / 8) ∧
      ∀ x ∈ body.flatMap Instr.names ++ params.take 6, isGlobalName x = false →
        ∀ y, slot x = slot y → x = y := by
  refine ⟨8 * Assemble.frameSlots (meetAll [] (body.flatMap Instr.names)).length,
    operandAt (slotOrder params body),fun x => (slotOrder params body).idxOf x + 1,_,
    runs_procedure a hparams hbody hd hslots hempty,hslots,?_,?_,?_,?_,?_,?_⟩
  · simp only [procedureRows,entryRows,map_append,Row.map_render_line,append_assoc,
      Array.toList_append]
  · simp [entryLines,frameLines]
  · rw [Assemble.frameSlots]
    omega
  · intro x hx
    simp [operandAt,hx,X64.Operand.render]
  · intro x h hx
    have hlt := idxOf_lt_length_iff.2 (mem_of_placed (placed_meetAll [] h) hx)
    simp only [idxOf_slotOrder params h hx,Assemble.frameSlots]
    omega
  · intro x h hx y heq
    exact (idxOf_inj (mem_slotOrder h hx)).1 (Nat.succ.inj heq)

def passingBody : List Instr :=
  [.make "const" [.int 7] (.str "%0"),.act "param" [.int 1,.str "%0"],
    .make "call" [.str "@f",.int 1] (.str "%1"),.make "add" [.str "%1",.str "%0"] (.str "@g"),
    .act "ret" [.str "%1"]]

theorem passingBody_slots : ∃ d size, ∃ slot : String → Nat, ∃ a',
    (Item.procedure "@h" ["%p"] passingBody).toDatum? = some d ∧
    Runs (Assemble.assembleProcedure d) {} () a' ∧ 16 ∣ size ∧
    1 ≤ slot "%1" ∧ slot "%1" ≤ size / 8 ∧ slot "%0" ≠ slot "%1" ∧ slot "%0" ≠ slot "%p" := by
  have hbody : ∀ i ∈ passingBody, i.IsWritable := by
    simp only [passingBody,forall_mem_cons,not_mem_nil,false_implies,implies_true,and_true]
    exact ⟨⟨rfl,by decide⟩,⟨rfl,by decide⟩,⟨rfl,by decide⟩,⟨rfl,by decide⟩,⟨rfl,by decide⟩⟩
  obtain ⟨size,_,slot,a',hrun,-,-,-,hsize,-,hbound,hapart⟩ :=
    @stack_slots_apart {} passingBody _ "@h" ["%p"] (by decide) hbody rfl rfl rfl
  obtain ⟨hlow,hhigh⟩ := hbound "%1" (by decide) (by decide)
  have hzero := hapart "%0" (by decide) (by decide)
  exact ⟨_,size,slot,a',rfl,hrun,hsize,hlow,hhigh,mt (hzero "%1") (by decide),
    mt (hzero "%p") (by decide)⟩

end BxToolchain.Bx
