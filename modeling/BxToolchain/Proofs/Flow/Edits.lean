import BxToolchain.Proofs.Flow.Edges

namespace BxToolchain.Flow

open Tac

variable {g g' : Graph} {a l : String} {b : Block} {jumps : List Instr} {ls gone : List String}
  {fresh : Prop} {blocks : Table String Block}

inductive Change where
  | addBlock (b : Block)
  | removeBlock (b : Block)
  | addEdge (source target : String)
  | removeEdge (source target : String)

namespace Change

def act : Change → Edit Unit
  | .addBlock b => Edit.addBlock b
  | .removeBlock b => Edit.removeBlock b
  | .addEdge a l => Edit.addEdge a l
  | .removeEdge a l => Edit.removeEdge a l

def updateGone : Change → List String → List String
  | .removeBlock b, gone => b.label :: gone
  | _, gone => gone

def IsFresh (gone : List String) : Change → Prop
  | .addBlock b => b.label ∉ gone
  | _ => True

end Change

def performAll : List Change → Edit Unit
  | [] => return ()
  | c :: rest => do
    c.act
    performAll rest

def goneAfter (gone : List String) (changes : List Change) : List String :=
  changes.foldl (fun gone c => c.updateGone gone) gone

def NeverReturns : List String → List Change → Prop
  | _, [] => True
  | gone, c :: rest => c.IsFresh gone ∧ NeverReturns (c.updateGone gone) rest

def Graph.after (g : Graph) (a : String) : List String := (g.next.get? a).getD []

def Graph.before (g : Graph) (l : String) : List String := (g.prev.get? l).getD []

structure InStep (fresh : Prop) (gone : List String) (g : Graph) : Prop where
  next (l : String) : g.next.contains l = g.blocks.contains l
  prev (l : String) : g.prev.contains l = true ↔ g.blocks.contains l = true ∨ l ∈ gone
  after (a l : String) : a ∈ g.before l → l ∈ g.after a
  before : fresh → ∀ a l, l ∈ g.after a → a ∈ g.before l

theorem runs_removeEdge (h : Runs (Edit.removeEdge a l) g () g') :
    ∃ after before, g.next.get? a = some after ∧ g.prev.get? l = some before ∧
      g' = { g with
        next := g.next.insert a (after.filter (· ≠ l))
        prev := g.prev.insert l (before.filter (· ≠ a)) } := by
  simp only [Edit.removeEdge,runs_bind (x := get),runs_bind (x := Edit.lift _),runs_get_iff,
    runs_lift] at h
  obtain ⟨_,_,⟨rfl,rfl⟩,after,_,⟨hafter,rfl⟩,h⟩ := h
  split at h
  · exact absurd h not_runs_throw_bind
  · simp only [runs_bind (x := modify _),runs_bind (x := get),runs_bind (x := Edit.lift _),
      runs_get_iff,runs_modify_iff,runs_lift] at h
    obtain ⟨_,_,rfl,_,_,⟨rfl,rfl⟩,before,_,⟨hbefore,rfl⟩,h⟩ := h
    split at h
    · exact absurd h not_runs_throw_bind
    · exact ⟨after,before,successors_eq_ok.1 hafter,predecessors_eq_ok.1 hbefore,
        runs_modify_iff.1 h⟩

def Graph.withBlock (g : Graph) (b : Block) : Graph :=
  { g with
    blocks := g.blocks.insert b.label b
    next := g.next.insert b.label []
    prev := g.prev.insert b.label [] }

theorem runs_addBlock (h : Runs (Edit.addBlock b) g () g') :
    g.blocks.contains b.label = false ∧
      Runs (Edit.addJumps b.label b.jumps) (g.withBlock b) () g' := by
  simp only [Edit.addBlock,runs_bind (x := get),runs_get_iff] at h
  obtain ⟨_,_,⟨rfl,rfl⟩,h⟩ := h
  split at h
  · exact absurd h not_runs_throw_bind
  · rename_i hb
    obtain ⟨_,_,hmodify,hjumps⟩ := h.of_bind
    obtain rfl := runs_modify_iff.1 hmodify
    exact ⟨by simpa using hb,hjumps⟩

structure Forgets (label : String) (ls : List String) (g g' : Graph) : Prop where
  blocks : g'.blocks = g.blocks
  next : g'.next = g.next
  contains (l : String) : g'.prev.contains l = g.prev.contains l
  before (a l : String) : a ∈ g'.before l ↔ a ∈ g.before l ∧ ¬(a = label ∧ l ∈ ls)

theorem forgets_of_runs (h : Runs (Edit.forget a ls) g () g') : Forgets a ls g g' := by
  induction ls generalizing g with
  | nil =>
    obtain ⟨-,rfl⟩ := runs_pure_iff.1 h
    exact ⟨rfl,rfl,fun _ => rfl,by simp⟩
  | cons l rest ih =>
    simp only [Edit.forget,runs_bind (x := get),runs_bind (x := Edit.lift _),runs_get_iff,
      runs_lift] at h
    obtain ⟨_,_,⟨rfl,rfl⟩,before,_,⟨hbefore,rfl⟩,h⟩ := h
    split at h
    · exact absurd h not_runs_throw_bind
    · obtain ⟨_,_,hmodify,h⟩ := h.of_bind
      obtain rfl := runs_modify_iff.1 hmodify
      have hl := predecessors_eq_ok.1 hbefore
      obtain ⟨hblocks,hnext,hcontains,hmem⟩ := ih h
      refine ⟨hblocks,hnext,fun x => ?_,fun x y => ?_⟩
      · rw [hcontains,Table.contains_insert]
        by_cases hx : x = l <;> simp_all [Table.contains]
      · rw [hmem]
        simp only [Graph.before,Table.get?_insert]
        by_cases hy : y = l
        · simp_all
        · simp_all

variable (h : InStep fresh gone g)
include h

theorem InStep.mono (hfresh : fresh' → fresh) : InStep fresh' gone g :=
  ⟨h.next,h.prev,h.after,fun hf => h.before (hfresh hf)⟩

theorem InStep.withEdge {after after' before before'} (hafter : g.next.get? a = some after)
    (hbefore : g.prev.get? l = some before) (hnext : ∀ y, y ≠ l → (y ∈ after' ↔ y ∈ after))
    (hprev : ∀ x, x ≠ a → (x ∈ before' ↔ x ∈ before)) (hedge : a ∈ before' ↔ l ∈ after') :
    InStep fresh gone
      { g with next := g.next.insert a after', prev := g.prev.insert l before' } := by
  have ha := (Table.contains_iff _ _).2 ⟨_,hafter⟩
  have hl := (Table.contains_iff _ _).2 ⟨_,hbefore⟩
  refine ⟨fun x => ?_,fun x => ?_,fun x y => ?_,fun hf x y => ?_⟩
  · rw [← h.next,Table.contains_insert]
    by_cases hx : x = a <;> simp_all
  · rw [← h.prev,Table.contains_insert]
    by_cases hx : x = l <;> simp_all
  · have hxy := h.after x y
    simp only [Graph.after,Graph.before,Table.get?_insert] at hxy ⊢
    by_cases hx : x = a <;> by_cases hy : y = l <;> simp_all
  · have hxy := h.before hf x y
    simp only [Graph.after,Graph.before,Table.get?_insert] at hxy ⊢
    by_cases hx : x = a <;> by_cases hy : y = l <;> simp_all

theorem InStep.addEdge (hrun : Runs (Edit.addEdge a l) g () g') : InStep fresh gone g' := by
  obtain ⟨after,before,hafter,hbefore,rfl⟩ := runs_addEdge.1 hrun
  apply h.withEdge hafter hbefore <;> simp +contextual [Names.mem_insert]

theorem InStep.removeEdge (hrun : Runs (Edit.removeEdge a l) g () g') : InStep fresh gone g' := by
  obtain ⟨after,before,hafter,hbefore,rfl⟩ := runs_removeEdge hrun
  apply h.withEdge hafter hbefore <;> simp +contextual

theorem InStep.addJumps (hrun : Runs (Edit.addJumps a jumps) g () g') : InStep fresh gone g' := by
  induction jumps generalizing g with
  | nil =>
    obtain ⟨-,rfl⟩ := runs_pure_iff.1 hrun
    exact h
  | cons j rest ih =>
    rcases runs_addJumps_cons.1 hrun with ⟨l,g1,-,-,hedge,hrest⟩ | ⟨-,hrest⟩
    · exact ih (h.addEdge hedge) hrest
    · exact ih h hrest

theorem InStep.withBlock (hb : g.blocks.contains b.label = false) :
    InStep (fresh ∧ b.label ∉ gone) gone (g.withBlock b) := by
  have hnext : g.after b.label = [] := by
    have := (h.next b.label).trans hb
    simp_all [Graph.after,Table.contains]
  refine ⟨fun x => ?_,fun x => ?_,fun x y => ?_,fun hf x y => ?_⟩
  · simp only [Graph.withBlock,Table.contains_insert,h.next]
  · simp only [Graph.withBlock,Table.contains_insert,Bool.or_eq_true,h.prev,or_assoc]
  · have hxy := h.after x y
    simp only [Graph.after,Graph.before,Graph.withBlock,Table.get?_insert] at *
    by_cases hx : x = b.label <;> by_cases hy : y = b.label <;> simp_all
  · have hprev : g.before b.label = [] := by
      have := h.prev b.label
      simp_all [Graph.before,Table.contains]
    have hxy := h.before hf.1 x y
    simp only [Graph.after,Graph.before,Graph.withBlock,Table.get?_insert] at *
    by_cases hx : x = b.label <;> by_cases hy : y = b.label <;> simp_all

theorem InStep.removeBlock (hrun : Runs (Edit.removeBlock b) g () g') :
    InStep fresh (b.label :: gone) g' := by
  simp only [Edit.removeBlock,runs_bind (x := get),runs_get_iff] at hrun
  obtain ⟨_,_,⟨rfl,rfl⟩,hrun⟩ := hrun
  split at hrun
  · exact absurd hrun not_runs_throw_bind
  · rename_i hb
    simp only [runs_bind,runs_get_iff,runs_modify_iff,runs_lift] at hrun
    obtain ⟨_,_,rfl,_,_,⟨rfl,rfl⟩,ls,_,⟨hls,rfl⟩,_,g1,hforget,rfl⟩ := hrun
    have hls := successors_eq_ok.1 hls
    obtain ⟨hblocks,hnext,hcontains,hbefore⟩ := forgets_of_runs hforget
    refine ⟨fun x => ?_,fun x => ?_,fun x y => ?_,fun hf x y => ?_⟩
    · change (g1.next.erase b.label).contains x = g1.blocks.contains x
      rw [hblocks,hnext,Table.contains_erase,Table.contains_erase,h.next]
    · change g1.prev.contains x = true ↔ g1.blocks.contains x = true ∨ _
      rw [hcontains,h.prev,hblocks,Table.contains_erase,List.mem_cons]
      by_cases hx : x = b.label <;> simp_all
    · have hxy := h.after x y
      change x ∈ g1.before y → y ∈ ((g1.next.erase b.label).get? x).getD []
      rw [hbefore,hnext,Table.get?_erase]
      by_cases hx : x = b.label <;> simp_all [Graph.after,Graph.before]
    · have hxy := h.before hf x y
      change y ∈ ((g1.next.erase b.label).get? x).getD [] → x ∈ g1.before y
      rw [hbefore,hnext,Table.get?_erase]
      by_cases hx : x = b.label <;> simp_all [Graph.after,Graph.before]

theorem InStep.change {c : Change} (hrun : Runs c.act g () g') :
    InStep (fresh ∧ c.IsFresh gone) (c.updateGone gone) g' := by
  cases c with
  | addBlock b =>
    obtain ⟨hb,hjumps⟩ := runs_addBlock hrun
    exact (h.withBlock hb).addJumps hjumps
  | removeBlock b => exact (h.removeBlock hrun).mono And.left
  | addEdge a l => exact (h.addEdge hrun).mono And.left
  | removeEdge a l => exact (h.removeEdge hrun).mono And.left

theorem InStep.performAll {changes : List Change} (hrun : Runs (performAll changes) g () g') :
    InStep (fresh ∧ NeverReturns gone changes) (goneAfter gone changes) g' := by
  induction changes generalizing g gone fresh with
  | nil =>
    obtain ⟨-,rfl⟩ := runs_pure_iff.1 hrun
    exact h.mono And.left
  | cons c rest ih =>
    obtain ⟨_,g1,hfirst,hrest⟩ := hrun.of_bind
    exact (ih (h.change hfirst) hrest).mono fun ⟨hf,hc,hn⟩ => ⟨⟨hf,hc⟩,hn⟩

omit h

theorem Linked.mem_after (h : Linked blocks E g) : l ∈ g.after a ↔ E a l := by
  have hnext := h.next_isSome a
  unfold Graph.after
  cases ha : g.next.get? a with
  | none =>
    simp only [Option.getD_none,List.not_mem_nil,false_iff]
    intro hE
    simp_all [(h.edge hE).1]
  | some ls => exact h.mem_next ha l

theorem Linked.mem_before (h : Linked blocks E g) : a ∈ g.before l ↔ E a l := by
  have hprev := h.prev_isSome l
  unfold Graph.before
  cases hl : g.prev.get? l with
  | none =>
    simp only [Option.getD_none,List.not_mem_nil,false_iff]
    intro hE
    simp_all [(h.edge hE).2]
  | some ls => exact h.mem_prev hl a

theorem inStep_ofBlocks (h : Graph.ofBlocks name entry bs = .ok g) : InStep True [] g := by
  obtain ⟨hlinked,-,-⟩ := linked_ofBlocks h
  rw [← hlinked.blocks_eq] at hlinked
  refine ⟨hlinked.next_isSome,fun l => ?_,fun a l => ?_,fun _ a l => ?_⟩
  · simp [Table.contains,hlinked.prev_isSome l]
  · rw [hlinked.mem_after,hlinked.mem_before]
    exact id
  · rw [hlinked.mem_after,hlinked.mem_before]
    exact id

theorem edits_keep_edges {name entry : String} {bs : List Block} {changes : List Change}
    (hstart : Graph.ofBlocks name entry bs = .ok g) (hrun : Runs (performAll changes) g () g') :
    (∀ l, g'.next.contains l = g'.blocks.contains l) ∧
      (∀ l, g'.prev.contains l = true ↔
        g'.blocks.contains l = true ∨ l ∈ goneAfter [] changes) ∧
      (∀ a l, a ∈ g'.before l → l ∈ g'.after a) ∧
      (NeverReturns [] changes → ∀ a l, l ∈ g'.after a → a ∈ g'.before l) := by
  obtain ⟨hnext,hprev,hafter,hbefore⟩ := (inStep_ofBlocks hstart).performAll hrun
  exact ⟨hnext,hprev,hafter,fun hn => hbefore ⟨trivial,hn⟩⟩

def endBlock (label : String) : Block := { label, body := [], jumps := [{ opcode := .ret }] }

def hopBlocks : List Block :=
  [{ label := "%.L0", jumps := [{ opcode := .jmp, arg1 := .name "%.L1" }] },endBlock "%.L1"]

def hopGraph : Graph :=
  { name := "@main", entry := "%.L0"
    blocks := .ofList (hopBlocks.map fun b => (b.label,b))
    next := ⟨[("%.L0",["%.L1"]),("%.L1",[])]⟩
    prev := ⟨[("%.L0",[]),("%.L1",["%.L0"])]⟩ }

theorem ofBlocks_hopBlocks : Graph.ofBlocks "@main" "%.L0" hopBlocks = .ok hopGraph := rfl

def hopChanges : List Change :=
  [.addBlock (endBlock "%.L2"),.addEdge "%.L2" "%.L2",.addEdge "%.L2" "%.L0",
    .removeEdge "%.L0" "%.L1",.removeBlock (endBlock "%.L1")]

theorem hopChanges_keep_edges :
    ∃ g', Runs (performAll hopChanges) hopGraph () g' ∧
      (∀ l, g'.next.contains l = g'.blocks.contains l) ∧
      (∀ l, g'.prev.contains l = true ↔ g'.blocks.contains l = true ∨ l ∈ ["%.L1"]) ∧
      ∀ a l, l ∈ g'.after a ↔ a ∈ g'.before l := by
  have hrun := runs_of_isOk (x := performAll hopChanges) (s := hopGraph) (by decide)
  obtain ⟨hnext,hprev,hafter,hbefore⟩ := edits_keep_edges ofBlocks_hopBlocks hrun
  have hnever : NeverReturns [] hopChanges := by
    simp [NeverReturns,hopChanges,Change.IsFresh]
  exact ⟨_,hrun,hnext,hprev,fun a l => ⟨hbefore hnever a l,hafter a l⟩⟩

theorem removed_block_stays :
    (∃ g', Runs (performAll [.removeBlock (endBlock "%.L1")]) hopGraph () g' ∧
      g'.blocks.contains "%.L1" = false ∧ g'.prev.contains "%.L1" = true ∧
      "%.L1" ∈ g'.after "%.L0") ∧
    ∃ g', Runs (performAll [.removeBlock (endBlock "%.L1"),.addBlock (endBlock "%.L1")])
        hopGraph () g' ∧
      "%.L1" ∈ g'.after "%.L0" ∧ "%.L0" ∉ g'.before "%.L1" :=
  ⟨⟨_,runs_of_isOk (by decide),by decide,by decide,by decide⟩,
    _,runs_of_isOk (by decide),by decide,by decide⟩

end BxToolchain.Flow
