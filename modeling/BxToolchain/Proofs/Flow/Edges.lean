import BxToolchain.Proofs.Flow.Blocks
import BxToolchain.Proofs.Run

namespace BxToolchain.Flow

open Tac List

structure Linked (blocks : Table String Block) (E : String → String → Prop) (g : Graph) : Prop where
  blocks_eq : g.blocks = blocks
  next_isSome (l : String) : (g.next.get? l).isSome = blocks.contains l
  prev_isSome (l : String) : (g.prev.get? l).isSome = blocks.contains l
  nodup : g.next.keys.Nodup
  mem_next {a : String} {ls : List String} : g.next.get? a = some ls → ∀ l, l ∈ ls ↔ E a l
  mem_prev {l : String} {ls : List String} : g.prev.get? l = some ls → ∀ a, a ∈ ls ↔ E a l
  edge {a l : String} : E a l → blocks.contains a = true ∧ blocks.contains l = true

def SameHead (g g' : Graph) : Prop := g'.name = g.name ∧ g'.entry = g.entry

theorem SameHead.trans (h : SameHead g g') (h' : SameHead g' g'') : SameHead g g'' :=
  ⟨h'.1.trans h.1,h'.2.trans h.2⟩

variable {jumps : List Instr} {a l : String}

section

variable {g g' : Graph}

theorem runs_lift {α : Type} {x : Except Fault α} {a : α} :
    Runs (Edit.lift x) g a g' ↔ x = .ok a ∧ g' = g := by
  cases x with
  | error e =>
    constructor
    · intro h
      cases h
    · rintro ⟨h,-⟩
      cases h
  | ok b =>
    constructor
    · intro h
      cases h
      exact ⟨rfl,rfl⟩
    · rintro ⟨h,rfl⟩
      cases h
      rfl

theorem successors_eq_ok : g.successors l = .ok ls ↔ g.next.get? l = some ls := by
  unfold Graph.successors
  cases g.next.get? l <;> simp

theorem predecessors_eq_ok : g.predecessors l = .ok ls ↔ g.prev.get? l = some ls := by
  unfold Graph.predecessors
  cases g.prev.get? l <;> simp

theorem runs_addEdge :
    Runs (Edit.addEdge a l) g () g' ↔
      ∃ after before, g.next.get? a = some after ∧ g.prev.get? l = some before ∧
        g' = { g with
          next := g.next.insert a (Names.insert l after)
          prev := g.prev.insert l (Names.insert a before) } := by
  simp only [Edit.addEdge,runs_bind,runs_get_iff,runs_lift,runs_modify_iff,successors_eq_ok,
    predecessors_eq_ok]
  constructor
  · rintro ⟨_,_,⟨rfl,rfl⟩,after,_,⟨hafter,rfl⟩,_,_,rfl,_,_,⟨rfl,rfl⟩,before,_,⟨hbefore,rfl⟩,rfl⟩
    exact ⟨after,before,hafter,hbefore,rfl⟩
  · rintro ⟨after,before,hafter,hbefore,rfl⟩
    exact ⟨_,_,⟨rfl,rfl⟩,after,_,⟨hafter,rfl⟩,(),_,rfl,_,_,⟨rfl,rfl⟩,before,_,⟨hbefore,rfl⟩,rfl⟩

theorem runs_addJumps_cons :
    Runs (Edit.addJumps a (j :: jumps)) g () g' ↔
      (∃ l g1, j.target = .name l ∧ l ≠ "" ∧ Runs (Edit.addEdge a l) g () g1 ∧
        Runs (Edit.addJumps a jumps) g1 () g') ∨
      j.target.toDatum.truthy = false ∧ Runs (Edit.addJumps a jumps) g () g' := by
  rw [Edit.addJumps]
  cases htarget : j.target with
  | name l =>
    by_cases hl : l = ""
    · simp [hl,Operand.toDatum,Datum.truthy]
    · simp [hl,runs_bind,Operand.toDatum,Datum.truthy,Unique.exists_iff]
  | _ => cases htruthy : j.target.toDatum.truthy <;> simp_all [not_runs_throw]

theorem Linked.addEdge (hg : Linked blocks E g) (h : Runs (Edit.addEdge a l) g () g') :
    Linked blocks (fun x y => E x y ∨ x = a ∧ y = l) g' ∧ SameHead g g' := by
  obtain ⟨after,before,hafter,hbefore,rfl⟩ := runs_addEdge.1 h
  have ha : blocks.contains a = true := by rw [← hg.next_isSome,hafter]; rfl
  have hl : blocks.contains l = true := by rw [← hg.prev_isSome,hbefore]; rfl
  refine ⟨⟨hg.blocks_eq,fun m => ?_,fun m => ?_,Table.nodup_keys_insert hg.nodup _ _,?_,?_,
    ?_⟩,rfl,rfl⟩
  · rw [← hg.next_isSome,Table.get?_insert]
    by_cases hm : m = a
    · simp [hm,hafter]
    · simp [hm]
  · rw [← hg.prev_isSome,Table.get?_insert]
    by_cases hm : m = l
    · simp [hm,hbefore]
    · simp [hm]
  · intro x ls hls y
    by_cases hx : x = a
    · subst hx
      rw [Table.get?_insert_self] at hls
      cases hls
      rw [Names.mem_insert,hg.mem_next hafter,or_comm]
      simp
    · rw [Table.get?_insert_of_ne _ _ hx] at hls
      simp [hg.mem_next hls,hx]
  · intro y ls hls x
    by_cases hy : y = l
    · subst hy
      rw [Table.get?_insert_self] at hls
      cases hls
      rw [Names.mem_insert,hg.mem_prev hbefore,or_comm]
      simp
    · rw [Table.get?_insert_of_ne _ _ hy] at hls
      simp [hg.mem_prev hls,hy]
  · rintro x y (hE | ⟨rfl,rfl⟩)
    · exact hg.edge hE
    · exact ⟨ha,hl⟩

theorem Linked.congr (hg : Linked blocks E g) (h : ∀ x y, E x y ↔ E' x y) : Linked blocks E' g where
  blocks_eq := hg.blocks_eq
  next_isSome := hg.next_isSome
  prev_isSome := hg.prev_isSome
  nodup := hg.nodup
  mem_next hls l := (hg.mem_next hls l).trans (h _ _)
  mem_prev hls a := (hg.mem_prev hls a).trans (h _ _)
  edge hE := hg.edge ((h _ _).2 hE)

def JumpsTo (jumps : List Instr) (l : String) : Prop :=
  ∃ j ∈ jumps, j.target = .name l ∧ l ≠ ""

theorem jumpsTo_cons :
    JumpsTo (j :: jumps) l ↔ (j.target = .name l ∧ l ≠ "") ∨ JumpsTo jumps l := by
  simp [JumpsTo]

theorem Linked.addJumps (hg : Linked blocks E g) (h : Runs (Edit.addJumps a jumps) g () g') :
    Linked blocks (fun x y => E x y ∨ x = a ∧ JumpsTo jumps y) g' ∧ SameHead g g' := by
  induction jumps generalizing g E with
  | nil =>
    cases h
    exact ⟨hg.congr fun x y => by simp [JumpsTo],rfl,rfl⟩
  | cons j jumps ih =>
    rcases runs_addJumps_cons.1 h with ⟨l,g1,htarget,hl,hedge,hrest⟩ | ⟨hskip,hrest⟩
    · obtain ⟨hone,hhead⟩ := hg.addEdge hedge
      obtain ⟨hlinked,hhead'⟩ := ih hone hrest
      refine ⟨hlinked.congr fun x y => ?_,hhead.trans hhead'⟩
      rw [jumpsTo_cons,htarget,Operand.name.injEq]
      grind
    · obtain ⟨hlinked,hhead⟩ := ih hg hrest
      refine ⟨hlinked.congr fun x y => ?_,hhead⟩
      have hnone : ¬(j.target = .name y ∧ y ≠ "") := by
        rintro ⟨htarget,hy⟩
        simp [htarget,Operand.toDatum,Datum.truthy,hy] at hskip
      simp [jumpsTo_cons,hnone]

theorem Linked.addAllJumps (hg : Linked blocks E g) (h : Runs (Edit.addAllJumps bs) g () g') :
    Linked blocks (fun x y => E x y ∨ ∃ b ∈ bs, x = b.label ∧ JumpsTo b.jumps y) g' ∧
      SameHead g g' := by
  induction bs generalizing g E with
  | nil =>
    cases h
    exact ⟨hg.congr fun x y => by simp,rfl,rfl⟩
  | cons b bs ih =>
    unfold Edit.addAllJumps at h
    obtain ⟨u,g1,hfirst,hrest⟩ := h.of_bind
    obtain ⟨hone,hhead⟩ := hg.addJumps hfirst
    obtain ⟨hlinked,hhead'⟩ := ih hone hrest
    refine ⟨hlinked.congr fun x y => ?_,hhead.trans hhead'⟩
    simp [or_assoc]

theorem linked_start (name entry : String) (bs : List Block) :
    Linked (.ofList (bs.map fun b => (b.label,b))) (fun _ _ => False)
      { name, entry, blocks := .ofList (bs.map fun b => (b.label,b))
        next := (Table.ofList (bs.map fun b => (b.label,b))).mapValues fun _ => []
        prev := (Table.ofList (bs.map fun b => (b.label,b))).mapValues fun _ => [] } := by
  refine ⟨rfl,fun l => ?_,fun l => ?_,?_,?_,?_,nofun⟩
  · simp [Table.get?_mapValues,Table.contains]
  · simp [Table.get?_mapValues,Table.contains]
  · rw [Table.keys_mapValues]
    exact Table.nodup_keys_ofList _
  · intro a ls hls l
    rw [Table.get?_mapValues] at hls
    obtain ⟨b,-,rfl⟩ := Option.map_eq_some_iff.1 hls
    simp
  · intro l ls hls a
    rw [Table.get?_mapValues] at hls
    obtain ⟨b,-,rfl⟩ := Option.map_eq_some_iff.1 hls
    simp

theorem linked_ofBlocks (h : Graph.ofBlocks name entry bs = .ok g) :
    Linked (.ofList (bs.map fun b => (b.label,b)))
      (fun x y => ∃ b ∈ bs, x = b.label ∧ JumpsTo b.jumps y) g ∧
      g.name = name ∧ g.entry = entry := by
  unfold Graph.ofBlocks at h
  dsimp only at h
  split at h
  · rename_i u g1 hrun
    cases h
    obtain ⟨hlinked,hname,hentry⟩ := (linked_start name entry bs).addAllJumps hrun
    exact ⟨hlinked.congr fun x y => by simp,hname,hentry⟩
  · cases h

structure Sound (g : Graph) : Prop where
  nodup : g.blocks.keys.Nodup
  label {l : String} {b : Block} : (l,b) ∈ g.blocks.entries → b.label = l
  named {l : String} : g.blocks.contains l = true → Tac.isLabel l = true
  entry : g.blocks.contains g.entry = true
  cut {l : String} {b : Block} : g.blocks.get? l = some b → b.Cut
  closed {l : String} {b : Block} : g.blocks.get? l = some b → b.jumps ≠ [] → b.Closed
  linked : Linked g.blocks (fun x y => ∃ b, g.blocks.get? x = some b ∧ JumpsTo b.jumps y) g

theorem sound_ofBlocks (h : Graph.ofBlocks name b.label (b :: bs) = .ok g)
    (hcut : CutInto code (b :: bs)) :
    Sound g ∧ g.blocks.values = b :: bs ∧ g.name = name ∧ g.entry = b.label := by
  obtain ⟨hlinked,hname,hentry⟩ := linked_ofBlocks h
  have hkeys : (((b :: bs).map fun b => (b.label,b)).map Prod.fst).Nodup := by
    simpa [Function.comp_def] using hcut.nodup
  have hentries : g.blocks.entries = (b :: bs).map fun b => (b.label,b) := by
    rw [hlinked.blocks_eq,Table.entries_ofList hkeys]
  have hnodup : g.blocks.keys.Nodup := by
    rw [Table.keys,hentries]
    exact hkeys
  have hmem : ∀ {l c}, g.blocks.get? l = some c ↔ c ∈ b :: bs ∧ c.label = l := by
    intro l c
    constructor
    · intro hget
      have hin := Table.mem_of_get? hget
      rw [hentries] at hin
      obtain ⟨c',hc',heq⟩ := mem_map.1 hin
      cases heq
      exact ⟨hc',rfl⟩
    · rintro ⟨hc,rfl⟩
      refine Table.get?_of_mem hnodup ?_
      rw [hentries]
      exact mem_map.2 ⟨c,hc,rfl⟩
  refine ⟨⟨hnodup,fun {l c} hlc => ?_,fun {l} hl => ?_,?_,fun hget => ?_,fun {l c} hget hj => ?_,
    ?_⟩,?_,hname,hentry⟩
  · rw [hentries] at hlc
    obtain ⟨c',-,heq⟩ := mem_map.1 hlc
    cases heq
    rfl
  · obtain ⟨c,hget⟩ := (Table.contains_iff _ _).1 hl
    obtain ⟨hc,rfl⟩ := hmem.1 hget
    obtain ⟨k,hk⟩ := hcut.labels
    have hlabel : c.label ∈ (b :: bs).map Block.label := mem_map.2 ⟨c,hc,rfl⟩
    rw [hk] at hlabel
    obtain ⟨n,-,hn⟩ := mem_map.1 hlabel
    rw [← hn]
    exact isLabel_numberText n
  · exact (Table.contains_iff _ _).2 ⟨b,hmem.2 ⟨by simp,hentry.symm⟩⟩
  · exact hcut.cut (hmem.1 hget).1
  · obtain ⟨before,after,heq⟩ := append_of_mem (hmem.1 hget).1
    exact hcut.closed heq (.inl hj)
  · rw [← hlinked.blocks_eq] at hlinked
    refine hlinked.congr fun x y => ?_
    constructor
    · rintro ⟨c,hc,rfl,hjumps⟩
      exact ⟨c,hmem.2 ⟨hc,rfl⟩,hjumps⟩
    · rintro ⟨c,hget,hjumps⟩
      exact ⟨c,(hmem.1 hget).1,(hmem.1 hget).2.symm,hjumps⟩
  · rw [Table.values,hentries,map_map]
    simp [Function.comp_def]

theorem sound_of_infer (h : infer p = .ok (q,g)) :
    Sound g ∧ canonical p = .ok q ∧ CutInto q.body g.blocks.values ∧ g.name = p.name ∧
      ∃ b bs, g.blocks.values = b :: bs ∧ g.entry = b.label := by
  unfold infer at h
  obtain ⟨q',hq,h⟩ := Except.bind_eq_ok.1 h
  obtain ⟨g',hg,h⟩ := Except.bind_eq_ok.1 h
  cases h
  obtain ⟨b,bs,hblocks,hcut⟩ := graphOf_eq_ok (isCanonical_canonical hq) hg
  obtain ⟨hsound,hvalues,hname,hentry⟩ := sound_ofBlocks hblocks hcut
  obtain ⟨u,body,names,-,-,hp⟩ := canonical_eq_ok.1 hq
  refine ⟨hsound,hq,by rwa [hvalues],?_,b,bs,hvalues,hentry⟩
  rw [hname,hp]

end

end BxToolchain.Flow
