import BxToolchain.Proofs.Bx.Coalescing

namespace BxToolchain.Bx.Shape

open Relation (ReflTransGen)
open List

def Leads (g : Graph) (l t : String) : Prop := ∃ b, g.blocks.get? l = some b ∧ t ∈ b.next

def Reached (g : Graph) : String → Prop := ReflTransGen (Leads g) g.entry

structure Visiting (g : Graph) (unvisited stack : List String) : Prop where
  nodup : unvisited.Nodup
  stack_nodup : stack.Nodup
  stack_subset : stack ⊆ unvisited
  blocks : ∀ l ∈ unvisited, g.blocks.contains l = true
  entry : g.entry ∉ unvisited ∨ g.entry ∈ stack
  closed {l t} : Leads g l t → l ∉ unvisited → t ∉ unvisited ∨ t ∈ stack
  reached {l} : g.blocks.contains l = true → l ∉ unvisited ∨ l ∈ stack → Reached g l

variable {g g' : Graph} {l : String} {b : Block}

theorem mem_pushUnvisited :
    l ∈ pushUnvisited unvisited stack labels ↔ l ∈ stack ∨ l ∈ labels ∧ l ∈ unvisited := by
  induction labels generalizing stack with
  | nil => simp [pushUnvisited]
  | cons n rest ih =>
    rw [pushUnvisited]
    split_ifs with h <;> rw [ih] <;> by_cases hl : l = n <;> simp_all
    tauto

theorem nodup_pushUnvisited (h : stack.Nodup) : (pushUnvisited unvisited stack labels).Nodup := by
  induction labels generalizing stack with
  | nil => exact h
  | cons n rest ih =>
    rw [pushUnvisited]
    split_ifs with hn
    · exact ih (nodup_cons.2 ⟨by simp_all,h⟩)
    · exact ih h

theorem Visiting.pop (h : Visiting g unvisited (node :: stack)) (hb : g.blocks.get? node = some b) :
    Visiting g (unvisited.erase node)
      (pushUnvisited (unvisited.erase node) stack b.next) := by
  have hmem : ∀ {l}, l ∈ unvisited.erase node ↔ l ≠ node ∧ l ∈ unvisited :=
    h.nodup.mem_erase_iff
  obtain ⟨hnode,hnodup⟩ := nodup_cons.1 h.stack_nodup
  obtain ⟨hunvisited,hstack⟩ := cons_subset.1 h.stack_subset
  have hreached := h.reached (h.blocks node hunvisited) (.inr mem_cons_self)
  refine ⟨h.nodup.erase _,nodup_pushUnvisited hnodup,fun l hl => ?_,fun l hl => ?_,?_,
    fun {l t} hleads hl => ?_,fun {l} hblock hl => ?_⟩
  · obtain hl | hl := mem_pushUnvisited.1 hl
    · exact hmem.2 ⟨fun heq => hnode (heq ▸ hl),hstack hl⟩
    · exact hl.2
  · exact h.blocks l (hmem.1 hl).2
  · have := h.entry
    rw [hmem,mem_pushUnvisited]
    rw [mem_cons] at this
    tauto
  · rw [hmem,mem_pushUnvisited,hmem]
    by_cases hl' : l = node
    · obtain ⟨c,hc,ht⟩ := hleads
      rw [hl',hb] at hc
      cases hc
      tauto
    · have := h.closed hleads fun hun => hl (hmem.2 ⟨hl',hun⟩)
      rw [mem_cons] at this
      tauto
  · rw [hmem,mem_pushUnvisited] at hl
    by_cases hl' : l = node
    · exact hl' ▸ hreached
    · obtain hl | hl | hl := hl
      · exact h.reached hblock (.inl fun hun => hl ⟨hl',hun⟩)
      · exact h.reached hblock (.inr (mem_cons_of_mem _ hl))
      · exact hreached.tail ⟨b,hb,hl.1⟩

theorem exists_visit (h : Visiting g unvisited stack) (hfuel : unvisited.length < fuel) :
    ∃ unreached, Runs (visit fuel unvisited stack) g unreached g ∧
      ∀ l, g.blocks.contains l = true → (l ∉ unreached ↔ Reached g l) := by
  induction fuel generalizing unvisited stack with
  | zero => exact absurd hfuel (Nat.not_lt_zero _)
  | succ fuel ih =>
    cases stack with
    | nil =>
      refine ⟨unvisited,runs_pure,fun l hl => ⟨fun hmem => h.reached hl (.inl hmem),fun hr => ?_⟩⟩
      clear hl
      induction hr with
      | refl => exact h.entry.resolve_right not_mem_nil
      | tail _ hleads ih => exact (h.closed hleads ih).resolve_right not_mem_nil
    | cons node stack =>
      have hnode := h.stack_subset mem_cons_self
      obtain ⟨b,hb⟩ := (Table.contains_iff _ _).1 (h.blocks node hnode)
      have hpos := length_pos_of_mem hnode
      obtain ⟨unreached,hrun,hreached⟩ := ih (h.pop hb) (by
        rw [length_erase_of_mem hnode]
        omega)
      refine ⟨unreached,?_,hreached⟩
      rw [visit,if_neg (by simpa using hnode)]
      exact (runs_block_iff.2 ⟨hb,rfl⟩).bind hrun

theorem exists_dropUnreachable (hg : Connected g) :
    ∃ n g', Runs dropUnreachable g n g' ∧ g'.entry = g.entry ∧ g'.blocks.keys.Nodup ∧
      ∀ l b, g'.blocks.get? l = some b ↔ g.blocks.get? l = some b ∧ Reached g l := by
  have hmem : ∀ {l}, l ∈ g.blocks.keys ↔ g.blocks.contains l = true :=
    (Table.contains_iff_mem_keys _ _).symm
  have hstart : Visiting g g.blocks.keys [g.entry] := by
    refine ⟨hg.nodup,nodup_singleton _,?_,fun l => hmem.1,.inr mem_cons_self,
      fun {l t} ⟨b,hb,_⟩ hl => ?_,fun {l} hblock hl => ?_⟩
    · exact cons_subset.2 ⟨hmem.2 hg.entry,nil_subset _⟩
    · exact absurd (hmem.2 ((Table.contains_iff _ _).2 ⟨b,hb⟩)) hl
    · obtain hl | hl := hl
      · exact absurd (hmem.2 hblock) hl
      · obtain rfl := mem_singleton.1 hl
        exact .refl
  obtain ⟨unreached,hrun,hreached⟩ := exists_visit hstart (Nat.lt_succ_self _)
  refine ⟨_,_,runs_get.bind (hrun.bind (runs_modify.bind runs_pure)),rfl,
    hg.nodup.sublist (filter_sublist.map _),fun l b => ?_⟩
  rw [Table.get?_filter fun l => !unreached.contains l]
  by_cases hb : g.blocks.get? l = some b
  · have hl := hreached l ((Table.contains_iff _ _).2 ⟨b,hb⟩)
    by_cases hmem : l ∈ unreached <;> simp_all
  · by_cases hmem : l ∈ unreached <;> simp [hmem,hb]

section

variable (hg : Connected g) (hentry : g'.entry = g.entry) (hnodup : g'.blocks.keys.Nodup)
  (hget : ∀ l b, g'.blocks.get? l = some b ↔ g.blocks.get? l = some b ∧ Reached g l)

include hg hentry hnodup hget in
theorem connected_of_reached : Connected g' := by
  refine ⟨hnodup,?_,fun hb => hg.closed ((hget _ _).1 hb).1,fun {l b t} hb ht => ?_⟩
  · obtain ⟨b,hb⟩ := (Table.contains_iff _ _).1 hg.entry
    rw [hentry,Table.contains_iff]
    exact ⟨b,(hget _ _).2 ⟨hb,.refl⟩⟩
  · obtain ⟨hb,hreached⟩ := (hget l b).1 hb
    obtain ⟨c,hc,hprev⟩ := hg.next hb ht
    exact ⟨c,(hget t c).2 ⟨hc,hreached.tail ⟨b,hb,ht⟩⟩,hprev⟩

include hg hentry hget in
theorem alike_of_reached : RunsAlike shown (layout g) (layout g') := by
  intro σ m
  let S (_ : σ) (r r' : List Instr) : Prop :=
    r' = r ∧ (r = [] ∨ ∃ l b, g.blocks.get? l = some b ∧ Reached g l ∧ r <:+ b.content)
  have hcode : ∀ {t} s, g.blocks.contains t = true → Reached g t →
      Option.Rel (Behind shown m (layout g) S s) (g.code t) (g'.code t) := by
    intro t s ht hreached
    obtain ⟨b,hb⟩ := (Table.contains_iff _ _).1 ht
    rw [Graph.code,Graph.code,hb,(hget t b).2 ⟨hb,hreached⟩]
    exact .some (.of_rel ⟨rfl,.inr ⟨t,b,hb,hreached,suffix_rfl⟩⟩)
  refine Tracks.alikeFor (S := S) ⟨fun s => ?_,And.left,fun {s i r q} ⟨heq,hplace⟩ => ?_⟩
  · rw [layout,layout,hentry]
    exact hcode s hg.entry .refl
  · obtain ⟨l,b,hb,hreached,hsuffix⟩ := hplace.resolve_left (cons_ne_nil _ _)
    refine ⟨i,r,heq,rfl,agrees_self m s i ⟨rfl,.inl rfl⟩ (fun _ => .of_rel ⟨rfl,.inr ⟨l,b,
      hb,hreached,(suffix_cons i r).trans hsuffix⟩⟩) fun t ht => ?_⟩
    have hnext := (hg.closed hb).mem_next (hsuffix.subset mem_cons_self) ht
    obtain ⟨c,hc,-⟩ := hg.next hb hnext
    exact hcode s ((Table.contains_iff _ _).2 ⟨c,hc⟩) (hreached.tail ⟨b,hb,hnext⟩)

end

theorem coalesce_and_dropUnreachable_alike (hg : Connected g) :
    (∃ n g', Runs coalesce g n g' ∧ Connected g' ∧ g'.entry = g.entry ∧
      (∀ l1 l2 b1 b2, ¬Chain g' l1 l2 b1 b2) ∧ RunsAlike shown (layout g) (layout g')) ∧
    ∃ n g', Runs dropUnreachable g n g' ∧ Connected g' ∧ g'.entry = g.entry ∧
      (∀ l b, g'.blocks.get? l = some b ↔ g.blocks.get? l = some b ∧ Reached g l) ∧
      RunsAlike shown (layout g) (layout g') := by
  constructor
  · obtain ⟨n,g',hrun,hg',hno,hentry,halike⟩ :=
      exists_coalesceUpTo hg 0 (Nat.lt_succ_self _)
    exact ⟨n,g',runs_get.bind hrun,hg',hentry,hno,halike⟩
  · obtain ⟨n,g',hrun,hentry,hnodup,hget⟩ := exists_dropUnreachable hg
    exact ⟨n,g',hrun,connected_of_reached hg hentry hnodup hget,hentry,hget,
      alike_of_reached hg hentry hget⟩

def loopGraph : Graph :=
  { blocks := ⟨
    [("main_initial",⟨"main_initial",[labelInstr "main_initial",jumpInstr "a"],["a"],[]⟩),
      ("a",⟨"a",[labelInstr "a",.make "const" [.int 4] (.str "%0"),jumpInstr "b"],["b"],
        ["main_initial"]⟩),
      ("b",⟨"b",[labelInstr "b",.act "cmpq" [.str "%0",.str "@g"],.act "jl" [.str "b"],
        jumpInstr "c"],["c","b"],["a","b"]⟩),
      ("c",⟨"c",[labelInstr "c",.act "ret" []],[],["b"]⟩),
      ("d",⟨"d",[labelInstr "d",jumpInstr "d"],["d"],["d"]⟩)]⟩ }

theorem loopGraph_connected : Connected loopGraph := by
  refine ⟨by decide,by decide,fun {l b} hb => ?_,fun {l b t} hb ht => ?_⟩
  · have hmem := Table.mem_of_get? hb
    simp only [loopGraph,mem_cons,not_mem_nil,or_false,Prod.mk.injEq] at hmem
    obtain ⟨-,rfl⟩ | ⟨-,rfl⟩ | ⟨-,rfl⟩ | ⟨-,rfl⟩ | ⟨-,rfl⟩ := hmem
    · exact ⟨⟨[_],[_],rfl,by decide,by decide⟩,_,rfl,rfl⟩
    · exact ⟨⟨[_,_],[_],rfl,by decide,by decide⟩,_,rfl,rfl⟩
    · exact ⟨⟨[_,_],[_,_],rfl,by decide,by decide⟩,_,rfl,rfl⟩
    · exact ⟨⟨[_,_],[],rfl,by decide,by decide⟩,_,rfl,rfl⟩
    · exact ⟨⟨[_],[_],rfl,by decide,by decide⟩,_,rfl,rfl⟩
  · have hall : ∀ e ∈ loopGraph.blocks.entries, ∀ t ∈ e.2.next,
        (loopGraph.blocks.get? t).any (fun c => c.prev.contains e.1) = true := by
      decide
    obtain ⟨c,hc,hmem⟩ := (Option.any_eq_true _ _).1 (hall _ (Table.mem_of_get? hb) t ht)
    exact ⟨c,hc,contains_iff_mem.1 hmem⟩

theorem loopGraph_alike :
    (∃ n g', Runs coalesce loopGraph n g' ∧ Connected g' ∧ g'.entry = loopGraph.entry ∧
      (∀ l1 l2 b1 b2, ¬Chain g' l1 l2 b1 b2) ∧ RunsAlike shown (layout loopGraph) (layout g')) ∧
    ∃ n g', Runs dropUnreachable loopGraph n g' ∧ Connected g' ∧ g'.entry = loopGraph.entry ∧
      (∀ l b, g'.blocks.get? l = some b ↔ loopGraph.blocks.get? l = some b ∧ Reached loopGraph l) ∧
      RunsAlike shown (layout loopGraph) (layout g') :=
  coalesce_and_dropUnreachable_alike loopGraph_connected

end BxToolchain.Bx.Shape
