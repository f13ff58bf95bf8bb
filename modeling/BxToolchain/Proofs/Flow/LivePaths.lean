import BxToolchain.Proofs.Flow.LiveUses

namespace BxToolchain.Flow

open Tac Relation List

variable {g : Graph} {live : Lives} {t : String} {p q : Nat} {u : Use}

namespace Graph

def Next (g : Graph) (p q : Nat) : Prop := ∃ k, g.IsLink k ∧ k.before = p ∧ k.after = q

def Passes (g : Graph) (t : String) (p q : Nat) : Prop := g.Next p q ∧ t ∉ g.defs.getD p []

def UsesAt (g : Graph) (t : String) (p : Nat) : Prop := ∃ u ∈ g.uses.getD p [], u.temp = t

def LiveAt (g : Graph) (t : String) (p : Nat) : Prop :=
  ∃ q, ReflTransGen (g.Passes t) p q ∧ g.UsesAt t q

end Graph

def Backed (g : Graph) (live : Lives) : Prop :=
  ∀ p, ∀ u ∈ live.getD p [], ∃ t, u = .plain t ∧ g.LiveAt t p

theorem Graph.LiveAt.back (h : g.LiveAt t q) (hpasses : g.Passes t p q) : g.LiveAt t p := by
  obtain ⟨r,hpath,huse⟩ := h
  exact ⟨r,.head hpasses hpath,huse⟩

theorem Graph.IsLink.lt (hk : g.IsLink k) (hfilled : Filled g) : k.before < g.instrs.length := by
  cases hk with
  | @edge n m b c hb hc he =>
    have hpos := length_pos_of_ne_nil (hfilled b (mem_values_of_places hb))
    exact lt_length_instrs hb (by omega)
  | inner hb hk => exact lt_length_instrs hb (by omega)

theorem Backed.flowBack (h : Backed g live) (hk : g.IsLink k) :
    Backed g (flowBack g.defs live k) := by
  intro p u hu
  rw [Flow.flowBack,getD_setIfInBounds] at hu
  split at hu
  · rename_i hp
    obtain hu | ⟨hu,hdefs⟩ := mem_addLive.1 hu
    · exact h p u (hp.1 ▸ hu)
    · have hafter : u ∈ live.getD k.after [] := by
        unfold carried at hu
        split at hu
        · exact hu
        · obtain ⟨t,rfl,hu | hu⟩ := mem_alongEdge.1 hu
          · exact hu
          · obtain ⟨_,heq,-⟩ := h _ _ hu
            cases heq
      obtain ⟨t,rfl,hlive⟩ := h _ u hafter
      exact ⟨t,rfl,hlive.back ⟨⟨k,hk,hp.1,rfl⟩,hp.1 ▸ hdefs⟩⟩
  · exact h p u hu

theorem Backed.stabilize (hlinks : ∀ k ∈ links, g.IsLink k) (fuel : Nat) (h : Backed g live) :
    Backed g (stabilize g.defs links fuel live) := by
  induction fuel generalizing live with
  | zero => exact h
  | succ fuel ih =>
    have hround : Backed g (links.foldl (Flow.flowBack g.defs) live) :=
      List.foldlRecOn links _ h fun _ hlive k hk => hlive.flowBack (hlinks k hk)
    rw [Flow.stabilize]
    split
    · exact hround
    · exact ih hround

theorem getD_start (uses : Array (List Use)) (p : Nat) :
    (uses.map fun us => addLive [] us []).getD p [] = addLive [] (uses.getD p []) [] := by
  simp only [Array.getD_eq_getD_getElem?,Array.getElem?_map]
  cases uses[p]? <;> rfl

theorem eq_plain_of_mem_uses {i : Instr} (hi : i.opcode ≠ .phi) (hu : u ∈ i.uses) :
    u = .plain u.temp := by
  rw [Instr.uses,if_neg hi,append_nil] at hu
  obtain ⟨t,-,rfl⟩ := mem_map.1 hu
  rfl

section

variable (hphi : ∀ i ∈ g.instrs, i.opcode ≠ .phi)

include hphi

theorem eq_plain_of_mem_usesAt (hu : u ∈ g.uses.getD p []) : u = .plain u.temp := by
  rw [Graph.uses,Array.getD_eq_getD_getElem?,getElem?_toArray,getElem?_map] at hu
  cases hi : g.instrs[p]? with
  | none => simp [hi] at hu
  | some i =>
    rw [hi] at hu
    exact eq_plain_of_mem_uses (hphi i (mem_of_getElem? hi)) hu

theorem backed_liveUses (hlinks : ∀ k ∈ links, g.IsLink k) : Backed g (g.liveUses links) := by
  refine Backed.stabilize hlinks _ fun p u hu => ?_
  rw [getD_start,mem_addLive] at hu
  obtain hu | ⟨hu,-⟩ := hu
  · cases hu
  · exact ⟨_,eq_plain_of_mem_usesAt hphi hu,p,.refl,u,hu,rfl⟩

theorem plain_mem_liveUses (hfilled : Filled g) (hlinks : ∀ k, k ∈ links ↔ g.IsLink k)
    (h : g.LiveAt t p) : .plain t ∈ (g.liveUses links).getD p [] := by
  obtain ⟨hstable,hgrows,-⟩ := stable_liveUses g links
  obtain ⟨q,hpath,u,hu,rfl⟩ := h
  induction hpath using ReflTransGen.head_induction_on with
  | refl =>
    refine (hgrows.before q).subset ?_
    rw [getD_start,mem_addLive,← eq_plain_of_mem_usesAt hphi hu]
    exact .inr ⟨hu,by simp⟩
  | head hpasses _ ih =>
    obtain ⟨⟨k,hk,rfl,rfl⟩,hdefs⟩ := hpasses
    refine hstable.mem ((hlinks k).2 hk) (by rw [size_liveUses]; exact hk.lt hfilled) ?_ hdefs
    unfold carried
    split
    · exact ih
    · exact mem_alongEdge.2 ⟨_,rfl,.inl ih⟩

end

theorem isBroken_of_ne_phi {i : Instr} (hi : i.opcode ≠ .phi) : i.isBroken = false := by
  unfold Instr.isBroken
  split
  · contradiction
  · rfl

theorem liveness_exact (hg : Placed g) (hfilled : Filled g) (hphi : ∀ i ∈ g.instrs, i.opcode ≠ .phi) :
    ∃ l, liveness g = .ok l ∧ ∀ p < g.instrs.length, ∀ t,
      (t ∈ l.before.getD p [] ↔ g.LiveAt t p) ∧
      (t ∈ l.after.getD p [] ↔ ∃ q, g.Next p q ∧ t ∈ l.before.getD q []) := by
  obtain ⟨links,hlinks,hmem⟩ := hg.exists_links hfilled
  have hbacked := backed_liveUses hphi fun k => (hmem k).1
  have hlive : ∀ t p, .plain t ∈ (g.liveUses links).getD p [] ↔ g.LiveAt t p := by
    refine fun t p => ⟨fun hu => ?_,plain_mem_liveUses hphi hfilled hmem⟩
    obtain ⟨_,heq,h⟩ := hbacked p _ hu
    cases heq
    exact h
  have hbefore : ∀ t p, t ∈ ((g.liveUses links).map fun us => Names.ofList (us.map Use.temp)).getD p [] ↔
      .plain t ∈ (g.liveUses links).getD p [] := by
    intro t p
    rw [getD_before,Names.mem_ofList,mem_map]
    refine ⟨fun ⟨u,hu,heq⟩ => ?_,fun hu => ⟨_,hu,rfl⟩⟩
    obtain ⟨_,rfl,-⟩ := hbacked p u hu
    cases heq
    exact hu
  refine ⟨_,liveness_eq (fun i hi => isBroken_of_ne_phi (hphi i hi)) hlinks,fun p hp t => ⟨?_,?_⟩⟩
  · exact (hbefore t p).trans (hlive t p)
  · refine (mem_foldl_addAfter (by simpa using hp)).trans ⟨?_,?_⟩
    · rintro (h | ⟨k,hk,hp,hu⟩)
      · simp [hp] at h
      · obtain ⟨_,heq,hu | hu⟩ := mem_alongEdge.1 hu
        · cases heq
          exact ⟨_,⟨k,(hmem k).1 hk,hp,rfl⟩,(hbefore t _).2 hu⟩
        · obtain ⟨_,heq,-⟩ := hbacked _ _ hu
          cases heq
    · rintro ⟨q,⟨k,hk,hp,rfl⟩,hu⟩
      exact .inr ⟨k,(hmem k).2 hk,hp,mem_alongEdge.2 ⟨t,rfl,.inl ((hbefore t _).1 hu)⟩⟩

def countingGraph : Graph :=
  let start : Block := ⟨"a",[{ opcode := .const, dest := .name "%d", arg1 := .int 1 }],[.jumpTo "b"]⟩
  let loop : Block := ⟨"b",
    [{ opcode := .binary .sub, dest := .name "%n", arg1 := .name "%n", arg2 := .name "%d" }],
    [{ opcode := .branch .zero, arg1 := .name "%n", arg2 := .name "c" },.jumpTo "b"]⟩
  let stop : Block := ⟨"c",[],[{ opcode := .ret, arg1 := .name "%n" }]⟩
  { name := "@count", entry := "a", blocks := ⟨[("a",start),("b",loop),("c",stop)]⟩
    next := ⟨[("a",["b"]),("b",["b","c"]),("c",[])]⟩
    prev := ⟨[("a",[]),("b",["a","b"]),("c",["b"])]⟩ }

theorem countingGraph_exact : ∃ l, liveness countingGraph = .ok l ∧
    ∀ p < countingGraph.instrs.length, ∀ t,
      (t ∈ l.before.getD p [] ↔ countingGraph.LiveAt t p) ∧
      (t ∈ l.after.getD p [] ↔ ∃ q, countingGraph.Next p q ∧ t ∈ l.before.getD q []) := by
  have hlabel : ∀ e ∈ countingGraph.blocks.entries, e.2.label = e.1 := by decide
  have hedge : ∀ e ∈ countingGraph.edges, countingGraph.blocks.contains e.1 = true ∧
      countingGraph.blocks.contains e.2 = true := by decide
  exact liveness_exact ⟨by decide,fun he => hlabel _ he,fun he => hedge _ he⟩
    (by simp [Filled,countingGraph,Table.values,Block.instrs]) (by decide)

end BxToolchain.Flow
