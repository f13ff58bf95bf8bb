import BxToolchain.Flow.Liveness
import BxToolchain.Proofs.Flow.Edges
import Mathlib.Algebra.Order.BigOperators.Group.List
import Mathlib.Algebra.Order.Ring.Nat
import Mathlib.Data.List.Perm.Subperm

namespace BxToolchain.Flow

open Tac List

variable {α β : Type} {live : Lives} {u : Use} {n : Nat} {a l : String} {i : Instr}

section

theorem prefix_addLive (defs : List String) (incoming uses : List Use) :
    uses <+: addLive defs incoming uses := by
  induction incoming generalizing uses with
  | nil => exact prefix_refl uses
  | cons v rest ih =>
    rw [addLive,foldl_cons]
    split
    · exact ih uses
    · exact (prefix_append uses [v]).trans (ih _)

theorem mem_addLive : u ∈ addLive defs incoming uses ↔ u ∈ uses ∨ u ∈ incoming ∧ u.temp ∉ defs := by
  induction incoming generalizing uses with
  | nil => simp [addLive]
  | cons v rest ih =>
    rw [addLive,foldl_cons,← addLive,ih]
    split
    · rename_i hskip
      rw [Bool.or_eq_true,contains_iff_mem,contains_iff_mem] at hskip
      constructor
      · rintro (hu | ⟨hu,hdefs⟩)
        · exact .inl hu
        · exact .inr ⟨by simp [hu],hdefs⟩
      · rintro (hu | ⟨hu,hdefs⟩)
        · exact .inl hu
        · rcases mem_cons.1 hu with rfl | hu
          · exact .inl (hskip.resolve_left hdefs)
          · exact .inr ⟨hu,hdefs⟩
    · rename_i hskip
      rw [Bool.or_eq_true,contains_iff_mem,contains_iff_mem,not_or] at hskip
      simp only [mem_append,mem_cons,not_mem_nil,or_false]
      constructor
      · rintro ((hu | rfl) | ⟨hu,hdefs⟩)
        · exact .inl hu
        · exact .inr ⟨.inl rfl,hskip.1⟩
        · exact .inr ⟨.inr hu,hdefs⟩
      · rintro (hu | ⟨rfl | hu,hdefs⟩)
        · exact .inl (.inl hu)
        · exact .inl (.inr rfl)
        · exact .inr ⟨hu,hdefs⟩

theorem nodup_addLive (h : uses.Nodup) : (addLive defs incoming uses).Nodup := by
  induction incoming generalizing uses with
  | nil => exact h
  | cons v rest ih =>
    rw [addLive,foldl_cons]
    split
    · exact ih h
    · rename_i hskip
      rw [Bool.or_eq_true,contains_iff_mem,contains_iff_mem,not_or] at hskip
      refine ih (nodup_append.2 ⟨h,nodup_singleton v,?_⟩)
      rintro a ha b hb rfl
      exact hskip.2 (mem_singleton.1 hb ▸ ha)

theorem mem_alongEdge :
    u ∈ alongEdge label uses ↔
      ∃ t, u = .plain t ∧ (.plain t ∈ uses ∨ .along label t ∈ uses) := by
  rw [alongEdge,mem_filterMap]
  constructor
  · rintro ⟨v,hv,heq⟩
    cases v with
    | plain t =>
      cases heq
      exact ⟨t,rfl,.inl hv⟩
    | along l t =>
      dsimp only at heq
      split at heq
      · rename_i hl
        cases heq
        exact ⟨t,rfl,.inr (beq_iff_eq.1 hl ▸ hv)⟩
      · cases heq
  · rintro ⟨t,rfl,hu | hu⟩
    · exact ⟨_,hu,rfl⟩
    · exact ⟨_,hu,by simp⟩

end

theorem getD_setIfInBounds (lists : Array (List α)) (m n : Nat) (xs : List α) :
    (lists.setIfInBounds m xs).getD n [] =
      if m = n ∧ n < lists.size then xs else lists.getD n [] := by
  simp only [Array.getD_eq_getD_getElem?,Array.getElem?_setIfInBounds]
  by_cases h : m = n
  · subst h
    by_cases hlt : m < lists.size
    · simp [hlt]
    · simp [hlt]
  · simp [h]

structure Grows (live live' : Lives) : Prop where
  size : live'.size = live.size
  before (n : Nat) : live.getD n [] <+: live'.getD n []

theorem Grows.refl (live : Lives) : Grows live live :=
  ⟨rfl,fun _ => prefix_refl _⟩

theorem Grows.trans (h : Grows live live') (h' : Grows live' live'') : Grows live live'' :=
  ⟨h'.size.trans h.size,fun n => (h.before n).trans (h'.before n)⟩

theorem sum_length_le {xs ys : List (List Use)} (hlength : ys.length = xs.length)
    (h : ∀ n, xs.getD n [] <+: ys.getD n []) :
    (xs.map List.length).sum ≤ (ys.map List.length).sum ∧
      ((ys.map List.length).sum = (xs.map List.length).sum → ys = xs) := by
  induction xs generalizing ys with
  | nil =>
    rw [length_nil,length_eq_zero_iff] at hlength
    simp [hlength]
  | cons us xs ih =>
    obtain ⟨vs,ys,rfl⟩ := exists_cons_of_length_eq_add_one hlength
    have hhead : us <+: vs := h 0
    obtain ⟨hle,heq⟩ := ih (Nat.succ.inj hlength) fun n => h (n + 1)
    have hlength' := hhead.length_le
    simp only [map_cons,sum_cons]
    refine ⟨by omega,fun hsum => ?_⟩
    rw [heq (by omega),hhead.eq_of_length (by omega)]

theorem Grows.sums (h : Grows live live') :
    totalSize live ≤ totalSize live' ∧ (totalSize live' = totalSize live → live' = live) := by
  have hlength : live'.toList.length = live.toList.length := by simpa using h.size
  have hsums := sum_length_le hlength
    fun n => by simpa using h.before n
  exact ⟨hsums.1,fun heq => Array.toList_inj.1 (hsums.2 heq)⟩

theorem grows_flowBack (defs : Array (List String)) (live : Lives) (k : Link) :
    Grows live (flowBack defs live k) := by
  refine ⟨by simp [flowBack],fun n => ?_⟩
  rw [flowBack,getD_setIfInBounds]
  split
  · rename_i h
    rw [← h.1]
    exact prefix_addLive ..
  · exact prefix_refl _

theorem grows_foldl (defs : Array (List String)) (links : List Link) (live : Lives) :
    Grows live (links.foldl (flowBack defs) live) := by
  induction links generalizing live with
  | nil => exact .refl live
  | cons k rest ih => exact (grows_flowBack defs live k).trans (ih _)

def Stable (defs : Array (List String)) (links : List Link) (live : Lives) : Prop :=
  ∀ k ∈ links, flowBack defs live k = live

theorem stable_of_totalSize_eq (h : totalSize (links.foldl (flowBack defs) live) = totalSize live) :
    links.foldl (flowBack defs) live = live ∧ Stable defs links live := by
  induction links with
  | nil => exact ⟨rfl,by simp [Stable]⟩
  | cons k rest ih =>
    rw [foldl_cons] at h ⊢
    have hfirst := (grows_flowBack defs live k).sums
    have hrest := (grows_foldl defs rest (flowBack defs live k)).sums.1
    have hk := hfirst.2 (by have := hfirst.1; omega)
    rw [hk] at h ⊢
    obtain ⟨heq,hstable⟩ := ih h
    refine ⟨heq,fun k' hk' => ?_⟩
    rcases mem_cons.1 hk' with rfl | hk'
    · exact hk
    · exact hstable k' hk'

def allUses (uses : Array (List Use)) : List Use :=
  uses.toList.flatten ++ uses.toList.flatten.map fun u => .plain u.temp

theorem length_allUses (uses : Array (List Use)) : (allUses uses).length = 2 * totalSize uses := by
  rw [allUses,length_append,length_map,length_flatten,totalSize,Nat.two_mul]

theorem plain_mem_allUses (h : u ∈ allUses uses) : .plain u.temp ∈ allUses uses := by
  rw [allUses,mem_append,mem_map] at h ⊢
  rcases h with h | ⟨v,hv,rfl⟩
  · exact .inr ⟨u,h,rfl⟩
  · exact .inr ⟨v,hv,rfl⟩

structure Confined (uses : Array (List Use)) (live : Lives) : Prop where
  size : live.size = uses.size
  nodup {us : List Use} : us ∈ live.toList → us.Nodup
  mem {us : List Use} {u : Use} : us ∈ live.toList → u ∈ us → u ∈ allUses uses

section

theorem Confined.getD (h : Confined uses live) (n : Nat) :
    (live.getD n []).Nodup ∧ ∀ u ∈ live.getD n [], u ∈ allUses uses := by
  by_cases hn : n < live.size
  · have hmem : live.getD n [] ∈ live.toList := by simp [hn]
    exact ⟨h.nodup hmem,fun u => h.mem hmem⟩
  · simp [Array.getElem?_eq_none (Nat.le_of_not_lt hn)]

theorem Confined.flowBack (h : Confined uses live) (k : Link) :
    Confined uses (flowBack defs live k) := by
  have hadded : ∀ u ∈ carried k (live.getD k.after []), u ∈ allUses uses := by
    intro u hu
    have hafter := (h.getD k.after).2
    unfold carried at hu
    split at hu
    · exact hafter u hu
    · obtain ⟨t,rfl,hu | hu⟩ := mem_alongEdge.1 hu
      · exact hafter _ hu
      · exact plain_mem_allUses (hafter _ hu)
  have hcases : ∀ {us}, us ∈ (Flow.flowBack defs live k).toList →
      us.Nodup ∧ ∀ u ∈ us, u ∈ allUses uses := by
    intro us hus
    rw [Flow.flowBack,Array.toList_setIfInBounds] at hus
    rcases mem_or_eq_of_mem_set hus with hus | rfl
    · exact ⟨h.nodup hus,fun u => h.mem hus⟩
    · refine ⟨nodup_addLive (h.getD k.before).1,fun u hu => ?_⟩
      rcases mem_addLive.1 hu with hu | ⟨hu,-⟩
      · exact (h.getD k.before).2 u hu
      · exact hadded u hu
  exact ⟨by simp [Flow.flowBack,h.size],fun hus => (hcases hus).1,fun hus => (hcases hus).2 _⟩

theorem Confined.foldl (h : Confined uses live) (links : List Link) :
    Confined uses (links.foldl (Flow.flowBack defs) live) := by
  induction links generalizing live with
  | nil => exact h
  | cons k rest ih => exact ih (h.flowBack k)

theorem Confined.totalSize_le (h : Confined uses live) :
    totalSize live ≤ 2 * totalSize uses * uses.size := by
  have hlength : ∀ n ∈ live.toList.map List.length, n ≤ 2 * totalSize uses := by
    intro n hn
    obtain ⟨us,hus,rfl⟩ := mem_map.1 hn
    rw [← length_allUses]
    exact (subperm_of_subset (h.nodup hus) fun u => h.mem hus).length_le
  have hsum := sum_le_card_nsmul _ _ hlength
  rw [length_map,Array.length_toList,h.size,Nat.nsmul_eq_mul,Nat.mul_comm] at hsum
  exact hsum

theorem stable_stabilize (fuel : Nat) (h : Confined uses live)
    (hfuel : 2 * totalSize uses * uses.size < totalSize live + fuel) :
    Stable defs links (stabilize defs links fuel live) ∧
      Grows live (stabilize defs links fuel live) ∧
      Confined uses (stabilize defs links fuel live) := by
  induction fuel generalizing live with
  | zero => exact absurd h.totalSize_le (by omega)
  | succ fuel ih =>
    have hgrows := grows_foldl defs links live
    rw [stabilize]
    split
    · rename_i heq
      obtain ⟨hsame,hstable⟩ := stable_of_totalSize_eq heq
      rw [hsame]
      exact ⟨hstable,.refl live,h⟩
    · rename_i hne
      have hle := hgrows.sums.1
      have hround : Confined uses (links.foldl (flowBack defs) live) := h.foldl links
      obtain ⟨hstable,hgrows',hconfined⟩ := ih hround (by omega)
      exact ⟨hstable,hgrows.trans hgrows',hconfined⟩

end

variable {xs : List α} {ys : List β} {f : α → Except Fault β}

theorem Except.mapM_eq_ok : xs.mapM f = .ok ys ↔ List.Forall₂ (fun x y => f x = .ok y) xs ys := by
  induction xs generalizing ys with
  | nil => simp [pure,Except.pure,eq_comm]
  | cons x xs ih =>
    rw [mapM_cons,Tac.Except.bind_eq_ok]
    constructor
    · rintro ⟨y,hy,h⟩
      obtain ⟨rest,hrest,h⟩ := Tac.Except.bind_eq_ok.1 h
      cases h
      exact .cons hy (ih.1 hrest)
    · rintro (_ | ⟨hy,hrest⟩)
      exact ⟨_,hy,Tac.Except.bind_eq_ok.2 ⟨_,ih.2 hrest,rfl⟩⟩

theorem Except.mapM_isOk (h : ∀ x ∈ xs, ∃ y, f x = .ok y) : ∃ ys, xs.mapM f = .ok ys := by
  induction xs with
  | nil => exact ⟨[],rfl⟩
  | cons x xs ih =>
    obtain ⟨y,hy⟩ := h x (by simp)
    obtain ⟨ys,hys⟩ := ih fun z hz => h z (by simp [hz])
    exact ⟨y :: ys,Except.mapM_eq_ok.2 (.cons hy (Except.mapM_eq_ok.1 hys))⟩

theorem Except.mem_mapM (h : xs.mapM f = .ok ys) : y ∈ ys ↔ ∃ x ∈ xs, f x = .ok y := by
  induction Except.mapM_eq_ok.1 h with
  | nil => simp
  | cons hhead hrest ih =>
    simp [ih (Except.mapM_eq_ok.2 hrest),hhead,eq_comm]

theorem getElem?_placesFrom (h : (n,b) ∈ Graph.placesFrom m bs) :
    m ≤ n ∧ b ∈ bs ∧ ∀ {k}, k < b.instrs.length →
      (bs.flatMap Block.instrs)[n - m + k]? = b.instrs[k]? := by
  induction bs generalizing m with
  | nil => cases h
  | cons c bs ih =>
    rcases mem_cons.1 h with heq | h
    · cases heq
      refine ⟨Nat.le_refl _,by simp,fun {k} hk => ?_⟩
      rw [Nat.sub_self,Nat.zero_add,flatMap_cons,getElem?_append_left hk]
    · obtain ⟨hle,hmem,hget⟩ := ih h
      refine ⟨by omega,by simp [hmem],fun {k} hk => ?_⟩
      rw [flatMap_cons,getElem?_append_right (by omega),← hget hk]
      congr 1
      omega

theorem map_snd_placesFrom (m : Nat) (bs : List Block) :
    (Graph.placesFrom m bs).map Prod.snd = bs := by
  induction bs generalizing m with
  | nil => rfl
  | cons b bs ih => simp [Graph.placesFrom,ih]

section

variable {g : Graph} {n k : Nat} {b : Block}

theorem getElem?_instrs (h : (n,b) ∈ g.places) (hk : k < b.instrs.length) :
    g.instrs[n + k]? = b.instrs[k]? := by
  have hget := (getElem?_placesFrom h).2.2 hk
  rwa [Nat.sub_zero] at hget

theorem mem_values_of_places (h : (n,b) ∈ g.places) : b ∈ g.blocks.values :=
  (getElem?_placesFrom h).2.1

theorem exists_place (h : b ∈ g.blocks.values) : ∃ n, (n,b) ∈ g.places := by
  rw [← map_snd_placesFrom 0 g.blocks.values] at h
  obtain ⟨⟨n,c⟩,hmem,rfl⟩ := mem_map.1 h
  exact ⟨n,hmem⟩

structure Placed (g : Graph) : Prop where
  nodup : g.blocks.keys.Nodup
  label {l : String} {b : Block} : (l,b) ∈ g.blocks.entries → b.label = l
  edge {a l : String} : (a,l) ∈ g.edges → g.blocks.contains a = true ∧ g.blocks.contains l = true

theorem Placed.map_label (hg : Placed g) : g.blocks.values.map Block.label = g.blocks.keys := by
  rw [Table.values,map_map,Table.keys]
  exact map_congr_left fun e he => hg.label he

theorem Placed.placeOf_eq (hg : Placed g) (h : (n,b) ∈ g.places) :
    g.placeOf b.label = .ok (n,b) := by
  have hnodup : (g.places.map fun e => e.2.label).Nodup := by
    have hlabels : (g.places.map Prod.snd).map Block.label = g.blocks.keys := by
      rw [Graph.places,map_snd_placesFrom,hg.map_label]
    rw [map_map] at hlabels
    exact hlabels ▸ hg.nodup
  have hfind : (g.places.find? fun e => e.2.label == b.label) = some (n,b) := by
    obtain ⟨before,after,heq⟩ := append_of_mem h
    rw [heq,find?_append]
    rw [heq,map_append,map_cons,nodup_append] at hnodup
    have hbefore : before.find? (fun e => e.2.label == b.label) = none := by
      refine find?_eq_none.2 fun e he => ?_
      have hne := hnodup.2.2 e.2.label (mem_map.2 ⟨e,he,rfl⟩) b.label (by simp)
      simpa using hne
    simp [hbefore]
  rw [Graph.placeOf,hfind]

def Filled (g : Graph) : Prop := ∀ b ∈ g.blocks.values, b.instrs ≠ []

theorem Placed.filledPlace_eq (hg : Placed g) (hfilled : Filled g) (h : (n,b) ∈ g.places) :
    g.filledPlace b.label = .ok (n,b) := by
  have hne := hfilled b (mem_values_of_places h)
  simp [Graph.filledPlace,hg.placeOf_eq h,hne,bind,Except.bind,pure,Except.pure]

theorem Sound.mem_edges (hg : Sound g) :
    (a,l) ∈ g.edges ↔ ∃ ls, g.next.get? a = some ls ∧ l ∈ ls := by
  rw [Graph.edges,mem_flatMap]
  constructor
  · rintro ⟨⟨a',ls⟩,he,hl⟩
    obtain ⟨l',hl',heq⟩ := mem_map.1 hl
    cases heq
    exact ⟨ls,Table.get?_of_mem hg.linked.nodup he,hl'⟩
  · rintro ⟨ls,hls,hl⟩
    exact ⟨(a,ls),Table.mem_of_get? hls,mem_map.2 ⟨l,hl,rfl⟩⟩

theorem Sound.placed (hg : Sound g) : Placed g := by
  refine ⟨hg.nodup,hg.label,fun h => ?_⟩
  obtain ⟨ls,hls,hl⟩ := hg.mem_edges.1 h
  exact hg.linked.edge ((hg.linked.mem_next hls _).1 hl)

theorem Placed.exists_places (hg : Placed g) (h : (a,l) ∈ g.edges) :
    ∃ n b m c, (n,b) ∈ g.places ∧ (m,c) ∈ g.places ∧ b.label = a ∧ c.label = l := by
  obtain ⟨ha,hl⟩ := hg.edge h
  obtain ⟨b,hb⟩ := (Table.contains_iff _ _).1 ha
  obtain ⟨c,hc⟩ := (Table.contains_iff _ _).1 hl
  have hb := Table.mem_of_get? hb
  have hc := Table.mem_of_get? hc
  obtain ⟨n,hn⟩ := exists_place (mem_map.2 ⟨_,hb,rfl⟩)
  obtain ⟨m,hm⟩ := exists_place (mem_map.2 ⟨_,hc,rfl⟩)
  exact ⟨n,b,m,c,hn,hm,hg.label hb,hg.label hc⟩

inductive Graph.IsLink (g : Graph) : Link → Prop where
  | edge {n m : Nat} {b c : Block} : (n,b) ∈ g.places → (m,c) ∈ g.places →
      (b.label,c.label) ∈ g.edges → g.IsLink ⟨b.label,n + (b.instrs.length - 1),c.label,m⟩
  | inner {n k : Nat} {b : Block} : (n,b) ∈ g.places → k + 1 < b.instrs.length →
      g.IsLink ⟨b.label,n + k,b.label,n + k + 1⟩

theorem Placed.edgeLink_eq (hg : Placed g) (hfilled : Filled g) {n b m c} (hb : (n,b) ∈ g.places)
    (hc : (m,c) ∈ g.places) :
    (do
      let (n,b') ← g.filledPlace b.label
      let (m,_) ← g.filledPlace c.label
      return ⟨b.label,n + (b'.instrs.length - 1),c.label,m⟩ : Except Fault Link) =
    .ok ⟨b.label,n + (b.instrs.length - 1),c.label,m⟩ := by
  simp [hg.filledPlace_eq hfilled hb,hg.filledPlace_eq hfilled hc,bind,Except.bind,pure,Except.pure]

theorem Placed.exists_links (hg : Placed g) (hfilled : Filled g) :
    ∃ links, g.links = .ok links ∧ ∀ k, k ∈ links ↔ g.IsLink k := by
  have hedge := @Placed.edgeLink_eq g hg hfilled
  have hblock : ∀ {n b}, (n,b) ∈ g.places → Graph.blockLinks (n,b) =
      .ok ((List.range (b.instrs.length - 1)).reverse.map fun i =>
        ⟨b.label,n + i,b.label,n + i + 1⟩) := by
    intro n b hb
    simp [Graph.blockLinks,hfilled b (mem_values_of_places hb)]
  obtain ⟨edgeLinks,hedges⟩ : ∃ links, g.edgeLinks = .ok links := by
    refine Except.mapM_isOk fun e he => ?_
    obtain ⟨a,l⟩ := e
    obtain ⟨n,b,m,c,hb,hc,rfl,rfl⟩ := hg.exists_places he
    exact ⟨_,hedge hb hc⟩
  obtain ⟨blockLinks,hblocks⟩ : ∃ links, g.places.mapM Graph.blockLinks = .ok links :=
    Except.mapM_isOk fun _ hb => ⟨_,hblock hb⟩
  refine ⟨edgeLinks ++ blockLinks.flatten,?_,fun k => ?_⟩
  · simp [Graph.links,hedges,hblocks,bind,Except.bind,pure,Except.pure]
  · rw [mem_append,mem_flatten,Except.mem_mapM hedges]
    constructor
    · rintro (⟨⟨a,l⟩,he,hk⟩ | ⟨ks,hks,hk⟩)
      · obtain ⟨n,b,m,c,hb,hc,rfl,rfl⟩ := hg.exists_places he
        cases (hedge hb hc).symm.trans hk
        exact .edge hb hc he
      · obtain ⟨⟨n,b⟩,hb,hks⟩ := (Except.mem_mapM hblocks).1 hks
        cases (hblock hb).symm.trans hks
        obtain ⟨i,hi,rfl⟩ := mem_map.1 hk
        rw [mem_reverse,mem_range] at hi
        exact .inner hb (by omega)
    · rintro (⟨hb,hc,he⟩ | ⟨hb,hk⟩)
      · exact .inl ⟨_,he,hedge hb hc⟩
      · refine .inr ⟨_,(Except.mem_mapM hblocks).2 ⟨_,hb,hblock hb⟩,mem_map.2 ⟨_,?_,rfl⟩⟩
        rw [mem_reverse,mem_range]
        omega

theorem mem_foldl_addAfter {links : List Link} {after : Array (List String)} {t : String}
    (hn : n < after.size) : t ∈ (links.foldl (addAfter live) after).getD n [] ↔
      t ∈ after.getD n [] ∨
        ∃ k ∈ links, k.before = n ∧ .plain t ∈ alongEdge k.source (live.getD k.after []) := by
  have hfold : ∀ (us : List Use) (acc : List String),
      us.foldl (fun acc u => Names.insert u.temp acc) acc =
        (us.map Use.temp).foldl (fun acc x => Names.insert x acc) acc := by
    intro us acc
    rw [foldl_map]
  have htemp : ∀ (label : String) (us : List Use),
      t ∈ (alongEdge label us).map Use.temp ↔ .plain t ∈ alongEdge label us := by
    intro label us
    refine ⟨fun h => ?_,fun h => mem_map.2 ⟨_,h,rfl⟩⟩
    obtain ⟨u,hu,rfl⟩ := mem_map.1 h
    obtain ⟨t,rfl,-⟩ := mem_alongEdge.1 hu
    exact hu
  induction links generalizing after with
  | nil => simp
  | cons k rest ih =>
    have hsize : n < (addAfter live after k).size := by simpa [addAfter] using hn
    refine (ih hsize).trans ?_
    rw [addAfter,getD_setIfInBounds,hfold]
    by_cases heq : k.before = n
    · rw [if_pos ⟨heq,hn⟩,Names.mem_foldl_insert,htemp,heq]
      simp [heq,or_assoc,or_left_comm]
    · simp [heq]

theorem pairwise_insert {x xs} (h : xs.Pairwise (· < ·)) :
    (Names.insert x xs).Pairwise (· < ·) := by
  induction xs with
  | nil => simp [Names.insert]
  | cons y rest ih =>
    obtain ⟨hhead,hrest⟩ := pairwise_cons.1 h
    rw [Names.insert]
    split
    · rename_i hlt
      refine pairwise_cons.2 ⟨fun z hz => ?_,h⟩
      rcases mem_cons.1 hz with rfl | hz
      · exact hlt
      · exact String.lt_trans hlt (hhead z hz)
    · split
      · exact h
      · rename_i hlt hne
        refine pairwise_cons.2 ⟨fun z hz => ?_,ih hrest⟩
        rcases Names.mem_insert.1 hz with rfl | hz
        · exact String.not_le.1 fun hle => hne (String.le_antisymm hle (String.not_lt.1 hlt))
        · exact hhead z hz

theorem Names.nodup_ofList (xs : List String) : (Names.ofList xs).Nodup := by
  have hfold : ∀ (xs acc : List String), acc.Pairwise (· < ·) →
      (xs.foldl (fun acc x => Names.insert x acc) acc).Pairwise (· < ·) := by
    intro xs
    induction xs with
    | nil => exact fun acc h => h
    | cons x xs ih => exact fun acc h => ih _ (pairwise_insert h)
  have hne : ∀ {x y : String}, x < y → x ≠ y := by
    rintro x _ hlt rfl
    exact String.lt_irrefl x hlt
  exact (hfold xs [] .nil).imp hne

structure LiveSets (g : Graph) (l : Liveness) (live : Lives) : Prop where
  before {n : Nat} {t : String} : t ∈ l.before.getD n [] ↔ ∃ u ∈ live.getD n [], u.temp = t
  nodup (n : Nat) : (l.before.getD n []).Nodup
  origin {n : Nat} {u : Use} : u ∈ live.getD n [] →
    ∃ i ∈ g.instrs, ∃ v ∈ i.uses, u = v ∨ u = .plain v.temp
  use {n k : Nat} {b : Block} {i : Instr} {u : Use} : (n,b) ∈ g.places → b.instrs[k]? = some i →
    u ∈ i.uses → u ∈ live.getD (n + k) []
  inner {n k : Nat} {b : Block} {i : Instr} {u : Use} : (n,b) ∈ g.places →
    b.instrs[k]? = some i → k + 1 < b.instrs.length → u ∈ live.getD (n + k + 1) [] →
    u.temp ∉ i.defs → u ∈ live.getD (n + k) []
  edge {n m : Nat} {b c : Block} {i : Instr} {u : Use} : (n,b) ∈ g.places → (m,c) ∈ g.places →
    (b.label,c.label) ∈ g.edges → b.instrs.getLast? = some i →
    u ∈ (if b.label == c.label then live.getD m [] else alongEdge b.label (live.getD m [])) →
    u.temp ∉ i.defs → u ∈ live.getD (n + (b.instrs.length - 1)) []
  after {n k : Nat} {b : Block} {t : String} : (n,b) ∈ g.places → k + 1 < b.instrs.length →
    .plain t ∈ alongEdge b.label (live.getD (n + k + 1) []) → t ∈ l.after.getD (n + k) []

theorem Stable.mem {defs k} (h : Stable defs links live)
    (hk : k ∈ links) (hlt : k.before < live.size) (hu : u ∈ carried k (live.getD k.after []))
    (hdefs : u.temp ∉ defs.getD k.before []) : u ∈ live.getD k.before [] := by
  have hget : (flowBack defs live k).getD k.before [] = live.getD k.before [] := by
    rw [h k hk]
  rw [flowBack,getD_setIfInBounds,if_pos ⟨rfl,hlt⟩] at hget
  rw [← hget]
  exact mem_addLive.2 (.inr ⟨hu,hdefs⟩)

theorem confined_uses (uses : Array (List Use)) :
    Confined uses (uses.map fun us => addLive [] us []) := by
  have hmem : ∀ {us}, us ∈ (uses.map fun us => addLive [] us []).toList →
      ∃ vs ∈ uses.toList, us = addLive [] vs [] := by
    intro us hus
    rw [Array.toList_map] at hus
    obtain ⟨vs,hvs,rfl⟩ := mem_map.1 hus
    exact ⟨vs,hvs,rfl⟩
  refine ⟨by simp,fun hus => ?_,fun hus hu => ?_⟩
  · obtain ⟨vs,-,rfl⟩ := hmem hus
    exact nodup_addLive .nil
  · obtain ⟨vs,hvs,rfl⟩ := hmem hus
    rcases mem_addLive.1 hu with hu | ⟨hu,-⟩
    · cases hu
    · exact mem_append.2 (.inl (mem_flatten.2 ⟨vs,hvs,hu⟩))

def Graph.defs (g : Graph) : Array (List String) := (g.instrs.map Instr.defs).toArray

def Graph.uses (g : Graph) : Array (List Use) := (g.instrs.map Instr.uses).toArray

def Graph.liveUses (g : Graph) (links : List Link) : Lives :=
  stabilize g.defs links (2 * totalSize g.uses * g.instrs.length + 1)
    (g.uses.map fun us => addLive [] us [])

theorem size_uses (g : Graph) : g.uses.size = g.instrs.length := by
  simp [Graph.uses]

theorem stable_liveUses (g : Graph) (links : List Link) :
    Stable g.defs links (g.liveUses links) ∧
      Grows (g.uses.map fun us => addLive [] us []) (g.liveUses links) ∧
      Confined g.uses (g.liveUses links) :=
  stable_stabilize _ (confined_uses g.uses) (by rw [size_uses]; omega)

theorem size_liveUses (g : Graph) (links : List Link) :
    (g.liveUses links).size = g.instrs.length := by
  rw [(stable_liveUses g links).2.1.size,Array.size_map,size_uses]

theorem getD_before (live : Lives) (n : Nat) :
    (live.map fun us => Names.ofList (us.map Use.temp)).getD n [] =
      Names.ofList ((live.getD n []).map Use.temp) := by
  simp only [Array.getD_eq_getD_getElem?,Array.getElem?_map]
  cases live[n]? <;> rfl

theorem origin_liveUses (h : u ∈ (g.liveUses links).getD n []) :
    ∃ i ∈ g.instrs, ∃ v ∈ i.uses, u = v ∨ u = .plain v.temp := by
  have huses : ∀ {v}, v ∈ g.uses.toList.flatten → ∃ i ∈ g.instrs, v ∈ i.uses := by
    intro v hv
    obtain ⟨us,hus,hv⟩ := mem_flatten.1 hv
    obtain ⟨i,hi,rfl⟩ := mem_map.1 hus
    exact ⟨i,hi,hv⟩
  rcases mem_append.1 (((stable_liveUses g links).2.2.getD n).2 u h) with hu | hu
  · obtain ⟨i,hi,hu⟩ := huses hu
    exact ⟨i,hi,u,hu,.inl rfl⟩
  · obtain ⟨v,hv,rfl⟩ := mem_map.1 hu
    obtain ⟨i,hi,hv⟩ := huses hv
    exact ⟨i,hi,v,hv,.inr rfl⟩

theorem liveness_eq (hread : ∀ i ∈ g.instrs, i.isBroken = false) (hlinks : g.links = .ok links) :
    liveness g = .ok
      { before := (g.liveUses links).map fun us => Names.ofList (us.map Use.temp)
        after := links.foldl (addAfter (g.liveUses links)) (g.instrs.map fun _ => []).toArray } := by
  have hany : g.instrs.any Instr.isBroken = false := by
    rw [any_eq_false]
    exact fun i hi => by simp [hread i hi]
  simp only [liveness,hany,hlinks,bind,Except.bind,pure,Except.pure]
  rfl

theorem lt_length_instrs (hb : (n,b) ∈ g.places) (hk : k < b.instrs.length) :
    n + k < g.instrs.length := by
  have hget := getElem?_instrs hb hk
  rw [getElem?_eq_getElem hk] at hget
  exact (List.getElem?_eq_some_iff.1 hget).1

theorem getD_defs (hb : (n,b) ∈ g.places) (hi : b.instrs[k]? = some i) :
    g.defs.getD (n + k) [] = i.defs := by
  have hget := getElem?_instrs hb (List.getElem?_eq_some_iff.1 hi).1
  simp [Graph.defs,Array.getD_eq_getD_getElem?,hget,hi]

theorem mem_liveUses (links : List Link) (hb : (n,b) ∈ g.places) (hi : b.instrs[k]? = some i)
    (hu : u ∈ i.uses) : u ∈ (g.liveUses links).getD (n + k) [] := by
  have hget := getElem?_instrs hb (List.getElem?_eq_some_iff.1 hi).1
  refine ((stable_liveUses g links).2.1.before (n + k)).subset ?_
  simp only [Graph.uses,Array.getD_eq_getD_getElem?,Array.getElem?_map,getElem?_toArray,
    getElem?_map,hget,hi,Option.map_some,Option.getD_some]
  exact mem_addLive.2 (.inr ⟨hu,by simp⟩)

theorem Sound.exists_liveness (hg : Sound g) (hfilled : Filled g)
    (hread : ∀ i ∈ g.instrs, i.isBroken = false) :
    ∃ l live, liveness g = .ok l ∧ LiveSets g l live := by
  obtain ⟨links,hlinks,hmem⟩ := hg.placed.exists_links hfilled
  obtain ⟨hstable,-⟩ := stable_liveUses g links
  have hsize := size_liveUses g links
  refine ⟨_,g.liveUses links,liveness_eq hread hlinks,fun {n t} => ?_,fun n => ?_,fun {n u} hu => ?_,mem_liveUses _,?_,?_,?_⟩
  · rw [getD_before,Names.mem_ofList,mem_map]
  · rw [getD_before]
    exact Names.nodup_ofList _
  · exact origin_liveUses hu
  · intro n k b i u hb hi hk hu hnot
    refine hstable.mem ((hmem _).2 (.inner hb hk)) ?_ ?_ ?_
    · rw [hsize]
      exact lt_length_instrs hb (by omega)
    · simpa [carried] using hu
    · rwa [getD_defs hb hi]
  · intro n m b c i u hb hc he hi hu hnot
    have hpos : 0 < b.instrs.length := length_pos_of_mem (mem_of_getLast? hi)
    refine hstable.mem ((hmem _).2 (.edge hb hc he)) ?_ hu ?_
    · rw [hsize]
      exact lt_length_instrs hb (by omega)
    · rwa [getD_defs hb (getLast?_eq_getElem? ▸ hi)]
  · intro n k b t hb hk hu
    refine (mem_foldl_addAfter ?_).2 (.inr ⟨_,(hmem _).2 (.inner hb hk),rfl,hu⟩)
    rw [size_toArray,length_map]
    exact lt_length_instrs hb (by omega)

end

end BxToolchain.Flow
