import BxToolchain.Proofs.Flow.Edges
import Mathlib.Logic.Relation

namespace BxToolchain.Flow

open Tac List
open Relation (ReflTransGen)

def listingAt (blocks : Table String Block) (l : String) : List Instr :=
  ((blocks.get? l).map Block.listing).getD []

def unseen (seen : List String) : List (String × List String) → Nat
  | [] => 0
  | e :: rest => (if seen.contains e.1 then 0 else e.2.length) + unseen seen rest

theorem unseen_nil (entries : List (String × List String)) :
    unseen [] entries = (entries.flatMap fun e => e.2.map fun l => (e.1,l)).length := by
  induction entries with
  | nil => rfl
  | cons e rest ih => simp [unseen,ih]

theorem unseen_head_le (l k : String) (seen : List String) (n : Nat) :
    (if (l :: seen).contains k then 0 else n) ≤ if seen.contains k then 0 else n := by
  rw [contains_cons]
  cases k == l <;> simp

theorem unseen_cons_le (l : String) (seen : List String) (entries : List (String × List String)) :
    unseen (l :: seen) entries ≤ unseen seen entries := by
  induction entries with
  | nil => exact Nat.le_refl 0
  | cons e rest ih => exact Nat.add_le_add (unseen_head_le ..) ih

variable {ls seen : List String}

theorem unseen_lookup (hl : entries.lookup l = some ls) (hseen : ¬seen.contains l = true) :
    unseen (l :: seen) entries + ls.length ≤ unseen seen entries := by
  induction entries with
  | nil => cases hl
  | cons e rest ih =>
    obtain ⟨k,n⟩ := e
    rw [lookup_cons] at hl
    simp only [unseen]
    split at hl
    · rename_i heq
      cases hl
      rw [beq_iff_eq] at heq
      rw [heq] at hseen
      rw [heq,if_pos (by simp),if_neg hseen]
      have hle := unseen_cons_le k seen rest
      omega
    · have hrest := ih hl
      have hle := unseen_head_le l k seen n.length
      omega

def Schedule.weight (next : Table String (List String)) (s : Schedule) : Nat :=
  s.pending.length + unseen s.seen next.entries

def EdgesIn (next : Table String (List String)) : Prop :=
  ∀ {a ls l}, next.get? a = some ls → l ∈ ls → (next.get? l).isSome = true

def Succeeds (next : Table String (List String)) (a l : String) : Prop :=
  ∃ ls, next.get? a = some ls ∧ l ∈ ls

structure Lists (g : Graph) (fuel : Nat) (s s' : Schedule) (inner : List String) : Prop where
  eq_ok {blocks : Table String Block} : (∀ l ∈ inner, blocks.contains l = true) →
    listInner { g with blocks } fuel s = .ok (inner.flatMap (listingAt blocks),s')
  seen {l : String} : l ∈ s'.seen ↔ l ∈ inner ∨ l ∈ s.seen
  nodup : inner.Nodup
  fresh {l : String} : l ∈ inner → l ∉ s.seen ∧ ∃ ls, g.next.get? l = some ls ∧ ls ≠ []
  ends {l : String} : l ∈ s'.ends → l ∈ s.ends ∨ g.next.get? l = some []
  pending {l : String} : l ∈ s.pending → l ∈ s'.seen ∨ l ∈ s'.ends
  keeps {l : String} : l ∈ s.ends → l ∈ s'.ends
  behind {a l : String} {ls : List String} : a ∈ inner → g.next.get? a = some ls → l ∈ ls →
    l ∈ s'.seen ∨ l ∈ s'.ends
  head {l : String} {rest ls : List String} : s.pending = l :: rest → l ∉ s.seen →
    g.next.get? l = some ls → ls ≠ [] → inner.head? = some l
  reached {l : String} : l ∈ inner ∨ l ∈ s'.ends →
    l ∈ s.ends ∨ ∃ k ∈ s.pending, ReflTransGen (Succeeds g.next) k l

variable {b : Block}

section

variable {g : Graph} {l : String}

theorem block_eq_ok : g.block l = .ok b ↔ g.blocks.get? l = some b := by
  unfold Graph.block
  cases g.blocks.get? l <;> simp

theorem listingAt_eq (h : blocks.get? l = some b) : listingAt blocks l = b.listing := by
  simp [listingAt,h]

theorem listInner_seen (hl : l ∈ seen) :
    listInner g (fuel + 1) ⟨l :: rest,seen,ends⟩ = listInner g fuel ⟨rest,seen,ends⟩ := by
  rw [listInner]
  simp [hl]

theorem listInner_end (hl : l ∉ seen) (hnext : g.next.get? l = some []) :
    listInner g (fuel + 1) ⟨l :: rest,seen,ends⟩ =
      listInner g fuel ⟨rest,seen,l :: ends⟩ := by
  rw [listInner]
  simp [hl,successors_eq_ok.2 hnext,bind,Except.bind]

theorem listInner_block (hl : l ∉ seen) (hnext : g.next.get? l = some (m :: ls))
    (hb : g.blocks.get? l = some b)
    (hrest : listInner g fuel ⟨(m :: ls).reverse ++ rest,l :: seen,ends⟩ = .ok (is,s')) :
    listInner g (fuel + 1) ⟨l :: rest,seen,ends⟩ = .ok (b.listing ++ is,s') := by
  simp only [reverse_cons,append_assoc,singleton_append] at hrest
  rw [listInner]
  simp [hl,successors_eq_ok.2 hnext,block_eq_ok.2 hb,hrest,bind,Except.bind,pure,Except.pure]

theorem lists_of_weight_lt (hedges : EdgesIn g.next) (fuel : Nat) (s : Schedule)
    (hfuel : s.weight g.next < fuel) (hpending : ∀ l ∈ s.pending, (g.next.get? l).isSome = true) :
    ∃ s' inner, Lists g fuel s s' inner := by
  induction fuel generalizing s with
  | zero => omega
  | succ fuel ih =>
    obtain ⟨pending,seen,ends⟩ := s
    cases pending with
    | nil =>
      exact ⟨⟨[],seen,ends⟩,[],fun _ => rfl,by simp,.nil,by simp,.inl,by simp,id,by simp,
        by simp,fun hl => .inl (hl.resolve_left not_mem_nil)⟩
    | cons l rest =>
      simp only [Schedule.weight,length_cons] at hfuel
      obtain ⟨ls,hls⟩ := Option.isSome_iff_exists.1 (hpending l (by simp))
      have hrest : ∀ l ∈ rest, (g.next.get? l).isSome = true :=
        fun l hl => hpending l (by simp [hl])
      by_cases hseen : l ∈ seen
      · obtain ⟨s',inner,h⟩ := ih ⟨rest,seen,ends⟩ (by simp only [Schedule.weight]; omega) hrest
        refine ⟨s',inner,fun hblocks => ?_,h.seen,h.nodup,h.fresh,h.ends,?_,h.keeps,h.behind,?_,?_⟩
        · rw [listInner_seen hseen]
          exact h.eq_ok hblocks
        · intro m hm
          rcases mem_cons.1 hm with rfl | hm
          · exact .inl (h.seen.2 (.inr hseen))
          · exact h.pending hm
        · rintro m ms ks heq hm
          cases heq
          exact absurd hseen hm
        · intro m hm
          exact (h.reached hm).imp_right fun ⟨k,hk,hpath⟩ => ⟨k,mem_cons_of_mem l hk,hpath⟩
      · cases ls with
        | nil =>
          obtain ⟨s',inner,h⟩ := ih ⟨rest,seen,l :: ends⟩
            (by simp only [Schedule.weight]; omega) hrest
          refine ⟨s',inner,fun {blocks} hblocks => ?_,h.seen,h.nodup,h.fresh,fun hm => ?_,?_,
            fun hm => h.keeps (by simp [hm]),h.behind,?_,?_⟩
          · rw [listInner_end (g := { g with blocks }) hseen hls]
            exact h.eq_ok hblocks
          · rcases h.ends hm with hm | hm
            · rcases mem_cons.1 hm with rfl | hm
              · exact .inr hls
              · exact .inl hm
            · exact .inr hm
          · intro m hm
            rcases mem_cons.1 hm with rfl | hm
            · exact .inr (h.keeps (by simp))
            · exact h.pending hm
          · rintro m ms ks heq - hks hne
            cases heq
            cases hls.symm.trans hks
            exact absurd rfl hne
          · intro m hm
            obtain hm | ⟨k,hk,hpath⟩ := h.reached hm
            · obtain rfl | hm := mem_cons.1 hm
              · exact .inr ⟨m,by simp,.refl⟩
              · exact .inl hm
            · exact .inr ⟨k,mem_cons_of_mem l hk,hpath⟩
        | cons m ls =>
          have hweight : Schedule.weight g.next ⟨(m :: ls).reverse ++ rest,l :: seen,ends⟩ <
              fuel := by
            have hunseen : unseen (l :: seen) g.next.entries + (m :: ls).length ≤
                unseen seen g.next.entries :=
              unseen_lookup hls (by simpa using hseen : ¬seen.contains l = true)
            simp only [Schedule.weight,length_append,length_reverse]
            omega
          obtain ⟨s',inner,h⟩ := ih ⟨(m :: ls).reverse ++ rest,l :: seen,ends⟩ hweight
            fun k hk => by
              rcases mem_append.1 hk with hk | hk
              · exact hedges hls (mem_reverse.1 hk)
              · exact hrest k hk
          have hlseen : l ∈ s'.seen := h.seen.2 (.inr (by simp))
          refine ⟨s',l :: inner,fun {blocks} hblocks => ?_,?_,?_,?_,h.ends,?_,h.keeps,?_,?_,?_⟩
          · obtain ⟨b,hb⟩ := (Table.contains_iff _ _).1 (hblocks l (by simp))
            have hinner := h.eq_ok fun k hk => hblocks k (by simp [hk])
            rw [flatMap_cons,listingAt_eq hb]
            exact listInner_block hseen hls hb hinner
          · intro k
            rw [h.seen,mem_cons,mem_cons,or_left_comm,or_assoc]
          · exact nodup_cons.2 ⟨fun hin => (h.fresh hin).1 (by simp),h.nodup⟩
          · intro k hk
            rcases mem_cons.1 hk with rfl | hk
            · exact ⟨hseen,_,hls,by simp⟩
            · exact ⟨fun hin => (h.fresh hk).1 (by simp [hin]),(h.fresh hk).2⟩
          · intro k hk
            rcases mem_cons.1 hk with rfl | hk
            · exact .inl hlseen
            · exact h.pending (by simp [hk])
          · intro a k ks ha hks hk
            rcases mem_cons.1 ha with rfl | ha
            · cases hls.symm.trans hks
              exact h.pending (mem_append.2 (.inl (mem_reverse.2 hk)))
            · exact h.behind ha hks hk
          · rintro k ks ms heq - - -
            cases heq
            rfl
          · intro j hj
            obtain rfl | hj : j = l ∨ j ∈ inner ∨ j ∈ s'.ends := by
              rwa [mem_cons,or_assoc] at hj
            · exact .inr ⟨j,by simp,.refl⟩
            obtain hj | ⟨k,hk,hpath⟩ := h.reached hj
            · exact .inl hj
            · obtain hk | hk := mem_append.1 hk
              · exact .inr ⟨l,by simp,.head ⟨_,hls,mem_reverse.1 hk⟩ hpath⟩
              · exact .inr ⟨k,by simp [hk],hpath⟩

theorem listEnds_eq_ok (g : Graph) (seen ends : List String) :
    ∃ outer : List String, outer.Nodup ∧ (∀ l, l ∈ outer ↔ l ∈ ends ∧ l ∉ seen) ∧
      ∀ {blocks : Table String Block}, (∀ l ∈ outer, blocks.contains l = true) →
        listEnds { g with blocks } seen ends = .ok (outer.flatMap (listingAt blocks)) := by
  induction ends generalizing seen with
  | nil => exact ⟨[],.nil,by simp,fun _ => rfl⟩
  | cons l rest ih =>
    by_cases hseen : l ∈ seen
    · obtain ⟨outer,hnodup,hmem,heq⟩ := ih seen
      refine ⟨outer,hnodup,fun m => ?_,fun hblocks => ?_⟩
      · rw [hmem,mem_cons]
        constructor
        · rintro ⟨hm,hnot⟩
          exact ⟨.inr hm,hnot⟩
        · rintro ⟨rfl | hm,hnot⟩
          · exact absurd hseen hnot
          · exact ⟨hm,hnot⟩
      · rw [listEnds]
        simp only [contains_iff_mem.2 hseen,if_true]
        exact heq hblocks
    · obtain ⟨outer,hnodup,hmem,heq⟩ := ih (l :: seen)
      refine ⟨l :: outer,?_,fun m => ?_,fun {blocks} hblocks => ?_⟩
      · exact nodup_cons.2 ⟨fun hin => ((hmem l).1 hin).2 (by simp),hnodup⟩
      · rw [mem_cons,hmem,mem_cons,mem_cons,not_or]
        constructor
        · rintro (rfl | ⟨hm,-,hnot⟩)
          · exact ⟨.inl rfl,hseen⟩
          · exact ⟨.inr hm,hnot⟩
        · rintro ⟨rfl | hm,hnot⟩
          · exact .inl rfl
          · by_cases hml : m = l
            · exact .inl hml
            · exact .inr ⟨hm,hml,hnot⟩
      · obtain ⟨b,hb⟩ := (Table.contains_iff _ _).1 (hblocks l (by simp))
        have hrest := heq fun m hm => hblocks m (by simp [hm])
        have hb' : Graph.block { g with blocks } l = .ok b := block_eq_ok.2 hb
        rw [listEnds]
        simp [hseen,hb',hrest,listingAt_eq hb,bind,Except.bind,pure,Except.pure]

structure Order (g : Graph) (order : List String) : Prop where
  head : order.head? = some g.entry
  nodup : order.Nodup
  isSome {l : String} : l ∈ order → (g.next.get? l).isSome = true
  behind {a l : String} {ls : List String} : a ∈ order → g.next.get? a = some ls → l ∈ ls →
    l ∈ order
  eq_ok {blocks : Table String Block} : (∀ l ∈ order, blocks.contains l = true) →
    linearize { g with blocks } = .ok (order.flatMap (listingAt blocks))
  reached {l : String} : l ∈ order → ReflTransGen (Succeeds g.next) g.entry l
  parts : ∃ inner outer, order = inner ++ outer ∧
    (∀ l ∈ inner, g.next.get? l ≠ some []) ∧ ∀ l ∈ outer, g.next.get? l = some []

theorem order_singleton (hentry : g.next.get? g.entry = some []) : Order g [g.entry] := by
  refine ⟨rfl,by simp,by simp [hentry],?_,?_,fun hl => mem_singleton.1 hl ▸ .refl,
    [],[g.entry],rfl,by simp,by simpa using hentry⟩
  · intro a l ls ha hls hl
    rw [mem_singleton.1 ha,hentry] at hls
    cases hls
    simp at hl
  · intro blocks hblocks
    obtain ⟨b,hb⟩ := (Table.contains_iff _ _).1 (hblocks g.entry (by simp))
    have hb' : Graph.block { g with blocks } g.entry = .ok b := block_eq_ok.2 hb
    have hinner : listInner { g with blocks } (g.edges.length + 2) { pending := [g.entry] } =
        .ok ([],⟨[],[],[g.entry]⟩) :=
      listInner_end (g := { g with blocks }) (by simp) hentry
    have hlength : Graph.edges { g with blocks } = g.edges := rfl
    unfold linearize
    rw [hlength]
    simp [hinner,listEnds,hb',listingAt_eq hb,bind,Except.bind,pure,Except.pure]

theorem exists_order (hedges : EdgesIn g.next) (hentry : (g.next.get? g.entry).isSome = true) :
    ∃ order, Order g order := by
  obtain ⟨ls,hls⟩ := Option.isSome_iff_exists.1 hentry
  by_cases hnil : ls = []
  · exact ⟨[g.entry],order_singleton (hnil ▸ hls)⟩
  have hweight : Schedule.weight g.next { pending := [g.entry] } < g.edges.length + 2 := by
    simp only [Schedule.weight,length_singleton,unseen_nil,Graph.edges]
    omega
  obtain ⟨s',inner,h⟩ := lists_of_weight_lt hedges _ _ hweight (by simpa using hentry)
  obtain ⟨outer,hnodup,hmem,heq⟩ := listEnds_eq_ok g s'.seen s'.ends
  have hseen : ∀ {l}, l ∈ s'.seen ↔ l ∈ inner := by
    intro l
    rw [h.seen]
    simp
  have hends : ∀ {l}, l ∈ outer → g.next.get? l = some [] := by
    intro l hl
    exact (h.ends ((hmem l).1 hl).1).resolve_left (by simp)
  have hreached : ∀ {l}, l ∈ s'.seen ∨ l ∈ s'.ends → l ∈ inner ++ outer := by
    intro l hl
    rw [mem_append,← hseen,hmem]
    by_cases hin : l ∈ s'.seen
    · exact .inl hin
    · exact .inr ⟨hl.resolve_left hin,hin⟩
  refine ⟨inner ++ outer,?_,?_,?_,?_,?_,fun {l} hl => ?_,inner,outer,rfl,fun l hl => ?_,
    fun l hl => hends hl⟩
  · rw [head?_append,h.head rfl (by simp) hls hnil]
    rfl
  · refine nodup_append.2 ⟨h.nodup,hnodup,?_⟩
    rintro l hl m hm rfl
    obtain ⟨-,ls,hls,hne⟩ := h.fresh hl
    cases hls.symm.trans (hends hm)
    exact hne rfl
  · intro l hl
    rcases mem_append.1 hl with hl | hl
    · obtain ⟨-,ls,hls,-⟩ := h.fresh hl
      simp [hls]
    · simp [hends hl]
  · intro a l ls ha hls hl
    rcases mem_append.1 ha with ha | ha
    · exact hreached (h.behind ha hls hl)
    · cases hls.symm.trans (hends ha)
      simp at hl
  · intro blocks hblocks
    have hinner := h.eq_ok fun l hl => hblocks l (by simp [hl])
    have houter := heq fun l hl => hblocks l (by simp [hl])
    have hlength : Graph.edges { g with blocks } = g.edges := rfl
    unfold linearize
    rw [hlength]
    simp [hinner,houter,bind,Except.bind,pure,Except.pure]
  · have hl : l ∈ inner ∨ l ∈ s'.ends := (mem_append.1 hl).imp_right fun hl => ((hmem l).1 hl).1
    simpa using h.reached hl
  · obtain ⟨-,ls,hls,hne⟩ := h.fresh hl
    simpa [hls] using hne

def Leads (g : Graph) (x y : String) : Prop := ∃ b, g.blocks.get? x = some b ∧ JumpsTo b.jumps y

def ListsReachable (g : Graph) (code : List Instr) : Prop :=
  ∃ inner outer : List String, code = (inner ++ outer).flatMap (listingAt g.blocks) ∧
    (inner ++ outer).Nodup ∧
    (inner ++ outer).head? = some g.entry ∧
    (∀ l, l ∈ inner ++ outer ↔ ReflTransGen (Leads g) g.entry l) ∧
    (∀ l ∈ inner, ∃ m, Leads g l m) ∧ ∀ l ∈ outer, ∀ m, ¬Leads g l m

theorem Linked.succeeds_iff (hg : Linked g.blocks E g) : Succeeds g.next a l ↔ E a l := by
  constructor
  · rintro ⟨ls,hls,hl⟩
    exact (hg.mem_next hls l).1 hl
  · intro h
    obtain ⟨ls,hls⟩ := Option.isSome_iff_exists.1 ((hg.next_isSome a).trans (hg.edge h).1)
    exact ⟨ls,hls,(hg.mem_next hls l).2 h⟩

theorem linearize_reachable (hg : Linked g.blocks (Leads g) g) :
    if g.blocks.contains g.entry then ∃ code, linearize g = .ok code ∧ ListsReachable g code
    else linearize g = .error (missing g.entry) := by
  have hnext := hg.next_isSome
  split
  · rename_i hentry
    have hedges : EdgesIn g.next := fun hls hl =>
      (hnext _).trans (hg.edge (hg.succeeds_iff.1 ⟨_,hls,hl⟩)).2
    obtain ⟨order,h⟩ := exists_order hedges ((hnext _).trans hentry)
    obtain ⟨inner,outer,rfl,hinner,houter⟩ := h.parts
    have hblocks : ∀ l ∈ inner ++ outer, g.blocks.contains l = true := fun l hl =>
      (hnext l).symm.trans (h.isSome hl)
    refine ⟨_,h.eq_ok hblocks,inner,outer,rfl,h.nodup,h.head,fun l => ⟨fun hl => ?_,
      fun hl => ?_⟩,fun l hl => ?_,fun l hl m hm => ?_⟩
    · exact ReflTransGen.mono (fun _ _ => hg.succeeds_iff.1) _ _ (h.reached hl)
    · induction hl with
      | refl => exact mem_of_head? h.head
      | tail _ hstep ih =>
        obtain ⟨ls,hls,hl⟩ := hg.succeeds_iff.2 hstep
        exact h.behind ih hls hl
    · obtain ⟨ls,hls⟩ := Option.isSome_iff_exists.1 (h.isSome (mem_append_left _ hl))
      obtain ⟨m,hm⟩ := exists_mem_of_ne_nil ls fun hnil => hinner l hl (hnil ▸ hls)
      exact ⟨m,hg.succeeds_iff.1 ⟨ls,hls,hm⟩⟩
    · obtain ⟨ls,hls,hmem⟩ := hg.succeeds_iff.2 hm
      cases hls.symm.trans (houter l hl)
      cases hmem
  · rename_i hentry
    have hmissing : g.next.get? g.entry = none := by
      rw [← Option.not_isSome_iff_eq_none,hnext]
      exact hentry
    simp [linearize,listInner,Graph.successors,hmissing,bind,Except.bind]

def circlingProcedure : Procedure :=
  ⟨"@main",[.str "%x"],[.ofLabel "%.La",
     { opcode := .branch .zero, arg1 := .name "%x", arg2 := .name "%.Lc" },.jumpTo "%.La",
     .ofLabel "%.Lb",.jumpTo "%.Lc",.ofLabel "%.Lc",{ opcode := .ret }]⟩

theorem circlingProcedure_linearized : ∃ q g, infer circlingProcedure = .ok (q,g) ∧
    g.blocks.contains g.entry = true ∧ ∃ code, linearize g = .ok code ∧ ListsReachable g code := by
  have hg := (sound_of_infer (p := circlingProcedure) rfl).1
  have h := linearize_reachable hg.linked
  rw [if_pos hg.entry] at h
  exact ⟨_,_,rfl,hg.entry,h⟩

end

end BxToolchain.Flow
