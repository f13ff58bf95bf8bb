import BxToolchain.Proofs.Bx.Unreachable
import Mathlib.Data.List.Perm.Subperm

namespace BxToolchain.Bx.Shape

open List

def blockCode (g : Graph) (l : String) : List Instr := (g.code l).getD []

structure EndsWithJumps (g : Graph) (b : Block) : Prop where
  filled : b.content ≠ []
  jump : ∀ i ∈ b.content, i.isJump = .ok false ∨
    i.isJump = .ok true ∧ ∃ x, i.args = .list [x] ∧ g.blocks.contains x.display = true
  next : ∃ body jumps, b.content = body ++ jumps ∧ (∀ i ∈ body.getLast?, i.isJump = .ok false) ∧
    (jumps.map Instr.goal?).Perm (b.next.map some)

structure Serializable (g : Graph) : Prop where
  nodup : g.blocks.keys.Nodup
  entry : g.blocks.contains g.entry = true
  block {l b} : g.blocks.get? l = some b → EndsWithJumps g b
  starts : (∃ b i, g.blocks.get? g.entry = some b ∧ b.content.getLast? = some i ∧
    i.isJump = .ok true) ∨ g.blocks.keys = [g.entry]

structure Scheduled (g : Graph) (s : Schedule) : Prop where
  nodup : s.done.Nodup
  subset : s.done ⊆ g.blocks.keys
  head : s.done.head? = some g.entry
  result : s.result = s.done.flatMap (blockCode g)

def Aims (g : Graph) (s : Schedule) : Prop := s.current ∈ g.blocks.keys ∧ s.label = s.current

variable {α : Type} {g : Graph} {s : Schedule} {b : Block} {i : Instr} {l t : String} {fuel : Nat}

theorem runs_lift_iff : Runs (lift r) g a g' ↔ r = .ok a ∧ g' = g := by
  cases r with
  | error e => exact ⟨fun h => absurd h not_runs_throw,nofun⟩
  | ok x => exact runs_pure_iff.trans (and_congr_left fun _ => by rw [Except.ok.injEq,eq_comm])

theorem last_eq (h : b.content.getLast? = some i) : b.last = .ok i := by
  have hpos : 0 < b.content.length := length_pos_of_mem (mem_of_getLast? h)
  rw [getLast?_eq_getElem?] at h
  have hindex : ((-1 : Int) + b.content.length).toNat = b.content.length - 1 := by omega
  simp only [Block.last,Block.instr,Int.reduceNeg,Int.reduceLT,ite_true,hindex,h]
  rw [if_neg (by omega)]

theorem target_eq (h : i.args = .list [x]) : i.target = .ok x.display := by
  rw [Instr.target,Instr.arg,h]
  rfl

namespace Scheduled

theorem mem_entry (h : Scheduled g s) : g.entry ∈ s.done := mem_of_head? h.head

theorem length_le (h : Scheduled g s) : s.done.length ≤ g.blocks.keys.length :=
  (subperm_of_subset h.nodup h.subset).length_le

theorem write (h : Scheduled g s) (hb : g.blocks.get? s.current = some b) (hnew : s.current ∉ s.done)
    (current label : String) :
    Scheduled g ⟨s.done ++ [s.current],s.result ++ b.content,current,label⟩ := by
  have hkeys : s.current ∈ g.blocks.keys :=
    (Table.contains_iff_mem_keys _ _).1 ((Table.contains_iff _ _).2 ⟨b,hb⟩)
  refine ⟨nodup_append.2 ⟨h.nodup,nodup_singleton _,?_⟩,?_,?_,?_⟩
  · rintro l hl _ hmem rfl
    exact hnew (mem_singleton.1 hmem ▸ hl)
  · exact append_subset.2 ⟨h.subset,cons_subset.2 ⟨hkeys,nil_subset _⟩⟩
  · rw [head?_append,h.head]
    rfl
  · rw [flatMap_append,flatMap_singleton,← h.result,blockCode,Graph.code,hb]
    rfl

end Scheduled

theorem Serializable.mem_keys_of_next (hg : Serializable g) (hb : g.blocks.get? l = some b)
    (ht : t ∈ b.next) : t ∈ g.blocks.keys := by
  obtain ⟨body,jumps,hcontent,-,hperm⟩ := (hg.block hb).next
  obtain ⟨i,hi,hgoal⟩ := mem_map.1 (hperm.mem_iff.2 (mem_map_of_mem ht))
  have hmem : i ∈ b.content := hcontent ▸ mem_append_right body hi
  obtain hjump | ⟨hjump,x,hargs,hblock⟩ := (hg.block hb).jump i hmem
  · simp [Instr.goal?,hjump] at hgoal
  · simp only [Instr.goal?,hjump,target_eq hargs,Option.some.injEq] at hgoal
    exact hgoal ▸ (Table.contains_iff_mem_keys _ _).1 hblock

theorem exists_follow (hg : Serializable g) (h : Scheduled g s) (haims : Aims g s)
    (hnew : s.current ∉ s.done) (hfuel : g.blocks.keys.length < s.done.length + fuel) :
    ∃ s', Runs (follow g.entry fuel s) g s' g ∧ Scheduled g s' ∧ s.done.length < s'.done.length ∧
      (s'.current ∈ s'.done ∨ Aims g s') := by
  induction fuel generalizing s with
  | zero => exact absurd h.length_le (by omega)
  | succ fuel ih =>
    obtain ⟨b,hb⟩ := (Table.contains_iff _ _).1 ((Table.contains_iff_mem_keys _ _).2 haims.1)
    obtain ⟨i,hlast⟩ : ∃ i, b.content.getLast? = some i :=
      ⟨_,getLast?_eq_getLast_of_ne_nil ((hg.block hb).filled)⟩
    have hentry : s.current ≠ g.entry := fun heq => hnew (heq ▸ h.mem_entry)
    have hwrite := h.write hb hnew
    have hlength : s.done.length < (s.done ++ [s.current]).length := by simp
    obtain ⟨label,hlabel,hgo⟩ : ∃ label, (label ∈ s.done ++ [s.current] ∨ label ∈ g.blocks.keys) ∧
        ∀ (f : String → Shape Schedule) s', Runs (lift i.isJump >>= fun jumps =>
          if jumps = true then lift i.target >>= f else pure s.label >>= f) g s' g ↔
            Runs (f label) g s' g := by
      obtain hjump | ⟨hjump,x,hargs,hx⟩ := (hg.block hb).jump i (mem_of_getLast? hlast)
      · exact ⟨s.label,.inl (by simp [haims.2]),fun f s' => (runs_lift_iff.2 ⟨hjump,rfl⟩).bind_iff⟩
      · refine ⟨x.display,.inr ((Table.contains_iff_mem_keys _ _).1 hx),fun f s' => ?_⟩
        exact (runs_lift_iff.2 ⟨hjump,rfl⟩).bind_iff.trans
          (runs_lift_iff.2 ⟨target_eq hargs,rfl⟩).bind_iff
    simp only [follow,(runs_block_iff.2 ⟨hb,rfl⟩).bind_iff,beq_false_of_ne hentry,
      (runs_lift_iff.2 ⟨last_eq hlast,rfl⟩).bind_iff,hgo,Bool.false_eq_true,if_false]
    by_cases hdone : label ∈ s.done ++ [s.current]
    · simp only [contains_iff_mem.2 hdone,if_true]
      split
      · rename_i t ht
        exact ⟨_,runs_pure,hwrite _ _,hlength,
          .inr ⟨hg.mem_keys_of_next hb (mem_of_find?_eq_some ht),rfl⟩⟩
      · exact ⟨_,runs_pure,hwrite _ _,hlength,.inl (by simp)⟩
    · obtain ⟨s',hrun,hs',hlt,haims'⟩ := ih (hwrite label label)
        ⟨hlabel.resolve_left hdone,rfl⟩ hdone (by simp; omega)
      exact ⟨s',by simpa [hdone] using hrun,hs',Nat.lt_trans hlength hlt,haims'⟩

theorem exists_schedule (hg : Serializable g) (h : Scheduled g s)
    (haims : s.current ∈ s.done ∨ Aims g s) (hstarts : starts = true ∨ g.blocks.keys ⊆ s.done)
    (hfuel : g.blocks.keys.length < s.done.length + fuel) :
    ∃ s', Runs (scheduleUpTo g.entry g.blocks.keys starts fuel s) g s' g ∧ Scheduled g s' ∧
      g.blocks.keys ⊆ s'.done := by
  induction fuel generalizing s with
  | zero => exact absurd h.length_le (by omega)
  | succ fuel ih =>
    rw [scheduleUpTo]
    split
    · rename_i hnone
      refine ⟨s,runs_pure,h,fun l hl => ?_⟩
      simpa using find?_eq_none.1 hnone l hl
    · rename_i l hsome
      have hl : l ∈ g.blocks.keys := mem_of_find?_eq_some hsome
      have hnew : l ∉ s.done := by simpa using find?_some hsome
      obtain rfl : starts = true := hstarts.resolve_right fun hsub => hnew (hsub hl)
      obtain ⟨s1,hs1,haims1,hnew1,hsame⟩ : ∃ s1, Scheduled g s1 ∧ Aims g s1 ∧
          s1.current ∉ s1.done ∧ s1 = if s.done.contains s.current then
            { s with current := l, label := l } else s := by
        by_cases hdone : s.current ∈ s.done
        · exact ⟨{ s with current := l, label := l },⟨h.nodup,h.subset,h.head,h.result⟩,
            ⟨hl,rfl⟩,hnew,by simp [hdone]⟩
        · exact ⟨s,h,haims.resolve_left hdone,hdone,by simp [hdone]⟩
      have hlength : s1.done.length = s.done.length := by
        rw [hsame]
        split <;> rfl
      have hbound : g.blocks.keys.length < s1.done.length + (g.blocks.keys.length + 1) := by omega
      obtain ⟨s2,hfollow,hs2,hlt,haims2⟩ := exists_follow hg hs1 haims1 hnew1 hbound
      obtain ⟨s',hrun,hs',hall⟩ := ih hs2 haims2 (.inl rfl) (by omega)
      exact ⟨s',by rw [← hsame]; exact hfollow.bind hrun,hs',hall⟩

theorem serialize_concatenates (hg : Serializable g) : ∃ order : List String,
    Runs serialize g (order.flatMap (blockCode g)) g ∧ order.Perm g.blocks.keys ∧
      order.head? = some g.entry := by
  obtain ⟨b,hb⟩ := (Table.contains_iff _ _).1 hg.entry
  obtain ⟨i,hlast⟩ : ∃ i, b.content.getLast? = some i :=
    ⟨_,getLast?_eq_getLast_of_ne_nil ((hg.block hb).filled)⟩
  have hstart : Scheduled g ⟨[g.entry],b.content,g.entry,g.entry⟩ :=
    ⟨nodup_singleton _,by simpa [Table.contains_iff_mem_keys] using hg.entry,rfl,
      by simp [blockCode,Graph.code,hb]⟩
  have hfinish : ∀ {starts}, (starts = true ∨ g.blocks.keys ⊆ [g.entry]) → ∃ order : List String,
      Runs (scheduleUpTo g.entry g.blocks.keys starts (g.blocks.keys.length + 1)
        ⟨[g.entry],b.content,g.entry,g.entry⟩ >>= fun s => pure s.result) g
        (order.flatMap (blockCode g)) g ∧ order.Perm g.blocks.keys ∧ order.head? = some g.entry := by
    intro starts hstarts
    have hbound : g.blocks.keys.length < 1 + (g.blocks.keys.length + 1) := by omega
    obtain ⟨s,hrun,hs,hall⟩ :=
      exists_schedule hg hstart (.inl mem_cons_self) hstarts hbound
    exact ⟨s.done,hrun.bind (hs.result ▸ runs_pure),(perm_ext_iff_of_nodup hs.nodup hg.nodup).2
      fun l => ⟨fun hl => hs.subset hl,fun hl => hall hl⟩,hs.head⟩
  have hget : ∀ {α : Type} {f : Instr → Except Fault α} {a}, f i = .ok a →
      Runs (lift (b.last >>= f)) g a g := by
    intro α f a ha
    rw [last_eq hlast]
    exact runs_lift_iff.2 ⟨ha,rfl⟩
  have hblock : Runs (block g.entry) g b g := runs_block_iff.2 ⟨hb,rfl⟩
  obtain hjump | ⟨hjump,x,hargs,-⟩ := (hg.block hb).jump i (mem_of_getLast? hlast)
  · have honly : g.blocks.keys = [g.entry] := by
      refine hg.starts.resolve_left ?_
      rintro ⟨_,_,hb',hlast',hjump'⟩
      cases hb.symm.trans hb'
      cases hlast.symm.trans hlast'
      cases hjump.symm.trans hjump'
    obtain ⟨order,hrun,horder⟩ := hfinish (.inr fun _ hl => honly ▸ hl)
    exact ⟨order,runs_get.bind (hblock.bind ((hget hjump).bind hrun)),horder⟩
  · obtain ⟨order,hrun,horder⟩ := hfinish (.inl rfl)
    exact ⟨order,runs_get.bind (hblock.bind ((hget hjump).bind ((hget (target_eq hargs)).bind hrun))),
      horder⟩

theorem loopGraph_serializable : Serializable loopGraph := by
  refine ⟨by decide,by decide,fun {l b} hb => ?_,.inl ⟨_,_,rfl,rfl,rfl⟩⟩
  have hmem := Table.mem_of_get? hb
  simp only [loopGraph,mem_cons,not_mem_nil,or_false,Prod.mk.injEq] at hmem
  obtain ⟨-,rfl⟩ | ⟨-,rfl⟩ | ⟨-,rfl⟩ | ⟨-,rfl⟩ | ⟨-,rfl⟩ := hmem
  · refine ⟨cons_ne_nil _ _,?_,[_],[_],rfl,by decide,by decide⟩
    rw [forall_mem_cons,forall_mem_singleton]
    exact ⟨.inl rfl,.inr ⟨rfl,_,rfl,rfl⟩⟩
  · refine ⟨cons_ne_nil _ _,?_,[_,_],[_],rfl,by decide,by decide⟩
    rw [forall_mem_cons,forall_mem_cons,forall_mem_singleton]
    exact ⟨.inl rfl,.inl rfl,.inr ⟨rfl,_,rfl,rfl⟩⟩
  · refine ⟨cons_ne_nil _ _,?_,[_,_],[_,_],rfl,by decide,by decide⟩
    rw [forall_mem_cons,forall_mem_cons,forall_mem_cons,forall_mem_singleton]
    exact ⟨.inl rfl,.inl rfl,.inr ⟨rfl,_,rfl,rfl⟩,.inr ⟨rfl,_,rfl,rfl⟩⟩
  · refine ⟨cons_ne_nil _ _,?_,[_,_],[],rfl,by decide,by decide⟩
    rw [forall_mem_cons,forall_mem_singleton]
    exact ⟨.inl rfl,.inl rfl⟩
  · refine ⟨cons_ne_nil _ _,?_,[_],[_],rfl,by decide,by decide⟩
    rw [forall_mem_cons,forall_mem_singleton]
    exact ⟨.inl rfl,.inr ⟨rfl,_,rfl,rfl⟩⟩

theorem loopGraph_concatenates : ∃ order : List String,
    Runs serialize loopGraph (order.flatMap (blockCode loopGraph)) loopGraph ∧
      order.Perm loopGraph.blocks.keys ∧ order.head? = some loopGraph.entry :=
  serialize_concatenates loopGraph_serializable

end BxToolchain.Bx.Shape
