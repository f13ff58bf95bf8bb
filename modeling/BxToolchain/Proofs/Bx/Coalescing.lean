import BxToolchain.Proofs.Bx.BlockRuns

namespace BxToolchain.Bx.Shape

open List

variable {σ : Type}

def shown (i : Instr) : Option Instr :=
  if i.hasOpcode "label" || i.hasOpcode "jmp" then none else some i

structure Closed (b : Block) : Prop where
  jumps : ∃ body jumps, b.content = body ++ jumps ∧ (∀ i ∈ body, i.goal? = none) ∧
    (jumps.map Instr.goal?).Perm (b.next.map some)
  ends : ∃ i, b.content.getLast? = some i ∧ endsBlock i = true

structure Connected (g : Graph) : Prop where
  nodup : g.blocks.keys.Nodup
  entry : g.blocks.contains g.entry = true
  closed {l b} : g.blocks.get? l = some b → Closed b
  next {l b t} : g.blocks.get? l = some b → t ∈ b.next →
    ∃ c, g.blocks.get? t = some c ∧ l ∈ c.prev

structure Rewired (l1 l2 : String) (ss : List String) (g g' : Graph) : Prop where
  procedure : g'.procedure = g.procedure
  keys : g'.blocks.keys = g.blocks.keys
  block {l b'} : g'.blocks.get? l = some b' → ∃ b, g.blocks.get? l = some b ∧
    b'.content = b.content ∧ b'.next = b.next ∧ (∀ p ∈ b.prev, p ≠ l2 ∨ p = l1 → p ∈ b'.prev) ∧
    (l ∈ ss → l1 ∈ b'.prev)

structure Joined (l1 l2 : String) (b2 : Block) (g g' : Graph) : Prop where
  entry : g'.entry = g.entry
  nodup : g.blocks.keys.Nodup → g'.blocks.keys.Nodup
  fewer : g'.blocks.entries.length < g.blocks.entries.length
  kept (l : String) : g'.blocks.contains l = (!(l == l2) && g.blocks.contains l)
  block {l b'} : g'.blocks.get? l = some b' → ∃ b, g.blocks.get? l = some b ∧
    (∀ p ∈ b.prev, p ≠ l2 ∨ p = l1 → p ∈ b'.prev) ∧ (l ∈ b2.next → l1 ∈ b'.prev) ∧
    if l = l1 then b'.next = b2.next ∧ b'.content = b.content.dropLast ++ b2.content
    else b'.next = b.next ∧ b'.content = b.content

structure Chain (g : Graph) (l1 l2 : String) (b1 b2 : Block) : Prop where
  first : g.blocks.get? l1 = some b1
  second : g.blocks.get? l2 = some b2
  next : b1.next = [l2]
  prev : b2.prev.length = 1
  entry : l2 ≠ g.entry

variable {g g' : Graph} {l l1 l2 t : String} {b b1 b2 c : Block} {i : Instr}

theorem goal?_of_ret (h : i.hasOpcode "ret" = true) : i.goal? = none := by
  have hjump : i.isJump = .ok false := by
    rw [Instr.isJump,opcode_of_hasOpcode h]
    decide
  rw [Instr.goal?,hjump]

theorem Closed.mem_next (h : Closed b) (hi : i ∈ b.content) (hgoal : i.goal? = some t) :
    t ∈ b.next := by
  obtain ⟨body,jumps,hcontent,hbody,hperm⟩ := h.jumps
  rw [hcontent,mem_append] at hi
  obtain hi | hi := hi
  · cases (hbody i hi).symm.trans hgoal
  · have hmem := hperm.mem_iff.1 (mem_map.2 ⟨i,hi,hgoal⟩)
    simpa using hmem

theorem Closed.single (h : Closed b) (hnext : b.next = [t]) :
    ∃ body j, b.content = body ++ [j] ∧ (∀ i ∈ body, i.goal? = none) ∧ j.goal? = some t ∧
      j.hasOpcode "jmp" = true := by
  obtain ⟨body,jumps,hcontent,hbody,hperm⟩ := h.jumps
  obtain ⟨i,hlast,hends⟩ := h.ends
  rw [hnext,map_singleton,perm_singleton,map_eq_singleton_iff] at hperm
  obtain ⟨j,rfl,hgoal⟩ := hperm
  refine ⟨body,j,hcontent,hbody,hgoal,?_⟩
  rw [hcontent,getLast?_concat] at hlast
  cases hlast
  obtain hjump | hret := Bool.or_eq_true_iff.1 hends
  · exact hjump
  · cases (goal?_of_ret hret).symm.trans hgoal

theorem runs_block_iff : Runs (block l) g b g' ↔ g.blocks.get? l = some b ∧ g' = g := by
  simp only [block,runs_bind,runs_get_iff]
  constructor
  · rintro ⟨_,_,⟨rfl,rfl⟩,h⟩
    split at h
    · rename_i c hc
      obtain ⟨rfl,rfl⟩ := runs_pure_iff.1 h
      exact ⟨hc,rfl⟩
    · exact absurd h not_runs_throw
  · rintro ⟨h,rfl⟩
    refine ⟨_,_,⟨rfl,rfl⟩,?_⟩
    rw [h]
    exact runs_pure

theorem keys_insert_of_get? (h : g.blocks.get? l = some b) :
    (g.blocks.insert l v).keys = g.blocks.keys :=
  Table.map_fst_insertEntry v ((Table.contains_iff_mem_keys _ _).1 ((Table.contains_iff _ _).2 ⟨b,h⟩))

theorem exists_adopt (l1 l2 : String) (h : g.blocks.get? t = some c) :
    ∃ g', Runs (adopt l1 l2 t) g () g' ∧ Rewired l1 l2 [t] g g' := by
  have hrun : ∃ g', Runs (adopt l1 l2 t) g () g' ∧ g'.procedure = g.procedure ∧
      g'.blocks = g.blocks.insert t { c with prev := c.prev.erase l2 ++ [l1] } := by
    simp only [adopt,setBlock,runs_bind (x := block t),runs_block_iff,h,Option.some.injEq,
      and_assoc,exists_and_left,exists_eq_left,exists_eq_left']
    by_cases hmem : l2 ∈ c.prev
    · rw [if_pos (contains_iff_mem.2 hmem)]
      exact ⟨_,runs_pure.bind <| runs_modify.bind runs_modify,rfl,rfl⟩
    · rw [if_neg (by simpa using hmem),erase_of_not_mem hmem]
      exact ⟨_,runs_modify.bind <| runs_pure.bind <| runs_modify.bind runs_modify,rfl,rfl⟩
  obtain ⟨g',hrun,hprocedure,hblocks⟩ := hrun
  refine ⟨g',hrun,hprocedure,hblocks ▸ keys_insert_of_get? h,fun {l b'} hb' => ?_⟩
  rw [hblocks,Table.get?_insert] at hb'
  by_cases hl : l = t
  · subst hl
    simp only [beq_self_eq_true,if_true,Option.some.injEq] at hb'
    subst hb'
    refine ⟨c,h,rfl,rfl,fun p hp hkept => mem_append.2 ?_,fun _ => by simp⟩
    exact hkept.imp (fun hne => (mem_erase_of_ne hne).2 hp) mem_singleton.2
  · rw [beq_false_of_ne hl] at hb'
    exact ⟨b',hb',rfl,rfl,fun _ hp _ => hp,fun hmem => absurd (mem_singleton.1 hmem) hl⟩

theorem Rewired.contains_eq (h : Rewired l1 l2 ss g g') (l : String) :
    g'.blocks.contains l = g.blocks.contains l := by
  rw [Bool.eq_iff_iff,Table.contains_iff_mem_keys,h.keys,Table.contains_iff_mem_keys]

theorem Rewired.exists_get? (h : Rewired l1 l2 ss g g') (hb : g.blocks.get? l = some b) :
    ∃ b', g'.blocks.get? l = some b' := by
  rw [← Table.contains_iff,h.contains_eq,Table.contains_iff]
  exact ⟨b,hb⟩

theorem exists_adoptAll (l1 l2 : String) (h : ∀ t ∈ ss, ∃ c, g.blocks.get? t = some c) :
    ∃ g', Runs (forIn ss PUnit.unit fun s _ => do
        adopt l1 l2 s
        pure (ForInStep.yield PUnit.unit)) g () g' ∧ Rewired l1 l2 ss g g' := by
  induction ss generalizing g with
  | nil => exact ⟨g,runs_pure,rfl,rfl,fun hb => ⟨_,hb,rfl,rfl,fun _ hp _ => hp,nofun⟩⟩
  | cons t rest ih =>
    obtain ⟨⟨c,hc⟩,hrest⟩ := forall_mem_cons.1 h
    obtain ⟨g1,hadopt,h1⟩ := exists_adopt l1 l2 hc
    obtain ⟨g',hruns,h'⟩ := ih fun t ht => (hrest t ht).elim fun _ hc => h1.exists_get? hc
    refine ⟨g',?_,h'.procedure.trans h1.procedure,h'.keys.trans h1.keys,fun hb => ?_⟩
    · rw [forIn_cons]
      exact Runs.bind (a := ForInStep.yield PUnit.unit) (hadopt.bind runs_pure) hruns
    · obtain ⟨b1,hb1,hcontent1,hnext1,hprev1,hss1⟩ := h'.block hb
      obtain ⟨b0,hb0,hcontent0,hnext0,hprev0,hss0⟩ := h1.block hb1
      refine ⟨b0,hb0,hcontent1.trans hcontent0,hnext1.trans hnext0,
        fun p hp hkept => hprev1 p (hprev0 p hp hkept) hkept,fun hmem => ?_⟩
      obtain rfl | hmem := mem_cons.1 hmem
      · exact hprev1 l1 (hss0 (mem_singleton.2 rfl)) (.inr rfl)
      · exact hss1 hmem

theorem exists_join (h1 : g.blocks.get? l1 = some b1) (h2 : g.blocks.get? l2 = some b2)
    (hnext : ∀ t ∈ b2.next, ∃ c, g.blocks.get? t = some c) :
    ∃ g', Runs (join l1 l2) g () g' ∧ Joined l1 l2 b2 g g' := by
  obtain ⟨g1,hadopt,hrewired⟩ := exists_adoptAll l1 l2 hnext
  obtain ⟨b1',h1'⟩ := hrewired.exists_get? h1
  obtain ⟨b2',h2'⟩ := hrewired.exists_get? h2
  obtain ⟨_,hb1,hcontent1,-⟩ := hrewired.block h1'
  cases h1.symm.trans hb1
  obtain ⟨_,hb2,hcontent2,hnext2,-⟩ := hrewired.block h2'
  cases h2.symm.trans hb2
  obtain ⟨v,hv⟩ : ∃ v : Block, v =
    { b1' with next := b2'.next, content := b1'.content.dropLast ++ b2'.content } := ⟨_,rfl⟩
  have hkeys : (g1.blocks.insert l1 v).keys = g.blocks.keys :=
    (keys_insert_of_get? h1').trans hrewired.keys
  have hinsert : ∃ c, (g1.blocks.insert l1 v).get? l2 = some c := by
    rw [Table.get?_insert]
    split
    · exact ⟨v,rfl⟩
    · exact ⟨b2',h2'⟩
  refine ⟨{ g1 with blocks := (g1.blocks.insert l1 v).erase l2 },?_,?_,fun hnodup => ?_,?_,
    fun l => ?_,fun {l b'} hb' => ?_⟩
  · obtain ⟨c,hc⟩ := hinsert
    subst hv
    exact (runs_block_iff.2 ⟨h1,rfl⟩).bind <| (runs_block_iff.2 ⟨h2,rfl⟩).bind <| hadopt.bind <|
      (runs_block_iff.2 ⟨h1',rfl⟩).bind <| (runs_block_iff.2 ⟨h2',rfl⟩).bind <| runs_modify.bind <|
      Runs.bind (runs_block_iff.2 ⟨hc,rfl⟩) runs_modify
  · exact congrArg (· ++ "_initial") hrewired.procedure
  · rw [← hkeys] at hnodup
    exact hnodup.sublist (filter_sublist.map _)
  · have hlength := congrArg List.length hkeys
    rw [Table.keys,Table.keys,length_map,length_map] at hlength
    rw [← hlength]
    obtain ⟨c,hc⟩ := hinsert
    exact length_filter_lt_length_iff_exists.2 ⟨(l2,c),Table.mem_of_get? hc,by simp⟩
  · rw [Table.contains_erase,Table.contains_insert,hrewired.contains_eq]
    by_cases hl : l = l1
    · simp [hl,Table.contains,h1]
    · rw [beq_false_of_ne hl,Bool.false_or]
  · rw [Table.get?_erase,Table.get?_insert] at hb'
    split at hb'
    · cases hb'
    by_cases hl : l = l1
    · subst hl hv
      simp only [beq_self_eq_true,if_true,Option.some.injEq] at hb'
      subst hb'
      obtain ⟨b,hb,-,-,hprev,hss⟩ := hrewired.block h1'
      cases h1.symm.trans hb
      exact ⟨b1,h1,hprev,hss,by simp [hcontent1,hcontent2,hnext2]⟩
    · rw [beq_false_of_ne hl] at hb'
      obtain ⟨b,hb,hcontent,hnext,hprev,hss⟩ := hrewired.block hb'
      exact ⟨b,hb,hprev,hss,by rw [if_neg hl]; exact ⟨hnext,hcontent⟩⟩

section

variable (hg : Connected g) (hchain : Chain g l1 l2 b1 b2) (hjoined : Joined l1 l2 b2 g g')

include hg hchain in
theorem eq_of_mem_next (hb : g.blocks.get? l = some b) (hmem : l2 ∈ b.next) : l = l1 := by
  obtain ⟨p,hp⟩ := length_eq_one_iff.1 hchain.prev
  obtain ⟨c,hc,hl⟩ := hg.next hb hmem
  obtain ⟨c1,hc1,hl1⟩ := hg.next hchain.first (hchain.next ▸ mem_singleton.2 rfl)
  cases hchain.second.symm.trans hc
  cases hchain.second.symm.trans hc1
  rw [hp,mem_singleton] at hl hl1
  exact hl.trans hl1.symm

include hg hchain hjoined in
theorem Joined.connected : Connected g' := by
  refine ⟨hjoined.nodup hg.nodup,?_,fun {l b'} hb' => ?_,fun {l b' t} hb' ht => ?_⟩
  · rw [hjoined.kept,hjoined.entry,hg.entry,beq_false_of_ne hchain.entry.symm]
    rfl
  · obtain ⟨b,hb,-,-,hshape⟩ := hjoined.block hb'
    split at hshape
    · subst l
      cases hchain.first.symm.trans hb
      obtain ⟨body1,j,hcontent,hbody1,-⟩ := (hg.closed hb).single hchain.next
      obtain ⟨⟨body,jumps,hcontent2,hbody,hperm⟩,i,hlast,hends⟩ := hg.closed hchain.second
      rw [hcontent,dropLast_concat] at hshape
      refine ⟨⟨body1 ++ body,jumps,?_,?_,?_⟩,i,?_,hends⟩
      · rw [hshape.2,hcontent2,append_assoc]
      · exact forall_mem_append.2 ⟨hbody1,hbody⟩
      · rw [hshape.1]
        exact hperm
      · rw [hshape.2,getLast?_append,hlast]
        rfl
    · obtain ⟨hjumps,hends⟩ := hg.closed hb
      exact ⟨by rw [hshape.1,hshape.2]; exact hjumps,by rw [hshape.2]; exact hends⟩
  · obtain ⟨b,hb,-,-,hshape⟩ := hjoined.block hb'
    have hl : l ≠ l2 := by
      rintro rfl
      have hkept := hjoined.kept l
      simp [Table.contains,hb'] at hkept
    -- No block of the joined graph leads to the second one: only the first did.
    have hfrom : ∃ c, g.blocks.get? t = some c ∧ t ≠ l2 ∧ (l ∈ c.prev ∨ l = l1 ∧ t ∈ b2.next) := by
      split at hshape
      · rename_i hl1
        rw [hshape.1] at ht
        obtain ⟨c,hc,-⟩ := hg.next hchain.second ht
        refine ⟨c,hc,?_,.inr ⟨hl1,ht⟩⟩
        rintro rfl
        exact hl (hl1.trans (eq_of_mem_next hg hchain hchain.second ht).symm)
      · rename_i hl1
        rw [hshape.1] at ht
        obtain ⟨c,hc,hmem⟩ := hg.next hb ht
        refine ⟨c,hc,?_,.inl hmem⟩
        rintro rfl
        exact hl1 (eq_of_mem_next hg hchain hb ht)
    obtain ⟨c,hc,htl2,hmem⟩ := hfrom
    obtain ⟨c',hc'⟩ : ∃ c', g'.blocks.get? t = some c' := by
      rw [← Table.contains_iff,hjoined.kept,beq_false_of_ne htl2,Table.contains,hc]
      rfl
    obtain ⟨_,hct,hprevs,hss,-⟩ := hjoined.block hc'
    cases hc.symm.trans hct
    refine ⟨c',hc',?_⟩
    obtain hmem | ⟨rfl,hmem⟩ := hmem
    · exact hprevs l hmem (.inl hl)
    · exact hss hmem

inductive JoinedPlace (g : Graph) (l1 l2 : String) (b2 : Block) :
    List Instr → List Instr → Prop where
  | nil : JoinedPlace g l1 l2 b2 [] []
  | same {l b rest} : g.blocks.get? l = some b → l ≠ l1 → rest <:+ b.content →
      JoinedPlace g l1 l2 b2 rest rest
  | first {i rest j} : l1 ≠ l2 → (∀ k ∈ i :: rest, k.goal? = none) → j.goal? = some l2 →
      j.hasOpcode "jmp" = true →
      JoinedPlace g l1 l2 b2 (i :: rest ++ [j]) (i :: rest ++ b2.content)

include hchain in
theorem behind_joined (hl : l1 ≠ l2) (hplain : ∀ k ∈ rest, k.goal? = none)
    (hgoal : j.goal? = some l2) (hjump : j.hasOpcode "jmp" = true) :
    Behind shown m (layout g) (fun _ => JoinedPlace g l1 l2 b2) s (rest ++ [j])
      (rest ++ b2.content) := by
  cases rest with
  | nil =>
    have hcode : g.code l2 = some b2.content := congrArg _ hchain.second
    exact ⟨_,.single (silent_jump hjump (by simp [shown,hjump]) hgoal hcode),
      .same hchain.second hl.symm suffix_rfl⟩
  | cons i rest => exact .of_rel (.first hl hplain hgoal hjump)

include hg hchain hjoined in
theorem Joined.code_rel (m : Meaning σ) (s : σ) (ht : t ≠ l2) :
    Option.Rel (Behind shown m (layout g) (fun _ => JoinedPlace g l1 l2 b2) s) (g.code t)
      (g'.code t) := by
  have hkept := hjoined.kept t
  rw [beq_false_of_ne ht,Bool.not_false,Bool.true_and,Table.contains,Table.contains] at hkept
  unfold Graph.code
  cases hb' : g'.blocks.get? t with
  | none =>
    rw [hb',eq_comm,Option.isSome_none,Option.isSome_eq_false_iff,Option.isNone_iff_eq_none]
      at hkept
    rw [hkept]
    exact .none
  | some b' =>
    obtain ⟨b,hb,-,-,hshape⟩ := hjoined.block hb'
    rw [hb]
    refine .some ?_
    split at hshape
    · subst t
      cases hchain.first.symm.trans hb
      obtain ⟨body,j,hcontent,hplain,hgoal,hjump⟩ := (hg.closed hb).single hchain.next
      rw [hshape.2,hcontent,dropLast_concat]
      exact behind_joined hchain ht hplain hgoal hjump
    · rename_i htl1
      rw [hshape.2]
      exact .of_rel (.same hb htl1 suffix_rfl)

include hg hchain hjoined in
theorem Joined.alike : RunsAlike shown (layout g) (layout g') := by
  intro σ m
  have hcode := fun {t} s => hjoined.code_rel (t := t) hg hchain m s
  refine Tracks.alikeFor (S := fun _ => JoinedPlace g l1 l2 b2) ⟨fun s => ?_,?_,?_⟩
  · rw [layout,layout,hjoined.entry]
    exact hcode s hchain.entry.symm
  · intro s r' hplace
    generalize hnil : ([] : List Instr) = r at hplace ⊢
    cases hplace with
    | nil => rfl
    | same => rfl
    | first => cases hnil
  · intro s i r q hplace
    generalize hcons : i :: r = r0 at hplace
    cases hplace with
    | nil => cases hcons
    | @same l b _ hb hl hsuffix =>
      subst hcons
      refine ⟨i,r,rfl,rfl,agrees_self m s i .nil
        (fun _ => .of_rel (.same hb hl ((suffix_cons i r).trans hsuffix)))
        fun t ht => hcode s ?_⟩
      rintro rfl
      exact hl (eq_of_mem_next hg hchain hb
        ((hg.closed hb).mem_next (hsuffix.subset mem_cons_self) ht))
    | @first i rest j hl hplain hgoal hjump =>
      cases hcons
      obtain ⟨hi,hrest⟩ := forall_mem_cons.1 hplain
      exact ⟨i,_,rfl,rfl,agrees_self m s i .nil
        (fun _ => behind_joined hchain hl hrest hgoal hjump) fun t ht => nomatch hi.symm.trans ht⟩

end

theorem runs_findChain_cons (hg : Connected g) (hb1 : g.blocks.get? l1 = some b1)
    (rest : List (String × Block)) :
    (∃ l2 b2, Chain g l1 l2 b1 b2 ∧ Runs (findChain ((l1,b1) :: rest)) g (some (l1,l2)) g) ∨
      (∀ l2 b2, ¬Chain g l1 l2 b1 b2) ∧
        ∀ r, Runs (findChain rest) g r g → Runs (findChain ((l1,b1) :: rest)) g r g := by
  rw [findChain]
  split
  · rename_i l2 hnext
    obtain ⟨b2,hb2,-⟩ := hg.next hb1 (hnext ▸ mem_singleton.2 rfl)
    have hblock : Runs (block l2) g b2 g := runs_block_iff.2 ⟨hb2,rfl⟩
    by_cases hskip : b2.prev.length ≠ 1 ∨ l2 = g.entry
    · refine .inr ⟨fun l b hchain => ?_,fun r hr => hblock.bind <| runs_get.bind ?_⟩
      · obtain ⟨-,hb,hnext',hprev,hentry⟩ := hchain
        obtain rfl : l2 = l := by simpa using hnext.symm.trans hnext'
        cases hb2.symm.trans hb
        exact hskip.elim (· hprev) hentry
      · rw [if_pos (by simpa using hskip)]
        exact hr
    · refine .inl ⟨l2,b2,⟨hb1,hb2,hnext,?_,?_⟩,hblock.bind <| runs_get.bind ?_⟩
      · exact not_not.1 (not_or.1 hskip).1
      · exact (not_or.1 hskip).2
      · rw [if_neg (by simpa using hskip)]
        exact runs_pure
  · rename_i hnext
    exact .inr ⟨fun l2 b2 hchain => hnext l2 hchain.next,fun r hr => hr⟩

theorem runs_findChain (hg : Connected g) (hes : ∀ e ∈ es, g.blocks.get? e.1 = some e.2) :
    (Runs (findChain es) g none g ∧ ∀ e ∈ es, ∀ l2 b2, ¬Chain g e.1 l2 e.2 b2) ∨
      ∃ l1 l2 b1 b2, Runs (findChain es) g (some (l1,l2)) g ∧ Chain g l1 l2 b1 b2 := by
  induction es with
  | nil => exact .inl ⟨runs_pure,nofun⟩
  | cons e rest ih =>
    obtain ⟨l1,b1⟩ := e
    obtain ⟨hb1,hrest⟩ := forall_mem_cons.1 hes
    obtain ⟨l2,b2,hchain,hrun⟩ | ⟨hno,hruns⟩ := runs_findChain_cons hg hb1 rest
    · exact .inr ⟨l1,l2,b1,b2,hrun,hchain⟩
    · obtain ⟨hnone,hothers⟩ | ⟨l1',l2,b1',b2,hsome,hchain⟩ := ih hrest
      · exact .inl ⟨hruns _ hnone,forall_mem_cons.2 ⟨hno,hothers⟩⟩
      · exact .inr ⟨l1',l2,b1',b2,hruns _ hsome,hchain⟩

theorem exists_coalesceUpTo (hg : Connected g) (n0 : Nat) (hfuel : g.blocks.entries.length < fuel) :
    ∃ n g', Runs (coalesceUpTo fuel n0) g n g' ∧ Connected g' ∧
      (∀ l1 l2 b1 b2, ¬Chain g' l1 l2 b1 b2) ∧ g'.entry = g.entry ∧
      RunsAlike shown (layout g) (layout g') := by
  induction fuel generalizing g n0 with
  | zero => exact absurd hfuel (Nat.not_lt_zero _)
  | succ fuel ih =>
    obtain ⟨hrun,hno⟩ | ⟨l1,l2,b1,b2,hrun,hchain⟩ :=
      runs_findChain hg fun e he => Table.get?_of_mem hg.nodup he
    · refine ⟨n0,g,runs_get.bind (hrun.bind runs_pure),hg,fun l1 l2 b1 b2 hchain => ?_,rfl,.refl _⟩
      exact hno _ (Table.mem_of_get? hchain.first) l2 b2 hchain
    · obtain ⟨g1,hjoin,hjoined⟩ := exists_join hchain.first hchain.second fun t ht =>
        (hg.next hchain.second ht).imp fun _ => And.left
      have hfewer := hjoined.fewer
      obtain ⟨n,g',hruns,hg',hno,hentry,halike⟩ :=
        ih (hjoined.connected hg hchain) (n0 + 1) (by omega)
      exact ⟨n,g',runs_get.bind (hrun.bind (hjoin.bind hruns)),hg',hno,
        hentry.trans hjoined.entry,(hjoined.alike hg hchain).trans halike⟩

end BxToolchain.Bx.Shape
