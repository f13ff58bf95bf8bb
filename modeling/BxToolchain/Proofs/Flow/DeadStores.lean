import BxToolchain.Flow.Simplify
import BxToolchain.Proofs.Flow.Standing

namespace BxToolchain.Flow

open Tac List

def keepFrom (l : Liveness) : Nat → List Instr → List Instr
  | _, [] => []
  | n, i :: rest =>
    if isDead i (l.after.getD n []) then keepFrom l (n + 1) rest
    else i :: keepFrom l (n + 1) rest

def remaining (l : Liveness) (n : Nat) (b : Block) (k : Nat) : List Instr :=
  keepFrom l (n + k) (b.body.drop k) ++ b.jumps.drop (k - b.body.length)

def Graph.pruned (g : Graph) (l : Liveness) : Graph :=
  { g with blocks := ⟨g.places.map fun (n,b) => (b.label,keepLive l n b)⟩ }

variable {t : String}

section

variable {g : Graph} {l : Liveness} {live : Lives} {b : Block} {i : Instr} {n k : Nat}

attribute [local grind] keepFrom

theorem map_fst_filter_zipIdx (l : Liveness) (n m : Nat) (is : List Instr) :
    ((is.zipIdx m).filter fun (i,k) => !isDead i (l.after.getD (n + k) [])).map Prod.fst =
      keepFrom l (n + m) is := by
  induction is generalizing m with
  | nil => rfl
  | cons i rest ih =>
    rw [zipIdx_cons,keepFrom,filter_cons]
    cases hdead : isDead i (l.after.getD (n + m) []) with
    | true =>
      simp only [hdead,Bool.not_true,Bool.false_eq_true,if_false,if_true]
      exact ih (m + 1)
    | false =>
      simp only [hdead,Bool.not_false,Bool.false_eq_true,if_false,if_true,map_cons]
      rw [ih (m + 1),Nat.add_assoc]

theorem body_keepLive (l : Liveness) (n : Nat) (b : Block) :
    (keepLive l n b).body = keepFrom l n b.body :=
  map_fst_filter_zipIdx l n 0 b.body

theorem keepFrom_sublist (l : Liveness) (n : Nat) (is : List Instr) : (keepFrom l n is).Sublist is := by
  induction is generalizing n with
  | nil => exact nil_sublist _
  | cons i rest ih =>
    rw [keepFrom]
    split
    · exact (ih (n + 1)).cons i
    · exact (ih (n + 1)).cons_cons i

theorem instrs_keepLive (l : Liveness) (n : Nat) (b : Block) :
    (keepLive l n b).instrs = remaining l n b 0 := by
  rw [Block.instrs,body_keepLive,remaining,Nat.zero_sub]
  rfl

theorem remaining_body (hi : b.body[k]? = some i) :
    remaining l n b k = if isDead i (l.after.getD (n + k) []) then remaining l n b (k + 1)
      else i :: remaining l n b (k + 1) := by
  obtain ⟨hk,rfl⟩ := List.getElem?_eq_some_iff.1 hi
  rw [remaining,remaining,drop_eq_getElem_cons hk,keepFrom,
    show k - b.body.length = k + 1 - b.body.length by omega]
  split <;> rfl

theorem remaining_jump (hk : b.body.length ≤ k) (hi : b.instrs[k]? = some i) :
    remaining l n b k = i :: remaining l n b (k + 1) := by
  rw [Block.instrs,getElem?_append_right hk] at hi
  obtain ⟨hlt,rfl⟩ := List.getElem?_eq_some_iff.1 hi
  rw [remaining,remaining,drop_eq_nil_of_le hk,drop_eq_nil_of_le (by omega : _ ≤ k + 1),
    drop_eq_getElem_cons hlt,show k - b.body.length + 1 = k + 1 - b.body.length by omega]
  rfl

structure Prunable (g : Graph) : Prop where
  tight : Tight g
  check {b : Block} {i : Instr} : b ∈ g.blocks.values → i ∈ b.body → i.check = .ok ()
  print {b : Block} {i : Instr} : b ∈ g.blocks.values → i ∈ b.body → i.isPrint = true →
    i.dest = .absent
  dest {b : Block} {i : Instr} {s : String} : b ∈ g.blocks.values → i ∈ b.body →
    i.dest = .name s → isTemp s = true
  self {b : Block} {i : Instr} {t : String} : b ∈ g.blocks.values →
    (b.label,b.label) ∈ g.edges → i ∈ b.body → i.opcode = .phi → (b.label,t) ∈ i.sources →
    isTemp t = true → ∃ j ∈ b.body, t ∈ j.defs
  early {b : Block} {i j : Instr} {pre post : List Instr} {a t : String} : b ∈ g.blocks.values →
    (a,b.label) ∈ g.edges → b.body = pre ++ i :: post → i.opcode = .phi → (a,t) ∈ i.sources →
    j ∈ pre → t ∉ j.defs

theorem Prunable.check_instrs (hg : Prunable g) (hb : b ∈ g.blocks.values) (hi : i ∈ b.instrs) :
    i.check = .ok () := by
  rcases mem_append.1 hi with hi | hi
  · exact hg.check hb hi
  · exact hg.tight.check hb hi

theorem Prunable.exists_liveness (hg : Prunable g) :
    ∃ l live, liveness g = .ok l ∧ LiveSets g l live := by
  refine hg.tight.sound.exists_liveness hg.tight.filled fun i hi => ?_
  obtain ⟨b,hb,hi⟩ := mem_flatMap.1 hi
  exact isBroken_of_check (hg.check_instrs hb hi)

theorem dropDead_eq (h : liveness g = .ok l) : dropDead g = .ok (g.pruned l) := by
  simp [dropDead,h,bind,Except.bind,pure,Except.pure,Graph.pruned]

theorem Sound.keys_pruned (hg : Sound g) : (g.pruned l).blocks.keys = g.blocks.keys := by
  rw [← hg.placed.map_label,← map_snd_placesFrom 0 g.blocks.values]
  simp [Graph.pruned,Table.keys,Graph.places,Function.comp_def]

theorem Sound.get?_pruned (hg : Sound g) (hb : (n,b) ∈ g.places) :
    (g.pruned l).blocks.get? b.label = some (keepLive l n b) := by
  refine Table.get?_of_mem (by rw [hg.keys_pruned]; exact hg.nodup) ?_
  exact mem_map.2 ⟨(n,b),hb,rfl⟩

theorem mem_values_pruned (h : b' ∈ (g.pruned l).blocks.values) :
    ∃ n b, (n,b) ∈ g.places ∧ b' = keepLive l n b := by
  obtain ⟨e,he,rfl⟩ := mem_map.1 h
  obtain ⟨⟨n,b⟩,hb,rfl⟩ := mem_map.1 he
  exact ⟨n,b,hb,rfl⟩

theorem mem_keepLive (h : i ∈ (keepLive l n b).body) : i ∈ b.body := by
  rw [body_keepLive] at h
  exact (keepFrom_sublist l n b.body).subset h

theorem Tight.pruned (hg : Tight g) (l : Liveness) : Tight (g.pruned l) := by
  refine ⟨hg.sound.withBlocks hg.sound.keys_pruned fun {m b'} hmem => ?_,fun hb' => ?_,
    fun hb' => ?_⟩
  · obtain ⟨⟨n,b⟩,hb,heq⟩ := mem_map.1 hmem
    cases heq
    have hvalue := mem_values_of_places hb
    have hcut := hg.sound.cut (hg.sound.mem_values.1 hvalue)
    refine ⟨b,Table.mem_of_get? (hg.sound.mem_values.1 hvalue),rfl,
      ⟨fun hi => hcut.body (mem_keepLive hi),hcut.jumps⟩,fun hjumps => ?_,fun m => Iff.rfl⟩
    have hclosed := (closed_iff_jumps (b := b) hjumps).1 (hg.closed hvalue)
    exact (closed_iff_jumps hjumps).2 hclosed
  · obtain ⟨n,b,hb,rfl⟩ := mem_values_pruned hb'
    exact hg.jumps (b := b) (mem_values_of_places hb)
  · obtain ⟨n,b,hb,rfl⟩ := mem_values_pruned hb'
    exact hg.check (b := b) (mem_values_of_places hb)

def Needed (live : Lives) (n : Nat) (b : Block) (k : Nat) (t : String) : Prop :=
  isTemp t = false ∨ .plain t ∈ live.getD (n + k) [] ∨
    .along b.label t ∈ live.getD (n + k) [] ∧ ∃ j i, j < k ∧ b.instrs[j]? = some i ∧ t ∈ i.defs

theorem Needed.back (hlive : LiveSets g l live) (hb : (n,b) ∈ g.places)
    (hi : b.instrs[k]? = some i) (hk : k + 1 < b.instrs.length) (hdefs : t ∉ i.defs)
    (h : Needed live n b (k + 1) t) : Needed live n b k t := by
  rcases h with htemp | hplain | ⟨halong,j, j',hj, hj',hdef⟩
  · exact .inl htemp
  · exact .inr (.inl (hlive.inner hb hi hk hplain hdefs))
  · refine .inr (.inr ⟨hlive.inner hb hi hk halong hdefs,j, j',?_, hj',hdef⟩)
    by_contra hle
    obtain rfl : j = k := by omega
    cases hi.symm.trans hj'
    exact hdefs hdef

theorem not_needed_of_dead (hlive : LiveSets g l live) (hb : (n,b) ∈ g.places)
    (hk : k + 1 < b.instrs.length) (hdead : isDead i (l.after.getD (n + k) []) = true)
    (ht : t ∈ i.defs) : ¬Needed live n b (k + 1) t := by
  obtain ⟨hdest,htemp⟩ := Operand.temp?_eq_some.1 (Option.mem_toList.1 ht)
  have hafter : t ∉ l.after.getD (n + k) [] := by
    rw [isDead,hdest] at hdead
    simp only [Bool.and_eq_true,Bool.not_eq_true',contains_eq_mem,decide_eq_false_iff_not]
      at hdead
    exact hdead.2
  rintro (hnot | hplain | ⟨halong,-⟩)
  · rw [htemp] at hnot
    cases hnot
  · exact hafter (hlive.after hb hk (mem_alongEdge.2 ⟨t,rfl,.inl hplain⟩))
  · exact hafter (hlive.after hb hk (mem_alongEdge.2 ⟨t,rfl,.inr halong⟩))

end

theorem perform_pure (hcheck : i.check = .ok ()) (hdest : ∀ {s}, i.dest = .name s → isTemp s = true)
    (heffect : hasEffect i.opcode = false) (hlabel : i.isLabel = false)
    (hends : i.opcode.endsBlock = false) (h : perform a i f w = (.ok o,w1)) :
    ∃ temps, o = .next { f with temps } ∧ w1 = w ∧
      ∀ t, t ∉ i.defs → temps.get? t = f.temps.get? t := by
  have hstored : ∀ {v}, store w f i.dest v = (.ok o,w1) → ∃ temps, o = .next { f with temps } ∧
      w1 = w ∧ ∀ t, t ∉ i.defs → temps.get? t = f.temps.get? t := by
    intro v hstore
    obtain ⟨temps,hwrite,rfl⟩ := store_eq_ok.1 hstore
    obtain ⟨s,hs,hwrite⟩ := dest_of_write hcheck hwrite
    obtain ⟨rfl,rfl,-⟩ := write_temp (hdest hs) hwrite
    refine ⟨_,rfl,rfl,fun t ht => Table.get?_insert_of_ne _ _ fun heq => ht ?_⟩
    exact (mem_defs_name hs (hdest hs)).2 heq
  cases ho : i.opcode with
  | jmp | branch | ret => simp [ho,Opcode.endsBlock,Opcode.isBranch,Opcode.isFinal] at hends
  | label => simp [Instr.isLabel,ho] at hlabel
  | param | call => simp [ho,hasEffect] at heffect
  | nop =>
    simp only [perform,ho,Prod.mk.injEq,Except.ok.injEq] at h
    exact ⟨f.temps,h.1.symm,h.2.symm,fun _ _ => rfl⟩
  | phi =>
    obtain ⟨l,t,v,-,-,hstore⟩ := (perform_phi ho).1 h
    exact hstored hstore
  | const =>
    simp only [perform,ho] at h
    exact hstored h
  | copy | unary | binary =>
    simp only [perform,ho] at h
    split at h
    · exact hstored h
    · cases h

structure Alongside (g : Graph) (l : Liveness) (live : Lives) (order : List String) (n : Nat)
    (b : Block) (k k' : Nat) (f f' : Frame) : Prop where
  place : (n,b) ∈ g.places
  stands : Stands (g.code order) b k f
  stands' : Stands ((g.pruned l).code order) (keepLive l n b) k' f'
  rest : (keepLive l n b).instrs.drop k' = remaining l n b k
  params : f'.params = f.params
  previous : f'.previous = f.previous
  temps {t : String} : Needed live n b k t → f'.temps.get? t = f.temps.get? t
  left {j : Nat} {i : Instr} {a t : String} : k ≤ j → b.instrs[j]? = some i → i.opcode = .phi →
    f.previous = some a → (a,t) ∈ i.sources → f'.left.get? t = f.left.get? t

variable {params params' : List Datum} {s x : String} {temps : Temps}

section

variable {g : Graph} {l : Liveness} {live : Lives} {order : List String} {b : Block} {i : Instr}
  {n k k' : Nat} {f f' : Frame} {w w1 : World}

theorem mem_keepFrom (hi : is[k]? = some i) (hdead : isDead i (l.after.getD (n + k) []) = false) :
    i ∈ keepFrom l n is := by
  induction is generalizing n k with
  | nil => cases hi
  | cons j rest ih =>
    rw [keepFrom]
    cases k with
    | zero =>
      cases hi
      rw [Nat.add_zero] at hdead
      rw [if_neg (by rw [hdead]; exact Bool.false_ne_true)]
      exact mem_cons_self
    | succ k =>
      have hrest : i ∈ keepFrom l (n + 1) rest :=
        ih hi (by rwa [show n + 1 + k = n + (k + 1) by omega])
      split
      · exact hrest
      · exact mem_cons_of_mem j hrest

theorem exists_last {p : α → Prop} {xs : List α} (h : ∃ x ∈ xs, p x) :
    ∃ pre x post, xs = pre ++ x :: post ∧ p x ∧ ∀ y ∈ post, ¬p y := by
  induction xs with
  | nil => simp at h
  | cons x xs ih =>
    by_cases hrest : ∃ y ∈ xs, p y
    · obtain ⟨pre,y,post,rfl,hy,hpost⟩ := ih hrest
      exact ⟨x :: pre,y,post,rfl,hy,hpost⟩
    · obtain ⟨y,hy,hpy⟩ := h
      rcases mem_cons.1 hy with rfl | hy
      · exact ⟨[],y,xs,rfl,hpy,fun z hz hpz => hrest ⟨z,hz,hpz⟩⟩
      · exact absurd ⟨y,hy,hpy⟩ hrest

variable (hg : Prunable g) (hlive : LiveSets g l live)
  (h : Alongside g l live order n b k k' f f')

section

include hlive h

theorem Alongside.read_eq (hi : b.instrs[k]? = some i) {x} (hx : x = i.arg1 ∨ x = i.arg2)
    (hname : x = .absent ∨ ∃ s, x = .name s) (w : World) :
    w.read f'.temps x.text = w.read f.temps x.text := by
  refine World.read_congr fun _ => h.temps ?_
  rcases hname with rfl | ⟨s,rfl⟩
  · exact .inl (by decide)
  · cases hs : isTemp s with
    | false => exact .inl hs
    | true =>
      have htemp : Operand.temp? (.name s) = some s := by simp [Operand.temp?,hs]
      refine .inr (.inl (hlive.use h.place hi ?_))
      refine mem_append.2 (.inl (mem_map.2 ⟨s,?_,rfl⟩))
      rcases hx with hx | hx
      · simp [← hx,htemp]
      · simp [← hx,htemp]

theorem Alongside.readsAlike (hi : b.instrs[k]? = some i) (hcheck : i.check = .ok ()) (w : World) :
    i.ReadsAlike i (w.read f.temps) (w.read f'.temps) := by
  refine ⟨rfl,?_,?_⟩
  · split
    · rename_i hreads
      refine ⟨Iff.rfl,fun _ v hv => ?_⟩
      rw [h.read_eq hlive hi (.inl rfl) ((arg1_of_check hcheck hreads).imp_right
        fun ⟨s,hs,_⟩ => ⟨s,hs⟩)]
      exact hv
    · exact fun _ => rfl
  · split
    · rename_i hreads
      obtain ⟨s,hs,-⟩ := arg2_of_check hcheck hreads
      intro v hv
      rw [h.read_eq hlive hi (.inr rfl) (.inr ⟨s,hs⟩)]
      exact hv
    · exact fun _ => rfl

end

include hg

theorem Prunable.dest_instrs (hb : b ∈ g.blocks.values) (hi : i ∈ b.instrs)
    (hdest : i.dest = .name s) : isTemp s = true := by
  rcases mem_append.1 hi with hi | hi
  · exact hg.dest hb hi hdest
  · have hends := (hg.tight.sound.cut (hg.tight.sound.mem_values.1 hb)).jumps hi
    rw [dest_of_endsBlock (hg.tight.check hb hi) hends] at hdest
    cases hdest

theorem Prunable.print_instrs (hb : b ∈ g.blocks.values) (hi : i ∈ b.instrs)
    (hprint : i.isPrint = true) : i.dest = .absent := by
  rcases mem_append.1 hi with hi | hi
  · exact hg.print hb hi hprint
  · exact dest_of_endsBlock (hg.tight.check hb hi)
      ((hg.tight.sound.cut (hg.tight.sound.mem_values.1 hb)).jumps hi)

section

include h

theorem Alongside.advance (hi : b.instrs[k]? = some i) (hfinal : i.opcode.isFinal = false)
    (hrest : remaining l n b k = i :: remaining l n b (k + 1)) (hparams : params' = params)
    (htemps : ∀ {t}, Needed live n b (k + 1) t → temps'.get? t = temps.get? t) :
    Alongside g l live order n b (k + 1) (k' + 1) { f with pc := f.pc + 1, temps, params }
      { f' with pc := f'.pc + 1, temps := temps', params := params' } := by
  have hvalue := mem_values_of_places h.place
  have hvalue' : keepLive l n b ∈ (g.pruned l).blocks.values :=
    (hg.tight.pruned l).sound.mem_values.2 (hg.tight.sound.get?_pruned h.place)
  have hget : (keepLive l n b).instrs[k']? = some i := by
    rw [← head?_drop,h.rest,hrest]
    rfl
  refine ⟨h.place,h.stands.next ((hg.tight.closed hvalue).lt hi hfinal) rfl rfl,
    h.stands'.next (((hg.tight.pruned l).closed hvalue').lt hget hfinal) rfl rfl,?_,hparams,
    h.previous,htemps,fun hj => h.left (by omega)⟩
  rw [← drop_drop,h.rest,hrest]
  rfl

end

include hlive

theorem live_at_start {m j : Nat} {c : Block} (hc : (m,c) ∈ g.places)
    (hedge : (x,c.label) ∈ g.edges) (hi : c.instrs[j]? = some i) (hphi : i.opcode = .phi)
    (hsource : (x,t) ∈ i.sources) (ht : isTemp t = true) : .along x t ∈ live.getD m [] := by
  have hvalue := mem_values_of_places hc
  have hcut := hg.tight.sound.cut (hg.tight.sound.mem_values.1 hvalue)
  have hj : j < c.body.length :=
    hcut.lt_body hi (by simp [hphi,Opcode.endsBlock,Opcode.isBranch,Opcode.isFinal])
  have hbody : ∀ {m}, m < c.body.length → c.instrs[m]? = c.body[m]? := fun hm =>
    getElem?_append_left hm
  have huse : Use.along x t ∈ i.uses := by
    simp only [Instr.uses,hphi,if_true,mem_append,mem_map]
    exact .inr ⟨(x,t),mem_filter.2 ⟨hsource,ht⟩,rfl⟩
  have hsplit : c.body = c.body.take j ++ i :: c.body.drop (j + 1) := by
    rw [hbody hj] at hi
    obtain ⟨_,rfl⟩ := List.getElem?_eq_some_iff.1 hi
    rw [← drop_eq_getElem_cons hj,take_append_drop]
  refine hlive.back hc (List.getElem?_eq_some_iff.1 hi).1 (Nat.zero_le j) ?_
    (hlive.use hc hi huse)
  intro m' i' _ hlt hi'
  refine hg.early hvalue hedge hsplit hphi hsource ?_
  rw [hbody (by omega)] at hi'
  exact mem_of_getElem? (getElem?_take_of_lt hlt ▸ hi')

section

include h

theorem Alongside.skip (hi : b.body[k]? = some i)
    (hdead : isDead i (l.after.getD (n + k) []) = true)
    (hperform : perform a i { f with pc := f.pc + 1 } w = (.ok o,w1)) :
    ∃ f1, o = .next f1 ∧ w1 = w ∧ Alongside g l live order n b (k + 1) k' f1 f' := by
  have hvalue := mem_values_of_places h.place
  have hmem := mem_of_getElem? hi
  have hcut := hg.tight.sound.cut (hg.tight.sound.mem_values.1 hvalue)
  have hget : b.instrs[k]? = some i := by
    rw [Block.instrs,getElem?_append_left (List.getElem?_eq_some_iff.1 hi).1,hi]
  obtain ⟨hlabel,hends⟩ := hcut.body hmem
  have hfinal : i.opcode.isFinal = false := by
    rw [Opcode.endsBlock,Bool.or_eq_false_iff] at hends
    exact hends.2
  have heffect : hasEffect i.opcode = false := by
    rw [isDead,Bool.and_eq_true,Bool.not_eq_true'] at hdead
    exact hdead.1
  have hk := (hg.tight.closed hvalue).lt hget hfinal
  obtain ⟨temps,rfl,rfl,hsame⟩ := perform_pure (hg.check hvalue hmem) (hg.dest hvalue hmem)
    heffect hlabel hends hperform
  refine ⟨_,rfl,rfl,h.place,h.stands.next hk rfl rfl,h.stands',?_,h.params,h.previous,?_,
    fun hj => h.left (by omega)⟩
  · rw [h.rest,remaining_body hi,if_pos hdead]
  · intro t ht
    by_cases hdef : t ∈ i.defs
    · exact absurd ht (not_needed_of_dead hlive h.place hk hdead hdef)
    · rw [h.temps (ht.back hlive h.place hget hk hdef)]
      exact (hsame t hdef).symm

theorem Alongside.jump (horder : Order g order) (ha : Loaded a (g.code order))
    (ha' : Loaded a' ((g.pruned l).code order)) (hi : b.instrs[k]? = some i) {pc : Nat}
    (hjump : i.jump? = some x) (hl : a.labels.get? x = some pc) :
    ∃ pc', a'.labels.get? x = some pc' ∧
      ∃ m c, Alongside g l live order m c 0 0 (f.jump x pc) (f'.jump x pc') := by
  have hsound := hg.tight.sound
  have hvalue := mem_values_of_places h.place
  have hcut := hsound.cut (hsound.mem_values.1 hvalue)
  obtain ⟨c,hc,rfl⟩ := exists_listed hsound horder ha hl
  have hcget := ((mem_listed hsound).1 hc).2
  have hcvalue := hsound.mem_values.2 hcget
  obtain ⟨m,hm⟩ := exists_place hcvalue
  have hedge := hg.tight.edge hvalue (mem_of_getElem? hi) hjump
    ((Table.contains_iff _ _).2 ⟨c,hcget⟩)
  have hk := hcut.body_le hi (endsBlock_of_jump? hjump)
  have hc' : keepLive l m c ∈ listed (g.pruned l) order :=
    (mem_listed (hg.tight.pruned l).sound).2 ⟨((mem_listed hsound).1 hc).1,hsound.get?_pruned hm⟩
  have hfilled' : (keepLive l m c).instrs ≠ [] :=
    (hg.tight.pruned l).filled _ ((hg.tight.pruned l).sound.mem_values.2 (hsound.get?_pruned hm))
  obtain ⟨pc1,hpc1,hstands⟩ := Stands.jump hsound ha hc (hg.tight.filled c hcvalue) f
  cases hl.symm.trans hpc1
  obtain ⟨pc',hpc',hstands'⟩ := Stands.jump (hg.tight.pruned l).sound ha' hc' hfilled' f'
  have hback := fun {u} => live_at_jump (u := u) hg.tight hlive h.place hm hedge hk h.stands.lt
  refine ⟨pc',hpc',m,c,hm,hstands,hstands',instrs_keepLive l m c,h.params,?_,?_,?_⟩
  · show some f'.current = some f.current
    rw [h.stands.current,h.stands'.current]
    rfl
  · rintro t (htemp | hplain | ⟨-,j,-,hj,-⟩)
    · exact h.temps (.inl htemp)
    · refine h.temps (.inr (.inl (hback ?_)))
      split
      · exact hplain
      · exact mem_alongEdge.2 ⟨t,rfl,.inl hplain⟩
    · omega
  · rintro j i' x t - hi' hphi hprevious hsource
    have hx : f.current = x := Option.some.inj hprevious
    rw [h.stands.current] at hx
    subst hx
    show f'.temps.get? t = f.temps.get? t
    cases htemp : isTemp t with
    | false => exact h.temps (.inl htemp)
    | true =>
      have halong := live_at_start hg hlive hm hedge hi' hphi hsource htemp
      by_cases hself : b.label = c.label
      · have hbc : b = c := by
          have hbget := hsound.mem_values.1 hvalue
          rw [hself] at hbget
          exact Option.some.inj (hbget.symm.trans hcget)
        subst hbc
        have hlt := hcut.lt_body hi'
          (by simp [hphi,Opcode.endsBlock,Opcode.isBranch,Opcode.isFinal])
        rw [Block.instrs,getElem?_append_left hlt] at hi'
        obtain ⟨ j', hj',hdef⟩ :=
          hg.self hvalue hedge (mem_of_getElem? hi') hphi hsource htemp
        obtain ⟨p,hp,hget⟩ := mem_iff_getElem.1 hj'
        refine h.temps (.inr (.inr ⟨hback (by simpa using halong),p,j',by omega,?_,hdef⟩))
        rw [Block.instrs,getElem?_append_left hp,getElem?_eq_getElem hp,hget]
      · refine h.temps (.inr (.inl (hback ?_)))
        rw [if_neg (by simpa using hself)]
        exact mem_alongEdge.2 ⟨t,rfl,.inr halong⟩

def Meets (g : Graph) (l : Liveness) (live : Lives) (order : List String) (f f' : Frame) : Prop :=
  ∃ n b k k', Alongside g l live order n b k k' f f'

theorem Alongside.write (hi : b.instrs[k]? = some i)
    (hrest : remaining l n b k = i :: remaining l n b (k + 1)) (hfinal : i.opcode.isFinal = false)
    (hwrite : w.write f.temps i.dest.text v = .ok (w1,temps)) :
    ∃ temps', w.write f'.temps i.dest.text v = .ok (w1,temps') ∧
      ∀ params, Meets g l live order { f with pc := f.pc + 1, temps, params }
        { f' with pc := f'.pc + 1, temps := temps', params } := by
  have hvalue := mem_values_of_places h.place
  have hmem := mem_of_getElem? hi
  obtain ⟨s,hdest,hwrite⟩ := dest_of_write (hg.check_instrs hvalue hmem) hwrite
  have hs := hg.dest_instrs hvalue hmem hdest
  obtain ⟨rfl,rfl,hwrite'⟩ := write_temp hs hwrite
  have hk := (hg.tight.closed hvalue).lt hi hfinal
  refine ⟨_,by rw [hdest]; exact hwrite' f'.temps,
    fun _ => ⟨n,b,k + 1,k' + 1,h.advance hg hi hfinal hrest rfl fun {t} ht => ?_⟩⟩
  by_cases hts : t = s
  · rw [hts,Table.get?_insert_self,Table.get?_insert_self]
  · rw [Table.get?_insert_of_ne _ _ hts,Table.get?_insert_of_ne _ _ hts]
    exact h.temps (ht.back hlive h.place hi hk (mt (mem_defs_name hdest hs).1 hts))

theorem Alongside.keep (horder : Order g order) (ha : Loaded a (g.code order))
    (ha' : Loaded a' ((g.pruned l).code order)) (hoptions : a'.options = a.options)
    (hi : b.instrs[k]? = some i) (hrest : remaining l n b k = i :: remaining l n b (k + 1))
    (hperform : perform a i { f with pc := f.pc + 1 } w = (.ok o,w1)) :
    ∃ o', perform a' i { f' with pc := f'.pc + 1 } w = (.ok o',w1) ∧
      o.Alike (Meets g l live order) o' := by
  have hvalue := mem_values_of_places h.place
  have hmem := mem_of_getElem? hi
  have hcheck := hg.check_instrs hvalue hmem
  have hlabel : i.opcode ≠ .label := by
    simpa [Instr.isLabel] using
      (hg.tight.sound.cut (hg.tight.sound.mem_values.1 hvalue)).isLabel hmem
  by_cases hphi : i.opcode = .phi
  · obtain ⟨x,t,v,hfind,hread,hstore⟩ := (perform_phi hphi).1 hperform
    obtain ⟨temps,hwrite,rfl⟩ := store_eq_ok.1 hstore
    obtain ⟨temps',hwrite',hmeets⟩ :=
      h.write hg hlive hi hrest (by simp [hphi,Opcode.isFinal]) hwrite
    refine ⟨.next { f' with pc := f'.pc + 1, temps := temps' },(perform_phi hphi).2
      ⟨x,t,v,?_,?_,store_eq_ok.2 ⟨temps',hwrite',rfl⟩⟩,.next ?_⟩
    · exact (congrArg (fun p => i.sources.find? fun e => some e.1 = p) h.previous).trans hfind
    · have hprevious : some x = f.previous := by simpa using find?_some hfind
      rw [← hread]
      exact World.read_congr fun _ =>
        h.left (Nat.le_refl k) hi hphi hprevious.symm (mem_of_find?_eq_some hfind)
    · rw [h.params]
      exact hmeets f.params
  · refine alike_of_perform (f := { f with pc := f.pc + 1 }) (g := { f' with pc := f'.pc + 1 })
      hlabel hphi h.params hoptions (h.readsAlike hlive hi hcheck w) Iff.rfl
      (fun hfinal _ _ _ _ hwrite => h.write hg hlive hi hrest hfinal hwrite)
      (fun hfinal hstays params => ⟨n,b,k + 1,k' + 1,?_⟩) (fun {x pc} hjump hl => ?_) hperform
    · have hdest := dest_eq_absent hcheck (hg.print_instrs hvalue hmem) hstays
      refine h.advance hg hi hfinal hrest rfl fun {t} ht => h.temps ?_
      exact ht.back hlive h.place hi ((hg.tight.closed hvalue).lt hi hfinal)
        (by simp [Instr.defs,hdest,Operand.temp?])
    · obtain ⟨pc',hl',m,c,hmeets⟩ := h.jump hg hlive horder ha ha' hi hjump hl
      exact ⟨x,pc',hjump,hl',m,c,0,0,hmeets⟩

end

theorem Prunable.mirrors (horder : Order g order) (ha : Loaded a (g.code order))
    (ha' : Loaded a' ((g.pruned l).code order)) (hoptions : a'.options = a.options)
    (hshown : a'.shown = a.shown) (strict : Bool) :
    Mirrors strict a a' (g.code order) ((g.pruned l).code order)
      (fun f f' => (f' = f ∧ f.pc = 0) ∨ Meets g l live order f f') := by
  refine ⟨hoptions,hshown,?_⟩
  have hcatch : ∀ {f f'}, Meets g l live order f f' →
      CatchesUp a' (fun f f' => (f' = f ∧ f.pc = 0) ∨ Meets g l live order f f') f f' :=
    fun h => .of_rel (.inr h)
  rintro f f' (⟨rfl,hpc⟩ | ⟨n,b,k,k',h⟩)
  · obtain ⟨b,rest,hb,hlabel,hcode,hstands⟩ := hg.tight.start horder
    obtain ⟨b',rest',hb',hlabel',hcode',hstands'⟩ :=
      (hg.tight.pruned l).start (horder.withBlocks _)
    obtain ⟨n,hn⟩ := exists_place (hg.tight.sound.mem_values.2
      ((mem_listed hg.tight.sound).1 hb).2)
    obtain rfl : b' = keepLive l n b := by
      have hget := ((mem_listed (hg.tight.pruned l).sound).1 hb').2
      have hentry : b'.label = b.label := hlabel'.trans hlabel.symm
      rw [hentry,hg.tight.sound.get?_pruned hn] at hget
      exact (Option.some.inj hget).symm
    refine .inr ⟨_,_,by rw [hpc,drop_zero,hcode],fun hperform => .inr ?_⟩
    rw [perform_label rfl] at hperform
    cases hperform
    refine ⟨_,_,_,by rw [hpc,drop_zero,hcode'],perform_label rfl,.next (hcatch ?_)⟩
    refine ⟨n,b,0,0,hn,hstands (by simp [hpc]) rfl,hstands' (by simp [hpc]) rfl,
      instrs_keepLive l n b,rfl,rfl,fun _ => rfl,fun _ _ _ _ _ => rfl⟩
  · obtain ⟨i,rest,hi,hrest⟩ := h.stands.cons
    obtain ⟨i',rest',hi',hrest'⟩ := h.stands'.cons
    refine .inr ⟨i,rest,hrest,fun {w w1 o} hperform => ?_⟩
    have hkeep : remaining l n b k = i :: remaining l n b (k + 1) → ∃ i' rest' o',
        ((g.pruned l).code order).drop f'.pc = i' :: rest' ∧
        perform a' i' { f' with pc := f'.pc + 1 } w = (.ok o',w1) ∧
        o.Alike (CatchesUp a' fun f f' => (f' = f ∧ f.pc = 0) ∨ Meets g l live order f f') o' := by
      intro hremaining
      obtain rfl : i = i' := by
        rw [← head?_drop,h.rest,hremaining] at hi'
        exact Option.some.inj hi'
      obtain ⟨o',hperform',halike⟩ :=
        h.keep hg hlive horder ha ha' hoptions hi hremaining hperform
      exact ⟨i,rest',o',hrest',hperform',halike.mono hcatch⟩
    by_cases hk : k < b.body.length
    · have hbody : b.body[k]? = some i := by
        rw [← hi,Block.instrs,getElem?_append_left hk]
      cases hdead : isDead i (l.after.getD (n + k) []) with
      | true =>
        obtain ⟨f1,rfl,rfl,hnext⟩ := h.skip hg hlive hbody hdead hperform
        exact .inl ⟨f1,rfl,rfl,hcatch ⟨n,b,k + 1,k',hnext⟩⟩
      | false => exact .inr (hkeep (by rw [remaining_body hbody,hdead]; rfl))
    · exact .inr (hkeep (remaining_jump (by omega) hi))

theorem Prunable.refines (horder : Order g order) (strict : Bool) (p : Procedure) :
    Refines strict { p with body := g.code order } { p with body := (g.pruned l).code order } := by
  refine .of_mirrors fun _ => ⟨?_,fun ha ha' hoptions hshown hstart => ?_⟩
  · rw [Graph.code,labelNames_listed (hg.tight.pruned l).sound (horder.withBlocks _)]
    exact horder.nodup
  · obtain ⟨args,w,w0,temps,-,rfl⟩ := hstart
    exact ⟨_,.of_rel (.inl ⟨rfl,rfl⟩),hg.mirrors hlive horder ha ha' hoptions hshown strict⟩

theorem Prunable.self_kept (hb : (n,b) ∈ g.places) (hedge : (b.label,b.label) ∈ g.edges)
    (hi : i ∈ b.body) (hphi : i.opcode = .phi) (hsource : (b.label,t) ∈ i.sources)
    (ht : isTemp t = true) : ∃ j ∈ (keepLive l n b).body, t ∈ j.defs := by
  have hvalue := mem_values_of_places hb
  obtain ⟨pre,j,post,hbody,hdef,hpost⟩ :=
    exists_last (hg.self hvalue hedge hi hphi hsource ht)
  have hj : b.body[pre.length]? = some j := by simp [hbody]
  have hj' : pre.length < b.body.length := (List.getElem?_eq_some_iff.1 hj).1
  have hjumps : 0 < b.jumps.length := length_pos_iff.2 (hg.tight.jumps hvalue)
  have hlength : b.instrs.length = b.body.length + b.jumps.length := length_append
  obtain ⟨k,hk,hget⟩ := mem_iff_getElem.1 hi
  have hik : b.instrs[k]? = some i := by
    rw [Block.instrs,getElem?_append_left hk,getElem?_eq_getElem hk,hget]
  have halong : Use.along b.label t ∈ live.getD (n + (pre.length + 1)) [] := by
    have hend := live_at_jump hg.tight hlive hb hb hedge (Nat.le_refl _) (by omega)
      (by simpa using live_at_start hg hlive hb hedge hik hphi hsource ht)
    refine hlive.back hb (by omega) hj' (fun {m i'} hle hlt hi' => ?_) hend
    rw [Block.instrs,getElem?_append_left hlt,hbody,
      getElem?_append_right (by omega),show m - pre.length = m - pre.length - 1 + 1 by omega,
      getElem?_cons_succ] at hi'
    exact hpost i' (mem_of_getElem? hi')
  have hafter : t ∈ l.after.getD (n + pre.length) [] :=
    hlive.after hb (by omega) (mem_alongEdge.2 ⟨t,rfl,.inr halong⟩)
  have hdead : isDead j (l.after.getD (n + pre.length) []) = false := by
    rw [isDead,(Operand.temp?_eq_some.1 (Option.mem_toList.1 hdef)).1]
    simp only [contains_iff_mem.2 hafter,Bool.not_true,Bool.and_false]
  refine ⟨j,?_,hdef⟩
  rw [body_keepLive]
  exact mem_keepFrom hj hdead

theorem Prunable.pruned : Prunable (g.pruned l) := by
  refine ⟨hg.tight.pruned l,fun hb' hi => ?_,fun hb' hi => ?_,fun hb' hi => ?_,
    fun hb' hedge hi hphi hsource ht => ?_,
    fun {b' i j pre post x t} hb' hedge hbody hphi hsource hj => ?_⟩
  · obtain ⟨n,b,hb,rfl⟩ := mem_values_pruned hb'
    exact hg.check (mem_values_of_places hb) (mem_keepLive hi)
  · obtain ⟨n,b,hb,rfl⟩ := mem_values_pruned hb'
    exact hg.print (mem_values_of_places hb) (mem_keepLive hi)
  · obtain ⟨n,b,hb,rfl⟩ := mem_values_pruned hb'
    exact hg.dest (mem_values_of_places hb) (mem_keepLive hi)
  · obtain ⟨n,b,hb,rfl⟩ := mem_values_pruned hb'
    exact hg.self_kept hlive hb hedge (mem_keepLive hi) hphi hsource ht
  · obtain ⟨n,b,hb,rfl⟩ := mem_values_pruned hb'
    have hsublist : (pre ++ i :: post).Sublist b.body := by
      rw [← hbody,body_keepLive]
      exact keepFrom_sublist l n b.body
    obtain ⟨first,second,heq,hpre,hrest⟩ := append_sublist_iff.1 hsublist
    obtain ⟨third,fourth,heq',hi,-⟩ := cons_sublist_iff.1 hrest
    obtain ⟨pre',post',rfl⟩ := append_of_mem hi
    refine hg.early (mem_values_of_places hb) hedge
      (show b.body = (first ++ pre') ++ i :: (post' ++ fourth) by simp [heq,heq']) hphi hsource ?_
    exact mem_append.2 (.inl (hpre.subset hj))

omit hg hlive

theorem length_flatMap_le {β : Type} {xs : List α} {f f' : α → List β}
    (h : ∀ x ∈ xs, (f x).length ≤ (f' x).length) :
    (xs.flatMap f).length ≤ (xs.flatMap f').length ∧
      ((xs.flatMap f).length = (xs.flatMap f').length →
        ∀ x ∈ xs, (f x).length = (f' x).length) := by
  induction xs with
  | nil => simp
  | cons x xs ih =>
    obtain ⟨hle,heq⟩ := ih fun y hy => h y (by simp [hy])
    have hx := h x (by simp)
    simp only [flatMap_cons,length_append]
    refine ⟨by omega,fun hsum y hy => ?_⟩
    rcases mem_cons.1 hy with rfl | hy
    · omega
    · exact heq (by omega) y hy

theorem instrs_eq_places (g : Graph) : g.instrs = g.places.flatMap fun e => e.2.instrs := by
  rw [Graph.instrs,← map_snd_placesFrom 0 g.blocks.values,flatMap_map]
  rfl

theorem instrs_pruned (g : Graph) (l : Liveness) :
    (g.pruned l).instrs = g.places.flatMap fun e => (keepLive l e.1 e.2).instrs := by
  simp [Graph.instrs,Graph.pruned,Table.values,flatMap_map,Function.comp_def]

theorem length_keepLive_le (l : Liveness) (n : Nat) (b : Block) :
    (keepLive l n b).instrs.length ≤ b.instrs.length ∧
      ((keepLive l n b).instrs.length = b.instrs.length → keepFrom l n b.body = b.body) := by
  have hsublist := keepFrom_sublist l n b.body
  have hle := hsublist.length_le
  simp only [Block.instrs,body_keepLive,length_append]
  have hjumps : (keepLive l n b).jumps = b.jumps := rfl
  rw [hjumps]
  exact ⟨by omega,fun heq => hsublist.eq_of_length (by omega)⟩

theorem isDead_of_keepFrom (h : keepFrom l n is = is) (hi : is[k]? = some i) :
    isDead i (l.after.getD (n + k) []) = false := by
  induction is generalizing n k with
  | nil => cases hi
  | cons j rest ih =>
    rw [keepFrom] at h
    split at h
    · have hle := (keepFrom_sublist l (n + 1) rest).length_le
      rw [h,length_cons] at hle
      omega
    · rename_i hdead
      cases k with
      | zero =>
        cases hi
        simpa using hdead
      | succ k =>
        rw [show n + (k + 1) = n + 1 + k by omega]
        exact ih (List.cons.inj h).2 hi

def Clean (g : Graph) : Prop :=
  ∃ l, liveness g = .ok l ∧ ∀ {n b k i}, (n,b) ∈ g.places → b.body[k]? = some i →
    isDead i (l.after.getD (n + k) []) = false

theorem Sound.clean_of_length (hg : Sound g) (hl : liveness g = .ok l)
    (h : (g.pruned l).instrs.length = g.instrs.length) : g.pruned l = g ∧ Clean g := by
  have hkept : ∀ {n b}, (n,b) ∈ g.places → keepFrom l n b.body = b.body := by
    intro n b hb
    rw [instrs_pruned,instrs_eq_places] at h
    exact (length_keepLive_le l n b).2
      ((length_flatMap_le fun e _ => (length_keepLive_le l e.1 e.2).1).2 h (n,b) hb)
  refine ⟨?_,l,hl,fun hb hi => isDead_of_keepFrom (hkept hb) hi⟩
  have hblocks : g.places.map (fun e => (e.2.label,keepLive l e.1 e.2)) = g.blocks.entries := by
    have hsame : g.places.map (fun e => (e.2.label,keepLive l e.1 e.2)) =
        (g.places.map Prod.snd).map fun b => (b.label,b) := by
      rw [map_map]
      refine map_congr_left fun ⟨n,b⟩ hb => ?_
      have hbody : keepLive l n b = b := by
        have heq := (body_keepLive l n b).trans (hkept hb)
        obtain ⟨label,body,jumps⟩ := b
        exact congrArg (fun body => (⟨label,body,jumps⟩ : Block)) heq
      simp [hbody]
    rw [hsame,Graph.places,map_snd_placesFrom,Table.values,map_map]
    refine (map_congr_left fun e he => ?_).trans (map_id _)
    exact Prod.ext (hg.label he) rfl
  exact congrArg (fun entries => ({ g with blocks := ⟨entries⟩ } : Graph)) hblocks

theorem Prunable.exists_dropAllDead (fuel : Nat) (hg : Prunable g) (horder : Order g order)
    (hfuel : g.instrs.length < fuel) :
    ∃ g', dropAllDead fuel g = .ok g' ∧ Clean g' ∧ linearize g' = .ok (g'.code order) ∧
      ∀ (strict : Bool) (p : Procedure), Refines strict { p with body := g.code order }
        { p with body := g'.code order } := by
  induction fuel generalizing g with
  | zero => omega
  | succ fuel ih =>
    obtain ⟨l,live,hl,hlive⟩ := hg.exists_liveness
    have hg' := hg.pruned hlive
    have horder' : Order (g.pruned l) order := horder.withBlocks _
    obtain ⟨l',-,hl',-⟩ := hg'.exists_liveness
    have hround : dropAllDead (fuel + 1) g =
        if (g.pruned l).instrs.length = g.instrs.length then .ok (g.pruned l)
        else dropAllDead fuel (g.pruned l) := by
      simp only [dropAllDead,dropDead_eq hl,hl',bind,Except.bind,pure,Except.pure]
    by_cases hlength : (g.pruned l).instrs.length = g.instrs.length
    · obtain ⟨hsame,hclean⟩ := hg.tight.sound.clean_of_length hl hlength
      rw [if_pos hlength,hsame] at hround
      exact ⟨g,hround,hclean,horder.linearize_eq hg.tight.sound,fun strict p => .refl strict _⟩
    · have hle : (g.pruned l).instrs.length ≤ g.instrs.length := by
        rw [instrs_pruned,instrs_eq_places]
        exact (length_flatMap_le fun e _ => (length_keepLive_le l e.1 e.2).1).1
      obtain ⟨g',heq,hclean,hlist,hrefines⟩ := ih hg' horder' (by omega)
      rw [if_neg hlength,heq] at hround
      exact ⟨g',hround,hclean,hlist,fun strict p =>
        (hg.refines hlive horder strict p).trans (hrefines strict p)⟩

end

end BxToolchain.Flow
