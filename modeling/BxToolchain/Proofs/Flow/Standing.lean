import BxToolchain.Proofs.Flow.RoundTrip
import BxToolchain.Proofs.Flow.LiveUses

namespace BxToolchain.Flow

open Tac List

variable {v : Datum} {i : Instr} {l s : String} {temps : Temps} {u : Use} {w : World}

structure Tight (g : Graph) : Prop where
  sound : Sound g
  jumps {b : Block} : b ∈ g.blocks.values → b.jumps ≠ []
  check {b : Block} {j : Instr} : b ∈ g.blocks.values → j ∈ b.jumps → j.check = .ok ()

def Graph.code (g : Graph) (order : List String) : List Instr :=
  (listed g order).flatMap Block.listing

structure Stands (code : List Instr) (b : Block) (k : Nat) (f : Frame) : Prop where
  lt : k < b.instrs.length
  current : f.current = b.label
  rest : ∃ after, code.drop f.pc = b.instrs.drop k ++ after

section

variable {g : Graph} {b : Block}

theorem Tight.filled (h : Tight g) : Filled g := by
  intro b hb hnil
  exact h.jumps hb (append_eq_nil_iff.1 hnil).2

theorem Tight.closed (h : Tight g) (hb : b ∈ g.blocks.values) : b.Closed :=
  h.sound.closed (h.sound.mem_values.1 hb) (h.jumps hb)

theorem closed_iff_jumps (h : b.jumps ≠ []) :
    b.Closed ↔ ∃ j, b.jumps.getLast? = some j ∧ j.opcode.isFinal = true := by
  have hlast : b.instrs.getLast? = b.jumps.getLast? := by
    rw [Block.instrs,getLast?_append_of_ne_nil _ h]
  rw [Block.Closed,hlast]

theorem Order.withBlocks (h : Order g order) (blocks : Table String Block) :
    Order { g with blocks } order :=
  ⟨h.head,h.nodup,h.isSome,h.behind,h.eq_ok,h.reached,h.parts⟩

theorem Block.Closed.lt (hb : b.Closed) (hi : b.instrs[k]? = some i)
    (hfinal : i.opcode.isFinal = false) : k + 1 < b.instrs.length := by
  obtain ⟨hk,hget⟩ := List.getElem?_eq_some_iff.1 hi
  obtain ⟨j,hj,hjfinal⟩ := hb
  by_contra hle
  rw [getLast?_eq_getElem?,show b.instrs.length - 1 = k by omega,hi] at hj
  cases hj
  rw [hfinal] at hjfinal
  cases hjfinal

namespace Stands

theorem cons (h : Stands code b k f) :
    ∃ i rest, b.instrs[k]? = some i ∧ code.drop f.pc = i :: rest := by
  obtain ⟨after,hrest⟩ := h.rest
  rw [drop_eq_getElem_cons h.lt,cons_append] at hrest
  exact ⟨_,_,getElem?_eq_getElem h.lt,hrest⟩

theorem next (h : Stands code b k f) (hk : k + 1 < b.instrs.length) (hpc : f1.pc = f.pc + 1)
    (hcurrent : f1.current = f.current) : Stands code b (k + 1) f1 := by
  obtain ⟨after,hrest⟩ := h.rest
  refine ⟨hk,hcurrent.trans h.current,after,?_⟩
  rw [hpc,← drop_drop,hrest,drop_append_of_le_length (by simp; omega),drop_drop]

theorem jump (hg : Sound g) (ha : Loaded a (g.code order))
    (hb : b ∈ listed g order) (hfilled : b.instrs ≠ []) (f : Frame) :
    ∃ pc, a.labels.get? b.label = some pc ∧ Stands (g.code order) b 0 (f.jump b.label pc) := by
  obtain ⟨before,after,heq⟩ := append_of_mem hb
  have hnodup : (labelNames (g.code order)).Nodup := ha.nodup
  rw [Graph.code,heq] at hnodup
  have hcode := codeAfter_listing hnodup
  rw [← heq,skipLabels_instrs (hg.cut ((mem_listed hg).1 hb).2) (suffix_refl _) hfilled]
    at hcode
  obtain ⟨pc,hpc,hdrop⟩ := ha.exists_label hcode
  exact ⟨pc,hpc,length_pos_iff.2 hfilled,rfl,_,hdrop⟩

end Stands

theorem Tight.start (hg : Tight g) (horder : Order g order) :
    ∃ b rest, b ∈ listed g order ∧ b.label = g.entry ∧
      g.code order = .ofLabel g.entry :: rest ∧
      ∀ {f : Frame}, f.pc = 1 → f.current = g.entry → Stands (g.code order) b 0 f := by
  obtain ⟨b,bs,hlisted,hlabel⟩ := exists_listed_entry hg.sound horder
  have hb : b ∈ listed g order := by simp [hlisted]
  have hvalue := hg.sound.mem_values.2 ((mem_listed hg.sound).1 hb).2
  have hcode : g.code order = .ofLabel g.entry :: (b.instrs ++ bs.flatMap Block.listing) := by
    rw [Graph.code,hlisted,flatMap_cons,Block.listing,hlabel,cons_append]
  refine ⟨b,_,hb,hlabel,hcode,fun hpc hcurrent => ⟨?_,hcurrent.trans hlabel.symm,
    bs.flatMap Block.listing,?_⟩⟩
  · exact length_pos_iff.2 (hg.filled b hvalue)
  · rw [hpc,hcode]
    rfl

theorem exists_listed (hg : Sound g) (horder : Order g order) (ha : Loaded a (g.code order))
    (hl : a.labels.get? l = some pc) :
    ∃ c, c ∈ listed g order ∧ c.label = l := by
  have hmem : l ∈ labelNames (g.code order) :=
    (isSome_codeAfter l _).1 (by simp [ha.codeAfter_eq hl])
  rw [Graph.code,labelNames_listed hg horder] at hmem
  obtain ⟨c,hc⟩ := (Table.contains_iff _ _).1 (horder.contains hg hmem)
  have hlabel := hg.label (Table.mem_of_get? hc)
  subst hlabel
  exact ⟨c,(mem_listed hg).2 ⟨hmem,hc⟩,rfl⟩

theorem endsBlock_of_jump? (h : i.jump? = some m) : i.opcode.endsBlock = true := by
  unfold Instr.jump? at h
  split at h <;> simp_all [Opcode.endsBlock,Opcode.isFinal,Opcode.isBranch]

theorem Tight.edge (hg : Tight g) (hb : b ∈ g.blocks.values) (hi : i ∈ b.instrs)
    (hjump : i.jump? = some l) (hl : g.blocks.contains l = true) : (b.label,l) ∈ g.edges := by
  have hends := endsBlock_of_jump? hjump
  have hget := hg.sound.mem_values.1 hb
  have hmem : i ∈ b.jumps := by
    rcases mem_append.1 hi with hi | hi
    · simp [((hg.sound.cut hget).body hi).2] at hends
    · exact hi
  exact hg.sound.mem_edges.2 (hg.sound.mem_next hget hi (hg.check hb hmem) hjump hl)

theorem Sound.withBlocks (hg : Sound g) (hkeys : blocks.keys = g.blocks.keys)
    (h : ∀ {l b'}, (l,b') ∈ blocks.entries → ∃ b, (l,b) ∈ g.blocks.entries ∧
      b'.label = b.label ∧ b'.Cut ∧ (b'.jumps ≠ [] → b'.Closed) ∧
      ∀ m, JumpsTo b'.jumps m ↔ JumpsTo b.jumps m) :
    Sound { g with blocks } := by
  have hcontains : ∀ l, blocks.contains l = g.blocks.contains l := by
    intro l
    rw [Bool.eq_iff_iff,Table.contains_iff_mem_keys,Table.contains_iff_mem_keys,hkeys]
  have hget : ∀ {l b'}, blocks.get? l = some b' → ∃ b, g.blocks.get? l = some b ∧ b'.Cut ∧
      (b'.jumps ≠ [] → b'.Closed) ∧ ∀ m, JumpsTo b'.jumps m ↔ JumpsTo b.jumps m := by
    intro l b' hb'
    obtain ⟨b,hb,-,hrest⟩ := h (Table.mem_of_get? hb')
    exact ⟨b,Table.get?_of_mem hg.nodup hb,hrest⟩
  have hedge : ∀ x y, (∃ b, g.blocks.get? x = some b ∧ JumpsTo b.jumps y) ↔
      ∃ b, blocks.get? x = some b ∧ JumpsTo b.jumps y := by
    intro x y
    constructor
    · rintro ⟨b,hb,hjumps⟩
      obtain ⟨b',hb'⟩ := (Table.contains_iff _ _).1
        ((hcontains x).trans ((Table.contains_iff _ _).2 ⟨b,hb⟩))
      obtain ⟨c,hc,-,-,hiff⟩ := hget hb'
      cases hb.symm.trans hc
      exact ⟨b',hb',(hiff y).2 hjumps⟩
    · rintro ⟨b',hb',hjumps⟩
      obtain ⟨b,hb,-,-,hiff⟩ := hget hb'
      exact ⟨b,hb,(hiff y).1 hjumps⟩
  refine ⟨by rw [hkeys]; exact hg.nodup,fun hmem => ?_,fun {l} hl => ?_,?_,fun hb' => ?_,
    fun hb' => ?_,?_⟩
  · obtain ⟨b,hb,hlabel,-⟩ := h hmem
    exact hlabel.trans (hg.label hb)
  · exact hg.named ((hcontains l).symm.trans hl)
  · exact (hcontains g.entry).trans hg.entry
  · obtain ⟨-,-,hcut,-⟩ := hget hb'
    exact hcut
  · obtain ⟨-,-,-,hclosed,-⟩ := hget hb'
    exact hclosed
  · have hlinked := hg.linked.congr hedge
    exact ⟨rfl,fun l => by rw [hcontains]; exact hlinked.next_isSome l,
      fun l => by rw [hcontains]; exact hlinked.prev_isSome l,hlinked.nodup,hlinked.mem_next,
      hlinked.mem_prev,fun hE => by simpa only [hcontains] using hlinked.edge hE⟩

theorem LiveSets.back {l live} (h : LiveSets g l live) {n j}
    (hb : (n,b) ∈ g.places) (hk : k < b.instrs.length) (hjk : j ≤ k)
    (hdefs : ∀ {m i}, j ≤ m → m < k → b.instrs[m]? = some i → u.temp ∉ i.defs)
    (hu : u ∈ live.getD (n + k) []) : u ∈ live.getD (n + j) [] := by
  induction k with
  | zero =>
    rw [Nat.le_zero.1 hjk]
    exact hu
  | succ k ih =>
    by_cases hj : j = k + 1
    · rw [hj]
      exact hu
    · have hget : b.instrs[k]? = some b.instrs[k] := getElem?_eq_getElem (by omega)
      have hhere := h.inner hb hget hk hu (hdefs (by omega) (by omega) hget)
      exact ih (by omega) (by omega) (fun hle hlt => hdefs hle (by omega)) hhere

end

theorem ne_empty_of_isVariable (h : isVariable s = true) : s.isEmpty = false := by
  cases hs : s.isEmpty with
  | false => rfl
  | true =>
    rw [String.isEmpty_iff.1 hs] at h
    exact absurd h (by decide)

section

variable (h : i.check = .ok ())
include h

theorem dest_of_check : i.dest = .absent ∨ ∃ s, i.dest = .name s ∧ isVariable s = true := by
  have hd := (check_eq_ok.1 h).1
  cases ho : i.opcode <;> cases hdest : i.dest <;> simp_all [Opcode.kinds,Kind.accepts]

theorem dest_eq_absent (hprint : i.isPrint = true → i.dest = .absent)
    (hstays : i.opcode.writes = false ∨ i.isPrint = true ∨ i.dest.read? = none) :
    i.dest = .absent := by
  rcases hstays with hwrites | hisPrint | hread
  · have hd := (check_eq_ok.1 h).1
    cases ho : i.opcode <;> cases hdest : i.dest <;>
      simp_all [Opcode.kinds,Kind.accepts,Opcode.writes]
  · exact hprint hisPrint
  · refine (dest_of_check h).resolve_right ?_
    rintro ⟨s,hs,hvariable⟩
    simp [hs,Operand.read?,ne_empty_of_isVariable hvariable] at hread

theorem dest_of_write (hwrite : w.write temps i.dest.text v = .ok r) :
    ∃ s, i.dest = .name s ∧ w.write temps s v = .ok r := by
  rcases dest_of_check h with habsent | ⟨s,hs,-⟩
  · rw [habsent] at hwrite
    exact absurd (World.write_eq_ok.1 hwrite).1 (by decide)
  · exact ⟨s,hs,by rwa [hs] at hwrite⟩

theorem arg1_of_check (hreads : i.opcode.readsFirst = true) :
    i.arg1 = .absent ∨ ∃ s, i.arg1 = .name s ∧ isVariable s = true := by
  have ha := (check_eq_ok.1 h).2.1
  cases ho : i.opcode <;> cases harg : i.arg1 <;>
    simp_all [Opcode.kinds,Kind.accepts,Opcode.readsFirst]

theorem arg2_of_check (hreads : i.opcode.readsSecond = true) :
    ∃ s, i.arg2 = .name s ∧ isVariable s = true := by
  have ha := (check_eq_ok.1 h).2.2
  cases ho : i.opcode <;> cases harg : i.arg2 <;>
    simp_all [Opcode.kinds,Kind.accepts,Opcode.readsSecond]

theorem dest_of_endsBlock (hends : i.opcode.endsBlock = true) : i.dest = .absent := by
  have hd := (check_eq_ok.1 h).1
  cases ho : i.opcode <;> cases hdest : i.dest <;>
    simp_all [Opcode.kinds,Kind.accepts,Opcode.endsBlock,Opcode.isBranch,Opcode.isFinal]

theorem defs_of_endsBlock (hends : i.opcode.endsBlock = true) : i.defs = [] := by
  simp [Instr.defs,dest_of_endsBlock h hends,Operand.temp?]

end

variable {s : String}

theorem isGlobal_of_isTemp (h : isTemp s = true) : isGlobal s = false := by
  simp only [isTemp,startsWith,Bool.and_eq_true] at h
  cases hs : s.toList with
  | nil => simp [isGlobal,startsWith,hs]
  | cons c rest =>
    have hc : '%' = c := by simpa [hs] using h.1
    simp [isGlobal,startsWith,hs,← hc,List.isPrefixOf]

theorem write_temp (hs : isTemp s = true) (h : w.write temps s v = .ok (w1,temps1)) :
    w1 = w ∧ temps1 = temps.insert s v ∧
      ∀ temps' : Temps, w.write temps' s v = .ok (w,temps'.insert s v) := by
  obtain ⟨hvar,hword,hrest⟩ := World.write_eq_ok.1 h
  simp only [isGlobal_of_isTemp hs,Bool.false_eq_true,if_false] at hrest
  refine ⟨hrest.1,hrest.2,fun temps' => World.write_eq_ok.2 ⟨hvar,hword,?_⟩⟩
  simp [isGlobal_of_isTemp hs]

theorem mem_defs_name (hdest : i.dest = .name s) (hs : isTemp s = true) : t ∈ i.defs ↔ t = s := by
  simp [Instr.defs,Operand.temp?,hdest,hs,eq_comm]

theorem isBroken_of_check (h : i.check = .ok ()) : i.isBroken = false := by
  have ha := (check_eq_ok.1 h).2.1
  unfold Instr.isBroken
  split
  · rename_i ho harg
    rw [ho,harg] at ha
    cases ha
  · rfl

section

variable {g : Graph} {l : Liveness} {live : Lives} {b : Block} {i : Instr} {n k : Nat}

theorem Block.Cut.body_le (hb : b.Cut) (hi : b.instrs[k]? = some i)
    (hends : i.opcode.endsBlock = true) : b.body.length ≤ k := by
  by_contra hlt
  rw [Block.instrs,getElem?_append_left (by omega)] at hi
  rw [(hb.body (mem_of_getElem? hi)).2] at hends
  cases hends

theorem mem_jumps (hk : b.body.length ≤ k) (hi : b.instrs[k]? = some i) : i ∈ b.jumps := by
  rw [Block.instrs,getElem?_append_right hk] at hi
  exact mem_of_getElem? hi

theorem Block.Cut.lt_body (hb : b.Cut) (hi : b.instrs[k]? = some i)
    (hends : i.opcode.endsBlock = false) : k < b.body.length := by
  by_contra hle
  rw [hb.jumps (mem_jumps (by omega) hi)] at hends
  cases hends

theorem live_at_jump (hg : Tight g) (hlive : LiveSets g l live) (hb : (n,b) ∈ g.places)
    (hc : (m,c) ∈ g.places) (hedge : (b.label,c.label) ∈ g.edges) (hk : b.body.length ≤ k)
    (hlt : k < b.instrs.length) (hu : u ∈ (if b.label == c.label then live.getD m []
      else alongEdge b.label (live.getD m []))) : u ∈ live.getD (n + k) [] := by
  have hvalue := mem_values_of_places hb
  have hcut := hg.sound.cut (hg.sound.mem_values.1 hvalue)
  have hdefs : ∀ {j i}, b.body.length ≤ j → b.instrs[j]? = some i → i.defs = [] := by
    intro j i hj hi
    have hmem := mem_jumps hj hi
    exact defs_of_endsBlock (hg.check hvalue hmem) (hcut.jumps hmem)
  have hget : b.instrs[b.instrs.length - 1]? = some b.instrs[b.instrs.length - 1] :=
    getElem?_eq_getElem (by omega)
  refine hlive.back hb (k := b.instrs.length - 1) (by omega) (by omega) ?_ ?_
  · intro j i hj _ hi
    rw [hdefs (by omega) hi]
    simp
  · refine hlive.edge hb hc hedge (getLast?_eq_getElem?.trans hget) hu ?_
    rw [hdefs (by omega) hget]
    simp

end

end BxToolchain.Flow
