import BxToolchain.Flow.Linearize
import BxToolchain.Proofs.Flow.Canonical

namespace BxToolchain.Flow

open Tac List

def Adjacent (R : Instr → Option Instr → Prop) : List Instr → Prop
  | [] => True
  | i :: rest => R i rest.head? ∧ Adjacent R rest

variable {before : List Instr}

theorem Adjacent.mid (h : Adjacent R (before ++ i :: rest)) : R i rest.head? := by
  induction before with
  | nil => exact h.1
  | cons j before ih => exact ih h.2

theorem Adjacent.right (h : Adjacent R (before ++ rest)) : Adjacent R rest := by
  induction before with
  | nil => exact h
  | cons j before ih => exact ih h.2

def GroupEnds (i : Instr) (next : Option Instr) : Prop :=
  i.opcode.isBranch = true → ∃ j, next = some j ∧ (j.opcode.endsBlock = true ∨ j.isLabel = true)

theorem groupEnds_of_not_branch (h : ¬i.opcode.isBranch = true) (next : Option Instr) :
    GroupEnds i next :=
  fun hb => absurd hb h

theorem groupEnds_adminLabel {next} : GroupEnds (adminLabel name n) next :=
  groupEnds_of_not_branch (by simp [adminLabel,Instr.ofLabel,Opcode.isBranch]) next

structure Bridges (i : Instr) (next : Option Instr) : Prop where
  label : ∀ j, next = some j → j.isLabel = true → i.isLabel = true ∨ i.opcode.isFinal = true
  branch : i.opcode.isBranch = true → ∃ j, next = some j ∧ j.opcode.endsBlock = true

structure Seals (i : Instr) (next : Option Instr) : Prop where
  label : ∀ j, next = some j → j.isLabel = true → i.opcode.isFinal = true
  branch : i.opcode.isBranch = true → ∃ j, next = some j ∧ j.opcode.endsBlock = true

theorem final_of_adjacent (hbefore : before ≠ []) (h : Adjacent Seals (before ++ i :: rest))
    (hi : i.isLabel = true) :
    ∃ j, before.getLast? = some j ∧ j.opcode.isFinal = true := by
  rw [← dropLast_append_getLast hbefore,append_assoc] at h
  exact ⟨_,getLast?_eq_some_getLast hbefore,h.mid.label i rfl hi⟩

variable {b : Block} {bs : List Block}

section

variable {i : Instr} {code : List Instr}

theorem adjacent_labelGroups (h : labelGroups name n inGroup code = .ok u) :
    Adjacent GroupEnds u ∧ (inGroup = true →
      ∃ j, u.head? = some j ∧ (j.opcode.endsBlock = true ∨ j.isLabel = true)) := by
  induction code generalizing n inGroup u with
  | nil =>
    obtain ⟨rfl,rfl⟩ := labelGroups_nil h
    exact ⟨trivial,by simp⟩
  | cons i rest ih =>
    unfold labelGroups at h
    split at h
    · rename_i hbranch
      obtain ⟨r,hr,hu⟩ := Except.bind_eq_ok.1 h
      cases hu
      exact ⟨⟨fun _ => (ih hr).2 rfl,(ih hr).1⟩,
        fun _ => ⟨i,rfl,.inl (by simp [Opcode.endsBlock,hbranch])⟩⟩
    · rename_i hbranch
      split at h
      · split at h
        · rename_i hfinal
          obtain ⟨r,hr,hu⟩ := Except.bind_eq_ok.1 h
          cases hu
          exact ⟨⟨groupEnds_of_not_branch hbranch _,groupEnds_adminLabel,(ih hr).1⟩,
            fun _ => ⟨i,rfl,.inl (by simp [Opcode.endsBlock,hfinal])⟩⟩
        · obtain ⟨r,hr,hu⟩ := Except.bind_eq_ok.1 h
          cases hu
          exact ⟨⟨groupEnds_adminLabel,groupEnds_of_not_branch hbranch _,(ih hr).1⟩,
            fun _ => ⟨adminLabel name n,rfl,.inr rfl⟩⟩
      · rename_i hgroup
        obtain ⟨r,hr,hu⟩ := Except.bind_eq_ok.1 h
        cases hu
        exact ⟨⟨groupEnds_of_not_branch hbranch _,(ih hr).1⟩,fun hg => absurd hg hgroup⟩

theorem head?_jumpToLabels (code : List Instr) : (jumpToLabels code).head? = code.head? := by
  cases code with
  | nil => rfl
  | cons i rest => rw [jumpToLabels_cons]; rfl

theorem adjacent_jumpToLabels (h : Adjacent GroupEnds code) :
    Adjacent Bridges (jumpToLabels code) := by
  induction code with
  | nil => trivial
  | cons i rest ih =>
    have hrest := ih h.2
    rw [jumpToLabels_cons]
    cases rest with
    | nil => exact ⟨⟨by simp [jumpBefore,jumpToLabels],fun hb => by simpa using h.1 hb⟩,trivial⟩
    | cons l rest =>
      have hhead := head?_jumpToLabels (l :: rest)
      rw [jumpBefore]
      split
      · rename_i hjump
        refine ⟨⟨?_,fun _ => ⟨_,rfl,rfl⟩⟩,⟨fun _ _ _ => .inr rfl,?_⟩,hrest⟩
        · rintro j hj hlabel
          cases hj
          cases hlabel
        · intro hb
          cases hb
      · rename_i hjump
        simp only [Bool.and_eq_true,Bool.not_eq_true',not_and,Bool.not_eq_true] at hjump
        rw [nil_append]
        refine ⟨⟨?_,fun hb => ?_⟩,hrest⟩ <;> rw [hhead]
        · rintro j hj hlabel
          cases hj
          cases hi : i.isLabel with
          | true => exact .inl rfl
          | false =>
            cases hf : i.opcode.isFinal with
            | true => exact .inr rfl
            | false => simp [hjump ⟨hi,hf⟩] at hlabel
        · obtain ⟨j,hj,hends | hlabel⟩ := h.1 hb
          · exact ⟨j,hj,hends⟩
          · cases hj
            have hi : i.isLabel = false ∧ i.opcode.isFinal = false := by
              cases ho : i.opcode <;> simp_all [Opcode.isBranch,Instr.isLabel,Opcode.isFinal]
            simp [hjump hi] at hlabel

theorem head?_numberLabels_some (h : numberLabels n (some l) names code = .ok (u,names'))
    (hj : u.head? = some j) : j.isLabel = false := by
  induction code generalizing names with
  | nil =>
    cases h
    cases hj
  | cons i rest ih =>
    rcases numberLabels_cons h with ⟨hi,u',hrest,rfl⟩ | ⟨hi,g,hg,hrest⟩ | ⟨hi,hg,-⟩
    · cases hj
      exact hi
    · cases hg
      exact ih hrest
    · cases hg

theorem head?_numberLabels_none (h : numberLabels n none names code = .ok (u,names')) :
    code.head? = u.head? ∨
      ∃ i j, code.head? = some i ∧ i.isLabel = true ∧ u.head? = some j ∧ j.isLabel = true := by
  cases code with
  | nil =>
    cases h
    exact .inl rfl
  | cons i rest =>
    rcases numberLabels_cons h with ⟨hi,u',hrest,rfl⟩ | ⟨hi,g,hg,hrest⟩ |
      ⟨hi,hg,u',rfl,hrest⟩
    · exact .inl rfl
    · cases hg
    · exact .inr ⟨i,_,rfl,hi,rfl,rfl⟩

theorem adjacent_numberLabels (h : numberLabels n group names code = .ok (u,names'))
    (hcode : Adjacent Bridges code) : Adjacent Seals u := by
  induction code generalizing n group names u with
  | nil =>
    cases h
    trivial
  | cons i rest ih =>
    rcases numberLabels_cons h with ⟨hi,u',hrest,rfl⟩ | ⟨hi,g,-,hrest⟩ |
      ⟨hi,-,u',rfl,hrest⟩
    · refine ⟨?_,ih hrest hcode.2⟩
      obtain ⟨hlabel,hbranch⟩ := hcode.1
      rcases head?_numberLabels_none hrest with hhead | ⟨j,k,hj,hjl,hk,hkl⟩
      · rw [hhead] at hlabel hbranch
        exact ⟨fun j hj hjl => (hlabel j hj hjl).resolve_left (by simp [hi]),hbranch⟩
      · refine ⟨fun _ _ _ => (hlabel j hj hjl).resolve_left (by simp [hi]),fun hb => ?_⟩
        -- A label does not end a block.
        obtain ⟨j',hj',hends⟩ := hbranch hb
        cases hj.symm.trans hj'
        have ho : j.opcode = .label := by simpa [Instr.isLabel] using hjl
        simp [ho,Opcode.endsBlock,Opcode.isBranch,Opcode.isFinal] at hends
    · exact ih hrest hcode.2
    · refine ⟨⟨fun j hj hjl => ?_,fun hb => by simp [Instr.ofLabel,Opcode.isBranch] at hb⟩,
        ih hrest hcode.2⟩
      simp [head?_numberLabels_some hrest hj] at hjl

theorem adjacent_map_renameLabels (labels : List (String × String)) (h : Adjacent Seals code) :
    Adjacent Seals (code.map (Instr.renameLabels labels)) := by
  induction code with
  | nil => trivial
  | cons i rest ih =>
    refine ⟨?_,ih h.2⟩
    obtain ⟨hlabel,hbranch⟩ := h.1
    rw [head?_map]
    refine ⟨fun j hj hjl => ?_,fun hb => ?_⟩
    · obtain ⟨k,hk,rfl⟩ := Option.map_eq_some_iff.1 hj
      rw [isLabel_renameLabels] at hjl
      rw [opcode_renameLabels]
      exact hlabel k hk hjl
    · rw [opcode_renameLabels] at hb
      obtain ⟨k,hk,hends⟩ := hbranch hb
      exact ⟨_,by rw [hk]; rfl,by rwa [opcode_renameLabels]⟩

structure IsCanonical (code : List Instr) : Prop where
  adjacent : Adjacent Seals code
  labels : ∃ k, labelNames code = (List.range' 0 k).map numberText
  label {i : Instr} : i ∈ code → i.isLabel = true → i = .ofLabel i.arg1.text

theorem label_numberLabels (h : numberLabels n group names code = .ok (u,names')) (hi : i ∈ u)
    (hlabel : i.isLabel = true) : i = .ofLabel i.arg1.text := by
  induction code generalizing n group names u with
  | nil =>
    cases h
    simp at hi
  | cons j rest ih =>
    rcases numberLabels_cons h with ⟨hj,u',hrest,rfl⟩ | ⟨hj,g,-,hrest⟩ |
      ⟨hj,-,u',rfl,hrest⟩
    · rcases mem_cons.1 hi with rfl | hi
      · simp [hj] at hlabel
      · exact ih hrest hi
    · exact ih hrest hi
    · rcases mem_cons.1 hi with rfl | hi
      · rfl
      · exact ih hrest hi

theorem isCanonical_canonical (h : canonical p = .ok q) : IsCanonical q.body := by
  obtain ⟨u,body,names,hu,hbody,rfl⟩ := canonical_eq_ok.1 h
  refine ⟨?_,?_,?_⟩
  · have hgroups : Adjacent GroupEnds (adminLabel p.name 0 :: u) :=
      ⟨groupEnds_adminLabel,(adjacent_labelGroups hu).1⟩
    exact adjacent_map_renameLabels _ (adjacent_numberLabels hbody (adjacent_jumpToLabels hgroups))
  · obtain ⟨k,hk⟩ := numberLabels_labelNames hbody
    exact ⟨k,by rw [labelNames_map_renameLabels,hk]⟩
  · intro i hi hlabel
    obtain ⟨j,hj,rfl⟩ := mem_map.1 hi
    rw [isLabel_renameLabels] at hlabel
    rw [label_numberLabels hbody hj hlabel]
    rfl

structure Block.Cut (b : Block) : Prop where
  body {i : Instr} : i ∈ b.body → i.isLabel = false ∧ i.opcode.endsBlock = false
  jumps {i : Instr} : i ∈ b.jumps → i.opcode.endsBlock = true

theorem Block.Cut.isLabel (h : b.Cut) (hi : i ∈ b.instrs) : i.isLabel = false := by
  rcases mem_append.1 hi with hi | hi
  · exact (h.body hi).1
  · have hends := h.jumps hi
    cases ho : i.opcode <;>
      simp_all [Opcode.endsBlock,Opcode.isBranch,Opcode.isFinal,Instr.isLabel]

theorem cutBlocks_listing (h : cutBlocks b ended code = .ok bs) (hb : b.Cut)
    (hended : ended = false → b.jumps = []) (hadjacent : Adjacent Seals (b.listing ++ code))
    (hlabels : ∀ i ∈ code, i.isLabel = true → i = .ofLabel i.arg1.text) :
    bs.flatMap Block.listing = b.listing ++ code ∧ (∀ c ∈ bs, c.Cut) ∧
      ∃ c rest, bs = c :: rest ∧ c.label = b.label := by
  induction code generalizing b ended bs with
  | nil =>
    cases h
    exact ⟨by simp,by simpa using hb,b,[],rfl,rfl⟩
  | cons i rest ih =>
    have hrest : ∀ j ∈ rest, j.isLabel = true → j = .ofLabel j.arg1.text :=
      fun j hj => hlabels j (by simp [hj])
    unfold cutBlocks at h
    split at h
    · rename_i hends
      have hlisting : (Block.listing { b with jumps := b.jumps ++ [i] }) ++ rest =
          b.listing ++ i :: rest := by simp [Block.listing,Block.instrs]
      rw [← hlisting] at hadjacent ⊢
      refine ih h ⟨hb.body,?_⟩ (by simp) hadjacent hrest
      intro j hj
      rcases mem_append.1 hj with hj | hj
      · exact hb.jumps hj
      · rw [mem_singleton.1 hj]
        exact hends
    · rename_i hends
      split at h
      · rename_i hopen
        have hopen' : ended = false := by simpa using hopen
        have hjumps := hended hopen'
        have hlabel : i.isLabel = false := by
          -- A label would stand behind an instruction that control passes.
          cases hlabel : i.isLabel with
          | false => rfl
          | true =>
            obtain ⟨j,hj,hfinal⟩ := final_of_adjacent (by simp [Block.listing]) hadjacent hlabel
            have hmem := mem_of_getLast? hj
            simp only [Block.listing,Block.instrs,hjumps,append_nil,mem_cons] at hmem
            rcases hmem with rfl | hmem
            · simp [Instr.ofLabel,Opcode.isFinal] at hfinal
            · have hopens := (hb.body hmem).2
              simp [Opcode.endsBlock,hfinal] at hopens
        have hlisting : (Block.listing { b with body := b.body ++ [i] }) ++ rest =
            b.listing ++ i :: rest := by simp [Block.listing,Block.instrs,hjumps]
        rw [← hlisting] at hadjacent ⊢
        refine ih h ⟨?_,hb.jumps⟩ (fun _ => hjumps) hadjacent hrest
        intro j hj
        rcases mem_append.1 hj with hj | hj
        · exact hb.body hj
        · rw [mem_singleton.1 hj]
          exact ⟨hlabel,by simpa using hends⟩
      · split at h
        · rename_i hlabel
          obtain ⟨cs,hcs,hbs⟩ := Except.bind_eq_ok.1 h
          cases hbs
          have hi : i = .ofLabel i.arg1.text := hlabels i (by simp) hlabel
          have hlisting : Block.listing ⟨i.arg1.text,[],[]⟩ ++ rest = i :: rest := by
            simp [Block.listing,Block.instrs,← hi]
          have hadjacent' : Adjacent Seals (Block.listing ⟨i.arg1.text,[],[]⟩ ++ rest) := by
            rw [hlisting]
            exact hadjacent.right
          obtain ⟨hflat,hcut,-⟩ := ih hcs ⟨by simp,by simp⟩ (fun _ => rfl) hadjacent' hrest
          refine ⟨?_,?_,b,cs,rfl,rfl⟩
          · rw [flatMap_cons,hflat,hlisting]
          · simpa using ⟨hb,hcut⟩
        · cases h

def Block.Closed (b : Block) : Prop :=
  ∃ j, b.instrs.getLast? = some j ∧ j.opcode.isFinal = true

theorem closed_of_adjacent {before after}
    (h : Adjacent Seals ((before ++ b :: after).flatMap Block.listing)) (hb : b.Cut) :
    (b.jumps ≠ [] → b.Closed) ∧ (after ≠ [] → b.Closed) := by
  rw [flatMap_append,flatMap_cons] at h
  have hblock := h.right
  refine ⟨fun hjumps => ?_,fun hafter => ?_⟩
  · have hlast : b.instrs.getLast? = some (b.jumps.getLast hjumps) := by
      rw [Block.instrs,getLast?_append,getLast?_eq_some_getLast hjumps]
      rfl
    refine ⟨_,hlast,?_⟩
    have hends := hb.jumps (getLast_mem hjumps)
    cases hfinal : (b.jumps.getLast hjumps).opcode.isFinal with
    | true => rfl
    | false =>
      -- Behind a conditional jump there would be another one, but there is a label or nothing.
      have hbranch : (b.jumps.getLast hjumps).opcode.isBranch = true := by
        simpa [Opcode.endsBlock,hfinal] using hends
      have hsplit : b.listing = (.ofLabel b.label :: (b.body ++ b.jumps.dropLast)) ++
          [b.jumps.getLast hjumps] := by
        simp [Block.listing,Block.instrs,dropLast_append_getLast]
      rw [hsplit,append_assoc] at hblock
      obtain ⟨k,hk,hk'⟩ := hblock.mid.branch hbranch
      cases after with
      | nil => simp at hk
      | cons c after =>
        have hk : some (Instr.ofLabel c.label) = some k := hk
        cases hk
        simp [Instr.ofLabel,Opcode.endsBlock,Opcode.isBranch,Opcode.isFinal] at hk'
  · obtain ⟨c,after,rfl⟩ := exists_cons_of_ne_nil hafter
    rw [flatMap_cons] at hblock
    obtain ⟨j,hj,hfinal⟩ := final_of_adjacent (by simp [Block.listing]) hblock rfl
    refine ⟨j,?_,hfinal⟩
    cases hinstrs : b.instrs with
    | nil =>
      simp only [Block.listing,hinstrs,getLast?_singleton,Option.some.injEq] at hj
      simp [← hj,Instr.ofLabel,Opcode.isFinal] at hfinal
    | cons i rest =>
      rw [Block.listing,hinstrs,getLast?_cons_cons] at hj
      exact hj

theorem labelNames_listing (h : b.Cut) : labelNames b.listing = [b.label] := by
  have hinstrs : labelNames b.instrs = [] := by
    rw [labelNames,filter_eq_nil_iff.2 fun i hi => by simp [h.isLabel hi]]
    rfl
  rw [Block.listing,labelNames_label (isLabel_ofLabel _),hinstrs]
  rfl

theorem labelNames_flatMap_listing (h : ∀ b ∈ bs, b.Cut) :
    labelNames (bs.flatMap Block.listing) = bs.map Block.label := by
  induction bs with
  | nil => rfl
  | cons b bs ih =>
    rw [flatMap_cons,labelNames_append,labelNames_listing (h b (by simp)),
      ih fun c hc => h c (by simp [hc])]
    rfl

structure CutInto (code : List Instr) (bs : List Block) : Prop where
  listing : bs.flatMap Block.listing = code
  cut {b : Block} : b ∈ bs → b.Cut
  labels : ∃ k, bs.map Block.label = (List.range' 0 k).map numberText
  closed {before after : List Block} {b : Block} : bs = before ++ b :: after →
    b.jumps ≠ [] ∨ after ≠ [] → b.Closed

theorem CutInto.nodup (h : CutInto code bs) : (bs.map Block.label).Nodup := by
  obtain ⟨k,hk⟩ := h.labels
  rw [hk]
  exact List.Nodup.map (fun m n => numberText_injective) nodup_range'

theorem cutInto_of_cutBlocks (hq : IsCanonical (i :: rest)) (hi : i.isLabel = true)
    (h : cutBlocks ⟨i.arg1.text,[],[]⟩ false rest = .ok bs) :
    CutInto (i :: rest) bs ∧ ∃ b cs, bs = b :: cs ∧ b.label = i.arg1.text := by
  have hlabel : i = .ofLabel i.arg1.text := hq.label (by simp) hi
  have hlisting : Block.listing ⟨i.arg1.text,[],[]⟩ ++ rest = i :: rest := by
    simp [Block.listing,Block.instrs,← hlabel]
  obtain ⟨hflat,hcut,hhead⟩ := cutBlocks_listing h ⟨by simp,by simp⟩ (fun _ => rfl)
    (by rw [hlisting]; exact hq.adjacent) (fun j hj => hq.label (by simp [hj]))
  rw [hlisting] at hflat
  refine ⟨⟨hflat,hcut _,?_,?_⟩,hhead⟩
  · rw [← labelNames_flatMap_listing hcut,hflat]
    exact hq.labels
  · intro before after c heq hends
    have hadjacent : Adjacent Seals ((before ++ c :: after).flatMap Block.listing) := by
      rw [← heq,hflat]
      exact hq.adjacent
    obtain ⟨hjumps,hafter⟩ := closed_of_adjacent hadjacent (hcut c (by simp [heq]))
    exact hends.elim hjumps hafter

theorem graphOf_eq_ok (hq : IsCanonical q.body) (h : graphOf q = .ok g) :
    ∃ b bs, Graph.ofBlocks q.name b.label (b :: bs) = .ok g ∧ CutInto q.body (b :: bs) := by
  unfold graphOf at h
  split at h
  · cases h
  · rename_i i rest hbody
    split at h
    · rename_i hlabel
      obtain ⟨bs,hbs,h⟩ := Except.bind_eq_ok.1 h
      rw [hbody] at hq ⊢
      obtain ⟨hcut,b,cs,rfl,hhead⟩ := cutInto_of_cutBlocks hq hlabel hbs
      exact ⟨b,cs,by rwa [hhead],hcut⟩
    · cases h

end

end BxToolchain.Flow
