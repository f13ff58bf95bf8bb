import BxToolchain.Proofs.Flow.Listing

namespace BxToolchain.Flow

open Tac List

def listed (g : Graph) (order : List String) : List Block := order.filterMap g.blocks.get?

theorem flatMap_listingAt (blocks : Table String Block) (order : List String) :
    order.flatMap (listingAt blocks) = (order.filterMap blocks.get?).flatMap Block.listing := by
  induction order with
  | nil => rfl
  | cons l order ih =>
    rw [flatMap_cons,ih,filterMap_cons]
    cases h : blocks.get? l <;> simp [listingAt,h]

section

variable {g : Graph} (hg : Sound g)
include hg

theorem Sound.edgesIn : EdgesIn g.next := by
  intro a ls l hls hl
  rw [hg.linked.next_isSome]
  exact (hg.linked.edge ((hg.linked.mem_next hls l).1 hl)).2

theorem Sound.exists_order : ∃ order, Order g order :=
  Flow.exists_order hg.edgesIn (by rw [hg.linked.next_isSome]; exact hg.entry)

theorem Order.contains (h : Order g order) (hl : l ∈ order) : g.blocks.contains l = true := by
  rw [← hg.linked.next_isSome]
  exact h.isSome hl

theorem mem_listed : b ∈ listed g order ↔ b.label ∈ order ∧ g.blocks.get? b.label = some b := by
  rw [listed,mem_filterMap]
  constructor
  · rintro ⟨l,hl,hb⟩
    have hlabel := hg.label (Table.mem_of_get? hb)
    subst hlabel
    exact ⟨hl,hb⟩
  · rintro ⟨hl,hb⟩
    exact ⟨b.label,hl,hb⟩

theorem map_label_listed (h : ∀ l ∈ order, g.blocks.contains l = true) :
    (listed g order).map Block.label = order := by
  induction order with
  | nil => rfl
  | cons l order ih =>
    obtain ⟨b,hb⟩ := (Table.contains_iff _ _).1 (h l (by simp))
    have hlabel := hg.label (Table.mem_of_get? hb)
    rw [listed,filterMap_cons,hb,map_cons,hlabel]
    exact congrArg _ (ih fun m hm => h m (by simp [hm]))

theorem Order.linearize_eq (h : Order g order) :
    linearize g = .ok ((listed g order).flatMap Block.listing) := by
  rw [listed,← flatMap_listingAt]
  exact h.eq_ok fun l hl => h.contains hg hl

end

theorem codeAfter_listing {before after}
    (hnodup : (labelNames ((before ++ b :: after).flatMap Block.listing)).Nodup) :
    codeAfter b.label ((before ++ b :: after).flatMap Block.listing) =
      some (skipLabels (b.instrs ++ after.flatMap Block.listing)) := by
  rw [flatMap_append,flatMap_cons] at hnodup ⊢
  exact codeAfter_of_nodup hnodup (isLabel_ofLabel b.label)

def SamePlace (blocks : List Block) (s t : List Instr) : Prop :=
  s = [] ∨ ∃ b rest after after', b ∈ blocks ∧ rest ≠ [] ∧ rest <:+ b.instrs ∧
    (b.Closed ∨ after = []) ∧ s = rest ++ after ∧ t = rest ++ after'

theorem skipLabels_instrs {b : Block} (hb : b.Cut) {rest : List Instr} (hrest : rest <:+ b.instrs)
    (hne : rest ≠ []) (after : List Instr) : skipLabels (rest ++ after) = rest ++ after := by
  obtain ⟨i,rest,rfl⟩ := exists_cons_of_ne_nil hne
  exact skipLabels_cons (hb.isLabel (hrest.subset (by simp))) _

theorem samePlace_block {blocks : List Block} (hb : b.Cut) (hmem : b ∈ blocks)
    {after : List Instr} (hend : b.Closed ∨ after = []) (after' : List Instr) :
    SamePlace blocks (skipLabels (b.instrs ++ after)) (skipLabels (b.instrs ++ after')) := by
  by_cases hinstrs : b.instrs = []
  · have hopen : ¬b.Closed := by
      rintro ⟨j,hj,-⟩
      simp [hinstrs] at hj
    rw [hend.resolve_left hopen,hinstrs]
    exact .inl rfl
  · have hself : b.instrs <:+ b.instrs := suffix_refl _
    rw [skipLabels_instrs hb hself hinstrs,skipLabels_instrs hb hself hinstrs]
    exact .inr ⟨b,b.instrs,after,after',hmem,hinstrs,hself,hend,rfl,rfl⟩

section

variable {g : Graph} {b : Block}

theorem codeAfter_first (b : Block) (bs : List Block) :
    codeAfter b.label ((b :: bs).flatMap Block.listing) =
      some (skipLabels ((b :: bs).flatMap Block.listing)) := by
  rw [flatMap_cons,Block.listing,cons_append,skipLabels_label (isLabel_ofLabel _)]
  exact codeAfter_label (isLabel_ofLabel b.label) _

variable (hg : Sound g)
include hg

theorem Sound.mem_next (hb : g.blocks.get? b.label = some b) (hi : i ∈ b.instrs)
    (hcheck : i.check = .ok ()) (hjump : i.jump? = some l) (hl : g.blocks.contains l = true) :
    ∃ ls, g.next.get? b.label = some ls ∧ l ∈ ls := by
  have hends : i.opcode.endsBlock = true ∧ i.opcode ≠ .ret ∧ i.target.text = l := by
    unfold Instr.jump? at hjump
    split at hjump <;>
      simp_all [Opcode.endsBlock,Opcode.isFinal,Opcode.isBranch,Instr.target]
  obtain ⟨hends,hret,htext⟩ := hends
  have hmem : i ∈ b.jumps := by
    rcases mem_append.1 hi with hi | hi
    · simp [((hg.cut hb).body hi).2] at hends
    · exact hi
  obtain ⟨m,hm,hm'⟩ := exists_target hcheck hends hret
  rw [hm,Operand.text_name] at htext
  subst htext
  have hne : m ≠ "" := by
    rintro rfl
    simp [Tac.isLabel,startsWith] at hm'
  have hsome : (g.next.get? b.label).isSome = true := by
    rw [hg.linked.next_isSome]
    exact (Table.contains_iff _ _).2 ⟨b,hb⟩
  obtain ⟨ls,hls⟩ := Option.isSome_iff_exists.1 hsome
  exact ⟨ls,hls,(hg.linked.mem_next hls m).2 ⟨b,hb,i,hmem,hm,hne⟩⟩

theorem Sound.mem_values : b ∈ g.blocks.values ↔ g.blocks.get? b.label = some b := by
  constructor
  · intro hb
    obtain ⟨⟨l,c⟩,hmem,rfl⟩ := mem_map.1 hb
    have hlabel := hg.label hmem
    rw [hlabel]
    exact Table.get?_of_mem hg.nodup hmem
  · intro hb
    exact mem_map.2 ⟨_,Table.mem_of_get? hb,rfl⟩

theorem labelNames_listed (horder : Order g order) :
    labelNames ((listed g order).flatMap Block.listing) = order := by
  rw [labelNames_flatMap_listing fun c hc => hg.cut ((mem_listed hg).1 hc).2]
  exact map_label_listed hg fun l hl => horder.contains hg hl

theorem samePlace_label (hcut : CutInto code g.blocks.values) (horder : Order g order)
    (hb : b ∈ listed g order) :
    ∃ s s', codeAfter b.label code = some s ∧
      codeAfter b.label ((listed g order).flatMap Block.listing) = some s' ∧
      SamePlace (listed g order) s s' := by
  have hnodup : (labelNames code).Nodup := by
    rw [← hcut.listing,labelNames_flatMap_listing fun c hc => hcut.cut hc]
    exact hcut.nodup
  have hnodup' : (labelNames ((listed g order).flatMap Block.listing)).Nodup := by
    rw [labelNames_listed hg horder]
    exact horder.nodup
  have hvalue := hg.mem_values.2 ((mem_listed hg).1 hb).2
  obtain ⟨before,after,heq⟩ := append_of_mem hvalue
  obtain ⟨before',after',heq'⟩ := append_of_mem hb
  have hend : b.Closed ∨ after.flatMap Block.listing = [] := by
    by_cases hafter : after = []
    · exact .inr (by rw [hafter]; rfl)
    · exact .inl (hcut.closed heq (.inr hafter))
  refine ⟨_,_,?_,?_,samePlace_block (hcut.cut hvalue) hb hend (after'.flatMap Block.listing)⟩
  · rw [← hcut.listing,heq] at hnodup ⊢
    exact codeAfter_listing hnodup
  · rw [heq'] at hnodup' ⊢
    exact codeAfter_listing hnodup'

theorem exists_listed_entry (horder : Order g order) :
    ∃ b bs, listed g order = b :: bs ∧ b.label = g.entry := by
  obtain ⟨rest,rfl⟩ := head?_eq_some_iff.1 horder.head
  obtain ⟨b,hb⟩ := (Table.contains_iff _ _).1 hg.entry
  refine ⟨b,listed g rest,?_,hg.label (Table.mem_of_get? hb)⟩
  rw [listed,filterMap_cons,hb]
  rfl

theorem tracks_listing (hcut : CutInto code g.blocks.values)
    (hentry : ∃ b bs, g.blocks.values = b :: bs ∧ g.entry = b.label) (horder : Order g order)
    (hcode : ∀ i ∈ code, i.check = .ok () ∧ i.opcode ≠ .phi) :
    Tracks true code ((listed g order).flatMap Block.listing) (SamePlace (listed g order)) := by
  refine ⟨.inl ?_,fun _ => .inl rfl,?_⟩
  · obtain ⟨b,bs,hlisted,hlabel⟩ := exists_listed_entry hg horder
    obtain ⟨c,cs,hvalues,hentry⟩ := hentry
    obtain ⟨s,s',hs,hs',hplace⟩ := samePlace_label hg hcut horder (b := b) (by simp [hlisted])
    rw [hlabel,hentry,← hcut.listing,hvalues,codeAfter_first] at hs
    rw [hlisted,codeAfter_first] at hs'
    cases hs
    cases hs'
    rwa [← hvalues,hcut.listing,← hlisted] at hplace
  · rintro i rest t (hnil | ⟨c,rest',after,after',hc,hne,hsuffix,hend,hs,rfl⟩)
    · cases hnil
    · obtain ⟨j,rest',rfl⟩ := exists_cons_of_ne_nil hne
      rw [cons_append] at hs
      obtain ⟨rfl,rfl⟩ := List.cons.inj hs
      have hget := ((mem_listed hg).1 hc).2
      have hcutc := hg.cut hget
      have hi : i ∈ c.instrs := hsuffix.subset (by simp)
      have hin : i ∈ code := by
        rw [← hcut.listing]
        exact mem_flatMap.2 ⟨c,hg.mem_values.2 hget,by simp [Block.listing,hi]⟩
      refine ⟨hcutc.isLabel hi,(hcode i hin).2,i,rest' ++ after',rfl,.refl i,?_,?_⟩
      · intro hfinal
        by_cases hrest : rest' = []
        · -- Control runs out of the block only if nothing stands behind it.
          have hopen : ¬c.Closed := by
            rintro ⟨k,hk,hkfinal⟩
            obtain ⟨front,hfront⟩ := hsuffix
            rw [hrest] at hfront
            rw [← hfront,getLast?_concat] at hk
            cases hk
            simp [hfinal] at hkfinal
          rw [hend.resolve_left hopen,hrest]
          exact .inl (.inl rfl)
        · have hsuffix' := (suffix_cons i rest').trans hsuffix
          rw [skipLabels_instrs hcutc hsuffix' hrest,skipLabels_instrs hcutc hsuffix' hrest]
          exact .inl (.inr ⟨c,rest',after,after',hc,hrest,hsuffix',hend,rfl,rfl⟩)
      · intro l s hjump hs
        have hlabel : l ∈ g.blocks.values.map Block.label := by
          rw [← labelNames_flatMap_listing fun c hc => hcut.cut hc,hcut.listing]
          exact (isSome_codeAfter l code).1 (by simp [hs])
        obtain ⟨d,hd,rfl⟩ := mem_map.1 hlabel
        have hget' := hg.mem_values.1 hd
        obtain ⟨ls,hls,hl⟩ := hg.mem_next hget hi (hcode i hin).1 hjump
          ((Table.contains_iff _ _).2 ⟨d,hget'⟩)
        have hd' : d ∈ listed g order :=
          (mem_listed hg).2 ⟨horder.behind ((mem_listed hg).1 hc).1 hls hl,hget'⟩
        obtain ⟨s1,s',hs1,hs',hplace⟩ := samePlace_label hg hcut horder hd'
        cases hs.symm.trans hs1
        exact ⟨d.label,s',hjump,hs',.inl hplace⟩

omit hg

def roundTrip (p : Procedure) : Except Fault Procedure := do
  let (_,g) ← infer p
  return { p with body := ← linearize g }

theorem refines_roundTrip (hp : WellLabelled p) (h : infer p = .ok (q,g)) :
    ∃ p', roundTrip p = .ok p' ∧ p'.name = p.name ∧ Refines true p p' := by
  obtain ⟨hg,hq,hcut,-,hentry⟩ := sound_of_infer h
  obtain ⟨order,horder⟩ := hg.exists_order
  refine ⟨{ p with body := (listed g order).flatMap Block.listing },?_,rfl,?_⟩
  · simp [roundTrip,h,horder.linearize_eq hg,bind,Except.bind,pure,Except.pure]
  · obtain ⟨u,body,names,-,-,rfl⟩ := canonical_eq_ok.1 hq
    have hlist : Refines true { p with body := body.map (Instr.renameLabels names.entries) }
        { p with body := (listed g order).flatMap Block.listing } :=
      Tracks.refines (p := { p with body := body.map (Instr.renameLabels names.entries) }) fun _ =>
        ⟨by rw [labelNames_listed hg horder]; exact horder.nodup,_,
          tracks_listing hg hcut hentry horder fun i hi => check_canonical hp.check hp.phi hq hi⟩
    exact (refines_canonical true hp hq).trans hlist

end

theorem roundTrip_returnsAlike {program : Program}
    (h : ∀ p, .procedure p ∈ program → WellLabelled p ∧ ∃ r, infer p = .ok r) :
    ∃ program', program.mapProcedures roundTrip = .ok program' ∧
      ∀ (options : Options) (name : String) (args : List Datum) (w : World) (v : Datum) (w' : World),
        options.showInstrs = false →
        Returns (program.procedures {}) true options name args w v w' →
        ∃ fuel, execute (program'.procedures {}) fuel options name args w = (.ok v,w') := by
  have hall : ∀ p, .procedure p ∈ program →
      ∃ p', roundTrip p = .ok p' ∧ p'.name = p.name ∧ Refines true p p' := by
    intro p hp
    obtain ⟨hp,⟨q,g⟩,hinfer⟩ := h p hp
    exact refines_roundTrip hp hinfer
  obtain ⟨program',hprogram⟩ := mapProcedures_isOk fun p hp =>
    (hall p hp).imp fun p' hp' => hp'.1
  refine ⟨program',hprogram,fun options name args w v w' hquiet hrun => ?_⟩
  have hprocs : RefinesAll true (program.procedures {}) (program'.procedures {}) := by
    refine refinesAll_mapProcedures hprogram (fun p q hp hq => ?_) (.refl true {})
    obtain ⟨p',hp',hname,hrefines⟩ := hall p hp
    cases hq.symm.trans hp'
    exact ⟨hname,hrefines⟩
  exact returns_iff_execute.mp (hrun.refine hprocs hquiet).lenient

def sumProgram : Program :=
  [.procedure ⟨"@main",[.str "%n"],[{ opcode := .const, dest := .name "%s", arg1 := .int 0 },
     .ofLabel "%.Lloop",{ opcode := .branch .zero, arg1 := .name "%n", arg2 := .name "%.Lend" },
     { opcode := .param, arg1 := .int 1, arg2 := .name "%n" },
     { opcode := .param, arg1 := .int 2, arg2 := .name "%s" },
     { opcode := .call, dest := .name "%s", arg1 := .name "@add", arg2 := .int 2 },
     { opcode := .const, dest := .name "%d", arg1 := .int 1 },
     { opcode := .binary .sub, dest := .name "%n", arg1 := .name "%n", arg2 := .name "%d" },
     .jumpTo "%.Lloop",.ofLabel "%.Lend",{ opcode := .ret, arg1 := .name "%s" }]⟩,
   .procedure ⟨"@add",[.str "%a",.str "%b"],
    [{ opcode := .binary .add, dest := .name "%c", arg1 := .name "%a", arg2 := .name "%b" },
     { opcode := .ret, arg1 := .name "%c" }]⟩]

def isReady (p : Procedure) : Bool :=
  isWellLabelled p && (infer p).isOk && p.body.getLast?.any fun i => i.opcode.isFinal

theorem sumProgram_roundTrip :
    sumProgram.allProcedures isReady = true ∧
    ∃ program', sumProgram.mapProcedures roundTrip = .ok program' ∧
      ∃ fuel w, execute (program'.procedures {}) fuel {} "@main" [.int 3] {} = (.ok (.int 6),w) ∧
        w.output = "" := by
  have hall : sumProgram.allProcedures isReady = true := by decide +kernel
  have hready : ∀ p, .procedure p ∈ sumProgram → WellLabelled p ∧ ∃ r, infer p = .ok r := by
    intro p hp
    have hp := of_allProcedures hall hp
    simp only [isReady,Bool.and_eq_true] at hp
    exact ⟨wellLabelled_of_isWellLabelled hp.1.1,Except.exists_of_isOk hp.1.2⟩
  obtain ⟨program',hprogram,hruns⟩ := roundTrip_returnsAlike hready
  obtain ⟨⟨v,w⟩,hrun,hsum⟩ := (Option.any_eq_true ..).1 (show
    ((returns? (sumProgram.procedures {}) 60 {} "@main" [.int 3] {}).any fun r =>
      givesNumber (.ok r.1,r.2) 6 "") = true by decide +kernel)
  obtain ⟨_,heq,houtput⟩ := givesNumber_eq_true hsum
  cases heq
  obtain ⟨fuel,hfuel⟩ := hruns {} _ _ _ _ _ rfl ((returns_of_eq_some 60).1 hrun)
  exact ⟨hall,program',hprogram,fuel,w,hfuel,houtput⟩

def runOffProgram : Program :=
  [.procedure ⟨"@main",[.str "%x"],
    [{ opcode := .branch .zero, arg1 := .name "%x", arg2 := .name "%.Lb" },.jumpTo "%.Lc",
     .ofLabel "%.Lb",.jumpTo "%.Ld",.ofLabel "%.Lc",
     { opcode := .const, dest := .name "%z", arg1 := .int 0 },
     { opcode := .param, arg1 := .int 1, arg2 := .name "%z" },
     { opcode := .call, arg1 := .name "@main", arg2 := .int 1 },.jumpTo "%.Le",.ofLabel "%.Le",
     { opcode := .ret, arg1 := .name "%x" },.ofLabel "%.Ld",{ opcode := .nop }]⟩]

def isClosed (p : Procedure) : Bool :=
  (p.body.all fun i => i.check.isOk && i.opcode != .phi &&
    (!i.isLabel || !('%' :: '.' :: 'L' :: p.name.toList.drop 1).isPrefixOf i.arg1.text.toList) &&
    i.jump?.all fun l => decide (l ∈ labelNames p.body)) &&
  decide (labelNames p.body).Nodup && (infer p).isOk

theorem runOffProgram_roundTrip :
    runOffProgram.allProcedures isClosed = true ∧
    ∃ program', runOffProgram.mapProcedures roundTrip = .ok program' ∧
      (∃ w, execute (runOffProgram.procedures {}) 20 {} "@main" [.int 1] {} = (.ok (.int 1),w) ∧
        w.output = "//   @main(%x=0) --> NONE\n") ∧
      ∃ w, execute (program'.procedures {}) 20 {} "@main" [.int 1] {} = (.ok (.int 1),w) ∧
        w.output = "" := by
  have hruns : (match runOffProgram.mapProcedures roundTrip with
      | .ok program' => givesNumber (execute (program'.procedures {}) 20 {} "@main" [.int 1] {}) 1 ""
      | .error _ => false) = true := by
    decide +kernel
  have hrun : givesNumber (execute (runOffProgram.procedures {}) 20 {} "@main" [.int 1] {}) 1
      "//   @main(%x=0) --> NONE\n" := by
    decide +kernel
  refine ⟨by decide +kernel,?_⟩
  match hprogram : runOffProgram.mapProcedures roundTrip, hruns with
  | .ok program', hruns => exact ⟨program',rfl,givesNumber_eq_true hrun,givesNumber_eq_true hruns⟩

end BxToolchain.Flow
