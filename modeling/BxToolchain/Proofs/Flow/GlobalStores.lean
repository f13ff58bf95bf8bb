import BxToolchain.Proofs.Flow.Elimination

namespace BxToolchain.Flow

open Tac List

def storeOf? (i : Instr) : Option (Opcode × String) :=
  match i.dest with
  | .name d => if isGlobal d then some (i.opcode,d) else none
  | _ => none

def Graph.stores (g : Graph) : List (String × List (Opcode × String)) :=
  g.blocks.values.map fun b => (b.label,b.body.filterMap storeOf?)

def keepStores (p : Opcode → Bool) (stores : List (String × List (Opcode × String))) :
    List (String × List (Opcode × String)) :=
  stores.map fun e => (e.1,e.2.filter fun s => p s.1)

variable {g : Graph} {i : Instr} {is : List Instr} {n : Nat} {p : Opcode → Bool}

theorem keepStores_keepStores (p q : Opcode → Bool)
    (stores : List (String × List (Opcode × String))) :
    keepStores p (keepStores q stores) = keepStores (fun o => q o && p o) stores := by
  simp [keepStores,filter_filter,Bool.and_comm]

theorem storeOf?_eq_some :
    storeOf? i = some s ↔ i.dest = .name s.2 ∧ isGlobal s.2 = true ∧ i.opcode = s.1 := by
  unfold storeOf?
  cases i.dest <;> grind

theorem exists_of_mem_addAfter {live : Lives} {links : List Link} {after : Array (List String)}
    (h : t ∈ (links.foldl (addAfter live) after).getD n []) :
    t ∈ after.getD n [] ∨ ∃ m, ∃ u ∈ live.getD m [], u.temp = t := by
  induction links generalizing after with
  | nil => exact .inl h
  | cons k rest ih =>
    rcases ih h with h | h
    · rw [addAfter,getD_setIfInBounds,← foldl_map (f := Use.temp)
        (g := fun acc x => Names.insert x acc)] at h
      split at h
      · rename_i hk
        rw [Names.mem_foldl_insert,mem_map,hk.1] at h
        obtain ⟨u,hu,rfl⟩ | h := h
        · obtain ⟨x,rfl,hx | hx⟩ := mem_alongEdge.1 hu
          · exact .inr ⟨_,_,hx,rfl⟩
          · exact .inr ⟨_,_,hx,rfl⟩
        · exact .inl h
      · exact .inl h
    · exact .inr h

theorem isTemp_of_liveness (h : liveness g = .ok l)
    (ht : t ∈ l.before.getD n [] ∨ t ∈ l.after.getD n []) : isTemp t = true := by
  have hbroken : g.instrs.any Instr.isBroken = false := by
    by_contra hany
    simp [liveness,Bool.of_not_eq_false hany,throw,throwThe,MonadExceptOf.throw,bind,
      Except.bind] at h
  cases hlinks : g.links with
  | error e => simp [liveness,hbroken,hlinks,bind,Except.bind] at h
  | ok links =>
    rw [liveness_eq (by simpa using hbroken) hlinks] at h
    obtain rfl := Except.ok.inj h
    have hlive : ∀ {m u}, u ∈ (g.liveUses links).getD m [] → isTemp u.temp = true := by
      intro m u hu
      obtain ⟨i,-,v,hv,rfl | rfl⟩ := origin_liveUses hu
      · exact isTemp_of_mem_uses hv
      · exact isTemp_of_mem_uses (u := v) hv
    rcases ht with ht | ht
    · rw [getD_before,Names.mem_ofList,mem_map] at ht
      obtain ⟨u,hu,rfl⟩ := ht
      exact hlive hu
    · obtain ht | ⟨m,u,hu,rfl⟩ := exists_of_mem_addAfter ht
      · simp only [Array.getD_eq_getD_getElem?,getElem?_toArray,getElem?_map] at ht
        cases hn : g.instrs[n]? <;> simp [hn] at ht
      · exact hlive hu

theorem filterMap_eq_of_forall₂ (h : List.Forall₂ (fun i j => storeOf? j = storeOf? i) is js) :
    js.filterMap storeOf? = is.filterMap storeOf? := by
  induction h with
  | nil => rfl
  | cons hij _ ih => rw [filterMap_cons,filterMap_cons,hij,ih]

theorem map_eq_of_forall₂ (h : List.Forall₂ (fun x y => f' y = f x) xs ys) :
    ys.map f' = xs.map f := by
  induction h with
  | nil => rfl
  | cons hxy _ ih => rw [map_cons,map_cons,hxy,ih]

theorem storeOf?_versionInstr (n : Nat) (i : Instr) :
    storeOf? (versionInstr n i).1 = storeOf? i := by
  unfold versionInstr
  split
  · rename_i s hs
    split
    · rename_i hmark
      have hplain : ∀ s, startsWith "%" s = true → isGlobal s = false := fun s h => by
        by_contra hglobal
        rw [not_startsWith_of_isGlobal (by simpa using hglobal)] at h
        cases h
      have hversion : isGlobal (s ++ "." ++ toString n) = false := hplain _ (by
        simp only [startsWith,String.toList_append,append_assoc] at hmark ⊢
        exact isPrefixOf_iff_prefix.2
          (( isPrefixOf_iff_prefix.1 hmark).trans (prefix_append _ _)))
      simp only [storeOf?,hs,hplain s hmark,hversion,Bool.false_eq_true,if_false]
    · rfl
  · rfl

theorem stores_versionInstrs (n : Nat) (is : List Instr) :
    (versionInstrs n is).1.filterMap storeOf? = is.filterMap storeOf? := by
  induction is generalizing n with
  | nil => rfl
  | cons i rest ih => simp only [versionInstrs,filterMap_cons,storeOf?_versionInstr,ih]

theorem stores_useVersions (vs : Versions) (is : List Instr) :
    (useVersions vs is).1.filterMap storeOf? = is.filterMap storeOf? := by
  induction is generalizing vs with
  | nil => rfl
  | cons i rest ih =>
    simp only [useVersions,filterMap_cons,ih]
    rfl

theorem stores_forwardInstrs (vs : Versions) (is : List Instr) :
    (forwardInstrs vs is).1.filterMap storeOf? = is.filterMap storeOf? := by
  induction is generalizing vs with
  | nil => rfl
  | cons i rest ih =>
    have hi : storeOf? (forwardInstr vs i).1 = storeOf? i := by
      unfold forwardInstr
      split <;> rfl
    simp only [forwardInstrs,filterMap_cons,hi,ih]

theorem storeOf?_resolveSources (h : resolveSources versions i = .ok j) :
    storeOf? j = storeOf? i := by
  unfold resolveSources at h
  split at h
  · obtain ⟨sources,-,h⟩ := Tac.Except.bind_eq_ok.1 h
    cases h
    rfl
  · cases h
    rfl

theorem stores_insertPhis (h : insertPhis g = .ok g') : g'.stores = g.stores := by
  obtain ⟨l,hl,h⟩ := Tac.Except.bind_eq_ok.1 h
  obtain ⟨blocks,hblocks,h⟩ := Tac.Except.bind_eq_ok.1 h
  cases h
  rw [Graph.stores,Graph.stores,← map_snd_placesFrom 0 g.blocks.values,Table.values,
    map_map,map_map]
  refine map_eq_of_forall₂ ((Except.mapM_eq_ok.1 hblocks).imp fun e b hb => ?_)
  obtain ⟨labels,-,hb⟩ := Tac.Except.bind_eq_ok.1 hb
  cases hb
  have hphis : ((l.before.getD e.1 []).map (phiFor labels)).filterMap storeOf? = [] := by
    rw [filterMap_eq_nil_iff]
    intro i hi
    obtain ⟨t,ht,rfl⟩ := mem_map.1 hi
    simp [storeOf?,phiFor,isGlobal_of_isTemp (isTemp_of_liveness hl (.inl ht))]
  simp only [Function.comp_apply,filterMap_append,hphis,nil_append]

theorem stores_ssa (h : ssa params g = .ok g') : g'.stores = g.stores := by
  obtain ⟨g0,hphis,h⟩ := Tac.Except.bind_eq_ok.1 h
  rw [← stores_insertPhis hphis]
  split at h
  · cases h
  obtain ⟨blocks,hblocks,h⟩ := Tac.Except.bind_eq_ok.1 h
  cases h
  have hversions : ∀ n entries, (versionBlocks n entries).map (fun e =>
      (e.2.label,e.2.body.filterMap storeOf?)) =
        entries.map fun e => (e.2.label,e.2.body.filterMap storeOf?) := by
    intro n entries
    induction entries generalizing n with
    | nil => rfl
    | cons e rest ih => simp only [versionBlocks,map_cons,stores_versionInstrs,ih]
  simp only [Graph.stores,Table.values,map_map]
  refine (map_eq_of_forall₂ ?_).trans (hversions 0 g0.blocks.entries)
  refine (forall₂_map_left_iff.1 (Except.mapM_eq_ok.1 hblocks)).imp fun e b hb => ?_
  obtain ⟨b',hb',hb⟩ := Tac.Except.bind_eq_ok.1 hb
  cases hb
  obtain ⟨body,hbody,hb'⟩ := Tac.Except.bind_eq_ok.1 hb'
  obtain ⟨jumps,-,hb'⟩ := Tac.Except.bind_eq_ok.1 hb'
  cases hb'
  have hresolved := filterMap_eq_of_forall₂
    ((Except.mapM_eq_ok.1 hbody).imp fun _ _ => storeOf?_resolveSources)
  exact congrArg (Prod.mk _) (hresolved.trans (stores_useVersions _ _))

theorem filterMap_filter (h : ∀ i ∈ is, ∀ s, storeOf? i = some s → r i = p s.1) :
    (is.filter r).filterMap storeOf? = (is.filterMap storeOf?).filter fun s => p s.1 := by
  induction is with
  | nil => rfl
  | cons i rest ih =>
    have ih := ih fun j hj => h j (mem_cons_of_mem i hj)
    have hi := h i mem_cons_self
    grind

theorem stores_propagateCopies (h : propagateCopies params g = .ok g') :
    g'.stores = keepStores (fun o => o ≠ .copy) g.stores := by
  obtain ⟨g1,hssa,h⟩ := Tac.Except.bind_eq_ok.1 h
  cases h
  have hforward : ∀ vs entries, (forwardBlocks vs entries).map (fun e =>
      (e.2.label,e.2.body.filterMap storeOf?)) =
        entries.map fun e => (e.2.label,e.2.body.filterMap storeOf?) := by
    intro vs entries
    induction entries generalizing vs with
    | nil => rfl
    | cons e rest ih => simp only [forwardBlocks,map_cons,stores_forwardInstrs,ih]
  have hstores : (forwardCopies g1).stores = g.stores := by
    rw [← stores_ssa hssa]
    simp only [Graph.stores,Table.values,forwardCopies,map_map]
    exact hforward {} g1.blocks.entries
  rw [← hstores]
  simp only [Graph.stores,keepStores,dropCopies,Graph.mapBlocks,Table.values,Table.mapValues,
    map_map]
  refine map_congr_left fun e _ => Prod.ext rfl ?_
  refine filterMap_filter (p := fun o => o ≠ .copy) fun i _ s hs => ?_
  rw [(storeOf?_eq_some.1 hs).2.2]

theorem isDead_of_storeOf? (hl : liveness g = .ok l) (hs : storeOf? i = some s) :
    isDead i (l.after.getD n []) = !hasEffect s.1 := by
  obtain ⟨hdest,hglobal,ho⟩ := storeOf?_eq_some.1 hs
  have hafter : (l.after.getD n []).contains s.2 = false := by
    rw [← Bool.not_eq_true,contains_iff_mem]
    intro ht
    rw [isGlobal_of_isTemp (isTemp_of_liveness hl (.inr ht))] at hglobal
    cases hglobal
  simp only [isDead,hdest,ho,hafter,Bool.not_false,Bool.and_true]

theorem stores_keepFrom (hl : liveness g = .ok l) (n : Nat) (is : List Instr) :
    (keepFrom l n is).filterMap storeOf? =
      (is.filterMap storeOf?).filter fun s => hasEffect s.1 := by
  induction is generalizing n with
  | nil => rfl
  | cons i rest ih =>
    have hi := fun s => isDead_of_storeOf? (n := n) (i := i) (s := s) hl
    grind [keepFrom]

theorem stores_dropDead (h : dropDead g = .ok g') : g'.stores = keepStores hasEffect g.stores := by
  obtain ⟨l,hl,h⟩ := Tac.Except.bind_eq_ok.1 h
  cases h
  rw [Graph.stores,Graph.stores,keepStores,← map_snd_placesFrom 0 g.blocks.values,Table.values]
  simp only [map_map]
  refine map_congr_left fun e _ => Prod.ext rfl ?_
  exact (congrArg _ (body_keepLive l e.1 e.2)).trans (stores_keepFrom hl e.1 e.2.body)

theorem stores_dropAllDead (h : dropAllDead (fuel + 1) g = .ok g') :
    g'.stores = keepStores hasEffect g.stores := by
  induction fuel generalizing g with
  | zero =>
    obtain ⟨g1,hdrop,h⟩ := Tac.Except.bind_eq_ok.1 h
    obtain ⟨-,-,h⟩ := Tac.Except.bind_eq_ok.1 h
    split at h <;> cases h <;> exact stores_dropDead hdrop
  | succ fuel ih =>
    obtain ⟨g1,hdrop,h⟩ := Tac.Except.bind_eq_ok.1 h
    obtain ⟨-,-,h⟩ := Tac.Except.bind_eq_ok.1 h
    split at h
    · cases h
      exact stores_dropDead hdrop
    · rw [ih h,stores_dropDead hdrop,keepStores_keepStores]
      simp

theorem simplified_stores {params : List Datum} {g g₁ g₂ : Graph}
    (hcopies : propagateCopies params g = .ok g₁) (hdead : eliminateDead g₁ = .ok g₂) :
    g₁.stores = keepStores (fun o => o ≠ .copy) g.stores ∧
      g₂.stores = keepStores hasEffect g.stores := by
  have hcopies := stores_propagateCopies hcopies
  refine ⟨hcopies,(stores_dropAllDead hdead).trans ?_⟩
  rw [hcopies,keepStores_keepStores]
  congr 1
  funext o
  cases o <;> rfl

def storingProcedure : Procedure :=
  ⟨"@main",[.str "%n"],
    [{ opcode := .binary .div, dest := .name "@total", arg1 := .name "%n", arg2 := .name "%n" },
     { opcode := .const, dest := .name "@last", arg1 := .int 5 },
     { opcode := .ret, arg1 := .name "%n" }]⟩

def storesBoth (p : Procedure) (before after : List (String × List (Opcode × String))) :
    Except Fault Bool := do
  let (_,g) ← infer p
  let g2 ← eliminateDead (← propagateCopies p.params g)
  return decide (g.stores = before) && decide (g2.stores = after)

theorem exists_of_storesBoth {p before after} (h : storesBoth p before after = .ok true) :
    ∃ q g g1 g2, infer p = .ok (q,g) ∧ propagateCopies p.params g = .ok g1 ∧
      eliminateDead g1 = .ok g2 ∧ g.stores = before ∧ g2.stores = after := by
  obtain ⟨⟨q,g⟩,hinfer,h⟩ := Tac.Except.bind_eq_ok.1 h
  obtain ⟨g1,hcopies,h⟩ := Tac.Except.bind_eq_ok.1 h
  obtain ⟨g2,hdead,h⟩ := Tac.Except.bind_eq_ok.1 h
  have hstores := Except.ok.inj h
  rw [Bool.and_eq_true,decide_eq_true_eq,decide_eq_true_eq] at hstores
  exact ⟨q,g,g1,g2,hinfer,hcopies,hdead,hstores⟩

theorem storesBoth_storingProcedure :
    storesBoth storingProcedure [("%.L0",[(.binary .div,"@total"),(.const,"@last")])]
      [("%.L0",[(.binary .div,"@total")])] = .ok true := by
  decide +kernel

theorem storingProcedure_stores :
    ∃ q g g₁ g₂, infer storingProcedure = .ok (q,g) ∧
      propagateCopies storingProcedure.params g = .ok g₁ ∧ eliminateDead g₁ = .ok g₂ ∧
      g₂.stores = keepStores hasEffect g.stores := by
  obtain ⟨q,g,g₁,g₂,hinfer,hcopies,hdead,-⟩ :=
    exists_of_storesBoth storesBoth_storingProcedure
  exact ⟨q,g,g₁,g₂,hinfer,hcopies,hdead,(simplified_stores hcopies hdead).2⟩

theorem storingProcedure_loses_store :
    ∃ q g g₁ g₂, infer storingProcedure = .ok (q,g) ∧
      propagateCopies storingProcedure.params g = .ok g₁ ∧ eliminateDead g₁ = .ok g₂ ∧
      g.stores = [("%.L0",[(.binary .div,"@total"),(.const,"@last")])] ∧
      g₂.stores = [("%.L0",[(.binary .div,"@total")])] :=
  exists_of_storesBoth storesBoth_storingProcedure

end BxToolchain.Flow
