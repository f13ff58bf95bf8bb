import BxToolchain.Flow.Ssa
import BxToolchain.Proofs.Flow.Standing
import Mathlib.Data.List.TakeWhile

namespace BxToolchain.Flow

open Tac List

variable {s : String} {versions : Table String Versions}

def version (s : String) (n : Nat) : String := s ++ "." ++ toString n

theorem toList_version (s : String) (n : Nat) :
    (version s n).toList = s.toList ++ '.' :: Nat.toDigits 10 n := by
  simp [version]

theorem ne_point_of_mem_toDigits (h : c ∈ Nat.toDigits 10 n) : c ≠ '.' := by
  rintro rfl
  exact absurd (isDigit_of_mem_toDigits _ h) (by decide)

theorem rootOf_version (s : String) (n : Nat) : rootOf (version s n) = s := by
  have hdrop : (version s n).toList.reverse.dropWhile (· ≠ '.') = '.' :: s.toList.reverse := by
    rw [toList_version,reverse_append,reverse_cons,append_assoc,dropWhile_append_of_pos]
    · simp
    · intro c hc
      simpa using ne_point_of_mem_toDigits (mem_reverse.1 hc)
  rw [rootOf,hdrop]
  simp

theorem rootOf_eq_self (h : '.' ∉ s.toList) : rootOf s = s := by
  have hdrop : s.toList.reverse.dropWhile (· ≠ '.') = [] := by
    rw [dropWhile_eq_nil_iff]
    intro c hc
    have hne : c ≠ '.' := fun heq => h (heq ▸ mem_reverse.1 hc)
    simpa using hne
  rw [rootOf,hdrop]

theorem startsWith_of_isTemp (h : isTemp s = true) : startsWith "%" s = true := by
  rw [isTemp,Bool.and_eq_true] at h
  exact h.1

theorem isTemp_version (h : isTemp s = true) (n : Nat) : isTemp (version s n) = true := by
  simp only [isTemp,isLabel,startsWith,toList_version,Bool.and_eq_true,Bool.not_eq_true'] at h ⊢
  obtain ⟨hmark,hlabel⟩ := h
  cases hs : s.toList with
  | nil => simp [hs] at hmark
  | cons c rest =>
    rw [hs] at hmark hlabel
    refine ⟨by simpa [List.isPrefixOf] using hmark,?_⟩
    cases rest with
    | nil =>
      cases hd : Nat.toDigits 10 n with
      | nil => exact absurd hd Nat.toDigits_ne_nil
      | cons d ds =>
        have hdigit : d.isDigit = true := isDigit_of_mem_toDigits d (hd ▸ mem_cons_self)
        have hne : 'L' ≠ d := by
          rintro rfl
          exact absurd hdigit (by decide)
        simp [List.isPrefixOf,hne]
    | cons c' rest =>
      cases rest with
      | nil => simp [List.isPrefixOf]
      | cons c'' rest => simpa [List.isPrefixOf] using hlabel

def Versions.current (vs : Versions) (t : String) : String := (vs.get? t).getD t

def Versions.after (vs : Versions) (i : Instr) : Versions :=
  match i.dest.read? with
  | some d => vs.insert (rootOf d) d
  | none => vs

def resolve (versions : Table String Versions) (i : Instr) : Instr :=
  match i.opcode, i.arg1 with
  | .phi, .phi sources =>
    { i with arg1 := .phi (sources.map fun e => (e.1,((versions.get? e.1).getD {}).current e.2)) }
  | _, _ => i

def convert (versions : Table String Versions) (n : Nat) (vs : Versions) (i : Instr) : Instr :=
  resolve versions ((versionInstr n i).1.renameReads vs.current)

def convertAll (versions : Table String Versions) : Nat → Versions → List Instr → List Instr
  | _, _, [] => []
  | n, vs, i :: rest =>
    convert versions n vs i ::
      convertAll versions (versionInstr n i).2 (vs.after (versionInstr n i).1) rest

def versionsBehind : Nat → Versions → List Instr → Nat × Versions
  | n, vs, [] => (n,vs)
  | n, vs, i :: rest =>
    versionsBehind (versionInstr n i).2 (vs.after (versionInstr n i).1) rest

section

variable {n : Nat} {i : Instr}

theorem resolveSources_eq (h : ∀ l t, i.opcode = .phi → (l,t) ∈ i.sources →
    versions.contains l = true) : resolveSources versions i = .ok (resolve versions i) := by
  unfold resolveSources
  split
  · rename_i sources ho harg
    refine Except.bind_eq_ok.2
      ⟨sources.map fun e => (e.1,((versions.get? e.1).getD {}).current e.2),Except.mapM_eq_ok.2
          (forall₂_map_right_iff.2 (forall₂_same.2 fun ⟨l,t⟩ he => ?_)),?_⟩
    · obtain ⟨vs,hvs⟩ := (Table.contains_iff _ _).1
        (h l t ho (by simpa [Instr.sources,harg] using he))
      simp [hvs,Versions.current]
    · simp [resolve,ho,harg,pure,Except.pure]
  · rename_i hnot
    unfold resolve
    split
    · rename_i sources ho harg
      exact absurd harg (hnot sources ho)
    · rfl

theorem opcode_versionInstr (n : Nat) (i : Instr) : (versionInstr n i).1.opcode = i.opcode := by
  unfold versionInstr
  split
  · split <;> rfl
  · rfl

theorem arg1_versionInstr (n : Nat) (i : Instr) : (versionInstr n i).1.arg1 = i.arg1 := by
  unfold versionInstr
  split
  · split <;> rfl
  · rfl

theorem arg2_versionInstr (n : Nat) (i : Instr) : (versionInstr n i).1.arg2 = i.arg2 := by
  unfold versionInstr
  split
  · split <;> rfl
  · rfl

variable (versions) (n) (vs : Versions)

theorem versionsBehind_append (first second : List Instr) :
    versionsBehind n vs (first ++ second) =
      versionsBehind (versionsBehind n vs first).1 (versionsBehind n vs first).2 second := by
  induction first generalizing n vs with
  | nil => rfl
  | cons i rest ih => simp only [cons_append,versionsBehind,ih]

theorem map_resolve_useVersions (is : List Instr) :
    (useVersions vs (versionInstrs n is).1).1.map (resolve versions) = convertAll versions n vs is ∧
      versionsBehind n vs is = ((versionInstrs n is).2,(useVersions vs (versionInstrs n is).1).2) := by
  induction is generalizing n vs with
  | nil => exact ⟨rfl,rfl⟩
  | cons i rest ih =>
    obtain ⟨hcode,hbehind⟩ := ih (versionInstr n i).2 (vs.after (versionInstr n i).1)
    simp only [versionInstrs,useVersions,map_cons,convertAll,versionsBehind,convert]
    exact ⟨congrArg _ hcode,hbehind⟩

theorem convertAll_append (first second : List Instr) :
    convertAll versions n vs (first ++ second) =
      convertAll versions n vs first ++ convertAll versions (versionsBehind n vs first).1
        (versionsBehind n vs first).2 second := by
  induction first generalizing n vs with
  | nil => rfl
  | cons i rest ih => simp only [cons_append,convertAll,versionsBehind,ih]

theorem length_convertAll (is : List Instr) : (convertAll versions n vs is).length = is.length := by
  induction is generalizing n vs with
  | nil => rfl
  | cons i rest ih => simp [convertAll,ih]

end

def convertBlock (versions : Table String Versions) (n : Nat) (b : Block) : Block :=
  { b with
    body := convertAll versions n {} b.body
    jumps := convertAll versions (versionsBehind n {} b.body).1 (versionsBehind n {} b.body).2
      b.jumps }

theorem instrs_convertBlock (versions : Table String Versions) (n : Nat) (b : Block) :
    (convertBlock versions n b).instrs = convertAll versions n {} b.instrs := by
  rw [Block.instrs,Block.instrs,convertAll_append]
  rfl

def numberBlocks : Nat → List (String × Block) → List (Nat × String × Block)
  | _, [] => []
  | n, (l,b) :: rest => (n,l,b) :: numberBlocks (versionsBehind n {} b.instrs).1 rest

def endVersions (g : Graph) : Table String Versions :=
  .ofList ((g.name,{}) ::
    (numberBlocks 0 g.blocks.entries).map fun e => (e.2.1,(versionsBehind e.1 {} e.2.2.instrs).2))

theorem map_snd_numberBlocks (n : Nat) (entries : List (String × Block)) :
    (numberBlocks n entries).map Prod.snd = entries := by
  induction entries generalizing n with
  | nil => rfl
  | cons e rest ih =>
    obtain ⟨l,b⟩ := e
    simp [numberBlocks,ih]

theorem useVersionsIn_versionBlocks (n : Nat) (entries : List (String × Block)) :
    (versionBlocks n entries).map (fun (l,b) => (l,useVersionsIn b)) =
      (numberBlocks n entries).map fun e =>
        (e.2.1,({ e.2.2 with
            body := (useVersions {} (versionInstrs e.1 e.2.2.body).1).1
            jumps := (useVersions (versionsBehind e.1 {} e.2.2.body).2
              (versionInstrs (versionsBehind e.1 {} e.2.2.body).1 e.2.2.jumps).1).1 } : Block),
          (versionsBehind e.1 {} e.2.2.instrs).2) := by
  induction entries generalizing n with
  | nil => rfl
  | cons e rest ih =>
    obtain ⟨l,b⟩ := e
    have hbody := (map_resolve_useVersions {} n {} b.body).2
    have hjumps := (map_resolve_useVersions {} (versionInstrs n b.body).2
      (useVersions {} (versionInstrs n b.body).1).2 b.jumps).2
    have hinstrs : versionsBehind n {} b.instrs =
        ((versionInstrs (versionInstrs n b.body).2 b.jumps).2,
          (useVersions (useVersions {} (versionInstrs n b.body).1).2
            (versionInstrs (versionInstrs n b.body).2 b.jumps).1).2) := by
      rw [Block.instrs,versionsBehind_append,hbody,hjumps]
    simp only [versionBlocks,numberBlocks,map_cons]
    rw [ih,hinstrs]
    simp only [useVersionsIn,hbody]

def Known (versions : Table String Versions) (i : Instr) : Prop :=
  ∀ l t, i.opcode = .phi → (l,t) ∈ i.sources → versions.contains l = true

theorem sources_renameReads {i : Instr} (f : String → String) (ho : i.opcode = .phi) :
    (i.renameReads f).sources = i.sources := by
  simp [Instr.renameReads,Instr.sources,ho,Opcode.readsFirst]

theorem Known.useVersions {versions is} (h : ∀ i ∈ is, Known versions i) (n : Nat) (vs : Versions) :
    ∀ i ∈ (Flow.useVersions vs (versionInstrs n is).1).1, Known versions i := by
  induction is generalizing n vs with
  | nil => simp [versionInstrs,Flow.useVersions]
  | cons i rest ih =>
    simp only [versionInstrs,Flow.useVersions]
    intro i' hi'
    rcases mem_cons.1 hi' with rfl | hi'
    · intro l t ho hsource
      have ho' : i.opcode = .phi := (opcode_versionInstr n i).symm.trans ho
      refine h i (by simp) l t ho' ?_
      rw [sources_renameReads (i := (versionInstr n i).1) _ ho] at hsource
      rwa [Instr.sources,arg1_versionInstr,← Instr.sources] at hsource
    · exact ih (fun j hj => h j (by simp [hj])) _ _ i' hi'

theorem mapM_resolveSources {is : List Instr} (h : ∀ i ∈ is, Known versions i) :
    is.mapM (resolveSources versions) = .ok (is.map (resolve versions)) := by
  refine Except.mapM_eq_ok.2 (forall₂_map_right_iff.2 (forall₂_same.2 ?_))
  exact fun i hi => resolveSources_eq (h i hi)

def Graph.versioned (g : Graph) : Graph :=
  { g with
    blocks := ⟨(numberBlocks 0 g.blocks.entries).map fun e =>
      (e.2.1,convertBlock (endVersions g) e.1 e.2.2)⟩ }

theorem endVersions_eq (g : Graph) :
    endVersions g = .ofList ((g.name,{}) ::
      (((versionBlocks 0 g.blocks.entries).map fun (l,b) => (l,useVersionsIn b)).map
        fun (l,_,vs) => (l,vs))) := by
  rw [useVersionsIn_versionBlocks,map_map]
  rfl

theorem mapM_resolveBlock {g : Graph}
    (hknown : ∀ {l b i}, (l,b) ∈ g.blocks.entries → i ∈ b.instrs → Known (endVersions g) i) :
    ((versionBlocks 0 g.blocks.entries).map fun (l,b) => (l,useVersionsIn b)).mapM
      (fun (l,b,_) => do return (l,← resolveBlock (endVersions g) b)) =
      (.ok g.versioned.blocks.entries : Except Fault _) := by
  rw [useVersionsIn_versionBlocks]
  refine Except.mapM_eq_ok.2 (forall₂_map_left_iff.2 (forall₂_map_right_iff.2
    (forall₂_same.2 fun e he => ?_)))
  have hentry : e.2 ∈ g.blocks.entries := by
    rw [← map_snd_numberBlocks 0 g.blocks.entries]
    exact mem_map.2 ⟨e,he,rfl⟩
  have hbody := mapM_resolveSources (Known.useVersions
    (fun i hi => hknown hentry (mem_append.2 (.inl hi))) e.1 {})
  have hjumps := mapM_resolveSources (Known.useVersions
    (fun i hi => hknown hentry (mem_append.2 (.inr hi)))
    (versionsBehind e.1 {} e.2.2.body).1 (versionsBehind e.1 {} e.2.2.body).2)
  rw [(map_resolve_useVersions _ _ _ _).1] at hbody hjumps
  simp [resolveBlock,hbody,hjumps,convertBlock,bind,Except.bind,pure,Except.pure]

theorem ssa_eq {g g0 : Graph} (hphis : insertPhis g = .ok g0)
    (hparams : params.any isCompound = false)
    (hknown : ∀ {l b i}, (l,b) ∈ g0.blocks.entries → i ∈ b.instrs → Known (endVersions g0) i) :
    ssa params g = .ok g0.versioned := by
  have hresolve := mapM_resolveBlock hknown
  unfold ssa
  rw [hphis]
  simp only [bind,Except.bind,hparams,Bool.false_eq_true,if_false,pure,Except.pure] at hresolve ⊢
  rw [← endVersions_eq,hresolve]
  rfl

def stateAt (n : Nat) (b : Block) (k : Nat) : Nat × Versions :=
  versionsBehind n {} (b.instrs.take k)

section

theorem stateAt_succ (h : b.instrs[k]? = some i) :
    stateAt c b (k + 1) = ((versionInstr (stateAt c b k).1 i).2,
      (stateAt c b k).2.after (versionInstr (stateAt c b k).1 i).1) := by
  rw [stateAt,take_add_one,h,versionsBehind_append]
  rfl

theorem getElem?_convertBlock (h : b.instrs[k]? = some i) :
    (convertBlock versions c b).instrs[k]? =
      some (convert versions (stateAt c b k).1 (stateAt c b k).2 i) := by
  obtain ⟨hk,hget⟩ := List.getElem?_eq_some_iff.1 h
  have hlength : (convertAll versions c {} (b.instrs.take k)).length = k := by
    rw [length_convertAll,length_take,Nat.min_eq_left (Nat.le_of_lt hk)]
  have hsplit : b.instrs = b.instrs.take k ++ i :: b.instrs.drop (k + 1) := by
    rw [← hget,← drop_eq_getElem_cons hk,take_append_drop]
  rw [instrs_convertBlock,hsplit,convertAll_append,getElem?_append_right (by omega),hlength,
    Nat.sub_self]
  rfl

theorem exists_of_getElem?_convertBlock (h : (convertBlock versions c b).instrs[k]? = some i') :
    ∃ i, b.instrs[k]? = some i ∧
      i' = convert versions (stateAt c b k).1 (stateAt c b k).2 i := by
  have hk := (List.getElem?_eq_some_iff.1 h).1
  rw [instrs_convertBlock,length_convertAll] at hk
  have hi : b.instrs[k]? = some b.instrs[k] := getElem?_eq_getElem hk
  rw [getElem?_convertBlock hi] at h
  exact ⟨_,hi,(Option.some.inj h).symm⟩

variable {g : Graph} (hnodup : g.blocks.keys.Nodup)
include hnodup

theorem get?_versioned (h : (c,label,b) ∈ numberBlocks 0 g.blocks.entries) :
    g.versioned.blocks.get? label = some (convertBlock (endVersions g) c b) := by
  refine Table.get?_of_mem ?_ (mem_map.2 ⟨_,h,rfl⟩)
  have hkeys : g.versioned.blocks.keys = ((numberBlocks 0 g.blocks.entries).map Prod.snd).map Prod.fst := by
    simp [Graph.versioned,Table.keys,Function.comp_def]
  rw [hkeys,map_snd_numberBlocks]
  exact hnodup

variable (hname : g.blocks.contains g.name = false)
include hname

theorem entries_endVersions :
    (endVersions g).entries = (g.name,{}) ::
      (numberBlocks 0 g.blocks.entries).map fun e =>
        (e.2.1,(versionsBehind e.1 {} e.2.2.instrs).2) := by
  refine Table.entries_ofList ?_
  have hkeys : ((numberBlocks 0 g.blocks.entries).map fun e =>
      (e.2.1,(versionsBehind e.1 {} e.2.2.instrs).2)).map Prod.fst = g.blocks.keys := by
    rw [Table.keys]
    nth_rewrite 2 [← map_snd_numberBlocks 0 g.blocks.entries]
    simp [Function.comp_def]
  rw [map_cons,hkeys]
  refine nodup_cons.2 ⟨fun hmem => ?_,hnodup⟩
  rw [(Table.contains_iff_mem_keys _ _).2 hmem] at hname
  cases hname

theorem get?_endVersions (h : (c,label,b) ∈ numberBlocks 0 g.blocks.entries) :
    (endVersions g).get? label = some (versionsBehind c {} b.instrs).2 := by
  refine Table.get?_of_mem (t := endVersions g) (Table.nodup_keys_ofList _) ?_
  rw [entries_endVersions hnodup hname]
  exact mem_cons_of_mem _ (mem_map.2 ⟨_,h,rfl⟩)

theorem get?_endVersions_name : (endVersions g).get? g.name = some {} := by
  refine Table.get?_of_mem (t := endVersions g) (Table.nodup_keys_ofList _) ?_
  rw [entries_endVersions hnodup hname]
  exact mem_cons_self

end

def Graph.comesFrom (g : Graph) (label : String) : List String :=
  (sourceLabels g label).toOption.getD []

def addPhis (g : Graph) (l : Liveness) (n : Nat) (b : Block) : Block :=
  { b with body := (l.before.getD n []).map (phiFor (g.comesFrom b.label)) ++ b.body }

theorem instrs_addPhis (g : Graph) (l : Liveness) (n : Nat) (b : Block) :
    (addPhis g l n b).instrs =
      (l.before.getD n []).map (phiFor (g.comesFrom b.label)) ++ b.instrs := by
  rw [Block.instrs,addPhis,append_assoc]
  rfl

def Graph.withPhis (g : Graph) (l : Liveness) : Graph :=
  { g with blocks := ⟨g.places.map fun e => (e.2.label,addPhis g l e.1 e.2)⟩ }

section

variable {g : Graph} {l : Liveness} {b : Block} {n : Nat} {label : String}

theorem mem_comesFrom (h : g.predecessors label = .ok before) :
    sourceLabels g label = .ok (g.comesFrom label) ∧ ∀ {x}, x ∈ g.comesFrom label ↔
      x ∈ before ∨ x = g.name ∧ (label = g.entry ∨ before = []) := by
  have hlabels : sourceLabels g label =
      .ok (if (if label == g.entry then before ++ [g.name] else before).isEmpty then [g.name]
        else if label == g.entry then before ++ [g.name] else before) := by
    simp [sourceLabels,h,bind,Except.bind,pure,Except.pure]
  rw [Graph.comesFrom,hlabels]
  refine ⟨rfl,fun {x} => ?_⟩
  by_cases hentry : label = g.entry
  · simp [hentry,Except.toOption]
  · by_cases hnil : before = [] <;> simp [hentry,hnil,Except.toOption]

variable (hg : Sound g)
include hg

theorem Sound.exists_predecessors (hl : g.blocks.contains label = true) :
    ∃ before, g.predecessors label = .ok before ∧
      ∀ {x}, (x,label) ∈ g.edges ↔ x ∈ before := by
  obtain ⟨before,hbefore⟩ := Option.isSome_iff_exists.1 ((hg.linked.prev_isSome label).trans hl)
  refine ⟨before,predecessors_eq_ok.2 hbefore,fun {x} => ?_⟩
  rw [hg.linked.mem_prev hbefore,hg.mem_edges]
  constructor
  · rintro ⟨ls,hls,hmem⟩
    exact (hg.linked.mem_next hls label).1 hmem
  · intro hx
    obtain ⟨ls,hls⟩ := Option.isSome_iff_exists.1
      ((hg.linked.next_isSome x).trans (hg.linked.edge hx).1)
    exact ⟨ls,hls,(hg.linked.mem_next hls label).2 hx⟩

theorem Sound.exists_sourceLabels (hl : g.blocks.contains label = true) :
    sourceLabels g label = .ok (g.comesFrom label) ∧
      (∀ {x}, (x,label) ∈ g.edges → x ∈ g.comesFrom label) ∧
      (label = g.entry → g.name ∈ g.comesFrom label) ∧
      ∀ {x}, x ∈ g.comesFrom label → g.blocks.contains x = true ∨ x = g.name := by
  obtain ⟨before,hbefore,hedge⟩ := hg.exists_predecessors hl
  obtain ⟨hlabels,hmem⟩ := mem_comesFrom hbefore
  refine ⟨hlabels,fun hx => hmem.2 (.inl (hedge.1 hx)),fun he => hmem.2 (.inr ⟨rfl,.inl he⟩),
    fun hx => ?_⟩
  exact (hmem.1 hx).imp (fun hx => (hg.placed.edge (hedge.2 hx)).1) And.left

theorem mapM_addPhis (l : Liveness) :
    (g.places.mapM fun (n,b) => do
      let labels ← sourceLabels g b.label
      return (b.label,{ b with body := (l.before.getD n []).map (phiFor labels) ++ b.body }) :
      Except Fault _) = .ok (g.places.map fun e => (e.2.label,addPhis g l e.1 e.2)) := by
  refine Except.mapM_eq_ok.2 (forall₂_map_right_iff.2 (forall₂_same.2 fun e hb => ?_))
  obtain ⟨n,b⟩ := e
  have hlabel := (Table.contains_iff _ _).2 ⟨b,hg.mem_values.1 (mem_values_of_places hb)⟩
  simp [(hg.exists_sourceLabels hlabel).1,addPhis,bind,Except.bind,pure,Except.pure]

theorem insertPhis_eq (hl : liveness g = .ok l) : insertPhis g = .ok (g.withPhis l) := by
  have hblocks := mapM_addPhis hg l
  simp only [insertPhis,hl,bind,Except.bind,pure,Except.pure] at hblocks ⊢
  rw [hblocks]
  rfl

theorem Sound.keys_withPhis : (g.withPhis l).blocks.keys = g.blocks.keys := by
  rw [← hg.placed.map_label,← map_snd_placesFrom 0 g.blocks.values]
  simp [Graph.withPhis,Table.keys,Graph.places,Function.comp_def]

theorem Sound.contains_withPhis :
    (g.withPhis l).blocks.contains label = g.blocks.contains label := by
  rw [Bool.eq_iff_iff,Table.contains_iff_mem_keys,Table.contains_iff_mem_keys,hg.keys_withPhis]

theorem Sound.contains_name (hname : isGlobal g.name = true) :
    g.blocks.contains g.name = false := by
  by_contra hne
  have hlabel := hg.named (by simpa using hne)
  simp only [isGlobal,Tac.isLabel,startsWith, isPrefixOf_iff_prefix] at hname hlabel
  obtain ⟨rest,hrest⟩ := hname
  obtain ⟨rest',hrest'⟩ := hlabel
  rw [← hrest] at hrest'
  cases hrest'

def Graph.ends (g : Graph) (l : Liveness) : Table String Versions := endVersions (g.withPhis l)

theorem Sound.get?_ends_name (hname : isGlobal g.name = true) :
    (g.ends l).get? g.name = some {} :=
  get?_endVersions_name (g := g.withPhis l) (by rw [hg.keys_withPhis]; exact hg.nodup)
    (by rw [hg.contains_withPhis]; exact hg.contains_name hname)

theorem Sound.exists_versioned (hname : isGlobal g.name = true) (l : Liveness)
    (hb : (n,b) ∈ g.places) : ∃ c,
      (g.withPhis l).versioned.blocks.get? b.label =
        some (convertBlock (g.ends l) c (addPhis g l n b)) ∧
      (g.ends l).get? b.label = some (versionsBehind c {} (addPhis g l n b).instrs).2 := by
  have hnodup : (g.withPhis l).blocks.keys.Nodup := by
    rw [hg.keys_withPhis]
    exact hg.nodup
  have hentry : (b.label,addPhis g l n b) ∈ (g.withPhis l).blocks.entries :=
    mem_map.2 ⟨(n,b),hb,rfl⟩
  rw [← map_snd_numberBlocks 0 (g.withPhis l).blocks.entries] at hentry
  obtain ⟨⟨c,e⟩,he,rfl⟩ := mem_map.1 hentry
  refine ⟨c,get?_versioned hnodup he,get?_endVersions hnodup ?_ he⟩
  rw [hg.contains_withPhis]
  exact hg.contains_name hname

omit hg

theorem mem_numberBlocks_withPhis (h : (c,label,d) ∈ numberBlocks 0 (g.withPhis l).blocks.entries) :
    ∃ n b, (n,b) ∈ g.places ∧ label = b.label ∧ d = addPhis g l n b := by
  have hentry : (label,d) ∈ (g.withPhis l).blocks.entries := by
    rw [← map_snd_numberBlocks 0 (g.withPhis l).blocks.entries]
    exact mem_map.2 ⟨_,h,rfl⟩
  obtain ⟨⟨n,b⟩,hb,heq⟩ := mem_map.1 hentry
  cases heq
  exact ⟨n,b,hb,rfl,rfl⟩

theorem mem_entries_versioned (h : (label,b') ∈ (g.withPhis l).versioned.blocks.entries) :
    ∃ n b c, (n,b) ∈ g.places ∧ label = b.label ∧
      b' = convertBlock (g.ends l) c (addPhis g l n b) := by
  obtain ⟨⟨c,label',d⟩,hd,heq⟩ := mem_map.1 h
  cases heq
  obtain ⟨n,b,hb,rfl,rfl⟩ := mem_numberBlocks_withPhis hd
  exact ⟨n,b,c,hb,rfl,rfl⟩

theorem mem_values_versioned (h : b' ∈ (g.withPhis l).versioned.blocks.values) :
    ∃ n b c, (n,b) ∈ g.places ∧ b' = convertBlock (g.ends l) c (addPhis g l n b) := by
  obtain ⟨⟨label,b'⟩,he,rfl⟩ := mem_map.1 h
  obtain ⟨n,b,c,hb,-,rfl⟩ := mem_entries_versioned he
  exact ⟨n,b,c,hb,rfl⟩

theorem mem_sources_phiFor (h : e ∈ (phiFor labels t).sources) : e.1 ∈ labels ∧ e.2 = t := by
  obtain ⟨x,hx,rfl⟩ := mem_map.1 (Table.mem_of_mem_ofList h)
  exact ⟨hx,rfl⟩

theorem exists_source_phiFor (t : String) (h : x ∈ labels) : (x,t) ∈ (phiFor labels t).sources := by
  have hsome := (Table.isSome_get?_ofList (labels.map fun l => (l,t)) x).2 (by simpa using h)
  obtain ⟨t',ht'⟩ := Option.isSome_iff_exists.1 hsome
  have hmem : (x,t') ∈ (phiFor labels t).sources := Table.mem_of_get? ht'
  obtain rfl : t' = t := (mem_sources_phiFor hmem).2
  exact hmem

theorem Sound.ssa_eq (hg : Sound g) (hname : isGlobal g.name = true)
    (hphi : ∀ i ∈ g.instrs, i.opcode ≠ .phi) (hl : liveness g = .ok l)
    (hparams : params.any isCompound = false) : ssa params g = .ok (g.withPhis l).versioned := by
  refine Flow.ssa_eq (insertPhis_eq hg hl) hparams fun {label b' i} hentry hi => ?_
  obtain ⟨⟨n,b⟩,hb,heq⟩ := mem_map.1 hentry
  cases heq
  have hvalue := mem_values_of_places hb
  intro x t ho hsource
  rcases mem_append.1 hi with hi | hi
  · rcases mem_append.1 hi with hi | hi
    · obtain ⟨t',-,rfl⟩ := mem_map.1 hi
      have hlabel := (Table.contains_iff _ _).2 ⟨b,hg.mem_values.1 hvalue⟩
      rcases (hg.exists_sourceLabels hlabel).2.2.2 (mem_sources_phiFor hsource).1 with hx | rfl
      · obtain ⟨b',hb'⟩ := (Table.contains_iff _ _).1 hx
        obtain ⟨m,hm⟩ := exists_place (mem_map.2 ⟨_,Table.mem_of_get? hb',rfl⟩)
        obtain ⟨c,-,hends⟩ := hg.exists_versioned hname l hm
        rw [hg.label (Table.mem_of_get? hb')] at hends
        exact (Table.contains_iff _ _).2 ⟨_,hends⟩
      · exact (Table.contains_iff _ _).2 ⟨_,hg.get?_ends_name hname⟩
    · exact absurd ho (hphi i (mem_flatMap.2 ⟨b,hvalue,mem_append.2 (.inl hi)⟩))
  · exact absurd ho (hphi i (mem_flatMap.2 ⟨b,hvalue,mem_append.2 (.inr hi)⟩))

end

end BxToolchain.Flow
