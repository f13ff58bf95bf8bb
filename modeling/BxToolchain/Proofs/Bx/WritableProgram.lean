import BxToolchain.Bx.Compile
import BxToolchain.Proofs.Bx.RegisterUse
import BxToolchain.Proofs.Bx.WritableCode

namespace BxToolchain.Bx

open Lower List

variable {s s' : Lowering} {d : Node} {α β : Type} {document : List Datum} {ds ds' : List Node}
  {c : Checker} {functions : List String} {reporter : Reporter}

variable {procedures : Table String Signature} {visible : List String}

def Node.isProcedure : Node → Bool
  | .procDecl .. => true
  | _ => false

def Item.isProcedure : Item → Bool
  | .procedure .. => true
  | .global .. => false

def paramRegisters (params : List Node) : List String :=
  (params.flatMap Node.paramNames).map ("%" ++ ·)

inductive ProcedureCode (procedures : Table String Signature) : Node → Item → Prop where
  | intro (line : Int) (name : String) (params : List Node) (result : Node) (raises : List Node)
      {block body} : Coded procedures block.calls body →
      ProcedureCode procedures (.procDecl line name block params result raises)
        (.procedure ("@" ++ name) (paramRegisters params) body)

theorem Covers.mono (h : Covers scopes visible) (hsubset : ∀ x ∈ visible', x ∈ visible) :
    Covers scopes visible' :=
  ⟨fun x hx => h.found x (hsubset x hx),h.named,h.inside⟩

theorem Covers.bindAll (h : Covers scopes visible) (hnamed : ∀ b ∈ bindings, b.2 ≠ "") :
    Covers (bindAll bindings scopes) (bindings.map Prod.fst ++ visible) := by
  induction bindings generalizing scopes visible with
  | nil =>
    rw [bindAll_nil]
    exact h
  | cons b rest ih =>
    obtain ⟨hb,hrest⟩ := forall_mem_cons.1 hnamed
    have hscopes : Bx.bindAll (b :: rest) scopes = Bx.bindAll rest (Bx.bindIn b.1 b.2 scopes) := by
      cases scopes <;> rfl
    rw [hscopes]
    refine (ih (h.bindIn b.1 hb) hrest).mono fun x hx => ?_
    simp only [map_cons,cons_append,mem_cons,mem_append] at hx ⊢
    tauto

variable {x : String}

theorem CheckedInits.mem_visible {inits inits'}
    (h : CheckedInits procedures visible inits inits' visible') (hx : x ∈ visible') :
    x ∈ initNames inits' ++ visible := by
  induction h with
  | nil => exact hx
  | cons y line _ _ _ ih =>
    have hmem := ih hx
    simp only [initNames,mem_append,mem_cons,cons_append] at hmem ⊢
    tauto

theorem CheckedDeclaration.mem_visible (h : CheckedDeclaration procedures visible d d' visible')
    (hx : x ∈ visible') : x ∈ d'.bindings.map Prod.fst ++ visible := by
  cases h with
  | varDecl line type hinits =>
    have hmem := hinits.mem_visible hx
    simpa [Node.bindings,Node.globals,Node.parameters,Function.comp_def] using hmem
  | procDecl => exact mem_append_right _ hx
  | exceptionDecl => exact hx

theorem bindings_named (d : Node) : ∀ b ∈ d.bindings, b.2 ≠ "" := by
  intro b hb
  simp only [Node.bindings,mem_append,mem_map] at hb
  obtain ⟨x,-,rfl⟩ | ⟨x,-,rfl⟩ := hb <;> simp [← String.toList_inj]

variable {name : String}

structure AddsGlobals (s s' : Lowering) : Prop where
  functions : s'.functions = s.functions
  body : s'.body = s.body
  items : ∃ items, s'.items.toList = s.items.toList ++ items ∧ items.filter Item.isProcedure = []

theorem KeepsItems.addsGlobals (h : KeepsItems s s') : AddsGlobals s s' :=
  ⟨h.functions,h.body,[],by rw [h.items,append_nil],rfl⟩

instance : Std.Refl AddsGlobals := ⟨fun s => (Std.Refl.refl (r := KeepsItems) s).addsGlobals⟩

instance : Trans AddsGlobals AddsGlobals AddsGlobals where
  trans := by
    intro s s' s'' h h'
    obtain ⟨items,hitems,hglobals⟩ := h.items
    obtain ⟨items',hitems',hglobals'⟩ := h'.items
    refine ⟨h'.functions.trans h.functions,h'.body.trans h.body,items ++ items',?_,?_⟩
    · rw [hitems',hitems,append_assoc]
    · rw [filter_append,hglobals,hglobals',append_nil]

theorem addsGlobals_addGlobal (name : String) (init : Init) :
    Respects AddsGlobals (addGlobal name init) :=
  .modify fun _ => ⟨rfl,rfl,[.global ("@" ++ name) init],Array.toList_push,rfl⟩

theorem addsGlobals_bind (x r : String) : Respects AddsGlobals (Lower.bind x r) :=
  fun s a s' h => (keepsItems_bind x r s a s' h).addsGlobals

theorem addsGlobals_lowerGlobals (line : Int) (inits : List Node) :
    Respects AddsGlobals (lowerGlobals line inits) :=
  respects_lowerGlobals (fun _ _ => .modify fun _ => ⟨rfl,rfl,[],by simp,rfl⟩)
    addsGlobals_addGlobal (fun name => addsGlobals_bind name _) line inits

structure Between (procedures : Table String Signature) (visible : List String) (s : Lowering) :
    Prop where
  signed : WellSigned procedures s.functions
  covers : Covers s.scopes visible
  body : s.body = #[]

theorem CheckedDeclaration.compiled (h : CheckedDeclaration procedures visible d d' visible')
    (hrun : Runs (lowerDeclaration d') s () s') (hs : Between procedures visible s) :
    Between procedures visible' s' ∧ ∃ items, s'.items.toList = s.items.toList ++ items ∧
      List.Forall₂ (ProcedureCode procedures) ([d'].filter Node.isProcedure)
        (items.filter Item.isProcedure) := by
  have hscopes := rebinds_lowerDeclaration d' _ _ _ hrun
  have hall := hs.covers.bindAll (bindings_named d')
  rw [← hscopes] at hall
  have hcovers := hall.mono fun x hx => h.mem_visible hx
  cases h with
  | varDecl line type hinits =>
    obtain ⟨hfunctions,hbody,items,hitems,hglobals⟩ := addsGlobals_lowerGlobals _ _ _ _ _ hrun
    refine ⟨⟨hfunctions ▸ hs.signed,hcovers,hbody.trans hs.body⟩,items,hitems,?_⟩
    rw [hglobals]
    exact .nil
  | @procDecl inner line blockLine result name sig params raises statements statements' hsig _
      hstatements =>
    obtain ⟨names,s1,bodyLine,own,code,scopes,vars,henter,hblock,hcode,-,hσ,hbody,
      hitems⟩ := emits_procedure hrun
    obtain ⟨-,rfl⟩ := Node.block.inj hblock
    have hkeeps := respects_enterProcedure (fun x _ => keepsItems_bind x _)
      (fun _ => ⟨rfl,rfl,rfl⟩) _ _ _ henter
    obtain ⟨rfl,-⟩ := rebinds_enterProcedure henter
    have hsigned : WellSigned procedures s1.functions := hkeeps.functions ▸ hs.signed
    have hfunctions : s'.functions = s.functions :=
      (congrArg Surroundings.functions hσ).trans hkeeps.functions
    have hcovers1 : Covers s1.scopes (params.flatMap Node.paramNames ++ visible) := by
      rw [← show s'.scopes = s1.scopes from congrArg Surroundings.scopes hσ]
      simpa [Node.bindings,Node.globals,Node.parameters,Function.comp_def] using hall
    have hcoded := (hstatements.coded hcode hsigned hcovers1.push).1
    refine ⟨⟨hfunctions ▸ hs.signed,hcovers,hbody⟩,_,hkeeps.items ▸ hitems,?_⟩
    rw [hkeeps.body,hs.body]
    refine .cons (.intro line name params result raises ?_) .nil
    rw [Node.calls]
    exact hcoded
  | exceptionDecl line name =>
    obtain ⟨-,rfl⟩ := runs_pure.unique hrun
    exact ⟨⟨hs.signed,hcovers,hs.body⟩,[],by simp,.nil⟩

theorem CheckedDeclarations.compiled (h : CheckedDeclarations procedures visible ds ds')
    (hrun : Runs (ds'.forM lowerDeclaration) s () s') (hs : Between procedures visible s) :
    ∃ items, s'.items.toList = s.items.toList ++ items ∧
      List.Forall₂ (ProcedureCode procedures) (ds'.filter Node.isProcedure)
        (items.filter Item.isProcedure) := by
  induction h generalizing s with
  | nil =>
    obtain ⟨-,rfl⟩ := runs_pure.unique hrun
    exact ⟨[],by simp,.nil⟩
  | @cons visible visible' d d' rest rest' hd _ ih =>
    obtain ⟨_,s1,hfirst,hothers⟩ := Runs.of_bind hrun
    obtain ⟨hs1,items,hitems,hcode⟩ := hd.compiled hfirst hs
    obtain ⟨items',hitems',hcode'⟩ := ih hothers hs1
    refine ⟨items ++ items',by rw [hitems',hitems,append_assoc],?_⟩
    rw [← singleton_append,filter_append,filter_append]
    exact rel_append hcode hcode'

theorem Accepted.compiled (h : Accepted ds ds' c functions)
    (hrun : Runs (lowerProgram ds') { functions, reporter } () s) :
    List.Forall₂ (ProcedureCode c.procedures) (ds'.filter Node.isProcedure)
      (s.items.toList.filter Item.isProcedure) := by
  obtain ⟨_,s1,hglobal,hrun1⟩ := Runs.of_bind hrun
  obtain ⟨_,s2,hbind,hrun2⟩ := Runs.of_bind hrun1
  obtain rfl := runs_modify_iff.1 hglobal
  have hkeeps := keepsItems_bind _ _ _ _ _ hbind
  have hscopes := rebinds_bind _ _ _ _ _ hbind
  have hstart : Covers [{}] [] := ⟨by simp,(by intro x r hr; cases hr),by simp⟩
  have hcovers : Covers s2.scopes [] := by
    rw [hscopes]
    exact (hstart.bindAll (by simp)).mono (by simp)
  obtain ⟨items,hitems,hcode⟩ := h.declarations.compiled hrun2
    ⟨hkeeps.functions ▸ h.signed,hcovers,hkeeps.body⟩
  rw [hitems,hkeeps.items,filter_append]
  exact hcode

theorem ProcedureCode.isSound {params body}
    (h : ProcedureCode procedures d (.procedure name params body)) :
    (∀ p ∈ params, p ≠ "") ∧ ∀ i ∈ body, i.IsSound := by
  cases h with
  | intro line name params result raises hcode =>
    refine ⟨fun p hp => ?_,hcode.writable⟩
    obtain ⟨x,-,rfl⟩ := mem_map.1 hp
    simp [← String.toList_inj]

theorem mem_of_forall₂_right (h : List.Forall₂ R xs ys) (hy : y ∈ ys) : ∃ x ∈ xs, R x y := by
  induction h with
  | nil => cases hy
  | cons hxy _ ih =>
    obtain rfl | hy := mem_cons.1 hy
    · exact ⟨_,mem_cons_self,hxy⟩
    · obtain ⟨x,hx,hR⟩ := ih hy
      exact ⟨x,mem_cons_of_mem _ hx,hR⟩

theorem isSome_toDatum?_of_mem {items : List Item} (h : items.mapM Item.toDatum? = some document)
    {item : Item} (hitem : item ∈ items) : item.toDatum?.isSome = true := by
  induction items generalizing document with
  | nil => cases hitem
  | cons first rest ih =>
    rw [mapM_cons,Option.bind_eq_bind,Option.bind_eq_some_iff] at h
    obtain ⟨d,hd,h⟩ := h
    rw [Option.bind_eq_bind,Option.bind_eq_some_iff] at h
    obtain ⟨ds,hds,-⟩ := h
    obtain rfl | hitem := mem_cons.1 hitem
    · rw [hd]
      rfl
    · exact ih hds hitem

theorem Accepted.listing {reporter' : Reporter} (h : Accepted ds ds' c functions)
    (hrun : Runs (lowerProgram ds') { functions, reporter } () s)
    (hdocument : Compile.documentOf s.items.toList = .ok document) :
    Runs (Assemble.assemble document) { reporter := reporter' } ()
      { lines := (s.items.toList.flatMap Item.texts).toArray
        reporter := reporter'.complain (s.items.toList.flatMap Item.complaints) } := by
  have hitems : s.items.toList.mapM Item.toDatum? = some document := by
    unfold Compile.documentOf at hdocument
    split at hdocument
    · rename_i found hfound
      rw [hfound,Except.ok.inj hdocument]
    · cases hdocument
  have hprocedures := h.compiled hrun
  have hwritable : ∀ item ∈ s.items.toList, item.IsWritable := by
    intro item hitem
    have hdatum := isSome_toDatum?_of_mem hitems hitem
    cases item with
    | global name init => exact ⟨hdatum,nofun,nofun⟩
    | procedure name params body =>
      have hmem : Item.procedure name params body ∈ s.items.toList.filter Item.isProcedure :=
        mem_filter.2 ⟨hitem,rfl⟩
      obtain ⟨d,-,hcode⟩ := mem_of_forall₂_right hprocedures hmem
      have hbody := hcode.isSound
      refine ⟨hdatum,?_,?_⟩
      · rintro _ _ _ ⟨⟩
        exact hbody.1
      · rintro _ _ _ ⟨⟩
        exact fun i hi => (hbody.2 i hi).toIsWritable
  have hassemble := runs_assemble { reporter := reporter' } hwritable hitems rfl rfl
  simpa using hassemble

theorem Accepted.procedureListing (h : Accepted ds ds' c functions)
    (hrun : Runs (lowerProgram ds') { functions, reporter } () s) {line block result raises}
    (hd : .procDecl line name block params result raises ∈ ds') :
    ∃ body above below, Coded c.procedures block.calls body ∧
      s.items.toList.flatMap Item.texts =
        above ++ (procedureRows name (paramRegisters params) body).map X64.Row.render ++ below := by
  obtain ⟨item,hitem,hcode⟩ :=
    mem_of_forall₂_right (h.compiled hrun).flip (mem_filter.2 ⟨hd,rfl⟩)
  cases hcode with
  | @intro _ _ _ _ _ _ body hcoded =>
    obtain ⟨front,back,hitems⟩ := append_of_mem (mem_of_mem_filter hitem)
    refine ⟨body,front.flatMap Item.texts,back.flatMap Item.texts,hcoded,?_⟩
    rw [hitems,flatMap_append,flatMap_cons,Item.texts,unmarked_append,append_assoc]

def documentOfTree (ds : List Node) : Option (List Datum) :=
  match (checkProgram ds).run {} with
  | ((ds',.ok _),c) =>
    if c.reporter.reports.isEmpty then
      match (lowerProgram ds').run.run { functions := c.functions, reporter := {} } with
      | (.ok _,s) => s.items.toList.mapM Item.toDatum?
      | _ => none
    else none
  | _ => none

theorem exists_of_documentOfTree (h : documentOfTree ds = some document) : ∃ ds' c' s,
      (checkProgram ds).run {} = ((ds',.ok ()),c') ∧ c'.reporter.reports = [] ∧
      Runs (lowerProgram ds') { functions := c'.functions, reporter := {} } () s ∧
      Compile.documentOf s.items.toList = .ok document := by
  unfold documentOfTree at h
  split at h
  · rename_i ds' u c hcheck
    split at h
    · rename_i hreports
      split at h
      · rename_i u' s hlower
        exact ⟨ds',c,s,hcheck,List.isEmpty_iff.1 hreports,hlower,by rw [Compile.documentOf,h]⟩
      · cases h
    · cases h
  · cases h

def listingOfTree (ds : List Node) : Option (List String) :=
  (documentOfTree ds).bind fun document =>
    match (Assemble.assemble document).run.run {} with
    | (.ok _,a) => some a.lines.toList
    | _ => none

theorem exists_of_listingOfTree (h : listingOfTree ds = some lines) :
    ∃ ds' c' s document a,
      (checkProgram ds).run {} = ((ds',.ok ()),c') ∧ c'.reporter.reports = [] ∧
      Runs (lowerProgram ds') { functions := c'.functions, reporter := {} } () s ∧
      Compile.documentOf s.items.toList = .ok document ∧
      Runs (Assemble.assemble document) { reporter := {} } () a ∧ a.lines.toList = lines := by
  obtain ⟨document,hdocument,h⟩ := Option.bind_eq_some_iff.1 h
  obtain ⟨ds',c',s,hcheck,haccept,hlower,hdocument⟩ := exists_of_documentOfTree hdocument
  split at h
  · rename_i u a hassemble
    exact ⟨ds',c',s,document,a,hcheck,haccept,hlower,hdocument,hassemble,Option.some.inj h⟩
  · cases h

end BxToolchain.Bx
