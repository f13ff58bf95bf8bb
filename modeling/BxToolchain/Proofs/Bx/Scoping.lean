import BxToolchain.Proofs.Bx.Registration
import BxToolchain.Proofs.Bx.Sites
import Mathlib.Data.List.Induction

namespace BxToolchain.Bx

open Lower List

variable {s : Lowering} {c c' : Checker} {d : Node} {rest ds before' : List Node} {x : String}
  {scopes : List Scope}

def Node.globals : Node → List String
  | .varDecl _ inits _ => initNames inits
  | _ => []

def Node.parameters : Node → List String
  | .procDecl _ _ _ params _ _ => params.flatMap Node.paramNames
  | _ => []

def Node.bindings (d : Node) : List (String × String) :=
  d.globals.map (fun x => (x,"@" ++ x)) ++ d.parameters.map fun x => (x,"%" ++ x)

theorem rebinds_lowerDeclaration (d : Node) : Respects (Rebinds d.bindings) (lowerDeclaration d) := by
  cases d with
  | varDecl line inits type =>
    rw [Node.bindings]
    simp only [Node.parameters,map_nil,append_nil]
    exact rebinds_lowerGlobals _ _
  | procDecl line name block params result raises =>
    intro s a s' h
    obtain ⟨names,s1,-,-,-,-,-,henter,-,-,-,hσ,-⟩ := emits_procedure h
    obtain ⟨rfl,hscopes⟩ := rebinds_enterProcedure henter
    exact (congrArg Surroundings.scopes hσ).trans hscopes
  | _ => exact rebinds_of_quiet .pure

theorem rebinds_lowerProgram (ds : List Node) :
    Respects (Rebinds (("exception","@exception") :: ds.flatMap Node.bindings))
      (lowerProgram ds) := by
  have hds : Respects (Rebinds (ds.flatMap Node.bindings)) (ds.forM lowerDeclaration) := by
    induction ds with
    | nil => exact rebinds_of_quiet .pure
    | cons d rest ih => exact (rebinds_lowerDeclaration d).seq fun _ => ih
  exact (rebinds_addGlobal _ _).seq fun _ => (rebinds_bind "exception" "@exception").seq fun _ => hds

def leaks (x : String) (ds : List Node) : Bool :=
  ds.foldl (fun leaked d => d.parameters.contains x || (leaked && !d.globals.contains x)) false

theorem get?_foldl_insert_map (register : String → String) (names : List String)
    (table : Table String String) (x : String) :
    ((names.map fun x => (x,register x)).foldl (fun t b => t.insert b.1 b.2) table).get? x =
      if x ∈ names then some (register x) else table.get? x := by
  induction names generalizing table with
  | nil => rfl
  | cons y rest ih =>
    rw [map_cons,foldl_cons,ih,Table.get?_insert]
    by_cases hrest : x ∈ rest
    · simp [hrest]
    · by_cases hy : x = y
      · simp [hy]
      · simp [hrest,hy]

theorem leaks_append_singleton (x : String) (ds : List Node) (d : Node) :
    leaks x (ds ++ [d]) = (d.parameters.contains x || (leaks x ds && !d.globals.contains x)) := by
  simp only [leaks,foldl_append,foldl_cons,foldl_nil]

theorem globals_or_parameters_eq_nil (d : Node) : d.globals = [] ∨ d.parameters = [] := by
  cases d with
  | procDecl => exact .inl rfl
  | _ => exact .inr rfl

theorem get?_foldl_bindings (ds : List Node) (table : Table String String) (x : String) :
    ((ds.flatMap Node.bindings).foldl (fun t b => t.insert b.1 b.2) table).get? x =
      if x ∈ ds.flatMap (fun d => d.globals ++ d.parameters) then
        some (if leaks x ds = true then "%" ++ x else "@" ++ x)
      else table.get? x := by
  induction ds using List.reverseRecOn with
  | nil => rfl
  | append_singleton ds d ih =>
    rw [flatMap_append,foldl_append,flatMap_singleton,Node.bindings,
      foldl_append,get?_foldl_insert_map ("%" ++ ·),get?_foldl_insert_map ("@" ++ ·),ih,
      leaks_append_singleton,flatMap_append,flatMap_singleton]
    obtain hnil | hnil := globals_or_parameters_eq_nil d
    · by_cases hx : x ∈ d.parameters
      · simp [hnil,hx]
      · simp [hnil,hx]
    · by_cases hx : x ∈ d.globals
      · simp [hnil,hx]
      · simp [hnil,hx]

theorem initNames_of_checkInits {inits inits' raised}
    (h : Passes (checkInits type inits) c inits' raised c') :
    initNames inits' = initNames inits := by
  induction inits generalizing inits' c raised with
  | nil =>
    cases passes_checkInits h
    rfl
  | cons n rest ih =>
    cases passes_checkInits h with
    | cons _ _ _ _ _ hrest => rw [initNames,initNames,ih hrest]

theorem adds_of_checkDeclaration (h : Passes (checkDeclaration d) c d' () c') :
    Adds d.globals c c' ∧ d'.globals = d.globals ∧ d'.parameters = d.parameters := by
  cases passes_checkDeclaration h with
  | varDecl hinits =>
    have hnames := initNames_of_checkInits hinits
    refine ⟨?_,hnames,rfl⟩
    rw [Node.globals,← hnames]
    exact adds_of_checkInits hinits
  | @procDecl _ _ _ sig _ _ _ _ _ _ _ c2 _ _ henters hpass =>
    refine ⟨.of_scopes ?_,rfl,rfl⟩
    obtain ⟨bindings,-,hscopes1⟩ := henters.scopes
    obtain ⟨inner,hinner,-⟩ := scopes_allow sig.raises hscopes1
    obtain ⟨more,-,hscopes2⟩ := (adds_of_checkStatements _ hpass).scopes
    change c2.scopes.drop 1 = c.scopes
    rw [hscopes2,hinner]
    rfl
  | exceptionDecl => exact ⟨.of_scopes rfl,rfl,rfl⟩

theorem adds_of_checkDeclarations (h : Passes (checkDeclarations ds) c ds' () c') :
    Adds (ds.flatMap Node.globals) c c' ∧ ds'.map Node.bindings = ds.map Node.bindings := by
  induction ds generalizing ds' c with
  | nil =>
    cases passes_checkDeclarations h
    exact ⟨.of_scopes rfl,rfl⟩
  | cons d rest ih =>
    cases passes_checkDeclarations h with
    | cons hd hrest =>
      obtain ⟨hadds,hglobals,hparameters⟩ := adds_of_checkDeclaration hd
      obtain ⟨hadds',hbindings⟩ := ih hrest
      refine ⟨hadds.trans hadds',?_⟩
      rw [map_cons,map_cons,hbindings,Node.bindings,Node.bindings,hglobals,hparameters]

inductive ProgramSite (reporter : Reporter) (start : Lowering) (declarations : List Node)
    (site : Site) : List Node → List String → Prop where
  | body {before} (params : List Node) {before' after statements raises line blockLine name result c
      c1 c2 sig s s1} : declarations = before ++
        .procDecl line name (.block blockLine statements) params result raises :: after →
      (collectExceptions declarations >>= fun _ => collectProcedures declarations).run
        { reporter } = (.ok (),c) →
      (checkDeclarations before).run c = ((before',.ok ()),c1) →
      c1.procedures.get? name = some sig →
      (declareParams params).run (c1.inProcedure name) = (.ok (),c2) →
      Runs (lowerProgram before') start () s →
      Runs (do
        (params.flatMap Node.paramNames).forM fun x => bind x ("%" ++ x)
        modify fun s => { s with procedure := name }) s () s1 →
      StatementsSite site statements (c2.allow sig.raises) s1.push →
      ProgramSite reporter start declarations site before (params.flatMap Node.paramNames)

inductive Resolved (params : List String) (before : List Node) (x : String) :
    List Scope → List (Table String String) → String → Prop where
  | own {scope outer scopes table tables r} : scope.types.contains x = true →
      table.get? x = some r → Resolved params before x (scope :: outer :: scopes) (table :: tables) r
  | parameter {scope globals table top} : scope.types.contains x = true → x ∈ params →
      Resolved params before x [scope,globals] [table,top] ("%" ++ x)
  | outer {scope scopes table tables r} : scope.types.contains x = false →
      Resolved params before x scopes tables r →
      Resolved params before x (scope :: scopes) (table :: tables) r
  | global {globals top} : globals.types.contains x = true →
      leaks x before = false → Resolved params before x [globals] [top] ("@" ++ x)
  | leaked {globals top} : globals.types.contains x = true →
      leaks x before = true → Resolved params before x [globals] [top] ("%" ++ x)

theorem isSome_lookupIn_cons :
    (Checker.lookupIn x (scope :: scopes)).isSome = true ↔
      scope.types.contains x = true ∨ (Checker.lookupIn x scopes).isSome = true := by
  simp only [Checker.lookupIn,Table.contains]
  cases scope.types.get? x with
  | none => simp
  | some t => simp

theorem lookupRegister_cons :
    lookupRegister x (table :: tables) = (table.get? x).or (lookupRegister x tables) := by
  simp only [lookupRegister]
  cases table.get? x with
  | none => rfl
  | some r => rfl

variable {before : List Node} {params : List String}

theorem Agree.resolved (h : Agree params globals top scopes tables)
    (hparams : ∀ x ∈ params, top.get? x = some ("%" ++ x))
    (hglobals : ∀ x ∉ params, globals.types.contains x = true →
      top.get? x = some (if leaks x before = true then "%" ++ x else "@" ++ x))
    (hdeclared : (Checker.lookupIn x scopes).isSome = true) :
    ∃ r, lookupRegister x tables = some r ∧ Resolved params before x scopes tables r := by
  induction h with
  | @body scope table hnames hdisjoint =>
    rw [lookupRegister_cons,lookupRegister_cons,lookupRegister]
    by_cases htable : table.contains x = true
    · obtain ⟨r,hr⟩ := (Table.contains_iff _ _).1 htable
      exact ⟨r,by simp [hr],.own ((hnames x).2 (.inr htable)) hr⟩
    · have hnone : table.get? x = none := by simpa [Table.contains] using htable
      by_cases hx : x ∈ params
      · exact ⟨"%" ++ x,by simp [hnone,hparams x hx],.parameter ((hnames x).2 (.inl hx)) hx⟩
      · have hscope : scope.types.contains x = false := by
          rw [← Bool.not_eq_true,hnames]
          exact not_or.2 ⟨hx,htable⟩
        have hglobal : globals.types.contains x = true := by
          rw [isSome_lookupIn_cons,isSome_lookupIn_cons,hscope] at hdeclared
          simpa [Checker.lookupIn] using hdeclared
        refine ⟨_,by simp only [hnone,hglobals x hx hglobal]; rfl,.outer hscope ?_⟩
        by_cases hleaks : leaks x before = true
        · rw [if_pos hleaks]
          exact .leaked hglobal hleaks
        · rw [if_neg hleaks]
          exact .global hglobal (by simpa using hleaks)
  | @block scope table scopes tables hnames hrest ih =>
    rw [lookupRegister_cons]
    by_cases htable : table.contains x = true
    · obtain ⟨r,hr⟩ := (Table.contains_iff _ _).1 htable
      obtain ⟨outer,scopes,rfl⟩ : ∃ outer rest, scopes = outer :: rest := by
        cases hrest with
        | body | block => exact ⟨_,_,rfl⟩
      exact ⟨r,by simp [hr],.own ((hnames x).2 htable) hr⟩
    · have hnone : table.get? x = none := by simpa [Table.contains] using htable
      have hscope : scope.types.contains x = false := by
        rw [← Bool.not_eq_true,hnames]
        exact htable
      obtain ⟨r,hr,hresolved⟩ := ih (by simpa [isSome_lookupIn_cons,hscope] using hdeclared)
      exact ⟨r,by simp [hnone,hr],.outer hscope hresolved⟩

theorem passes_append (hbefore : (checkDeclarations before).run c = ((before',.ok ()),c1))
    (h : Passes (checkDeclarations (before ++ rest)) c ds' () c') :
    Passes (checkDeclarations before) c before' () c1 ∧
      ∃ rest', Passes (checkDeclarations rest) c1 rest' () c' := by
  induction before generalizing before' ds' c with
  | nil =>
    obtain ⟨-,rfl⟩ := Prod.mk.inj hbefore
    exact ⟨⟨hbefore,rfl⟩,ds',h⟩
  | cons d before ih =>
    cases passes_checkDeclarations h with
    | cons hd hrest =>
      have hrun := hbefore
      rw [checkDeclarations,run_bind_of hd.run] at hrun
      obtain ⟨⟨before1,r⟩,c2,hrun,hend⟩ := exists_run_of_bind hrun
      obtain ⟨hresult,rfl⟩ := Prod.mk.inj hend
      obtain ⟨rfl,rfl⟩ := Prod.mk.inj hresult
      obtain ⟨hpass,hrest⟩ := ih hrun hrest
      exact ⟨⟨hbefore,hpass.silent.trans hd.silent⟩,hrest⟩

def topTable (before : List Node) (params : List String) : Table String String :=
  (params.map fun x => (x,"%" ++ x)).foldl (fun t b => t.insert b.1 b.2)
    ((before.flatMap Node.bindings).foldl (fun t b => t.insert b.1 b.2)
      (({} : Table String String).insert "exception" "@exception"))

theorem get?_topTable_of_mem (hx : x ∈ params) :
    (topTable before params).get? x = some ("%" ++ x) := by
  rw [topTable,get?_foldl_insert_map ("%" ++ ·),if_pos hx]

theorem get?_topTable_of_global (hx : x ∉ params) (hglobal : x ∈ before.flatMap Node.globals) :
    (topTable before params).get? x =
      some (if leaks x before = true then "%" ++ x else "@" ++ x) := by
  rw [topTable,get?_foldl_insert_map ("%" ++ ·),if_neg hx,get?_foldl_bindings,if_pos]
  obtain ⟨d,hd,hx⟩ := mem_flatMap.1 hglobal
  exact mem_flatMap.2 ⟨d,hd,mem_append_left _ hx⟩

theorem scopes_before_body (hstart : start.scopes = [{}])
    (hbefore : before'.map Node.bindings = before.map Node.bindings)
    (hlower : Runs (lowerProgram before') start () s) (hbind : Runs (do
      params.forM fun x => bind x ("%" ++ x)
      modify fun s => { s with procedure := name }) s () s1) :
    s1.scopes = [topTable before params] := by
  have hs := rebinds_lowerProgram before' _ _ _ hlower
  obtain ⟨_,s2,hparams,hname⟩ := Runs.of_bind hbind
  obtain ⟨-,rfl⟩ := runs_modify.unique hname
  have hs2 := rebinds_forM_bind ("%" ++ ·) _ _ _ _ hparams
  rw [Rebinds,hstart,flatMap_def,hbefore,← flatMap_def] at hs
  rw [Rebinds,hs] at hs2
  exact hs2

theorem register_resolved {ds ds' : List Node} {reporter : Reporter} {c' : Checker}
    (haccept : (checkProgram ds).run { reporter } = ((ds',.ok ()),c'))
    (hsilent : c'.reporter.reports = reporter.reports) {start : Lowering}
    (hstart : start.scopes = [{}]) {before : List Node} {params : List String} {site : Site}
    (hsite : ProgramSite reporter start ds site before params) :
    ∃ r, lookupRegister site.name site.lowering.scopes = some r ∧
      Resolved params before site.name site.checker.scopes site.lowering.scopes r := by
  cases hsite with
  | @body paramNodes before' after statements raises line blockLine name result c c₁ c₂ sig s s₁
      hds hcollect hbefore hsig hparams hlower hbind hsites =>
    have hcollects := collects_of_run hcollect
    obtain ⟨cr,hregisters,hrun⟩ := registers_of_run haccept
    obtain rfl := (Prod.mk.inj (hcollect.symm.trans hregisters.run)).2
    have hgrows := (ends_checkDeclarations ds c).grows
    rw [hrun] at hgrows
    have hpass : Passes (checkDeclarations ds) c ds' () c' :=
      ⟨hrun,(hcollects.grows.silent_of_trans hgrows hsilent).2⟩
    rw [hds] at hpass
    obtain ⟨hbefore,rest',hrest⟩ := passes_append hbefore hpass
    obtain _ | ⟨hd,-⟩ := passes_checkDeclarations hrest
    obtain _ | ⟨hsig',hparams',henters,hpass⟩ | _ := passes_checkDeclaration hd
    obtain rfl := Option.some.inj (hsig.symm.trans hsig')
    obtain ⟨-,rfl⟩ := Prod.mk.inj (hparams.symm.trans hparams')
    obtain ⟨⟨⟨bindings,hbindings,hscopes₁⟩,-⟩,hsame⟩ := adds_of_checkDeclarations hbefore
    obtain ⟨bindings',hbindings',hscopes₂⟩ := henters.scopes
    rw [hcollects.scopes,declareBindings] at hscopes₁
    rw [Checker.inProcedure,Checker.push,hscopes₁,declareBindings] at hscopes₂
    obtain ⟨inner,hinner,htypes⟩ := scopes_allow sig.raises hscopes₂
    have hagree : Agree (paramNodes.flatMap Node.paramNames)
        (bindings.foldl (fun scope b => scope.declare b.1 b.2) {})
        (topTable before (paramNodes.flatMap Node.paramNames))
        (c₂.allow sig.raises).scopes s₁.push.scopes := by
      rw [hinner,Lowering.push,scopes_before_body hstart hsame hlower hbind]
      refine .body (fun x => ?_) fun x _ => rfl
      rw [htypes,contains_foldl_declare,hbindings']
    obtain ⟨hdeclared,hsagree⟩ := hsites.agrees hpass hagree
    refine hsagree.resolved (fun x hx => get?_topTable_of_mem hx) (fun x hx hglobal => ?_) hdeclared
    rw [contains_foldl_declare,hbindings] at hglobal
    refine get?_topTable_of_global hx ?_
    simpa [Table.contains] using hglobal

def shadowingProgram : List Node :=
  let x : Node := .var 1 Node.undefined "x"
  [.varDecl 1 [.varInit "x" (.number 1 Node.undefined (.int 5)) 1] (.ty 1 "int"),
   .procDecl 2 "main" (.block 2
     [.varDecl 2 [.varInit "x" x 2] (.ty 2 "int"),
      .block 2 [.assign 2 "x" (.binary 2 Node.undefined x x "+")],
      .return' 2 .absent]) [] .absent []]

theorem shadowingProgram_resolved : ∃ ds' c' site,
    (checkProgram shadowingProgram).run {} = ((ds',.ok ()),c') ∧ c'.reporter.reports = [] ∧
    ProgramSite {} {} shadowingProgram site (shadowingProgram.take 1) [] ∧
    ∃ r, lookupRegister site.name site.lowering.scopes = some r ∧
      Resolved [] (shadowingProgram.take 1) site.name site.checker.scopes
        site.lowering.scopes r := by
  have hsite : ∃ site, ProgramSite {} {} shadowingProgram site (shadowingProgram.take 1) [] :=
    ⟨⟨"x",_,_⟩,.body [] rfl rfl rfl rfl rfl rfl rfl
      (.tail rfl rfl (.head (.block (.head (.target rfl rfl)))))⟩
  have haccept : ∃ ds' c', (checkProgram shadowingProgram).run {} = ((ds',.ok ()),c') ∧
      c'.reporter.reports = [] := ⟨_,_,rfl,rfl⟩
  obtain ⟨site,hsite⟩ := hsite
  obtain ⟨ds',c',haccept,hsilent⟩ := haccept
  exact ⟨ds',c',site,haccept,hsilent,hsite,register_resolved haccept hsilent rfl hsite⟩

def leakingProgram : List Node :=
  [.varDecl 1 [.varInit "x" (.number 1 Node.undefined (.int 5)) 1] (.ty 1 "int"),
   .procDecl 2 "f" (.block 2 [.return' 2 .absent]) [.param 0 ["x"] (.ty 2 "int")] .absent [],
   .procDecl 3 "main" (.block 3 [.eval 0 (.call 3 Node.undefined "print"
     [.var 3 Node.undefined "x"]),.return' 3 .absent]) [] .absent []]

theorem leakingProgram_finds_parameter : ∃ ds' c' site own globals,
    (checkProgram leakingProgram).run {} = ((ds',.ok ()),c') ∧ c'.reporter.reports = [] ∧
    ProgramSite {} {} leakingProgram site (leakingProgram.take 2) [] ∧
    site.checker.scopes = [own,globals] ∧ own.types.contains site.name = false ∧
    globals.types.contains site.name = true ∧
    lookupRegister site.name site.lowering.scopes = some ("%" ++ site.name) :=
  ⟨_,_,⟨"x",_,_⟩,_,_,rfl,rfl,.body [] rfl rfl rfl rfl rfl rfl rfl
    (.head (.value (.args (.head .var)))),rfl,rfl,rfl,rfl⟩

end BxToolchain.Bx
