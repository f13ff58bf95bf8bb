import BxToolchain.Bx.Lower
import BxToolchain.Proofs.Run

namespace BxToolchain.Bx

open Lower

variable {α : Type} {s s' : Lowering}

def SameScopes (s s' : Lowering) : Prop := s'.scopes = s.scopes

instance : Std.Refl SameScopes := ⟨fun _ => rfl⟩

instance : Trans SameScopes SameScopes SameScopes := ⟨fun h h' => Eq.trans h' h⟩

abbrev Quiet {α : Type} (x : Lower α) : Prop := Respects SameScopes x

theorem quiet_modify (hf : ∀ s, (f s).scopes = s.scopes) :
    Quiet (modifyThe Lowering f) := .modify hf

theorem quiet_emit (i : Instr) : Quiet (emit i) := quiet_modify fun _ => rfl

theorem quiet_report (reason : String) (line : Int) : Quiet (Lower.report reason line) :=
  quiet_modify fun _ => rfl

theorem quiet_newRegister : Quiet newRegister := by
  intro s a s' h
  cases h
  rfl

theorem quiet_newLabels (n : Nat) : Quiet (newLabels n) := by
  intro s a s' h
  cases h
  rfl

def bindAll (bindings : List (String × String)) :
    List (Table String String) → List (Table String String)
  | [] => []
  | t :: rest => bindings.foldl (fun t b => t.insert b.1 b.2) t :: rest

theorem bindAll_nil (scopes : List (Table String String)) : bindAll [] scopes = scopes := by
  cases scopes with
  | nil => rfl
  | cons t rest => rfl

theorem bindAll_append (bindings more : List (String × String))
    (scopes : List (Table String String)) :
    bindAll (bindings ++ more) scopes = bindAll more (bindAll bindings scopes) := by
  cases scopes with
  | nil => rfl
  | cons t rest => simp only [bindAll,List.foldl_append]

theorem respects_bind (h : ∀ s, R s { s with scopes := bindAll [(x,r)] s.scopes }) :
    Respects R (Lower.bind x r) := by
  intro s a s' hrun
  have hs := h s
  unfold Lower.bind at hrun
  obtain ⟨s1,s2,hget,hrun⟩ := hrun.of_bind
  cases hget
  split at hrun
  · cases hrun
  · rename_i scope rest hscopes
    cases hrun
    rwa [hscopes] at hs

def Rebinds (bindings : List (String × String)) (s s' : Lowering) : Prop :=
  s'.scopes = bindAll bindings s.scopes

section

variable {bindings more : List (String × String)}

instance : Trans SameScopes (Rebinds bindings) (Rebinds bindings) :=
  ⟨fun h h' => h'.trans (congrArg (bindAll bindings) h)⟩

instance : Trans (Rebinds bindings) (Rebinds more) (Rebinds (bindings ++ more)) where
  trans := by
    intro s s' s'' h h'
    rw [Rebinds,bindAll_append,← h]
    exact h'

theorem rebinds_of_quiet (hx : Quiet x) : Respects (Rebinds []) x :=
  fun s a s' h => (hx s a s' h).trans (bindAll_nil _).symm

theorem rebinds_bind (x r : String) : Respects (Rebinds [(x,r)]) (Lower.bind x r) :=
  respects_bind fun _ => rfl

theorem rebinds_forM_bind (register : String → String) (names : List String) :
    Respects (Rebinds (names.map fun x => (x,register x)))
      (names.forM fun x => Lower.bind x (register x)) := by
  induction names with
  | nil => exact rebinds_of_quiet .pure
  | cons x rest ih => exact (rebinds_bind _ _).seq fun _ => ih

end

def Extended (names : List String) (scopes scopes' : List (Table String String)) : Prop :=
  ∃ bindings : List (String × String),
    bindings.map Prod.fst = names ∧ scopes' = bindAll bindings scopes

section

theorem Extended.refl (scopes : List (Table String String)) : Extended [] scopes scopes :=
  ⟨[],rfl,(bindAll_nil _).symm⟩

theorem Extended.trans (h : Extended names scopes scopes') (h' : Extended more scopes' scopes'') :
    Extended (names ++ more) scopes scopes'' := by
  obtain ⟨bindings,rfl,rfl⟩ := h
  obtain ⟨bindings',rfl,rfl⟩ := h'
  exact ⟨bindings ++ bindings',List.map_append,(bindAll_append _ _ _).symm⟩

theorem Extended.eq (h : Extended [] scopes scopes') : scopes' = scopes := by
  obtain ⟨bindings,hnames,rfl⟩ := h
  obtain rfl := List.map_eq_nil_iff.1 hnames
  exact bindAll_nil _

theorem Extended.drop (h : Extended names scopes scopes') : scopes'.drop 1 = scopes.drop 1 := by
  obtain ⟨bindings,-,rfl⟩ := h
  cases scopes <;> rfl

end

def Bound (names : List String) (s s' : Lowering) : Prop := Extended names s.scopes s'.scopes

abbrev Binds (names : List String) {α : Type} (x : Lower α) : Prop := Respects (Bound names) x

instance {names : List String} : Trans SameScopes (Bound names) (Bound names) :=
  ⟨fun {s _ s''} h h' => show Extended names s.scopes s''.scopes from h ▸ h'⟩

instance {names : List String} : Trans (Bound names) SameScopes (Bound names) :=
  ⟨fun {s _ s''} h h' => show Extended names s.scopes s''.scopes from h'.symm ▸ h⟩

def initNames : List Node → List String
  | .varInit name _ _ :: rest => name :: initNames rest
  | _ => []

mutual

def Node.newNames : Node → List String
  | .varDecl _ inits _ => initNames inits
  | .ifElse _ _ a b => a.newNames ++ b.newNames
  | .while' _ _ b => b.newNames
  | .tryExcept _ b catches => b.newNames ++ Node.newNamesOfCatches catches
  | _ => []

def Node.newNamesOfCatches : List Node → List String
  | .catch' _ _ b :: rest => b.newNames ++ Node.newNamesOfCatches rest
  | _ => []

end

def Node.newNamesOfAll : List Node → List String
  | [] => []
  | n :: rest => n.newNames ++ Node.newNamesOfAll rest

theorem quiet_enterCatch (name : String) (otherwise : Nat) : Quiet (enterCatch name otherwise) :=
  (quiet_newRegister).bind fun _ => (quiet_emit _).bind fun _ => (quiet_emit _).bind fun _ =>
    (quiet_emit _).bind fun _ => (quiet_newRegister).bind fun _ => (quiet_emit _).bind fun _ =>
      quiet_emit _

theorem respects_writtenValue [Std.Refl R] (n : Node) : Respects R (writtenValue n) := by
  unfold writtenValue
  split
  · exact .pure
  · exact .pure
  · exact .pure
  · exact .throw

variable {name : String}

theorem respects_lowerGlobal [Std.Refl R] [Trans R S S]
    (hreport : ∀ reason line, Respects R (Lower.report reason line))
    (hglobal : ∀ name init, Respects R (addGlobal name init)) (line : Int)
    (hbind : Respects S (Lower.bind name ("@" ++ name))) (value : Node) (initLine : Int) :
    Respects S (lowerGlobal line name value initLine) := by
  unfold lowerGlobal
  dsimp only
  split
  · exact .throw_bind
  · refine Respects.seq (R := R) (S := S) (respects_writtenValue value) fun init => ?_
    split
    · exact (hglobal _ _).seq fun _ => hbind
    · exact (hreport _ _).seq fun _ => (hglobal _ _).seq fun _ => hbind
  · refine Respects.seq (R := R) (S := S) (respects_writtenValue value) fun init => ?_
    split
    · exact (hglobal _ _).seq fun _ => hbind
    · exact (hglobal _ _).seq fun _ => hbind
    · exact (hreport _ _).seq fun _ => hbind
  · exact hbind

theorem rebinds_addGlobal (name : String) (init : Init) :
    Respects (Rebinds []) (addGlobal name init) :=
  rebinds_of_quiet (.modify fun _ => rfl)

theorem rebinds_lowerGlobals (line : Int) (inits : List Node) :
    Respects (Rebinds ((initNames inits).map fun x => (x,"@" ++ x))) (lowerGlobals line inits) := by
  fun_induction lowerGlobals line inits with
  | case1 => exact rebinds_of_quiet .pure
  | case2 name value initLine rest ih =>
    exact (respects_lowerGlobal quiet_report (fun _ _ => .modify fun _ => rfl) _
      (rebinds_bind _ _) _ _).seq fun _ => ih
  | case3 => exact .throw

def Node.paramNames : Node → List String
  | .param _ names _ => names
  | _ => []

variable {params : List Node}

theorem runs_paramNames (h : Runs (Lower.paramNames params) s names s') :
    names = params.flatMap Node.paramNames ∧ s' = s := by
  induction params generalizing names with
  | nil =>
    obtain ⟨rfl,rfl⟩ := runs_pure.unique h
    exact ⟨rfl,rfl⟩
  | cons p rest ih =>
    unfold Lower.paramNames at h
    split at h
    · simp_all
    · rename_i line own type rest' hp
      obtain ⟨rfl,rfl⟩ := List.cons.inj hp
      obtain ⟨names',s1,hrest,hend⟩ := h.of_bind
      obtain ⟨rfl,rfl⟩ := runs_pure.unique hend
      obtain ⟨rfl,rfl⟩ := ih hrest
      exact ⟨rfl,rfl⟩
    · cases h

def enterProcedure (name : String) (params : List Node) : Lower (List String) := do
  let names ← paramNames params
  names.forM fun x => Lower.bind x ("%" ++ x)
  modify fun s => { s with procedure := name }
  return names

section

variable {R : Lowering → Lowering → Prop} [Std.Refl R] [Trans R R R]

theorem respects_lowerGlobals (hreport : ∀ reason line, Respects R (Lower.report reason line))
    (hglobal : ∀ name init, Respects R (addGlobal name init))
    (hbind : ∀ name, Respects R (Lower.bind name ("@" ++ name))) (line : Int) (inits : List Node) :
    Respects R (lowerGlobals line inits) := by
  fun_induction lowerGlobals line inits with
  | case1 => exact .pure
  | case2 name value initLine rest ih =>
    exact (respects_lowerGlobal hreport hglobal _ (hbind _) _ _).bind fun _ => ih
  | case3 => exact .throw

theorem respects_forM {f : α → Lower PUnit} {xs : List α} (hf : ∀ x ∈ xs, Respects R (f x)) :
    Respects R (xs.forM f) := by
  induction xs with
  | nil => exact .pure
  | cons x rest ih =>
    obtain ⟨hx,hrest⟩ := List.forall_mem_cons.1 hf
    exact hx.bind fun _ => ih hrest

theorem respects_enterProcedure
    (hbind : ∀ x ∈ params.flatMap Node.paramNames, Respects R (Lower.bind x ("%" ++ x)))
    (hname : ∀ s : Lowering, R s { s with procedure := name }) :
    Respects R (enterProcedure name params) := by
  intro s names s' hrun
  obtain ⟨_,s1,hnames,hrest⟩ := hrun.of_bind
  obtain ⟨rfl,rfl⟩ := runs_paramNames hnames
  exact ((respects_forM hbind).bind fun _ => Respects.bind (.modify hname) fun _ => .pure) _ _ _ hrest

theorem respects_lowerProgram {ds : List Node}
    (hglobal : ∀ name init, Respects R (addGlobal name init))
    (hbind : Respects R (Lower.bind "exception" ("@" ++ "exception")))
    (hds : ∀ d ∈ ds, Respects R (lowerDeclaration d)) : Respects R (lowerProgram ds) :=
  (hglobal _ _).bind fun _ => hbind.bind fun _ => respects_forM hds

end

theorem rebinds_enterProcedure (h : Runs (enterProcedure name params) s names s') :
    names = params.flatMap Node.paramNames ∧
      Rebinds (names.map fun x => (x,"%" ++ x)) s s' := by
  obtain ⟨_,s1,hnames,h1⟩ := h.of_bind
  obtain ⟨rfl,rfl⟩ := runs_paramNames hnames
  obtain ⟨_,s2,hbind,h2⟩ := h1.of_bind
  have hscopes : s2.scopes = _ := rebinds_forM_bind ("%" ++ ·) _ _ _ _ hbind
  cases h2
  exact ⟨rfl,hscopes⟩

structure KeepsItems (s s' : Lowering) : Prop where
  functions : s'.functions = s.functions
  body : s'.body = s.body
  items : s'.items = s.items

instance : Std.Refl KeepsItems := ⟨fun _ => ⟨rfl,rfl,rfl⟩⟩

instance : Trans KeepsItems KeepsItems KeepsItems :=
  ⟨fun h h' => ⟨h'.functions.trans h.functions,h'.body.trans h.body,h'.items.trans h.items⟩⟩

theorem keepsItems_bind (x r : String) : Respects KeepsItems (Lower.bind x r) :=
  respects_bind fun _ => ⟨rfl,rfl,rfl⟩

theorem runs_forM_append {f : α → Lower PUnit} {before after : List α} :
    Runs ((before ++ after).forM f) s () s' ↔
      ∃ middle, Runs (before.forM f) s () middle ∧ Runs (after.forM f) middle () s' := by
  induction before generalizing s with
  | nil =>
    constructor
    · exact fun h => ⟨s,runs_pure,h⟩
    · rintro ⟨middle,hmiddle,h⟩
      obtain ⟨-,rfl⟩ := runs_pure.unique hmiddle
      exact h
  | cons a before ih =>
    constructor
    · intro h
      obtain ⟨_,s1,ha,hrest⟩ := Runs.of_bind h
      obtain ⟨middle,hbefore,hafter⟩ := ih.1 hrest
      exact ⟨middle,Runs.bind ha hbefore,hafter⟩
    · rintro ⟨middle,hbefore,hafter⟩
      obtain ⟨_,s1,ha,hrest⟩ := Runs.of_bind hbefore
      exact Runs.bind ha (ih.2 ⟨middle,hrest,hafter⟩)

theorem lowerProgram_append {before after : List Node} :
    Runs (lowerProgram (before ++ after)) s () s' ↔
      ∃ middle, Runs (lowerProgram before) s () middle ∧
        Runs (after.forM lowerDeclaration) middle () s' := by
  constructor
  · intro h
    obtain ⟨_,s1,hglobal,h1⟩ := Runs.of_bind h
    obtain ⟨_,s2,hbind,h2⟩ := Runs.of_bind h1
    obtain ⟨middle,hbefore,hafter⟩ := runs_forM_append.1 h2
    exact ⟨middle,Runs.bind hglobal (Runs.bind hbind hbefore),hafter⟩
  · rintro ⟨middle,h,hafter⟩
    obtain ⟨_,s1,hglobal,h1⟩ := Runs.of_bind h
    obtain ⟨_,s2,hbind,h2⟩ := Runs.of_bind h1
    exact Runs.bind hglobal (Runs.bind hbind (runs_forM_append.2 ⟨middle,h2,hafter⟩))

end BxToolchain.Bx
