import BxToolchain.Proofs.Bx.CheckedCode
import BxToolchain.Proofs.Bx.Completion
import BxToolchain.Proofs.Bx.Labels
import BxToolchain.Proofs.Bx.StatementCode

namespace BxToolchain.Bx

open Lower List

def isName (x : String) : Bool :=
  match x.toList with
  | c :: _ => isLetter c
  | [] => false

variable {x : String}

theorem isName.ne_toString (h : isName x = true) (n : Nat) : x ≠ toString n := by
  rintro rfl
  obtain ⟨c,rest,hlist,hdigit⟩ := head_toString_isDigit n
  rw [isName,hlist] at h
  simp [isLetter_eq_false hdigit] at h

def paramRegister (x : String) : String := "%" ++ x

theorem paramRegister_injective (h : paramRegister x = paramRegister y) : x = y :=
  append_left_cancel h

theorem old_paramRegister (h : isName x = true) (limit : Nat) : Old limit (paramRegister x) := by
  intro k _ heq
  exact isName.ne_toString h k (append_left_cancel heq)

def paramScope (names : List String) (args : List Word) : Table String Word :=
  .ofList (names.zip args)

def paramStore (names : List String) (args : List Word) : Store :=
  (Table.ofList ((names.map paramRegister).zip args)).get?

theorem paramStore_paramRegister (names : List String) (args : List Word) (x : String) :
    paramStore names args (paramRegister x) = (paramScope names args).get? x := by
  have hzip : (names.map paramRegister).zip args =
      (names.zip args).map fun e => (paramRegister e.1,e.2) := by
    rw [zip_map_left]
    rfl
  rw [paramStore,hzip,paramScope]
  exact Table.get?_ofList_map (fun _ _ => paramRegister_injective) _ x

def bindParams (names : List String) (t : Table String String) : Table String String :=
  (names.map fun x => (x,"%" ++ x)).foldl (fun t b => t.insert b.1 b.2) t

variable {names : List String}

theorem get?_bindParams (hx : x ∈ names) (t : Table String String) :
    (bindParams names t).get? x = some (paramRegister x) := by
  have hfold : ∀ (names : List String) (t : Table String String),
      x ∈ names ∨ t.get? x = some (paramRegister x) →
      (bindParams names t).get? x = some (paramRegister x) := by
    intro names
    induction names with
    | nil => exact fun t h => h.resolve_left (by simp)
    | cons y rest ih =>
      intro t h
      refine ih _ ?_
      by_cases hxy : x = y
      · exact Or.inr (by simp [hxy,paramRegister])
      · refine h.imp (fun h => by simpa [hxy] using h) (fun h => by simpa [hxy] using h)
  exact hfold names t (Or.inl hx)

theorem allocated_params (hnames : ∀ x ∈ names, isName x = true) (limit : Nat)
    (t : Table String String) (rest : List (Table String String)) :
    Allocated limit [names] (bindParams names t :: rest) := by
  refine ⟨?_,?_,by simp,trivial⟩
  · intro x hx
    exact ⟨paramRegister x,get?_bindParams hx t,old_paramRegister (hnames x hx) limit,
      by simp [registers]⟩
  · intro x hx y hy hxy
    rw [get?_bindParams hx,get?_bindParams hy] at hxy
    exact paramRegister_injective (Option.some.inj hxy)

theorem holds_params (hargs : args.length = names.length) (t : Table String String)
    (rest : List (Table String String)) :
    Holds (paramStore names args) [paramScope names args] [names] (bindParams names t :: rest) := by
  have hmem : ∀ x, ((paramScope names args).get? x).isSome ↔ x ∈ names := by
    intro x
    rw [paramScope,Table.isSome_get?_ofList,map_fst_zip (by omega)]
  refine ⟨?_,?_,trivial⟩
  · intro x hx
    obtain ⟨v,hv⟩ := Option.isSome_iff_exists.1 ((hmem x).2 hx)
    exact ⟨v,paramRegister x,hv,get?_bindParams hx t,by rw [paramStore_paramRegister,hv]⟩
  · intro x v hv
    exact (hmem x).1 (by simp [hv])

theorem returns_iff {evaluate : Nat → Scopes → Outcome} {after out : Scopes → Store → Prop}
    (h : ∀ rounds, Follows code none rounds 0 σ code.length after out (evaluate rounds env))
    (v : Option Word) :
    (∃ fuel, Machine.run code fuel { store := σ } = some v) ↔
      ∃ rounds, evaluate rounds env = .returned v := by
  constructor
  · rintro ⟨fuel,hrun⟩
    -- with more rounds than steps, the evaluation is not cut short
    have hfollows := h (fuel + 1)
    refine ⟨fuel + 1,?_⟩
    cases ho : evaluate (fuel + 1) env with
    | normal env' =>
      rw [ho] at hfollows
      obtain ⟨n,_,τ,hgo,rfl,-⟩ := hfollows
      have hend : Halts code code.length τ .stuck :=
        fun c => ⟨0,_,rfl,by simp [Machine.step]⟩
      exact absurd ((hgo.halts hend).run_eq hrun (by simp)) (by simp)
    | broke env' | continued env' =>
      rw [ho] at hfollows
      obtain ⟨_,_,_,_,⟨_,hexits⟩,-⟩ := hfollows
      cases hexits
    | returned u =>
      rw [ho] at hfollows
      have hu := Halts.run_eq hfollows hrun (by simp)
      cases hu
      rfl
    | stuck =>
      rw [ho] at hfollows
      exact absurd (Halts.run_eq hfollows hrun (by simp)) (by simp)
    | unfinished =>
      rw [ho] at hfollows
      obtain ⟨n,pc,τ,hn,hgo⟩ := hfollows
      rw [hgo.run_none (by omega)] at hrun
      cases hrun
  · rintro ⟨rounds,hreturned⟩
    have hfollows := h rounds
    rw [hreturned] at hfollows
    exact Halts.run_returned hfollows

section

variable {s s' : Lowering}

structure Idle (s : Lowering) : Prop where
  scopes : s.scopes ≠ []
  body : s.body = #[]

def StaysIdle (s s' : Lowering) : Prop := Idle s → Idle s' ∧ s.items.toList <+: s'.items.toList

instance : Std.Refl StaysIdle := ⟨fun _ h => ⟨h,prefix_refl _⟩⟩

instance : Trans StaysIdle StaysIdle StaysIdle :=
  ⟨fun h h' hs => ⟨(h' (h hs).1).1,(h hs).2.trans (h' (h hs).1).2⟩⟩

theorem staysIdle_addGlobal (name : String) (init : Init) : Respects StaysIdle (addGlobal name init) :=
  .modify fun s h => ⟨⟨h.scopes,h.body⟩,by simp⟩

theorem staysIdle_bind (x r : String) : Respects StaysIdle (Lower.bind x r) := by
  refine respects_bind fun s h => ⟨⟨?_,h.body⟩,prefix_refl _⟩
  obtain ⟨t,rest,hscopes⟩ := exists_cons_of_ne_nil h.scopes
  simp [hscopes,bindAll]

theorem staysIdle_lowerDeclaration (d : Node) : Respects StaysIdle (lowerDeclaration d) := by
  cases d with
  | varDecl =>
    exact respects_lowerGlobals
      (fun _ _ => .modify fun s h => ⟨⟨h.scopes,h.body⟩,prefix_refl _⟩) staysIdle_addGlobal
      (fun name => staysIdle_bind name _) _ _
  | procDecl =>
    intro s a s' hrun h
    obtain ⟨names,s1,-,-,code,-,-,henter,-,-,-,hσ,hbody,hitems⟩ := emits_procedure hrun
    obtain ⟨h1,hbefore⟩ := respects_enterProcedure (fun x _ => staysIdle_bind x _)
      (fun s h => ⟨⟨h.scopes,h.body⟩,prefix_refl _⟩) _ _ _ henter h
    have hscopes : s'.scopes = s1.scopes := congrArg Surroundings.scopes hσ
    exact ⟨⟨hscopes ▸ h1.scopes,hbody⟩,hitems ▸ hbefore.trans (prefix_append _ _)⟩
  | _ => exact .pure

theorem staysIdle_lowerProgram (declarations : List Node) :
    Respects StaysIdle (lowerProgram declarations) :=
  respects_lowerProgram staysIdle_addGlobal (staysIdle_bind _ _) fun d _ =>
    staysIdle_lowerDeclaration d

end

def ReturnsAlike (names : List String) (code : List Instr) (body : Node) : Prop :=
  ∀ args : List Word, args.length = names.length → ∀ v,
    (∃ fuel, Machine.run code fuel { store := paramStore names args } = some v) ↔
      ∃ rounds, body.evaluate rounds [paramScope names args] = .returned v

theorem setsLabel?_of_operation? {i : Instr} {l : Nat}
    (hnumber : i.isLabel = true → ∃ n : Nat, i.args = .list [label n])
    (h : i.operation? = some (.label (labelName l))) : i.setsLabel? = some l := by
  have hlabel : i.isLabel = true ∧ ∃ d : Datum, i.args = .list [d] ∧ d.display = labelName l := by
    unfold Instr.operation? at h
    split at h
    case h_7 d hopcode hargs hresult =>
      injection h with h
      injection h with h
      exact ⟨by rw [Instr.isLabel,Instr.hasOpcode,hopcode]; rfl,d,hargs,h⟩
    all_goals simp at h
  obtain ⟨hlabel,d,hargs,hd⟩ := hlabel
  obtain ⟨n,hn⟩ := hnumber hlabel
  cases hargs.symm.trans hn
  cases (show n = l from toString_injective hd)
  rw [Instr.setsLabel?,if_pos hlabel,Instr.labelOperand?,hn]
  rfl

theorem findsLabels {code : List Instr} (hcount : ∀ l, (setLabels code).count l ≤ 1)
    (hnumbers : NamesNumbers code) : FindsLabels code := by
  intro pc n hpc
  induction code generalizing pc with
  | nil => simp at hpc
  | cons j rest ih =>
    obtain ⟨hnumber,hnumbers⟩ := forall_mem_cons.1 hnumbers
    rw [labelIndex,findIdx?_cons]
    cases pc with
    | zero =>
      simp only [getElem?_cons_zero,Option.some.injEq] at hpc
      have hfirst : (labelAt n).operation? = some (.label (labelName n)) := rfl
      simp [hpc,hfirst]
    | succ pc =>
      rw [getElem?_cons_succ] at hpc
      have hmem : n ∈ setLabels rest :=
        mem_filterMap.2 ⟨_,mem_of_getElem? hpc,rfl⟩
      by_cases hj : j.operation? = some (.label (labelName n))
      · have hset := setsLabel?_of_operation? (fun h => hnumber (.inl h)) hj
        have hle := hcount n
        rw [setLabels,filterMap_cons_some hset,count_cons_self] at hle
        have hpos := count_pos_iff.2 hmem
        rw [setLabels] at hpos
        omega
      · have hrest : ∀ l, (setLabels rest).count l ≤ 1 := fun l =>
          Nat.le_trans (List.Sublist.count_le _ (List.Sublist.filterMap _ (sublist_cons_self j rest)))
            (hcount l)
        simp only [hj,decide_false,Bool.false_eq_true,if_false]
        rw [← labelIndex,ih hrest hnumbers hpc]
        rfl

theorem lowerDeclaration_procedure (line : Int) {blockLine : Int} (name : String)
    (raises : List Node) (result : Node) (hs : Idle s) {statements statements' params : List Node}
    (hparams : ∀ s : Lowering, Runs (Lower.paramNames params) s names s)
    (hnames : ∀ x ∈ names, isName x = true)
    (hplain : (Node.block blockLine statements).isPlain false [names] = true)
    (hsame : lowerStatements statements' = lowerStatements statements) :
    ∃ s' code,
      Runs (lowerDeclaration (.procDecl line name (.block blockLine statements') params result raises))
        s () s' ∧
      s'.items = s.items.push (.procedure ("@" ++ name) (names.map paramRegister) code) ∧
      ReturnsAlike names code (.block blockLine statements) := by
  have hsame' : lowerDeclaration (.procDecl line name (.block blockLine statements') params result
      raises) = lowerDeclaration (.procDecl line name (.block blockLine statements) params result
      raises) := by
    simp only [lowerDeclaration,lowerBlock,hsame]
  have hlowerable : (Node.procDecl line name (.block blockLine statements) params result
      raises).isLowerableDecl = true := by
    rw [Node.isLowerableDecl,(completes_paramNames params).of_runs hs.scopes (hparams s)]
    exact Node.isLowerable_of_isPlain_and_areLowerable.1 _ _ _ hplain
  obtain ⟨_,s',hrun,-⟩ := hlowerable ▸ completes_lowerDeclaration _ s hs.scopes
  obtain ⟨_,s1,_,_,code,scopes,vars,henter,hblock,hcode,-,-,-,hitems⟩ :=
    emits_procedure hrun
  cases hblock
  have hkeeps := respects_enterProcedure (fun x _ => keepsItems_bind x _)
    (fun _ => ⟨rfl,rfl,rfl⟩) _ _ _ henter
  obtain ⟨rfl,hbinds⟩ := rebinds_enterProcedure henter
  obtain ⟨t,rest,ht⟩ := exists_cons_of_ne_nil hs.scopes
  rw [Rebinds,← (runs_paramNames (hparams s)).1,ht] at hbinds
  have hscopes : s1.scopes = bindParams names t :: rest := hbinds
  rw [← (runs_paramNames (hparams s)).1,hkeeps.body,hs.body,hkeeps.items] at hitems
  refine ⟨s',code,hsame' ▸ hrun,Array.toList_inj.1 (by rw [hitems]; simp [paramRegister]),?_⟩
  have hfinds : FindsLabels code := findsLabels (fun l => by rw [hcode.ranged.count]; split <;> omega)
    hcode.ranged.numbered
  obtain ⟨-,hfills⟩ := statementCode_and_statementsCode.2 false _ _ hplain (cons_ne_nil _ _) hcode
    (hscopes ▸ (allocated_params hnames _ t rest).enter) (by simp)
  intro args hargs v
  have hfollows : ∀ rounds, Follows code none rounds 0 (paramStore names args) code.length
      (fun env τ => Holds τ env [names] s1.scopes) (fun env τ => Holds τ env [names] s1.scopes)
      ((Node.block blockLine statements).evaluate rounds [paramScope names args]) := by
    intro rounds
    have hwhole := @keepsScope_block _ _ s1.surroundings _ _ hfills _ _ none rounds _ _ codeAt_self
      hfinds rfl (hscopes ▸ holds_params hargs t rest)
    rwa [Nat.zero_add] at hwhole
  exact returns_iff hfollows v

theorem lowerProgram_returnsAlike {declarations tree : List Node} {checker : Checker}
    (hcheck : ((checkProgram declarations).run checker).1 = (tree,.ok ())) {k : Nat}
    {line blockLine : Int} {name : String} {statements params raises : List Node} {result : Node}
    (hk : declarations[k]? =
      some (.procDecl line name (.block blockLine statements) params result raises))
    (hnames : ∀ x ∈ params.flatMap Node.paramNames, isName x = true)
    (hplain : (Node.block blockLine statements).isPlain false
      [params.flatMap Node.paramNames] = true) {start before : Lowering} (hstart : Idle start)
    (hbefore : Runs (lowerProgram (tree.take k)) start () before) :
    ∃ after code,
      Runs (lowerProgram (tree.take (k + 1))) start () after ∧
      after.items = before.items.push (.procedure ("@" ++ name)
        ((params.flatMap Node.paramNames).map paramRegister) code) ∧
      (∀ final, Runs (lowerProgram tree) start () final →
        after.items.toList <+: final.items.toList) ∧
      ReturnsAlike (params.flatMap Node.paramNames) code (.block blockLine statements) := by
  obtain ⟨hparams,statements',htree,hsame⟩ := checkProgram_procedure hcheck hk hplain
  have hidle := (staysIdle_lowerProgram _ _ _ _ hbefore hstart).1
  obtain ⟨after,code,hrun,hitems,halike⟩ := lowerDeclaration_procedure line name
    raises result hidle hparams hnames hplain hsame
  have htake : tree.take (k + 1) = tree.take k ++
      [.procDecl line name (.block blockLine statements') params result raises] := by
    rw [take_add_one,htree]
    rfl
  have hafter : Runs (lowerProgram (tree.take (k + 1))) start () after := by
    rw [htake]
    exact lowerProgram_append.mpr ⟨before,hbefore,hrun.bind runs_pure⟩
  refine ⟨after,code,hafter,hitems,?_,halike⟩
  intro final hfinal
  rw [← take_append_drop (k + 1) tree] at hfinal
  obtain ⟨middle,hmiddle,hrest⟩ := lowerProgram_append.mp hfinal
  obtain ⟨-,rfl⟩ := hafter.unique hmiddle
  exact (respects_forM (fun d _ => staysIdle_lowerDeclaration d) _ _ _ hrest
    (staysIdle_lowerProgram _ _ _ _ hafter hstart).1).2

def countdown : Node :=
  let var (x : String) : Node := .var 1 Node.undefined x
  let number (n : Int) : Node := .number 1 Node.undefined (.int n)
  let binary (a : Node) (op : String) (b : Node) : Node := .binary 1 Node.undefined a b op
  .block 1
    [.varDecl 1 [.varInit "s" (number 0) 1] (.ty 1 "int"),
      .while' 1 (.boolean 1 Node.undefined (.str "true"))
        (.block 1
          [.varDecl 1 [.varInit "k" (binary (var "n") "%" (number 3)) 1] (.ty 1 "int"),
            .ifElse 1 (binary (var "n") "<=" (number 0)) (.block 1 [.jump 1 "break"])
              (.block 1
                [.varDecl 1 [.varInit "s" (number 1) 1] (.ty 1 "int"),
                  .assign 1 "n" (binary (var "n") "-" (var "s"))]),
            .ifElse 1 (.unary 1 Node.undefined (binary (var "k") "==" (number 1)) "!")
              (.block 1 [.jump 1 "continue"]) (.block 1 []),
            .assign 1 "s" (binary (var "s") "+" (binary (var "k") "*" (var "m")))]),
      .return' 1 (var "s")]

def countdownProgram : List Node :=
  [.procDecl 1 "main" countdown [.param 1 ["n","m"] (.ty 1 "int")] (.ty 1 "int") []]

theorem exists_eq_ok {α β : Type} {r : α × Except β Unit} (h : r.2.isOk = true) :
    ∃ a, r = (a,.ok ()) := ⟨r.1,Prod.ext rfl (eq_ok_of_isOk h)⟩

theorem countdownProgram_runs :
    countdown.isPlain false [["n","m"]] = true ∧
    ∃ tree before after code,
      ((checkProgram countdownProgram).run {}).1 = (tree,.ok ()) ∧
      Runs (lowerProgram (tree.take 0)) {} () before ∧
      Runs (lowerProgram (tree.take 1)) {} () after ∧
      after.items = before.items.push (.procedure "@main" ["%n","%m"] code) ∧
      ∃ fuel, Machine.run code fuel { store := paramStore ["n","m"] [7,5] } = some (some 15) := by
  have hisOk : ((checkProgram countdownProgram).run {}).1.2.isOk = true := by decide +kernel
  obtain ⟨tree,htree⟩ := exists_eq_ok hisOk
  have hplain : countdown.isPlain false [["n","m"]] = true := by decide
  have hbefore : Runs (lowerProgram (tree.take 0)) {} () ((lowerProgram []).run.run {}).2 := rfl
  have hmain : countdownProgram[0]? = some (.procDecl 1 "main" countdown
      [.param 1 ["n","m"] (.ty 1 "int")] (.ty 1 "int") []) := rfl
  obtain ⟨after,code,hafter,hitems,-,halike⟩ :=
    lowerProgram_returnsAlike htree hmain (by decide) hplain ⟨by simp,rfl⟩ hbefore
  refine ⟨hplain,tree,_,after,code,htree,hbefore,hafter,hitems,?_⟩
  exact (halike [7,5] rfl (some 15)).mpr ⟨20,rfl⟩

end BxToolchain.Bx
