import BxToolchain.Proofs.X64.Emission

namespace BxToolchain

open List

def Reporter.complain (r : Reporter) (reasons : List String) : Reporter :=
  { r with reports := r.reports ++ reasons.map fun reason => ⟨.str reason,-2,r.stage⟩ }

theorem Reporter.complain_nil (r : Reporter) : r.complain [] = r := by
  simp [Reporter.complain]

theorem Reporter.complain_complain (r : Reporter) (reasons more : List String) :
    (r.complain reasons).complain more = r.complain (reasons ++ more) := by
  simp [Reporter.complain]

namespace X64

inductive Row where
  | line (l : Line)
  | call (name : String)
  | loadNone
  deriving DecidableEq, Repr

def Row.render : Row → String
  | .line l => l.render
  | .call name => "callq " ++ name
  | .loadNone => "movq None, %rax"

theorem Row.map_render_line (lines : List Line) :
    (lines.map Row.line).map Row.render = lines.map Line.render := by
  rw [map_map]
  rfl

end X64

namespace Bx

open X64 (Line Row)

def unmarked (name : String) : String := String.ofList (name.toList.drop 1)

@[simp] theorem unmarked_append (name : String) : unmarked ("@" ++ name) = name := by
  simp [unmarked]

inductive Step where
  | operation (o : Operation)
  | call (name : String) (number : Int) (result : Option String)
  | param (number : Int) (source : String)
  | returnNone
  | unknown
  deriving DecidableEq, Repr

namespace Step

def operands : Step → List String
  | .operation o => o.operands
  | .call _ _ result => result.toList
  | .param _ source => [source]
  | .returnNone | .unknown => []

def passLine (number : Int) (source : X64.Operand) : Line :=
  match argumentRegisters[(number - 1).toNat]? with
  | some r => .move source (.register r)
  | none => .push source

def cleanLines (number : Int) : List Line :=
  if number > 6 then [.arithmetic .add (.immediate (8 * (number - 6))) (.register .rsp)] else []

def rows (place : String → X64.Operand) (procedure : String) : Step → List Row
  | .operation o => (o.lines place procedure).map .line
  | .call name number result =>
    .call name :: (cleanLines number ++
      result.toList.map fun r => Line.move (.register .rax) (place r)).map .line
  | .param number source => [.line (passLine number (place source))]
  | .returnNone => [.loadNone,.line (.jump (Operation.exitName procedure))]
  | .unknown => []

def complaints : Step → List String
  | .returnNone => ["Temporary None has an unexpected type (<class 'NoneType'>). Expected str"]
  | .unknown => ["Processing Intruction: unknown opcode None"]
  | .operation _ | .call .. | .param .. => []

end Step

namespace Instr

def step? (i : Instr) : Option Step :=
  match i.opcode, i.args, i.result with
  | .str "call", .list [.str target,.int n], .null =>
    some (.call (unmarked target) n none)
  | .str "call", .list [.str target,.int n], .str r =>
    some (.call (unmarked target) n (some r))
  | .str "param", .list [.int n,.str x], _ => if 0 < n then some (.param n x) else none
  | .str "ret", .list [.null], _ => some .returnNone
  | .null, _, _ => some .unknown
  | _, _, _ => i.operation?.map .operation

def names (i : Instr) : List String := i.step?.elim [] Step.operands

def rows (place : String → X64.Operand) (procedure : String) (i : Instr) : List Row :=
  i.step?.elim [] (Step.rows place procedure)

def complaints (i : Instr) : List String := i.step?.elim [] Step.complaints

structure IsWritable (i : Instr) : Prop where
  step : i.step?.isSome = true
  names : ∀ x ∈ i.names, x ≠ ""

end Instr

variable (a : Assembly) (names : List String) (procedure : String)

def Assembly.wrote (xs : List String) (rows : List Row) (reasons : List String) : Assembly :=
  { a with slots := slotTable (meetAll names xs),
           body := a.body ++ (rows.map Row.render).toArray,
           reporter := a.reporter.complain reasons }

theorem wrote_wrote (xs ys : List String) (rows rows' : List Row) (reasons reasons' : List String) :
    (a.wrote names xs rows reasons).wrote (meetAll names xs) ys rows' reasons' =
      a.wrote names (xs ++ ys) (rows ++ rows') (reasons ++ reasons') := by
  simp [Assembly.wrote,meetAll,Array.append_assoc,Reporter.complain_complain]

theorem after_eq_wrote (xs : List String) (lines : List Line) :
    a.after names xs lines = a.wrote names xs (lines.map .line) [] := by
  rw [Assembly.after,Assembly.wrote,Reporter.complain_nil,Row.map_render_line]

theorem runs_emitRows (xs : List String) (rows : List Row) (h : texts = rows.map Row.render) :
    Runs (Assemble.emit texts) { a with slots := slotTable (meetAll names xs) } ()
      (a.wrote names xs rows []) := by
  rw [h,Assembly.wrote,Reporter.complain_nil]
  exact runs_modify

theorem runs_emitMore (xs : List String) (rows more : List Row) (h : texts = more.map Row.render) :
    Runs (Assemble.emit texts) (a.wrote names xs rows []) () (a.wrote names xs (rows ++ more) []) := by
  have hemit := runs_emitRows (a.wrote names xs rows []) (meetAll names xs) [] more h
  rw [wrote_wrote,append_nil,append_nil] at hemit
  exact hemit

theorem render_cleanLines (h : number > 6) :
    ["addq $" ++ Text.decimal (8 * (number - 6)) ++ ", %rsp"] =
      ((Step.cleanLines number).map Row.line).map Row.render := by
  simp [Step.cleanLines,h,Row.render,Line.render,render_register,render_immediate,
    X64.Register.name,X64.Arithmetic.mnemonic,← String.toList_inj]

theorem runs_clean {rows : List Row} {number : Int} {f : Unit → Assemble Unit} {s' : Assembly}
    (h : Runs (f ()) (a.wrote names [] (rows ++ (Step.cleanLines number).map .line) []) () s') :
    Runs (if number > 6 then do
        f (← Assemble.emit ["addq $" ++ Text.decimal (8 * (number - 6)) ++ ", %rsp"]) else f ())
      (a.wrote names [] rows []) () s' := by
  split
  · rename_i hnumber
    exact (runs_emitMore a names [] rows _ (render_cleanLines hnumber)).bind h
  · rename_i hnumber
    rw [Step.cleanLines,if_neg hnumber,map_nil,append_nil] at h
    exact h

def WritesStep (run : Assemble Unit) (st : Step) : Prop :=
  (∀ x ∈ st.operands, x ≠ "") → Runs run { a with slots := slotTable names } ()
    (a.wrote names st.operands (st.rows (operandAt (meetAll names st.operands)) procedure) st.complaints)

theorem writesStep_call :
    WritesStep a names procedure (Assemble.assembleCall (.list [.str target,.int number]) .null)
      (.call (unmarked target) number none) := by
  intro _
  refine runs_lift.bind <| runs_lift.bind <|
    (runs_emitRows a names [] [.call (unmarked target)] rfl).bind <|
    runs_lift.bind <| runs_clean a names ?_
  simp only [Step.rows,Option.toList_none,map_nil,append_nil]
  exact runs_pure

theorem writesStep_callResult :
    WritesStep a names procedure (Assemble.assembleCall (.list [.str target,.int number]) (.str r))
      (.call (unmarked target) number (some r)) := by
  intro hnames
  let store := Row.line (.move (.register .rax) (operandAt (meet names r) r))
  let rows := [Row.call (unmarked target)] ++
    (Step.cleanLines number).map .line
  have htext : ["movq %rax, " ++ (operandAt (meet names r) r).render] = [store].map Row.render := by
    simp [store,Row.render,Line.render,render_register,X64.Register.name]
  have hstore := runs_emitRows (a.wrote names [] rows []) names [r] [store] htext
  have hrows : (Step.call (unmarked target) number (some r)).rows
      (operandAt (meetAll names [r])) procedure = rows ++ [store] := by
    simp [Step.rows,meetAll,rows,store]
  have hwrote := wrote_wrote a names [] [r] rows [store] [] []
  rw [Step.operands,Option.toList_some,hrows]
  refine runs_lift.bind <| runs_lift.bind <|
    (runs_emitRows a names [] [.call (unmarked target)] rfl).bind <|
    runs_lift.bind <| runs_clean a names ?_
  exact (runs_place (a.wrote names [] rows []) names (hnames r (by simp [Step.operands]))).bind
    (hwrote ▸ hstore)

theorem render_passLine (h : 0 < number) (source : X64.Operand) :
    Row.render (.line (Step.passLine number source)) =
      if number ≤ 6 then
        "movq " ++ source.render ++ ", %" ++ (argumentRegisters[(number - 1).toNat]?.elim ""
          X64.Register.name)
      else "pushq " ++ source.render := by
  unfold Step.passLine
  split
  · rename_i r hr
    have hlt := (List.getElem?_eq_some_iff.1 hr).1
    have hlength : argumentRegisters.length = 6 := rfl
    rw [if_pos (by omega),hr]
    simp [Row.render,Line.render,render_register,← String.toList_inj]
  · rename_i hnone
    have hlength : argumentRegisters.length = 6 := rfl
    rw [List.getElem?_eq_none_iff,hlength] at hnone
    rw [if_neg (by omega)]
    rfl

theorem writesStep_param (hnumber : 0 < number) :
    WritesStep a names procedure (Assemble.assembleParam (.list [.int number,.str x]))
      (.param number x) := by
  intro hnames
  refine runs_lift.bind <| runs_lift.bind <|
    (runs_place a names (hnames x (by simp [Step.operands]))).bind ?_
  have hrender := render_passLine hnumber (operandAt (meet names x) x)
  split
  · rename_i hle
    have hk : (number - 1).toNat < argumentRegisters.length := by
      have hlength : argumentRegisters.length = 6 := rfl
      omega
    have hget := getElem?_eq_getElem hk
    have hregister := argRegister_eq hget
    rw [Int.toNat_of_nonneg (by omega)] at hregister
    rw [if_pos hle,hget] at hrender
    rw [hregister]
    exact runs_lift.bind (runs_emitRows a names [x] _ (congrArg (· :: []) hrender.symm))
  · rename_i hgt
    rw [if_neg hgt] at hrender
    exact runs_emitRows a names [x] _ (congrArg (· :: []) hrender.symm)

theorem writesStep_returnNone :
    WritesStep a names procedure (Assemble.assembleReturn procedure (.list [.null])) .returnNone := by
  intro _
  have hname : (Datum.list [.null]).same (.list []) = false := by
    simp [Datum.same,Datum.sameItems]
  let complained := { a with reporter := a.reporter.complain Step.returnNone.complaints }
  have hplace : Runs (Assemble.place .null) { a with slots := slotTable names } "None"
      { complained with slots := slotTable names } :=
    Runs.bind (a := none) (runs_modify.bind runs_pure) runs_pure
  have hjump : ["jmp E_" ++ procedure] =
      [Row.line (.jump (Operation.exitName procedure))].map Row.render := by
    simp [Row.render,Line.render,Operation.exitName,← String.toList_inj]
  have hwrote : complained.wrote names [] (Step.returnNone.rows (operandAt names) procedure) [] =
      a.wrote names [] (Step.returnNone.rows (operandAt names) procedure)
        Step.returnNone.complaints := by
    simp [complained,Assembly.wrote,Reporter.complain_nil]
  unfold Assemble.assembleReturn
  rw [hname]
  change Runs _ _ () (a.wrote names [] (Step.returnNone.rows (operandAt names) procedure) _)
  rw [← hwrote]
  exact runs_lift.bind <| runs_lift.bind <| hplace.bind <|
    (runs_emitRows complained names [] [.loadNone] rfl).bind <|
    runs_emitMore complained names [] [.loadNone] _ hjump

theorem runs_step (h : i.step? = some st) :
    WritesStep a names procedure (Assemble.assembleInstr procedure i) st := by
  obtain ⟨opcode,args,result,layout⟩ := i
  unfold Instr.step? at h
  split at h
  case h_1 target n hopcode hargs hresult =>
    obtain rfl : opcode = _ := hopcode
    obtain rfl : args = _ := hargs
    obtain rfl : result = _ := hresult
    cases h
    exact writesStep_call a names procedure
  case h_2 target n r hopcode hargs hresult =>
    obtain rfl : opcode = _ := hopcode
    obtain rfl : args = _ := hargs
    obtain rfl : result = _ := hresult
    cases h
    exact writesStep_callResult a names procedure
  case h_3 =>
    rename_i hopcode hargs
    obtain rfl : opcode = _ := hopcode
    obtain rfl : args = _ := hargs
    split at h
    · rename_i hn
      cases h
      exact writesStep_param a names procedure hn
    · cases h
  case h_4 =>
    rename_i hopcode hargs
    obtain rfl : opcode = _ := hopcode
    obtain rfl : args = _ := hargs
    cases h
    exact writesStep_returnNone a names procedure
  case h_5 hopcode =>
    obtain rfl : opcode = _ := hopcode
    cases h
    exact fun _ => runs_modify
  case h_6 =>
    obtain ⟨o,ho,rfl⟩ := Option.map_eq_some_iff.1 h
    intro hnames
    have hrun := runs_assembleInstr a names procedure ho hnames
    rw [after_eq_wrote] at hrun
    exact hrun

theorem Step.rows_congr (st : Step) (h : ∀ x ∈ st.operands, place x = place' x) :
    st.rows place procedure = st.rows place' procedure := by
  cases st with
  | operation o => exact congrArg (List.map Row.line) (o.lines_congr procedure h)
  | call name number result => cases result <;> simp_all [Step.operands,Step.rows]
  | param number source => simp_all [Step.operands,Step.rows]
  | returnNone => rfl
  | unknown => rfl

theorem Instr.rows_congr (i : Instr) (h : ∀ x ∈ i.names, place x = place' x) :
    i.rows place procedure = i.rows place' procedure := by
  unfold Instr.rows
  cases hst : i.step? with
  | none => rfl
  | some st => exact st.rows_congr procedure fun x hx => h x (by rwa [Instr.names,hst])

theorem runs_writable (hi : i.IsWritable) :
    Runs (Assemble.assembleInstr procedure i) { a with slots := slotTable names } ()
      (a.wrote names i.names (i.rows (operandAt (meetAll names i.names)) procedure)
        i.complaints) := by
  obtain ⟨hstep,hnames⟩ := hi
  obtain ⟨st,hst⟩ := Option.isSome_iff_exists.1 hstep
  unfold Instr.names at hnames ⊢
  unfold Instr.rows Instr.complaints
  rw [hst] at hnames ⊢
  exact runs_step a names procedure hst hnames

theorem Instr.rows_meetAll (i : Instr) (xs : List String) :
    i.rows (operandAt (meetAll names (i.names ++ xs))) procedure =
      i.rows (operandAt (meetAll names i.names)) procedure := by
  refine i.rows_congr procedure fun x hx => ?_
  rw [meetAll,foldl_append]
  exact operandAt_meetAll (placed_meetAll names hx) xs

theorem runs_body {body : List Instr} (hbody : ∀ i ∈ body, i.IsWritable) :
    Runs (Assemble.assembleBody procedure (.list (body.map Instr.toDatum)))
      { a with slots := slotTable names } ()
      (a.wrote names (body.flatMap Instr.names)
        (body.flatMap
          (Instr.rows (operandAt (meetAll names (body.flatMap Instr.names))) procedure))
        (body.flatMap Instr.complaints)) := by
  refine runs_lift.bind ?_
  induction body generalizing a names with
  | nil =>
    have hwrote : a.wrote names [] [] [] = { a with slots := slotTable names } := by
      simp [Assembly.wrote,meetAll,Reporter.complain_nil]
    rw [flatMap_nil,flatMap_nil,flatMap_nil,hwrote]
    exact runs_pure
  | cons i rest ih =>
    obtain ⟨hi,hrest⟩ := forall_mem_cons.1 hbody
    rw [map_cons,forIn_cons,flatMap_cons,flatMap_cons,flatMap_cons,
      Instr.rows_meetAll,← wrote_wrote]
    simp only [bind_assoc,pure_bind,Instr.ofDatum_toDatum]
    refine runs_lift.bind <| (runs_writable a names procedure hi).bind ?_
    have hih := ih (a.wrote names i.names
      (i.rows (operandAt (meetAll names i.names)) procedure) i.complaints) (meetAll names i.names)
      hrest
    rw [meetAll,meetAll,← foldl_append] at hih
    exact hih

def slotOrder (params : List String) (body : List Instr) : List String :=
  meetAll (meetAll [] (body.flatMap Instr.names)) (params.take 6)

def entryRows (name : String) (params : List String) (body : List Instr) : List Row :=
  (entryLines name (8 * Assemble.frameSlots (meetAll [] (body.flatMap Instr.names)).length)).map
      Row.line ++
    (argumentLines (operandAt (slotOrder params body)) argumentRegisters (params.take 6)).map Row.line

def rowsBefore (name : String) (params : List String) (body : List Instr) (p : Nat) : List Row :=
  entryRows name params body ++
    (body.take p).flatMap (Instr.rows (operandAt (slotOrder params body)) name)

def procedureRows (name : String) (params : List String) (body : List Instr) : List Row :=
  entryRows name params body ++
    body.flatMap (Instr.rows (operandAt (slotOrder params body)) name) ++
    (exitLines name).map Row.line

theorem procedureRows_eq (name : String) (params : List String) (h : body[p]? = some i) :
    procedureRows name params body =
      rowsBefore name params body p ++ (i.rows (operandAt (slotOrder params body)) name ++
        ((body.drop (p + 1)).flatMap (Instr.rows (operandAt (slotOrder params body)) name) ++
          (exitLines name).map Row.line)) := by
  have hbody : body = body.take p ++ i :: body.drop (p + 1) := by
    obtain ⟨hp,rfl⟩ := List.getElem?_eq_some_iff.1 h
    rw [← drop_eq_getElem_cons hp,take_append_drop]
  have hrows := congrArg (List.flatMap (Instr.rows (operandAt (slotOrder params body)) name)) hbody
  rw [flatMap_append,flatMap_cons] at hrows
  simp only [procedureRows,rowsBefore,hrows,append_assoc]

namespace Item

def texts : Item → List String
  | .global name (.value d) =>
    [".globl " ++ unmarked name,".data",unmarked name ++ ": .quad " ++ d.display]
  | .global _ (.tree _) => []
  | .procedure name params body => (procedureRows (unmarked name) params body).map Row.render

def complaints : Item → List String
  | .global _ _ => []
  | .procedure _ _ body => body.flatMap Instr.complaints

structure IsWritable (item : Item) : Prop where
  datum : item.toDatum?.isSome = true
  params : ∀ name params body, item = .procedure name params body → ∀ p ∈ params, p ≠ ""
  body : ∀ name params body, item = .procedure name params body → ∀ i ∈ body, i.IsWritable

end Item

theorem runs_procedure (hparams : ∀ p ∈ params, p ≠ "") (hbody : ∀ i ∈ body, i.IsWritable)
    {d : Datum} (hd : (Item.procedure name params body).toDatum? = some d) (hslots : a.slots = {})
    (hempty : a.body = #[]) :
    Runs (Assemble.assembleProcedure d) a () { a with
        lines := a.lines ++
          ((procedureRows (unmarked name) params body).map Row.render).toArray
        reporter := a.reporter.complain (body.flatMap Instr.complaints) } := by
  cases hd
  obtain ⟨slots,lines,_,reporter⟩ := a
  obtain rfl : slots = _ := hslots
  obtain rfl : _ = #[] := hempty
  have hrest : ((params.map Datum.str).drop 6).all Assemble.hashable = true := by
    rw [← map_drop,all_map]
    exact all_eq_true.2 fun _ _ => rfl
  let names := meetAll [] (body.flatMap Instr.names)
  have hsize : (slotTable names).entries.length = names.length := by simp [slotTable]
  have hrows : body.flatMap (Instr.rows (operandAt names) (unmarked name)) =
      body.flatMap (Instr.rows (operandAt (slotOrder params body)) (unmarked name)) := by
    refine flatMap_congr fun i hi => i.rows_congr _ fun x hx => ?_
    exact (operandAt_meetAll (placed_meetAll [] (mem_flatMap.2 ⟨i,hi,hx⟩)) _).symm
  let written := (body.flatMap (Instr.rows (operandAt names) (unmarked name))).map Row.render
  let entry := [".text",".globl " ++ unmarked name,unmarked name ++ ":","pushq %rbp","movq %rsp, %rbp",
    "subq $" ++ toString (8 * Assemble.frameSlots (slotTable names).entries.length) ++ ", %rsp"]
  have hprogram : lines ++ ((procedureRows (unmarked name) params body).map Row.render).toArray =
      lines ++ entry.toArray ++ ((argumentLines (operandAt (meetAll names (params.take 6)))
        (argumentRegisters.drop 0) (params.take 6)).map Line.render).toArray ++
        (#[] ++ written.toArray).toList.toArray ++
        ["E_" ++ unmarked name ++ ":","movq %rbp, %rsp","popq %rbp","retq"].toArray := by
    simp only [entry,written,hsize,← render_entryLines,← render_exitLines,hrows]
    simp [procedureRows,entryRows,names,slotOrder,Row.render,Function.comp_def]
  simp only [hprogram]
  refine runs_lift.bind <| runs_lift.bind <| runs_lift.bind <|
    (runs_body ⟨{},lines,#[],reporter⟩ [] (unmarked name) hbody).bind <| runs_get.bind <|
    runs_modify.bind <| runs_lift.bind ?_
  rw [← map_take,hrest]
  exact (runs_storeParams ⟨{},lines ++ entry.toArray,#[] ++ written.toArray,
    reporter.complain (body.flatMap Instr.complaints)⟩ names 0
    (by rw [length_take]; omega)
    fun p hp => hparams p (mem_of_mem_take hp)).bind <| runs_get.bind <| runs_modify.bind <|
    runs_modify.bind runs_modify

theorem step?_of_operation? {i : Instr} {o : Operation} (h : i.operation? = some o) :
    i.step? = some (.operation o) := by
  unfold Instr.step?
  split
  case h_6 => rw [h,Option.map_some]
  all_goals
    unfold Instr.operation? at h
    cases hresult : i.result <;> simp_all [branchNamed?]

theorem procedureRows_eq_lines {name params body}
    (hcount : params.length ≤ 6) (hbody : ∀ i ∈ body, i.operation?.isSome = true) :
    procedureRows name params body = (procedureLines name params body).map .line := by
  have hstep : ∀ i ∈ body, ∃ o, i.operation? = some o ∧ i.step? = some (.operation o) := by
    intro i hi
    obtain ⟨o,ho⟩ := Option.isSome_iff_exists.1 (hbody i hi)
    exact ⟨o,ho,step?_of_operation? ho⟩
  have hnames : body.flatMap Instr.names = body.flatMap Instr.operands := by
    refine flatMap_congr fun i hi => ?_
    obtain ⟨o,ho,hst⟩ := hstep i hi
    rw [Instr.names,Instr.operands,ho,hst]
    rfl
  have hrows : ∀ place, body.flatMap (Instr.rows place name) =
      (body.flatMap (Instr.lines place name)).map .line := by
    intro place
    rw [map_flatMap]
    refine flatMap_congr fun i hi => ?_
    obtain ⟨o,ho,hst⟩ := hstep i hi
    rw [Instr.rows,Instr.lines,ho,hst]
    rfl
  simp only [procedureRows,entryRows,slotOrder,procedureLines,hnames,hrows,
    take_of_length_le hcount,map_append]

theorem runs_assembleProcedure (hcount : params.length ≤ 6) (hparams : ∀ p ∈ params, p ≠ "")
    (hbody : ∀ i ∈ body, i.operation?.isSome = true ∧ ∀ x ∈ i.operands, x ≠ "") {d : Datum}
    (hd : (Item.procedure ("@" ++ name) params body).toDatum? = some d) (hslots : a.slots = {})
    (hempty : a.body = #[]) :
    Runs (Assemble.assembleProcedure d) a ()
      { a with lines := a.lines ++ ((procedureLines name params body).map Line.render).toArray } := by
  have hstep : ∀ i ∈ body, i.IsWritable ∧ i.complaints = [] := by
    intro i hi
    obtain ⟨hsome,hnames⟩ := hbody i hi
    obtain ⟨o,ho⟩ := Option.isSome_iff_exists.1 hsome
    have hst := step?_of_operation? ho
    rw [Instr.operands,ho] at hnames
    exact ⟨⟨by rw [hst]; rfl,by rw [Instr.names,hst]; exact hnames⟩,
      by rw [Instr.complaints,hst]; rfl⟩
  have hrun := runs_procedure a hparams (fun i hi => (hstep i hi).1) hd hslots hempty
  rw [unmarked_append,procedureRows_eq_lines hcount fun i hi => (hbody i hi).1,
    Row.map_render_line,flatMap_eq_nil_iff.2 fun i hi => (hstep i hi).2,
    Reporter.complain_nil] at hrun
  exact hrun

theorem runs_item {item : Item} (hitem : item.IsWritable) (hd : item.toDatum? = some d)
    (hslots : a.slots = {}) (hempty : a.body = #[]) (hrest : Runs (Assemble.assemble rest)
      { a with lines := a.lines ++ item.texts.toArray
               reporter := a.reporter.complain item.complaints } () s') :
    Runs (Assemble.assemble (d :: rest)) a () s' := by
  cases item with
  | global name init =>
    cases init with
    | value value =>
      cases hd
      rw [Item.complaints,Reporter.complain_nil] at hrest
      exact runs_lift.bind <| (runs_lift.bind runs_modify).bind hrest
    | tree n => cases hd
  | procedure name params body =>
    have hrun := runs_procedure a (hitem.params _ _ _ rfl) (hitem.body _ _ _ rfl) hd hslots hempty
    cases hd
    exact hrun.bind hrest

theorem runs_assemble {items : List Item} (hitems : ∀ item ∈ items, item.IsWritable)
    {document : List Datum} (hdocument : items.mapM Item.toDatum? = some document)
    (hslots : a.slots = {}) (hempty : a.body = #[]) :
    Runs (Assemble.assemble document) a ()
      { a with lines := a.lines ++ (items.flatMap Item.texts).toArray
               reporter := a.reporter.complain (items.flatMap Item.complaints) } := by
  induction items generalizing a document with
  | nil =>
    cases hdocument
    simp only [flatMap_nil,Reporter.complain_nil,Array.append_empty]
    exact runs_pure
  | cons item rest ih =>
    obtain ⟨hitem,hrest⟩ := forall_mem_cons.1 hitems
    rw [mapM_cons,Option.bind_eq_bind,Option.bind_eq_some_iff] at hdocument
    obtain ⟨d,hd,hdocument⟩ := hdocument
    rw [Option.bind_eq_bind,Option.bind_eq_some_iff] at hdocument
    obtain ⟨ds,hds,hdocument⟩ := hdocument
    cases hdocument
    have hih := ih { a with lines := a.lines ++ item.texts.toArray
                            reporter := a.reporter.complain item.complaints } hrest hds hslots hempty
    simp only [Reporter.complain_complain,Array.append_assoc] at hih
    refine runs_item a hitem hd hslots hempty ?_
    simpa only [flatMap_cons,append_toArray] using hih

end Bx

end BxToolchain
