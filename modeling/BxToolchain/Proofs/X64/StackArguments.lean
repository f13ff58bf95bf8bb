import BxToolchain.Proofs.X64.CallRows
import BxToolchain.Proofs.X64.RegisterFrame

namespace BxToolchain.X64

def Row.stackShift : Row → Int
  | .line l => l.stackShift
  | .call _ | .loadNone => 0

def Row.isSteady : Row → Bool
  | .line l => l.isSteady
  | .call _ | .loadNone => true

def Line.operands : Line → List Operand
  | .move a b | .arithmetic _ a b | .compare a b => [a,b]
  | .unary _ a | .shift _ a | .multiply a | .divide a | .push a | .pop a => [a]
  | .text | .global _ | .label _ | .extend | .jump _ | .branch _ _ | .ret => []

def Row.operands : Row → List Operand
  | .line l => l.operands
  | .call _ | .loadNone => []

def Operand.isBelow : Operand → Bool
  | .slot offset => offset < 0
  | .register _ | .immediate _ | .symbol _ => true

@[simp] theorem Operand.isBelow_register (r : Register) : (register r).isBelow = true := rfl

@[simp] theorem Operand.isBelow_immediate (n : Int) : (immediate n).isBelow = true := rfl

def Row.isBelow (row : Row) : Bool := row.operands.all Operand.isBelow

structure Moves (k : Int) (rows : List Row) : Prop where
  shift : (rows.map Row.stackShift).sum = k
  steady : rows.all Row.isSteady = true

namespace Moves

theorem nil : Moves 0 [] := ⟨rfl,rfl⟩

theorem cast (h : Moves k rows) (hk : k = k') : Moves k' rows := hk ▸ h

theorem append (h : Moves k rows) (h' : Moves k' rows') : Moves (k + k') (rows ++ rows') := by
  constructor
  · rw [List.map_append,List.sum_append,h.shift,h'.shift]
  · rw [List.all_append,h.steady,h'.steady]
    rfl

theorem call (name : String) (h : Moves k rows) : Moves k (.call name :: rows) := by
  constructor
  · rw [List.map_cons,List.sum_cons,h.shift]
    exact Int.zero_add k
  · exact h.steady

theorem lines {k : Int} {lines : List Line} (hshift : (lines.map Line.stackShift).sum = k)
    (hsteady : lines.all Line.isSteady = true) : Moves k (lines.map Row.line) :=
  ⟨by rw [List.map_map]; exact hshift,by rw [List.all_map]; exact hsteady⟩

theorem stackPointer {lines : List Line} (h : Moves k (lines.map Row.line)) {s s' : State}
    (hrun : s.performAll lines = some s') :
    s'.registers .rsp = s.registers .rsp + BitVec.ofInt 64 k := by
  have hshift := h.shift
  have hsteady := h.steady
  rw [List.map_map] at hshift
  rw [List.all_map] at hsteady
  rw [← hshift]
  exact State.performAll_stackPointer hrun hsteady

end Moves

theorem Line.not_writes_of_isQuiet {l : Line} (h : l.isQuiet = true) : l.writes .rsp = false := by
  have hdest (b : Operand) (hb : (b.isMemory || b = .register .rax || b = .register .r11) = true) :
      decide (b = .register .rsp) = false := by
    rw [decide_eq_false_iff_not]
    rintro rfl
    exact absurd hb (by decide)
  cases l <;> first | exact hdest _ h | rfl | cases h

theorem Moves.of_not_writes {lines : List Line} (h : lines.any (Line.writes .rsp) = false) :
    Moves 0 (lines.map Row.line) := by
  induction lines with
  | nil => exact .nil
  | cons l rest ih =>
    rw [List.any_cons,Bool.or_eq_false_iff] at h
    obtain ⟨hshift,hsteady⟩ := Line.steady_of_not_writes h.1
    have hl : Moves 0 ([l].map Row.line) := .lines (by simpa using hshift) (by simpa using hsteady)
    exact hl.append (ih h.2)

end BxToolchain.X64

namespace BxToolchain.Bx

open Lower
open X64 (Line Moves Register Row)

variable {procedures : Table String Signature} {place : String → X64.Operand} {procedure : String}

theorem Tame.moves (h : Tame rows) : Moves 0 rows := by
  obtain ⟨lines,rfl⟩ := Row.eq_lines h.1
  have hquiet := h.2
  rw [List.all_map,List.all_eq_true] at hquiet
  refine .of_not_writes (List.any_eq_false.2 fun l hl => ?_)
  rw [Line.not_writes_of_isQuiet (hquiet l hl)]
  exact Bool.false_ne_true

theorem moves_binary (hplace : InMemory place) (op x y z : String) :
    Moves 0 ((⟨binaryOpcode op,.list [.str x,.str y],.str z,.opcodeFirst⟩ : Instr).rows place
      procedure) := by
  have hz : place z ≠ .register .rsp := by
    intro hz
    have hmemory := hplace z
    rw [hz] at hmemory
    cases hmemory
  rw [rows_binary]
  cases arithmetic? op with
  | none => exact .nil
  | some o =>
    refine .of_not_writes ?_
    cases o <;>
      simp [Operation.binaryLines,Line.writes,Operation.rax,Operation.r11,Operation.rcx,hz]

theorem moves_clean (count : Nat) :
    Moves (if count < 6 then 0 else 8 * (count - 5)) ((Step.cleanLines (count + 1)).map Row.line) := by
  unfold Step.cleanLines
  split_ifs with hfew hmany hmany
  · omega
  · exact .nil
  · refine .lines ?_ rfl
    simp only [List.map_cons,List.map_nil,List.sum_cons,List.sum_nil,Line.stackShift,if_pos,
      X64.Arithmetic.constant?]
    change 8 * ((count : Int) + 1 - 6) + 0 = _
    omega
  · omega

theorem moves_param {count index : Nat} (x : String) (h : index < count) :
    Moves (if index < 6 then 0 else -8)
      ((Instr.act "param" [.int (argNumber count index),.str x]).rows place procedure) := by
  have hlength : argumentRegisters.length = 6 := rfl
  rw [rows_param x h]
  cases hr : argumentRegisters[index]? with
  | some r =>
    have hindex : index < 6 := (List.getElem?_eq_some_iff.1 hr).1
    have hrsp := (ne_scratch (List.mem_of_getElem? hr)).2.2
    rw [if_pos hindex,← List.map_singleton]
    exact .of_not_writes (by simp [Line.writes,hrsp])
  | none =>
    have hindex := List.getElem?_eq_none_iff.1 hr
    rw [if_neg (by omega)]
    exact ⟨rfl,rfl⟩

def largeCalls (calls : List (String × List Node)) : Nat := calls.countP fun call => 6 ≤ call.2.length

theorem largeCalls_append (calls more : List (String × List Node)) :
    largeCalls (calls ++ more) = largeCalls calls + largeCalls more :=
  List.countP_append

theorem largeCalls_singleton (call : String × List Node) :
    largeCalls [call] = if call.2.length < 6 then 0 else 1 := by
  split_ifs with hfew <;> simp [largeCalls,hfew]

mutual

theorem ExprCode.moves (hplace : InMemory place) :
    ExprCode procedures n c value →
      Moves (8 * largeCalls n.calls) (c.flatMap (Instr.rows place procedure))
  | .var .. => by
    simp only [Node.calls]
    exact .nil
  | .number _ _ n _ | .boolean _ _ n _ => by
    rw [List.flatMap_singleton]
    simp only [Node.calls]
    exact (tame_const hplace _ _).moves
  | .binary _ _ op ha hb _ => by
    rw [List.flatMap_append,List.flatMap_append,List.flatMap_singleton,Node.calls,
      largeCalls_append]
    exact (((ha.moves hplace).append (hb.moves hplace)).append
      (moves_binary hplace op _ _ _)).cast (by omega)
  | .unary _ _ op ha _ => by
    rw [List.flatMap_append,List.flatMap_singleton,Node.calls]
    exact ((ha.moves hplace).append (tame_unary hplace op _ _).moves).cast (by omega)
  | .call _ _ σ next result _ _ hargs _ _ => by
    have hstore : Tame ((result.toList.map fun x => Line.move (.register .rax) (place x)).map
        Row.line) := tame_lines (by cases result <;> simp [Line.isQuiet,hplace _])
    rw [List.flatMap_append,List.flatMap_cons,Node.calls,largeCalls_append,largeCalls_singleton,
      rows_call,List.map_append]
    refine ((hargs.moves hplace (Nat.zero_add _)).append
      ((((moves_clean _).append hstore.moves).call _).append
        (tame_passPending hplace σ _ next).moves)).cast ?_
    split_ifs <;> omega

theorem ArgCode.moves (hplace : InMemory place) (hcount : index + args.length = count) :
    ArgCode procedures count index args c →
      Moves (8 * largeCalls (Node.callsOfAll args) - 8 * ((count - max index 6 : Nat) : Int))
        (c.flatMap (Instr.rows place procedure))
  | .nil _ _ => by
    rw [List.length_nil,Nat.add_zero] at hcount
    refine Moves.nil.cast ?_
    rw [Node.callsOfAll,hcount]
    simp [largeCalls]
  | .cons (x := x) he hrest => by
    rw [List.length_cons] at hcount
    rw [List.flatMap_append,List.flatMap_cons,Node.callsOfAll,largeCalls_append]
    refine ((he.moves hplace).append ((moves_param x (show index < count by omega)).append
      (hrest.moves hplace (by omega)))).cast ?_
    split_ifs <;> omega

end

theorem isBelow_operandAt (names : List String) (x : String) :
    (operandAt names x).isBelow = true := by
  unfold operandAt
  split
  · rfl
  · rw [X64.Operand.isBelow,decide_eq_true_iff]
    omega

section Below

variable (hplace : ∀ x, (place x).isBelow = true)
include hplace

theorem Operation.isBelow_lines (o : Operation) :
    ((o.lines place procedure).map Row.line).all Row.isBelow = true := by
  cases o with
  | binary op r x y =>
    cases op <;>
      simp [Operation.lines,Operation.binaryLines,Row.isBelow,Row.operands,Line.operands,
        Operation.rax,Operation.rcx,Operation.rdx,Operation.r11,hplace]
  | ret value =>
    cases value <;>
      simp [Operation.lines,Row.isBelow,Row.operands,Line.operands,Operation.rax,hplace]
  | _ => simp [Operation.lines,Row.isBelow,Row.operands,Line.operands,Operation.r11,hplace]

theorem Step.isBelow_rows (st : Step) : (st.rows place procedure).all Row.isBelow = true := by
  cases st with
  | operation o => exact o.isBelow_lines hplace
  | call name number result =>
    have hclean : ((Step.cleanLines number).map Row.line).all Row.isBelow = true := by
      unfold Step.cleanLines
      split <;> rfl
    rw [Step.rows,List.map_append,List.all_cons,List.all_append,hclean]
    cases result <;> simp [Row.isBelow,Row.operands,Line.operands,hplace]
  | param number x =>
    rw [Step.rows,Step.passLine]
    split <;> simp [Row.isBelow,Row.operands,Line.operands,hplace]
  | returnNone => rfl
  | unknown => rfl

theorem Instr.isBelow_rows (i : Instr) : (i.rows place procedure).all Row.isBelow = true := by
  unfold Instr.rows
  cases i.step? with
  | none => rfl
  | some st => exact st.isBelow_rows hplace

end Below

variable {body : List Instr} {params : List String} {name : String}

theorem procedureRows_below (hrow : row ∈ procedureRows name params body)
    (hoffset : .slot offset ∈ row.operands) : offset < 0 := by
  have hplace := isBelow_operandAt (slotOrder params body)
  have hall : (procedureRows name params body).all Row.isBelow = true := by
    have hbody : (body.flatMap (Instr.rows (operandAt (slotOrder params body)) name)).all
        Row.isBelow = true := by
      rw [List.all_flatMap]
      exact List.all_eq_true.2 fun i _ => i.isBelow_rows hplace
    have hstores : ((argumentLines (operandAt (slotOrder params body)) argumentRegisters
        (params.take 6)).map Row.line).all Row.isBelow = true := by
      rw [argumentLines,List.map_zipWith,List.all_eq_true]
      intro row hrow
      obtain ⟨k,hk,rfl⟩ := List.getElem_of_mem hrow
      rw [List.getElem_zipWith]
      simp [Row.isBelow,Row.operands,Line.operands,hplace]
    simp only [procedureRows,entryRows,List.all_append,hbody,hstores]
    rfl
  have hbelow := List.all_eq_true.1 (List.all_eq_true.1 hall row hrow) _ hoffset
  rwa [X64.Operand.isBelow,decide_eq_true_iff] at hbelow

theorem length_of_paramTypes {params inputs}
    (h : paramTypes params = .ok inputs) : inputs.length = (paramRegisters params).length := by
  rw [paramRegisters,List.length_map]
  fun_induction paramTypes params generalizing inputs with
  | case1 =>
    obtain rfl := Except.ok.inj h
    rfl
  | case2 line names type rest hempty ih =>
    rw [List.flatMap_cons,Node.paramNames,List.isEmpty_iff.1 hempty,List.nil_append]
    exact ih h
  | case3 => cases h
  | case4 line names type rest hempty t htype ih =>
    cases hrest : paramTypes rest with
    | error e =>
      rw [hrest] at h
      cases h
    | ok more =>
      rw [hrest] at h
      obtain rfl := Except.ok.inj h
      rw [List.flatMap_cons,Node.paramNames,List.length_append,List.length_append,ih hrest,
        List.length_map]
  | case5 => cases h

theorem CheckedDeclarations.mem_of_mem_checked (h : CheckedDeclarations procedures visible ds ds')
    (hd : d' ∈ ds') :
    ∃ d ∈ ds, ∃ visible visible', CheckedDeclaration procedures visible d d' visible' := by
  induction h with
  | nil => cases hd
  | @cons visible visible' d d' rest rest' hfirst _ ih =>
    obtain rfl | hd := List.mem_cons.1 hd
    · exact ⟨d,List.mem_cons_self,visible,visible',hfirst⟩
    · obtain ⟨d,hd,hchecked⟩ := ih hd
      exact ⟨d,List.mem_cons_of_mem _ hd,hchecked⟩

theorem Accepted.parameterCount {c functions}
    (h : Accepted ds ds' c functions) {line block result params raises}
    (hd : .procDecl line name block params result raises ∈ ds') :
    ∃ sig, c.procedures.get? name = some sig ∧
      sig.inputs.length = (paramRegisters params).length := by
  obtain ⟨d,hd,visible,visible',hchecked⟩ := h.declarations.mem_of_mem_checked hd
  cases hchecked with
  | procDecl =>
    obtain ⟨sig,hsig,hinputs,-⟩ := (h.collected _ _ _ _ _ _ hd).signature
    exact ⟨sig,hsig,length_of_paramTypes hinputs⟩

structure StackArguments (procedures : Table String Signature) (name : String)
    (params : List String) (body : List Instr) (call : String × List Node) (p : Nat) : Prop where
  count : ∃ sig, procedures.get? call.1 = some sig ∧ sig.inputs.length = call.2.length
  called : ∃ after, procedureRows name params body = rowsBefore name params body p ++
    .call call.1 :: (Step.cleanLines (call.2.length + 1)).map Row.line ++ after
  pushed : ∀ i arg, 6 ≤ i → call.2[i]? = some arg →
    let place := operandAt (slotOrder params body)
    let large := largeCalls (Node.callsOfAll (call.2.drop (i + 1)))
    ∃ before code x rows, ExprCode procedures arg code (some x) ∧
      rowsBefore name params body p = before ++ code.flatMap (Instr.rows place name) ++
        .line (.push (place x)) :: rows ∧
      Moves (8 * large - 8 * (call.2.length - (i + 1))) rows ∧
      (i = 6 → Moves (8 * (large + 1)) (.line (.push (place x)) :: rows ++
        .call call.1 :: (Step.cleanLines (call.2.length + 1)).map Row.line))
  unpushed : call.2.length ≤ 6 → Moves (if call.2.length < 6 then 0 else 8)
    (.call call.1 :: (Step.cleanLines (call.2.length + 1)).map Row.line)

theorem CallAt.stackArguments (h : CallAt procedures body call p) :
    StackArguments procedures name params body call p := by
  obtain ⟨store,after,hrows⟩ := h.procedureRows_eq name params
  obtain ⟨sig,hsig,hcount⟩ := h.signature
  have hclean := (moves_clean call.2.length).call call.1
  refine ⟨⟨sig,hsig,hcount.symm⟩,⟨store ++ after,by rw [hrows,List.append_assoc]⟩,?_,?_⟩
  · intro i arg hi harg place large
    have hlength : argumentRegisters.length = 6 := rfl
    have hlt : i < call.2.length := (List.getElem?_eq_some_iff.1 harg).1
    obtain ⟨before,code,x,after,hcode,hafter,hbefore⟩ := h.rowsBefore_eq name params harg
    rw [List.getElem?_eq_none (by omega),Option.elim_none] at hbefore
    have hmoves : Moves (8 * large - 8 * (call.2.length - (i + 1)))
        (after.flatMap (Instr.rows place name)) :=
      (hafter.moves (inMemory_operandAt _) (by rw [List.length_drop]; omega)).cast (by
        simp only [large]
        omega)
    refine ⟨before,code,x,_,hcode,hbefore,hmoves,fun hfirst => ?_⟩
    have hpush : Moves (-8) [.line (.push (place x))] := ⟨rfl,rfl⟩
    refine ((hpush.append hmoves).append hclean).cast ?_
    rw [if_neg (by omega)]
    omega
  · intro hfew
    refine hclean.cast ?_
    split_ifs <;> omega

theorem stackArguments_of_accepted (source : String) (r r' reporter reporter₁ reporter₂ : Reporter)
    (c' : Checker) (ds ds' : List Node) (s : Lowering) (document : List Datum)
    (hparse : Runs (parse source) r (some ds) r')
    (hcheck : (checkProgram ds).run { reporter } = ((ds',.ok ()),c'))
    (haccept : c'.reporter.reports = reporter.reports)
    (hlower : Runs (lowerProgram ds') { functions := c'.functions, reporter := reporter₁ } () s)
    (hdocument : Compile.documentOf s.items.toList = .ok document) :
    (∃ procedures a, Runs (Assemble.assemble document) { reporter := reporter₂ } () a ∧
      ∀ line name block params result raises,
        .procDecl line name block params result raises ∈ ds' → ∃ body above below,
          a.lines.toList =
            above ++ (procedureRows name (paramRegisters params) body).map Row.render ++ below ∧
          (∃ sig, procedures.get? name = some sig ∧
            sig.inputs.length = (paramRegisters params).length) ∧
          (∀ row ∈ procedureRows name (paramRegisters params) body, ∀ offset,
            .slot offset ∈ row.operands → offset < 0) ∧
          List.Forall₂ (StackArguments procedures name (paramRegisters params) body)
            block.calls (callPositions body)) ∧
    ∀ k lines, Moves k (lines.map Row.line) → ∀ s s' : X64.State, s.performAll lines = some s' →
      s'.registers .rsp = s.registers .rsp + BitVec.ofInt 64 k := by
  refine ⟨?_,fun k lines hmoves s s' hrun => hmoves.stackPointer hrun⟩
  obtain ⟨c,haccepted⟩ := accepted_of_checkProgram (isProgram_of_parse hparse) hcheck haccept
  refine ⟨c.procedures,_,haccepted.listing hlower hdocument,?_⟩
  intro line name block params result raises hd
  obtain ⟨body,above,below,hcoded,htexts⟩ := haccepted.procedureListing hlower hd
  exact ⟨body,above,below,htexts,haccepted.parameterCount hd,
    fun row hrow offset hoffset => procedureRows_below hrow hoffset,
    hcoded.calls.imp fun _ _ h => h.stackArguments⟩

def nestedSource : String :=
  "def g(a:int,b:int,c:int,d:int,e:int,f:int):int\x7breturn f;\x7d
def h(a:int,b:int,c:int,d:int,e:int,f:int,x:int,y:int):int\x7breturn x-y;\x7d
def main()\x7bprint(h(1,2,3,4,5,6,7,g(1,2,3,4,5,6)));return;\x7d"

theorem nestedSource_stackArguments : ∃ ds r' ds' c' s document procedures a,
    Runs (parse nestedSource) {} (some ds) r' ∧
    (checkProgram ds).run {} = ((ds',.ok ()),c') ∧ c'.reporter.reports = [] ∧
    Runs (lowerProgram ds') { functions := c'.functions, reporter := {} } () s ∧
    Compile.documentOf s.items.toList = .ok document ∧
    Runs (Assemble.assemble document) { reporter := {} } () a ∧
    ∀ line name block params result raises,
      .procDecl line name block params result raises ∈ ds' → ∃ body above below,
        a.lines.toList =
          above ++ (procedureRows name (paramRegisters params) body).map Row.render ++ below ∧
        (∃ sig, procedures.get? name = some sig ∧
          sig.inputs.length = (paramRegisters params).length) ∧
        (∀ row ∈ procedureRows name (paramRegisters params) body, ∀ offset,
          .slot offset ∈ row.operands → offset < 0) ∧
        List.Forall₂ (StackArguments procedures name (paramRegisters params) body)
          block.calls (callPositions body) := by
  have hparse := runs_parse_of_isEmpty nestedSource (by decide +kernel)
  obtain ⟨document,hdocument⟩ := Option.isSome_iff_exists.1
    (show (documentOfTree (parsed nestedSource)).isSome = true by decide +kernel)
  obtain ⟨ds',c',s,hcheck,haccept,hlower,hdocument⟩ := exists_of_documentOfTree hdocument
  obtain ⟨⟨procedures,a,hassemble,hprocedures⟩,-⟩ := stackArguments_of_accepted _ _ _ _ _ {} _ _ _
    _ document hparse hcheck haccept hlower hdocument
  exact ⟨_,_,ds',c',s,document,procedures,a,hparse,hcheck,haccept,hlower,hdocument,
    hassemble,hprocedures⟩

def seventhProgram : List Node :=
  let param (x : String) : Node := .param 1 [x] (.ty 1 "int")
  let number (n : Int) : Node := .number 2 Node.undefined (.int n)
  [.procDecl 1 "f" (.block 1 [.return' 1 (.var 1 Node.undefined "h")])
     (["a","b","c","d","e","g","h"].map param) (.ty 1 "int") [],.procDecl 2 "main"
     (.block 2
       [.eval 0 (.call 2 Node.undefined "print"
         [.call 2 Node.undefined "f" ([1,2,3,4,5,6,7].map number)]),.return' 2 .absent])
     [] .absent []]

theorem seventhProgram_disagrees : ∃ ds' c' s document a,
    (checkProgram seventhProgram).run {} = ((ds',.ok ()),c') ∧ c'.reporter.reports = [] ∧
    Runs (lowerProgram ds') { functions := c'.functions, reporter := {} } () s ∧
    Compile.documentOf s.items.toList = .ok document ∧
    Runs (Assemble.assemble document) { reporter := {} } () a ∧
    ["movq %r9, -56(%rbp)","movq -8(%rbp), %rax","jmp E_f"] <:+: a.lines.toList ∧
    ["pushq -56(%rbp)","callq f","addq $16, %rsp"] <:+: a.lines.toList := by
  obtain ⟨lines,hlines,hcallee,hcaller⟩ : ∃ lines ∈ listingOfTree seventhProgram,
      ["movq %r9, -56(%rbp)","movq -8(%rbp), %rax","jmp E_f"] <:+: lines ∧
      ["pushq -56(%rbp)","callq f","addq $16, %rsp"] <:+: lines := by decide +kernel
  obtain ⟨ds',c',s,document,a,hcheck,haccept,hlower,hdocument,hassemble,rfl⟩ :=
    exists_of_listingOfTree hlines
  exact ⟨ds',c',s,document,a,hcheck,haccept,hlower,hdocument,hassemble,hcallee,hcaller⟩

end BxToolchain.Bx
