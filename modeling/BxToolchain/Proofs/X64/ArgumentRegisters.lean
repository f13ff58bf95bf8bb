import BxToolchain.Proofs.X64.CallRows
import BxToolchain.Proofs.X64.RegisterFrame

namespace BxToolchain.X64

def Row.writes (r : Register) : Row → Bool
  | .line l => l.writes r
  | .call _ => false
  | .loadNone => r = .rax

end BxToolchain.X64

namespace BxToolchain.Bx

open Lower
open X64 (Line Register Row)

def workRegister? : Tac.BinOp → Option Register
  | .mul | .div | .mod => some .rdx
  | .shl | .shr => some .rcx
  | .add | .sub | .and | .or | .xor => none

mutual

def Node.overwrites (r : Register) : Node → Bool
  | .binary _ _ a b op =>
    a.overwrites r || b.overwrites r || (arithmetic? op).bind workRegister? = some r
  | .unary _ _ a _ => a.overwrites r
  | .call _ _ _ args =>
    Node.anyOverwrites r args || (argumentRegisters.take args.length).contains r
  | _ => false

def Node.anyOverwrites (r : Register) : List Node → Bool
  | [] => false
  | n :: rest => n.overwrites r || Node.anyOverwrites r rest

end

theorem Node.anyOverwrites_eq (r : Register) (ns : List Node) :
    Node.anyOverwrites r ns = ns.any (Node.overwrites r) := by
  induction ns with
  | nil => rfl
  | cons n rest ih => rw [Node.anyOverwrites,ih,List.any_cons]

variable {procedures : Table String Signature} {place : String → X64.Operand} {procedure : String}
  {r : Register}

theorem any_line (lines : List Line) :
    (lines.map Row.line).any (Row.writes r) = lines.any (Line.writes r) := by
  rw [List.any_map]
  rfl

theorem writes_of_isQuiet (hr : r ∈ argumentRegisters) {row : Row} (h : row.isQuiet = true) :
    row.writes r = false := by
  obtain ⟨hrax,hr11,-⟩ := ne_scratch hr
  cases row with
  | line l =>
    have hdest (b : X64.Operand)
        (hb : (b.isMemory || b = .register .rax || b = .register .r11) = true) :
        decide (b = .register r) = false := by
      rw [decide_eq_false_iff_not]
      rintro rfl
      simp [X64.Operand.isMemory,hrax,hr11] at hb
    cases l <;> first | exact hdest _ h | rfl | cases h
  | call name => cases h
  | loadNone => simp [Row.writes,hrax]

theorem Tame.any_writes (hr : r ∈ argumentRegisters) {rows : List Row} (h : Tame rows) :
    rows.any (Row.writes r) = false := by
  rw [List.any_eq_false]
  intro row hrow
  rw [writes_of_isQuiet hr (List.all_eq_true.1 h.2 row hrow)]
  exact Bool.false_ne_true

theorem any_writes_binary (hplace : InMemory place) (hr : r ∈ argumentRegisters)
    (op x y z : String) :
    ((⟨binaryOpcode op,.list [.str x,.str y],.str z,.opcodeFirst⟩ : Instr).rows place
      procedure).any (Row.writes r) = decide ((arithmetic? op).bind workRegister? = some r) := by
  obtain ⟨hrax,hr11,-⟩ := ne_scratch hr
  have hz : place z ≠ .register r := by
    intro hz
    have hmemory := hplace z
    rw [hz] at hmemory
    cases hmemory
  rw [rows_binary]
  cases arithmetic? op with
  | none => rfl
  | some o =>
    rw [Option.elim_some,any_line,Option.bind_some]
    cases o <;>
      simp [Operation.binaryLines,Line.writes,Operation.rax,Operation.r11,Operation.rcx,
        workRegister?,hz,Ne.symm hrax,Ne.symm hr11,hrax,eq_comm (a := r)]

theorem any_writes_call (hplace : InMemory place) (hr : r ∈ argumentRegisters) (name : String)
    (count : Nat) (result : Option String) :
    ((callInstr name count result).rows place procedure).any (Row.writes r) = false := by
  obtain ⟨-,-,hrsp⟩ := ne_scratch hr
  have hclean : (Step.cleanLines (count + 1)).any (Line.writes r) = false := by
    unfold Step.cleanLines
    split
    · simp [Line.writes,Ne.symm hrsp]
    · rfl
  have hstore : (result.toList.map fun x => Line.move (.register .rax) (place x)).any
      (Line.writes r) = false := by
    rw [← any_line]
    refine Tame.any_writes hr (tame_lines ?_)
    cases result <;> simp [Line.isQuiet,hplace _]
  rw [rows_call,List.any_cons,any_line,List.any_append,hclean,hstore]
  rfl

theorem any_writes_param (hr : r ∈ argumentRegisters) (x : String) (h : index < count) :
    ((Instr.act "param" [.int (argNumber count index),.str x]).rows place procedure).any
      (Row.writes r) = decide (argumentRegisters[index]? = some r) := by
  obtain ⟨-,-,hrsp⟩ := ne_scratch hr
  rw [rows_param x h]
  cases argumentRegisters[index]? with
  | none => simp [Row.writes,Line.writes,hrsp]
  | some q => simp [Row.writes,Line.writes]

theorem contains_take_drop_succ (registers : List Register) (index count : Nat) :
    ((registers.drop index).take (count + 1)).contains r =
      (decide (registers[index]? = some r) ||
        ((registers.drop (index + 1)).take count).contains r) := by
  by_cases hindex : index < registers.length
  · have hhead : (r == registers[index]) = decide (registers[index]? = some r) := by
      rw [List.getElem?_eq_getElem hindex,Bool.eq_iff_iff,beq_iff_eq,decide_eq_true_iff,
        Option.some.injEq,eq_comm]
    rw [List.drop_eq_getElem_cons hindex,List.take_succ_cons,List.contains_cons,hhead]
  · have hdrop : registers.drop index = [] := List.drop_eq_nil_of_le (by omega)
    have hdrop' : registers.drop (index + 1) = [] := List.drop_eq_nil_of_le (by omega)
    rw [hdrop,hdrop',List.getElem?_eq_none (by omega)]
    simp

mutual

theorem ExprCode.any_writes (hplace : InMemory place) (hr : r ∈ argumentRegisters) :
    ExprCode procedures n c value →
      (c.flatMap (Instr.rows place procedure)).any (Row.writes r) = n.overwrites r
  | .var .. => by simp [Node.overwrites]
  | .number .. | .boolean .. => by
    rw [List.flatMap_singleton,(tame_const hplace _ _).any_writes hr,Node.overwrites]
    all_goals simp
  | .binary _ _ op ha hb _ => by
    rw [List.flatMap_append,List.flatMap_append,List.any_append,List.any_append,
      ha.any_writes hplace hr,hb.any_writes hplace hr,List.flatMap_singleton,
      any_writes_binary hplace hr,Node.overwrites]
  | .unary _ _ op ha _ => by
    rw [List.flatMap_append,List.any_append,ha.any_writes hplace hr,List.flatMap_singleton,
      (tame_unary hplace op _ _).any_writes hr,Bool.or_false,Node.overwrites]
  | .call _ _ σ next result _ _ hargs _ _ => by
    rw [List.flatMap_append,List.any_append,hargs.any_writes hplace hr (Nat.zero_add _),
      List.flatMap_cons,List.any_append,any_writes_call hplace hr,
      (tame_passPending hplace σ _ next).any_writes hr,Bool.or_false,Bool.or_false,
      Node.overwrites,List.drop_zero]

theorem ArgCode.any_writes (hplace : InMemory place) (hr : r ∈ argumentRegisters)
    (hcount : index + args.length = count) :
    ArgCode procedures count index args c →
      (c.flatMap (Instr.rows place procedure)).any (Row.writes r) =
        (Node.anyOverwrites r args ||
          ((argumentRegisters.drop index).take args.length).contains r)
  | .nil _ _ => by simp [Node.anyOverwrites]
  | .cons (x := x) he hrest => by
    rw [List.length_cons] at hcount
    rw [List.flatMap_append,List.any_append,he.any_writes hplace hr,List.flatMap_cons,
      List.any_append,any_writes_param hr x (by omega),hrest.any_writes hplace hr (by omega),
      Node.anyOverwrites,List.length_cons,contains_take_drop_succ]
    ac_rfl

end

theorem registers_of_load {source : X64.Operand} {lines : List Line}
    (hlines : lines.any (Line.writes r) = false) {s s' : X64.State}
    (hrun : s.performAll (.move source (.register r) :: lines) = some s') :
    s'.registers r = s.read source := by
  have hload : s.perform (.move source (.register r)) = some (s.setRegister r (s.read source)) := by
    rw [X64.State.perform,X64.Operand.isMemory,Bool.and_false,if_neg Bool.false_ne_true]
    rfl
  rw [performAll_cons,hload,Option.bind_some] at hrun
  rw [X64.State.performAll_register hrun hlines,registers_setRegister,if_pos rfl]

structure RegisterKept (r : Register) (source : X64.Operand) (later : List Node) (rows : List Row) :
    Prop where
  written : rows.any (Row.writes r) = later.any (Node.overwrites r)
  plain : rows.all Row.isLine = later.all fun e => e.calls.isEmpty
  received : later.any (Node.overwrites r) = false → ∀ lines, rows = lines.map Row.line →
    ∀ s s' : X64.State, s.performAll (.move source (.register r) :: lines) = some s' →
      s'.registers r = s.read source

theorem ArgCode.registerKept {count index args c} (source : X64.Operand)
    (hplace : InMemory place) (hargs : ArgCode procedures count (index + 1) args c)
    (hcount : index + 1 + args.length = count) (hr : argumentRegisters[index]? = some r) :
    RegisterKept r source args (c.flatMap (Instr.rows place procedure)) := by
  have hmem := List.mem_of_getElem? hr
  have hlater : ((argumentRegisters.drop (index + 1)).take args.length).contains r = false := by
    obtain ⟨hindex,rfl⟩ := List.getElem?_eq_some_iff.1 hr
    have hnodup : (argumentRegisters.drop index).Nodup :=
      (show argumentRegisters.Nodup by decide).sublist (List.drop_sublist _ _)
    rw [List.drop_eq_getElem_cons hindex,List.nodup_cons] at hnodup
    rw [← Bool.not_eq_true,List.contains_iff_mem]
    exact fun hmem => hnodup.1 (List.mem_of_mem_take hmem)
  have hwritten : (c.flatMap (Instr.rows place procedure)).any (Row.writes r) = _ :=
    hargs.any_writes hplace hmem hcount
  rw [hlater,Bool.or_false,Node.anyOverwrites_eq] at hwritten
  refine ⟨hwritten,hargs.all_isLine hplace hcount,fun hkeep lines hlines s s' hrun => ?_⟩
  rw [hkeep,hlines,any_line] at hwritten
  exact registers_of_load hwritten hrun

structure RegisterArguments (procedures : Table String Signature) (name : String)
    (params : List String) (body : List Instr) (call : String × List Node) (p : Nat) : Prop where
  called : ∃ after, procedureRows name params body =
    rowsBefore name params body p ++ .call call.1 :: after
  loaded : ∀ i arg r, call.2[i]? = some arg → argumentRegisters[i]? = some r →
    let place := operandAt (slotOrder params body)
    ∃ before code x rows, ExprCode procedures arg code (some x) ∧
      rowsBefore name params body p = before ++ code.flatMap (Instr.rows place name) ++
        .line (.move (place x) (.register r)) :: rows ∧
      RegisterKept r (place x) (call.2.drop (i + 1)) rows

theorem CallAt.registerArguments (h : CallAt procedures body call p) :
    RegisterArguments procedures name params body call p := by
  obtain ⟨store,after,hrows⟩ := h.procedureRows_eq name params
  refine ⟨⟨_,by simpa only [List.append_assoc,List.cons_append] using hrows⟩,?_⟩
  intro i arg r harg hr place
  obtain ⟨before,code,x,after,hcode,hafter,hbefore⟩ := h.rowsBefore_eq name params harg
  have hi : i < call.2.length := (List.getElem?_eq_some_iff.1 harg).1
  rw [hr,Option.elim_some] at hbefore
  exact ⟨before,code,x,_,hcode,hbefore,hafter.registerKept _ (inMemory_operandAt _)
    (by rw [List.length_drop]; omega) hr⟩

theorem registerArguments_of_accepted (source : String) (r r' reporter reporter₁ reporter₂ : Reporter)
    (c' : Checker) (ds ds' : List Node) (s : Lowering) (document : List Datum)
    (hparse : Runs (parse source) r (some ds) r')
    (hcheck : (checkProgram ds).run { reporter } = ((ds',.ok ()),c'))
    (haccept : c'.reporter.reports = reporter.reports)
    (hlower : Runs (lowerProgram ds') { functions := c'.functions, reporter := reporter₁ } () s)
    (hdocument : Compile.documentOf s.items.toList = .ok document) :
    ∃ procedures a, Runs (Assemble.assemble document) { reporter := reporter₂ } () a ∧
      ∀ line name block params result raises,
        .procDecl line name block params result raises ∈ ds' → ∃ body above below,
          a.lines.toList =
            above ++ (procedureRows name (paramRegisters params) body).map Row.render ++ below ∧
          List.Forall₂ (RegisterArguments procedures name (paramRegisters params) body)
            block.calls (callPositions body) := by
  obtain ⟨c,haccepted⟩ := accepted_of_checkProgram (isProgram_of_parse hparse) hcheck haccept
  refine ⟨c.procedures,_,haccepted.listing hlower hdocument,?_⟩
  intro line name block params result raises hd
  obtain ⟨body,above,below,hcoded,htexts⟩ := haccepted.procedureListing hlower hd
  exact ⟨body,above,below,htexts,hcoded.calls.imp fun _ _ h => h.registerArguments⟩

def shiftingSource : String :=
  "def f(a:int,b:int,c:int,d:int,e:int):int\x7breturn a+e;\x7d
def main()\x7bvar x=3:int;print(f(x,2,x*x,4,1+(x<<2)));return;\x7d"

theorem shiftingSource_registerArguments : ∃ ds r' ds' c' s document procedures a,
    Runs (parse shiftingSource) {} (some ds) r' ∧
    (checkProgram ds).run {} = ((ds',.ok ()),c') ∧ c'.reporter.reports = [] ∧
    Runs (lowerProgram ds') { functions := c'.functions, reporter := {} } () s ∧
    Compile.documentOf s.items.toList = .ok document ∧
    Runs (Assemble.assemble document) { reporter := {} } () a ∧
    ∀ line name block params result raises,
      .procDecl line name block params result raises ∈ ds' → ∃ body above below,
        a.lines.toList =
          above ++ (procedureRows name (paramRegisters params) body).map Row.render ++ below ∧
        List.Forall₂ (RegisterArguments procedures name (paramRegisters params) body)
          block.calls (callPositions body) := by
  have hparse := runs_parse_of_isEmpty shiftingSource (by decide +kernel)
  obtain ⟨document,hdocument⟩ := Option.isSome_iff_exists.1
    (show (documentOfTree (parsed shiftingSource)).isSome = true by decide +kernel)
  obtain ⟨ds',c',s,hcheck,haccept,hlower,hdocument⟩ := exists_of_documentOfTree hdocument
  obtain ⟨procedures,a,hassemble,hprocedures⟩ := registerArguments_of_accepted _ _ _ _ _ {} _ _ _ _
    document hparse hcheck haccept hlower hdocument
  exact ⟨_,_,ds',c',s,document,procedures,a,hparse,hcheck,haccept,hlower,hdocument,
    hassemble,hprocedures⟩

def productProgram : List Node :=
  let number (n : Int) : Node := .number 2 Node.undefined (.int n)
  let param (x : String) : Node := .param 1 [x] (.ty 1 "int")
  [.procDecl 1 "f" (.block 1 [.return' 1 .absent]) [param "a",param "b",param "c",param "d"]
     .absent [],.procDecl 2 "main"
     (.block 2
       [.eval 0 (.call 2 Node.undefined "f"
         [number 1,number 2,number 3,.binary 2 Node.undefined (number 4) (number 5) "*"]),
        .return' 2 .absent])
     [] .absent []]

theorem productProgram_overwrites : ∃ ds' c' s document a,
    (checkProgram productProgram).run {} = ((ds',.ok ()),c') ∧ c'.reporter.reports = [] ∧
    Runs (lowerProgram ds') { functions := c'.functions, reporter := {} } () s ∧
    Compile.documentOf s.items.toList = .ok document ∧
    Runs (Assemble.assemble document) { reporter := {} } () a ∧
    ["movq -24(%rbp), %rdx","movq $4, -32(%rbp)","movq $5, -40(%rbp)","movq -32(%rbp), %rax",
      "imulq -40(%rbp)","movq %rax, -48(%rbp)","movq -48(%rbp), %rcx","callq f"] <:+:
      a.lines.toList := by
  obtain ⟨lines,hlines,hcall⟩ : ∃ lines ∈ listingOfTree productProgram,
      ["movq -24(%rbp), %rdx","movq $4, -32(%rbp)","movq $5, -40(%rbp)","movq -32(%rbp), %rax",
        "imulq -40(%rbp)","movq %rax, -48(%rbp)","movq -48(%rbp), %rcx","callq f"] <:+: lines := by
    decide +kernel
  obtain ⟨ds',c',s,document,a,hcheck,haccept,hlower,hdocument,hassemble,rfl⟩ :=
    exists_of_listingOfTree hlines
  exact ⟨ds',c',s,document,a,hcheck,haccept,hlower,hdocument,hassemble,hcall⟩

end BxToolchain.Bx
