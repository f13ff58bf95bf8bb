import BxToolchain.Proofs.Bx.WritableProgram

namespace BxToolchain.X64

def Line.isQuiet : Line → Bool
  | .move _ b | .arithmetic _ _ b | .unary _ b | .shift _ b =>
    b.isMemory || b = .register .rax || b = .register .r11
  | .text | .global _ | .label _ | .compare _ _ | .jump _ | .branch _ _ => true
  | .multiply _ | .extend | .divide _ | .push _ | .pop _ | .ret => false

def Row.isQuiet : Row → Bool
  | .line l => l.isQuiet
  | .call _ => false
  | .loadNone => true

def Row.isLine : Row → Bool
  | .line _ => true
  | .call _ | .loadNone => false

theorem Row.eq_lines (h : rows.all Row.isLine = true) :
    ∃ lines : List Line, rows = lines.map Row.line := by
  induction rows with
  | nil => exact ⟨[],rfl⟩
  | cons row rest ih =>
    rw [List.all_cons,Bool.and_eq_true] at h
    obtain ⟨lines,rfl⟩ := ih h.2
    cases row with
    | line l => exact ⟨l :: lines,rfl⟩
    | call name => cases h.1
    | loadNone => cases h.1

end BxToolchain.X64

namespace BxToolchain.Bx

open Lower
open X64 (Line Register Row)

variable {place : String → X64.Operand} {procedure : String}

def InMemory (place : String → X64.Operand) : Prop := ∀ x, (place x).isMemory = true

theorem inMemory_operandAt (names : List String) : InMemory (operandAt names) := by
  intro x
  unfold operandAt
  split
  · rfl
  · rfl

theorem ne_scratch (hr : r ∈ argumentRegisters) : r ≠ .rax ∧ r ≠ .r11 ∧ r ≠ .rsp := by
  simp only [argumentRegisters,List.mem_cons,List.not_mem_nil,or_false] at hr
  obtain rfl | rfl | rfl | rfl | rfl | rfl := hr <;> decide

def Tame (rows : List Row) : Prop := rows.all Row.isLine = true ∧ rows.all Row.isQuiet = true

theorem tame_lines {lines : List Line} (h : lines.all Line.isQuiet = true) :
    Tame (lines.map Row.line) := by
  constructor
  · rw [List.all_map]
    exact List.all_eq_true.2 fun _ _ => rfl
  · rw [List.all_map]
    exact h

theorem Tame.append (h : Tame rows) (h' : Tame more) : Tame (rows ++ more) :=
  ⟨by rw [List.all_append,h.1,h'.1]; rfl,by rw [List.all_append,h.2,h'.2]; rfl⟩

theorem tame_const (hplace : InMemory place) (n : Int) (x : String) :
    Tame ((Instr.make "const" [.int n] (.str x)).rows place procedure) :=
  show Tame ([Line.move (.immediate n) (place x)].map Row.line) from
    tame_lines (by simp [Line.isQuiet,hplace x])

theorem tame_unary (hplace : InMemory place) (op x z : String) :
    Tame ((⟨unaryOpcode op,.list [.str x],.str z,.opcodeFirst⟩ : Instr).rows place procedure) := by
  obtain hop | ⟨o,hop⟩ := unaryOpcode_eq op
  · rw [hop]
    exact ⟨rfl,rfl⟩
  · have hrows : (⟨.str o.name,.list [.str x],.str z,.opcodeFirst⟩ : Instr).rows place procedure =
        ((Operation.unary o z x).lines place procedure).map Row.line := by cases o <;> rfl
    rw [hop,hrows]
    exact tame_lines (by simp [Operation.lines,Line.isQuiet,Operation.r11,hplace z])

theorem tame_leave (σ : Surroundings) (x : String) :
    Tame ((σ.leave (.str x)).rows place procedure) := by
  unfold Surroundings.leave
  split
  · exact ⟨rfl,rfl⟩
  · split
    · exact ⟨rfl,rfl⟩
    · exact ⟨rfl,rfl⟩

theorem tame_passPending (hplace : InMemory place) (σ : Surroundings) (zero : String) (next : Nat) :
    Tame ((passPending σ (.str zero) next).flatMap (Instr.rows place procedure)) := by
  have htest : Tame ((Instr.act "cmpq" [.str zero,pending]).rows place procedure) := ⟨rfl,rfl⟩
  have hbranch : Tame ((branchTo "jz" next).rows place procedure) := ⟨rfl,rfl⟩
  have hlabel : Tame ((labelAt next).rows place procedure) := ⟨rfl,rfl⟩
  simp only [passPending,pendingTest,List.cons_append,List.nil_append,List.flatMap_cons,
    List.flatMap_nil,List.append_nil]
  exact (tame_const hplace 0 zero).append <| htest.append <| hbranch.append <|
    (tame_leave σ zero).append hlabel

theorem rows_binary (op x y z : String) :
    (⟨binaryOpcode op,.list [.str x,.str y],.str z,.opcodeFirst⟩ : Instr).rows place procedure =
      (arithmetic? op).elim [] fun o =>
        (Operation.binaryLines o (place x) (place y) (place z)).map Row.line := by
  fun_cases binaryOpcode op
  case case11 hadd hsub hmul hdiv hmod hand hor hxor hshl hshr =>
    have hnone : arithmetic? op = none := by
      rw [arithmetic?] <;> assumption
    rw [hnone]
    rfl
  all_goals rfl

theorem rows_call (name : String) (count : Nat) (result : Option String) :
    (callInstr name count result).rows place procedure =
      .call name :: (Step.cleanLines (count + 1) ++
        result.toList.map fun x => Line.move (.register .rax) (place x)).map Row.line := by
  rw [Instr.rows,step?_callInstr]
  rfl

theorem rows_param (x : String) (h : index < count) :
    (Instr.act "param" [.int (argNumber count index),.str x]).rows place procedure =
      [.line (argumentRegisters[index]?.elim (.push (place x)) fun r =>
        .move (place x) (.register r))] := by
  have hlength : argumentRegisters.length = 6 := rfl
  have hpass : Step.passLine (argNumber count index) (place x) =
      argumentRegisters[index]?.elim (.push (place x)) fun r => .move (place x) (.register r) := by
    unfold Step.passLine argNumber
    split_ifs with hindex
    · have hnumber : (((index + 1 : Nat) : Int) - 1).toNat = index := by omega
      rw [hnumber]
      cases argumentRegisters[index]? <;> rfl
    · have hnone : argumentRegisters[index]? = none := List.getElem?_eq_none (by omega)
      have hnone' : argumentRegisters[(((count - (index - 6) : Nat) : Int) - 1).toNat]? = none :=
        List.getElem?_eq_none (by omega)
      rw [hnone,hnone']
      rfl
  rw [Instr.rows,step?_param x h,← hpass]
  rfl

theorem isLine_rows_binary (op x y z : String) :
    ((⟨binaryOpcode op,.list [.str x,.str y],.str z,.opcodeFirst⟩ : Instr).rows place
      procedure).all Row.isLine = true := by
  rw [rows_binary]
  cases arithmetic? op with
  | none => rfl
  | some o =>
    rw [Option.elim_some,List.all_map]
    exact List.all_eq_true.2 fun _ _ => rfl

mutual

theorem ExprCode.all_isLine (hplace : InMemory place) : ExprCode procedures n c value →
      (c.flatMap (Instr.rows place procedure)).all Row.isLine = n.calls.isEmpty
  | .var .. => by simp [Node.calls]
  | .number _ _ n _ | .boolean _ _ n _ => by
    rw [List.flatMap_singleton,(tame_const hplace _ _).1]
    simp [Node.calls]
  | .binary _ _ op ha hb _ => by
    rw [List.flatMap_append,List.flatMap_append,List.all_append,List.all_append,
      ha.all_isLine hplace,hb.all_isLine hplace,List.flatMap_singleton,isLine_rows_binary,
      Bool.and_true,Node.calls,Bool.eq_iff_iff]
    simp
  | .unary _ _ op ha _ => by
    rw [List.flatMap_append,List.all_append,ha.all_isLine hplace,List.flatMap_singleton,
      (tame_unary hplace op _ _).1,Bool.and_true,Node.calls]
  | .call _ _ σ next result _ _ hargs _ _ => by
    rw [List.flatMap_append,List.all_append,List.flatMap_cons,rows_call,List.cons_append,
      List.all_cons,Row.isLine,Bool.false_and,Bool.and_false,Node.calls]
    simp

theorem ArgCode.all_isLine {count index args c}
    (hplace : InMemory place) (hcount : index + args.length = count) :
    ArgCode procedures count index args c →
      (c.flatMap (Instr.rows place procedure)).all Row.isLine = args.all fun e => e.calls.isEmpty
  | .nil _ _ => rfl
  | .cons (x := x) he hrest => by
    rw [List.length_cons] at hcount
    rw [List.flatMap_append,List.all_append,he.all_isLine hplace,List.flatMap_cons,
      List.all_append,rows_param x (by omega),hrest.all_isLine hplace (by omega),List.all_cons]
    rfl

end

theorem ArgCode.split (h : ArgCode procedures count index args c) (harg : args[i]? = some arg) :
    ∃ before code x after,
      c = before ++ code ++
        .act "param" [.int (argNumber count (index + i)),.str x] :: after ∧
      ExprCode procedures arg code (some x) ∧
      ArgCode procedures count (index + i + 1) (args.drop (i + 1)) after := by
  induction i generalizing index args c with
  | zero =>
    cases h with
    | nil => cases harg
    | cons he hrest =>
      cases harg
      exact ⟨[],_,_,_,rfl,he,hrest⟩
  | succ i ih =>
    cases h with
    | nil => cases harg
    | @cons _ _ _ rest c1 c2 x he hrest =>
      obtain ⟨before,code,y,after,rfl,hcode,hafter⟩ := ih hrest harg
      have hindex : index + 1 + i = index + (i + 1) := by omega
      rw [hindex] at hafter ⊢
      refine ⟨c1 ++ .act "param" [.int (argNumber count index),.str x] :: before,code,y,after,
        ?_,hcode,hafter⟩
      simp only [List.append_assoc,List.cons_append]

theorem CallAt.procedureRows_eq (h : CallAt procedures body call p) (name : String)
    (params : List String) :
    ∃ store after, procedureRows name params body =
      rowsBefore name params body p ++
        .call call.1 :: (Step.cleanLines (call.2.length + 1)).map Row.line ++ store ++ after := by
  obtain ⟨result,hcall⟩ := h.instr
  have hrows := Bx.procedureRows_eq name params hcall
  rw [rows_call,List.map_append,List.cons_append,List.append_assoc] at hrows
  exact ⟨_,_,by simpa only [List.append_assoc,List.cons_append] using hrows⟩

theorem CallAt.rowsBefore_eq (h : CallAt procedures body call p) (name : String)
    (params : List String) (harg : call.2[i]? = some arg) :
    let place := operandAt (slotOrder params body)
    ∃ before code x after, ExprCode procedures arg code (some x) ∧
      ArgCode procedures call.2.length (i + 1) (call.2.drop (i + 1)) after ∧
      rowsBefore name params body p = before ++ code.flatMap (Instr.rows place name) ++
        .line (argumentRegisters[i]?.elim (.push (place x)) fun r => .move (place x) (.register r)) ::
          after.flatMap (Instr.rows place name) := by
  intro place
  obtain ⟨before,arguments,htake,hargs⟩ := h.args
  obtain ⟨before',code,x,after,rfl,hcode,hafter⟩ := hargs.split harg
  have hi : i < call.2.length := (List.getElem?_eq_some_iff.1 harg).1
  rw [Nat.zero_add] at hafter htake
  refine ⟨entryRows name params body ++ (before ++ before').flatMap (Instr.rows place name),code,x,
    after,hcode,hafter,?_⟩
  simp only [rowsBefore,htake,List.flatMap_append,List.flatMap_cons,rows_param x hi,
    List.append_assoc,List.singleton_append,place]

end BxToolchain.Bx
