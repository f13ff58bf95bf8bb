import BxToolchain.Bx.Assembly
import BxToolchain.Proofs.Run
import BxToolchain.Proofs.Table
import BxToolchain.Proofs.X64.Text

namespace BxToolchain.Bx

open X64 (Line)
open List

variable {x : String} {i : Instr} {o : Operation} {d : Datum} {body : List Instr}
  {names : List String}

def isGlobalName (x : String) : Bool := x.toList.head? = some '@'

def operandAt (names : List String) (x : String) : X64.Operand :=
  if isGlobalName x then .symbol (String.ofList x.toList.tail)
  else .slot (-8 * ((names.idxOf x : Int) + 1))

def meet (names : List String) (x : String) : List String :=
  if isGlobalName x || names.contains x then names else names ++ [x]

def meetAll (names xs : List String) : List String := xs.foldl meet names

def Placed (names : List String) (x : String) : Prop := isGlobalName x = true ∨ x ∈ names

theorem placed_meet_self (names : List String) (x : String) : Placed (meet names x) x := by
  by_cases hglobal : isGlobalName x = true
  · exact .inl hglobal
  · right
    unfold meet
    split
    · simp_all
    · simp

section

variable (h : Placed names x)
include h

theorem Placed.meet (y : String) : Placed (meet names y) x := by
  obtain h | h := h
  · exact .inl h
  · right
    unfold Bx.meet
    split
    · exact h
    · exact mem_append_left _ h

theorem operandAt_meet (y : String) : operandAt (meet names y) x = operandAt names x := by
  unfold operandAt
  split
  · rfl
  · obtain h | h := h
    · contradiction
    · unfold meet
      split
      · rfl
      · rw [idxOf_append_of_mem h]

theorem Placed.meetAll (xs : List String) : Placed (meetAll names xs) x := by
  induction xs generalizing names with
  | nil => exact h
  | cons y ys ih => exact ih (h.meet y)

theorem operandAt_meetAll (xs : List String) :
    operandAt (meetAll names xs) x = operandAt names x := by
  induction xs generalizing names with
  | nil => rfl
  | cons y ys ih => exact (ih (h.meet y)).trans (operandAt_meet h y)

end

theorem placed_meetAll (names : List String) (h : x ∈ xs) : Placed (meetAll names xs) x := by
  induction xs generalizing names with
  | nil => cases h
  | cons y ys ih =>
    obtain rfl | h := mem_cons.1 h
    · exact (placed_meet_self names x).meetAll ys
    · exact ih _ h

def slotTable (names : List String) : Table String String :=
  ⟨names.zipIdx.map fun p => (p.1,Assemble.slotText p.2)⟩

theorem lookup_slots (names : List String) (x : String) (k : Nat) :
    ((names.zipIdx k).map fun p => (p.1,Assemble.slotText p.2)).lookup x =
      if x ∈ names then some (Assemble.slotText (names.idxOf x + k)) else none := by
  induction names generalizing k with
  | nil => rfl
  | cons y ys ih =>
    rw [zipIdx_cons,map_cons,lookup_cons,ih]
    by_cases hxy : x = y
    · simp [hxy]
    · have hbeq : (x == y) = false := by simpa using hxy
      have hyx : y ≠ x := fun h => hxy h.symm
      rw [hbeq,idxOf_cons_ne _ hyx]
      simp [hxy,Nat.add_right_comm,Nat.add_assoc]

theorem get?_slotTable (names : List String) (x : String) :
    (slotTable names).get? x =
      if x ∈ names then some (Assemble.slotText (names.idxOf x)) else none :=
  lookup_slots names x 0

theorem insert_slotTable (h : x ∉ names) :
    (slotTable names).insert x (Assemble.slotText names.length) = slotTable (names ++ [x]) := by
  unfold Table.insert slotTable
  rw [Table.insertEntry_of_not_mem]
  · simp [zipIdx_append]
  · rwa [map_map,show (Prod.fst ∘ fun p : String × Nat => (p.1,Assemble.slotText p.2)) =
      Prod.fst from rfl,zipIdx_map_fst]

variable (a : Assembly) (names : List String)

theorem runs_place (hx : x ≠ "") :
    Runs (Assemble.place (.str x)) { a with slots := slotTable names }
      (operandAt (meet names x) x).render { a with slots := slotTable (meet names x) } := by
  cases hlist : x.toList with
  | nil => exact absurd (String.toList_eq_nil_iff.1 hlist) hx
  | cons c rest =>
    by_cases hc : c = '@'
    · subst hc
      have hglobal : isGlobalName x = true := by simp [isGlobalName,hlist]
      have hmeet : meet names x = names := by simp [meet,hglobal]
      rw [hmeet,operandAt,if_pos hglobal,hlist,Assemble.place]
      refine Runs.bind (a := some (String.ofList rest ++ "(%rip)")) ?_ runs_pure
      rw [Assemble.place?.eq_1,hlist]
      exact runs_pure
    · have hglobal : isGlobalName x = false := by simp [isGlobalName,hlist,hc]
      rw [operandAt,hglobal,if_neg Bool.false_ne_true,Assemble.place]
      refine Runs.bind (a := some (Assemble.slotText ((meet names x).idxOf x))) ?_ runs_pure
      rw [Assemble.place?.eq_1,hlist]
      split
      · cases ‹c :: rest = []›
      · exact absurd (List.cons.inj ‹_›).1 hc
      · refine Runs.bind runs_get ?_
        rw [get?_slotTable]
        by_cases hmem : x ∈ names
        · have hmeet : meet names x = names := by simp [meet,hmem]
          rw [if_pos hmem,hmeet]
          exact runs_pure
        · have hmeet : meet names x = names ++ [x] := by simp [meet,hglobal,hmem]
          have hlength : (slotTable names).entries.length = names.length := by simp [slotTable]
          rw [if_neg hmem,hmeet,idxOf_append_of_notMem hmem,hlength,← insert_slotTable hmem]
          simp only [idxOf_cons_self,Nat.add_zero]
          exact Runs.bind runs_set runs_pure

theorem runs_lift {α : Type} {x : α} {s : Assembly} : Runs (Assemble.lift (.ok x)) s x s := runs_pure

theorem runs_expectCount {what count xs s}
    (h : xs.length = count) : Runs (Assemble.expectCount what count xs) s () s := by
  unfold Assemble.expectCount
  rw [if_pos h]
  exact runs_pure

namespace Operation

def operands : Operation → List String
  | .const r _ => [r]
  | .copy r x | .unary _ r x => [x,r]
  | .binary _ r x y => [x,y,r]
  | .compare x y => [x,y]
  | .ret (some x) => [x]
  | .nop | .label _ | .jump _ | .branch _ _ | .ret none => []

def rax : X64.Operand := .register .rax
def rcx : X64.Operand := .register .rcx
def rdx : X64.Operand := .register .rdx
def r11 : X64.Operand := .register .r11

def binaryLines (op : Tac.BinOp) (x y r : X64.Operand) : List Line :=
  let simple (f : X64.Arithmetic) := [Line.move x r11,.arithmetic f y r11,.move r11 r]
  let shift (f : X64.Shift) := [Line.move x r11,.move y rcx,.shift f r11,.move r11 r]
  let divide (result : X64.Operand) := [Line.move x rax,.extend,.divide y,.move result r]
  match op with
  | .add => simple .add
  | .sub => simple .sub
  | .mul => [.move x rax,.multiply y,.move rax r]
  | .div => divide rax
  | .mod => divide rdx
  | .and => simple .and
  | .or => simple .or
  | .xor => simple .xor
  | .shl => shift .left
  | .shr => shift .right

def labelName (l : String) : String := ".L" ++ l

def exitName (procedure : String) : String := "E_" ++ procedure

def lines (place : String → X64.Operand) (procedure : String) : Operation → List Line
  | .nop => []
  | .const r n => [.move (.immediate n) (place r)]
  | .copy r x => [.move (place x) r11,.move r11 (place r)]
  | .binary op r x y => binaryLines op (place x) (place y) (place r)
  | .unary op r x => [.move (place x) r11,.unary op r11,.move r11 (place r)]
  | .compare x y => [.move (place y) r11,.compare r11 (place x)]
  | .label l => [.label (labelName l)]
  | .jump l => [.jump (labelName l)]
  | .branch c l => [.branch c (labelName l)]
  | .ret none => [.jump (exitName procedure)]
  | .ret (some x) => [.move (place x) rax,.jump (exitName procedure)]

end Operation

theorem opcode_of_binaryNamed? (h : binaryNamed? s = some op) : op.name = s := by
  unfold binaryNamed? at h
  simpa using find?_some h

theorem opcode_of_unaryNamed? (h : unaryNamed? s = some op) : op.name = s := by
  unfold unaryNamed? at h
  simpa using find?_some h

theorem opcode_of_branchNamed? (h : branchNamed? s = some c) : X64.branchMnemonic c = s := by
  unfold branchNamed? at h
  split at h <;> cases h <;> rfl

def Operation.IsOf (o : Operation) (i : Instr) : Prop :=
  match o with
  | .nop => i.opcode = .str "nop"
  | .const r n => i.opcode = .str "const" ∧ i.args = .list [.int n] ∧ i.result = .str r
  | .copy r x => i.opcode = .str "copy" ∧ i.args = .list [.str x] ∧ i.result = .str r
  | .binary op r x y =>
    i.opcode = .str op.name ∧ i.args = .list [.str x,.str y] ∧ i.result = .str r
  | .unary op r x => i.opcode = .str op.name ∧ i.args = .list [.str x] ∧ i.result = .str r
  | .compare x y => i.opcode = .str "cmpq" ∧ i.args = .list [.str x,.str y]
  | .label l => i.opcode = .str "label" ∧ ∃ d : Datum, i.args = .list [d] ∧ d.display = l
  | .jump l => i.opcode = .str "jmp" ∧ ∃ d : Datum, i.args = .list [d] ∧ d.display = l
  | .branch c l =>
    i.opcode = .str (X64.branchMnemonic c) ∧ ∃ d : Datum, i.args = .list [d] ∧ d.display = l
  | .ret none => i.opcode = .str "ret" ∧ i.args = .list []
  | .ret (some x) => i.opcode = .str "ret" ∧ i.args = .list [.str x]

theorem isOf_of_operation? (h : i.operation? = some o) : o.IsOf i := by
  unfold Instr.operation? at h
  split at h
  case h_4 hopcode hargs hresult =>
    obtain ⟨op,hop,rfl⟩ := Option.map_eq_some_iff.1 h
    exact ⟨opcode_of_binaryNamed? hop ▸ hopcode,hargs,hresult⟩
  case h_5 hopcode hargs hresult =>
    obtain ⟨op,hop,rfl⟩ := Option.map_eq_some_iff.1 h
    exact ⟨opcode_of_unaryNamed? hop ▸ hopcode,hargs,hresult⟩
  case h_11 hopcode hargs hresult =>
    obtain ⟨c,hc,rfl⟩ := Option.map_eq_some_iff.1 h
    exact ⟨opcode_of_branchNamed? hc ▸ hopcode,_,hargs,rfl⟩
  all_goals cases h
  case h_1 hopcode => exact hopcode
  case h_2 hopcode hargs hresult => exact ⟨hopcode,hargs,hresult⟩
  case h_3 hopcode hargs hresult => exact ⟨hopcode,hargs,hresult⟩
  case h_6 hopcode hargs _ => exact ⟨hopcode,hargs⟩
  case h_7 hopcode hargs _ => exact ⟨hopcode,_,hargs,rfl⟩
  case h_8 hopcode hargs _ => exact ⟨hopcode,_,hargs,rfl⟩
  case h_9 hopcode hargs _ => exact ⟨hopcode,hargs⟩
  case h_10 hopcode hargs _ => exact ⟨hopcode,hargs⟩

def Assembly.after (xs : List String) (written : List Line) : Assembly :=
  { a with slots := slotTable (meetAll names xs),
           body := a.body ++ (written.map Line.render).toArray }

attribute [local grind] Line.render Operation.lines

theorem render_register (r : X64.Register) : (X64.Operand.register r).render = "%" ++ r.name := rfl

theorem render_immediate (n : Int) : (X64.Operand.immediate n).render = "$" ++ Text.decimal n := rfl

theorem runs_emitLines (xs texts : List String) (written : List Line)
    (h : texts = written.map Line.render) :
    Runs (Assemble.emit texts) { a with slots := slotTable (meetAll names xs) } ()
      (a.after names xs written) := by
  rw [h]
  exact runs_modify

variable (procedure : String) {x r : String}

theorem after_after (xs ys : List String) (written written' : List Line) :
    (a.after names xs written).after (meetAll names xs) ys written' =
      a.after names (xs ++ ys) (written ++ written') := by
  simp [Assembly.after,meetAll,Array.append_assoc]

def Writes (run : Assemble Unit) (o : Operation) : Prop :=
  (∀ x ∈ o.operands, x ≠ "") → Runs run { a with slots := slotTable names } ()
    (a.after names o.operands (o.lines (operandAt (meetAll names o.operands)) procedure))

attribute [local simp] Operation.operands Operation.lines Line.render Operation.r11 Operation.rax
  Operation.exitName Operation.labelName render_register render_immediate X64.Register.name meetAll

theorem writes_const {n : Int} :
    Writes a names procedure (Assemble.assembleConst (.list [.int n]) (.str r)) (.const r n) := by
  intro hnames
  refine runs_lift.bind <| (runs_expectCount rfl).bind <| runs_lift.bind <|
    (runs_place a names (hnames r (by simp))).bind (runs_emitLines a names [r] _ _ ?_)
  simp [Datum.display,Datum.render,← String.toList_inj]

theorem writes_copy :
    Writes a names procedure (Assemble.assembleCopy (.list [.str x]) (.str r)) (.copy r x) := by
  intro hnames
  have hplace := operandAt_meet (placed_meet_self names x) r
  refine runs_lift.bind <| (runs_expectCount rfl).bind <| runs_lift.bind <|
    (runs_place a names (hnames x (by simp))).bind <|
    (runs_place a (meet names x) (hnames r (by simp))).bind <| runs_emitLines a names [x,r] _ _ ?_
  simp [hplace,← String.toList_inj]

theorem binaryLines?_name (op : Tac.BinOp) (u v w : X64.Operand) :
    Assemble.binaryLines? op.name u.render v.render w.render =
      some ((Operation.binaryLines op u v w).map Line.render) := by
  cases op <;>
    simp [Tac.BinOp.name,Assemble.binaryLines?,Operation.binaryLines,Operation.rcx,Operation.rdx,
      X64.Arithmetic.mnemonic,X64.Shift.mnemonic,← String.toList_inj]

theorem writes_binary (op : Tac.BinOp) :
    Writes a names procedure (Assemble.assembleBinary op.name (.list [.str x,.str y]) (.str r))
      (.binary op r x y) := by
  intro hnames
  have hplaceX : operandAt (meetAll names [x,y,r]) x = operandAt (meet names x) x :=
    operandAt_meetAll (placed_meet_self names x) [y,r]
  have hplaceY : operandAt (meetAll names [x,y,r]) y = operandAt (meetAll names [x,y]) y :=
    operandAt_meet (placed_meet_self (meet names x) y) r
  refine runs_lift.bind <| (runs_expectCount rfl).bind <| runs_lift.bind <|
    (runs_place a names (hnames x (by simp))).bind <| runs_lift.bind <|
    (runs_place a (meet names x) (hnames y (by simp))).bind <|
    (runs_place a (meetAll names [x,y]) (hnames r (by simp))).bind ?_
  rw [binaryLines?_name]
  refine runs_emitLines a names [x,y,r] _ _ ?_
  rw [Operation.lines,Operation.operands,hplaceX,hplaceY]
  rfl

theorem writes_unary (op : Tac.UnOp) :
    Writes a names procedure (Assemble.assembleUnary op.name (.list [.str x]) (.str r))
      (.unary op r x) := by
  intro hnames
  have hplace := operandAt_meet (placed_meet_self names x) r
  have hmnemonic : Assemble.unaryMnemonic? op.name = some (X64.unaryMnemonic op) := by
    cases op <;> rfl
  refine runs_lift.bind <| (runs_expectCount rfl).bind <| runs_lift.bind <|
    (runs_place a names (hnames x (by simp))).bind <|
    (runs_place a (meet names x) (hnames r (by simp))).bind ?_
  rw [hmnemonic]
  refine runs_emitLines a names [x,r] _ _ ?_
  simp [hplace,← String.toList_inj]

theorem writes_compare :
    Writes a names procedure (Assemble.assembleCompare (.list [.str x,.str y])) (.compare x y) := by
  intro hnames
  have hplace := operandAt_meet (placed_meet_self names x) y
  refine runs_lift.bind <| (runs_expectCount rfl).bind <| runs_lift.bind <|
    (runs_place a names (hnames x (by simp))).bind <| runs_lift.bind <|
    (runs_place a (meet names x) (hnames y (by simp))).bind <| runs_emitLines a names [x,y] _ _ ?_
  simp [hplace,← String.toList_inj]

theorem writes_return :
    Writes a names procedure (Assemble.assembleReturn procedure (.list [])) (.ret none) :=
  fun _ => runs_emitLines a names [] _ _ (by simp [← String.toList_inj])

theorem writes_returnValue :
    Writes a names procedure (Assemble.assembleReturn procedure (.list [.str x])) (.ret (some x)) := by
  intro hnames
  let value := Line.move (operandAt (meet names x) x) Operation.rax
  have hvalue : ["movq " ++ (operandAt (meet names x) x).render ++ ", %rax"] = [value].map Line.render := by
    simp [value,← String.toList_inj]
  have hjump := runs_emitLines (a.after names [x] [value]) (meetAll names [x]) [] ["jmp E_" ++ procedure]
    [.jump (Operation.exitName procedure)] (by simp [← String.toList_inj])
  rw [after_after] at hjump
  have hname : (Datum.list [.str x]).same (.list []) = false := by
    simp [Datum.same,Datum.sameItems]
  unfold Assemble.assembleReturn
  rw [hname]
  exact runs_lift.bind <| runs_lift.bind <| (runs_place a names (hnames x (by simp))).bind <|
    (runs_emitLines a names [x] _ _ hvalue).bind hjump

theorem writes_label : Writes a names procedure (Assemble.assembleLabel (.list [d])) (.label d.display) :=
  fun _ => runs_lift.bind <| runs_lift.bind <| (runs_expectCount rfl).bind <|
    runs_emitLines a names [] _ _ (by simp)

theorem runs_assembleJump {opcode : String} (line : Line)
    (hline : line.render = opcode ++ " " ++ Operation.labelName d.display) :
    Runs (Assemble.assembleJump opcode (.list [d])) { a with slots := slotTable names } ()
      (a.after names [] [line]) := by
  refine runs_lift.bind <| (runs_expectCount rfl).bind <| runs_lift.bind <| runs_emitLines a names [] _ _ ?_
  simp only [map_cons,map_nil,hline,Operation.labelName]
  simp [← String.toList_inj]

theorem runs_assembleInstr (h : i.operation? = some o) :
    Writes a names procedure (Assemble.assembleInstr procedure i) o := by
  obtain ⟨opcode,args,result,layout⟩ := i
  have hof := isOf_of_operation? h
  cases o with
  | nop =>
    obtain rfl : opcode = _ := hof
    exact fun _ => runs_pure
  | const r n =>
    obtain ⟨rfl,rfl,rfl⟩ := hof
    exact writes_const a names procedure
  | copy r x =>
    obtain ⟨rfl,rfl,rfl⟩ := hof
    exact writes_copy a names procedure
  | binary op r x y =>
    obtain ⟨rfl,rfl,rfl⟩ := hof
    cases op <;> exact writes_binary a names procedure _
  | unary op r x =>
    obtain ⟨rfl,rfl,rfl⟩ := hof
    cases op <;> exact writes_unary a names procedure _
  | compare x y =>
    obtain ⟨rfl,rfl⟩ := hof
    exact writes_compare a names procedure
  | label l =>
    obtain ⟨rfl,d,rfl,rfl⟩ := hof
    exact writes_label a names procedure
  | jump l =>
    obtain ⟨rfl,d,rfl,rfl⟩ := hof
    exact fun _ => runs_assembleJump a names (.jump (Operation.labelName d.display)) rfl
  | branch c l =>
    obtain ⟨rfl,d,rfl,rfl⟩ := hof
    have hrun := runs_assembleJump a names (.branch c (Operation.labelName d.display)) rfl
    cases c <;> exact fun _ => hrun
  | ret source =>
    cases source with
    | none =>
      obtain ⟨rfl,rfl⟩ := hof
      exact writes_return a names procedure
    | some x =>
      obtain ⟨rfl,rfl⟩ := hof
      exact writes_returnValue a names procedure

theorem Operation.lines_congr (o : Operation) (h : ∀ x ∈ o.operands, place x = place' x) :
    o.lines place procedure = o.lines place' procedure := by
  cases o with
  | ret source => cases source <;> simp_all [Operation.operands,Operation.lines]
  | _ => simp_all [Operation.operands,Operation.lines]

namespace Instr

def operands (i : Instr) : List String := i.operation?.elim [] Operation.operands

def lines (place : String → X64.Operand) (procedure : String) (i : Instr) : List Line :=
  i.operation?.elim [] (Operation.lines place procedure)

theorem ofDatum_toDatum (i : Instr) : Instr.ofDatum i.toDatum = .ok i := by
  obtain ⟨opcode,args,result,layout⟩ := i
  cases layout <;> rfl

end Instr

def argumentRegisters : List X64.Register := [.rdi,.rsi,.rdx,.rcx,.r8,.r9]

theorem argRegister_eq {k : Nat} {r : X64.Register} (h : argumentRegisters[k]? = some r) :
    Assemble.argRegister k = .ok r.name := by
  match k, h with
  | 0, h | 1, h | 2, h | 3, h | 4, h | 5, h =>
    cases h
    rfl

def argumentLines (place : String → X64.Operand) (registers : List X64.Register)
    (params : List String) : List Line :=
  List.zipWith (fun r p => .move (.register r) (place p)) registers params

theorem runs_storeParams {params : List String} (k : Nat) (hcount : k + params.length ≤ 6)
    (hnames : ∀ p ∈ params, p ≠ "") :
    Runs (Assemble.storeParams k (params.map .str)) { a with slots := slotTable names } () { a with
        slots := slotTable (meetAll names params)
        lines := a.lines ++ ((argumentLines (operandAt (meetAll names params))
          (argumentRegisters.drop k) params).map Line.render).toArray } := by
  induction params generalizing a names k with
  | nil =>
    have hlines : argumentLines (operandAt names) (argumentRegisters.drop k) [] = [] := by
      simp [argumentLines]
    simp only [meetAll,foldl_nil,hlines,map_nil,Array.append_empty]
    exact runs_pure
  | cons p rest ih =>
    obtain ⟨hp,hrest⟩ := forall_mem_cons.1 hnames
    rw [length_cons] at hcount
    have hk : k < argumentRegisters.length := by
      have hlength : argumentRegisters.length = 6 := rfl
      omega
    have hget : argumentRegisters[k]? = some argumentRegisters[k] := getElem?_eq_getElem hk
    have hplace : operandAt (meetAll names (p :: rest)) p = operandAt (meet names p) p :=
      operandAt_meetAll (placed_meet_self names p) rest
    have hih := ih { a with lines := a.lines ++ #["movq %" ++ argumentRegisters[k].name ++ ", " ++
      (operandAt (meet names p) p).render] } (meet names p) (k + 1) (by omega) hrest
    have hrender : (Line.move (.register argumentRegisters[k]) (operandAt (meet names p) p)).render =
        "movq %" ++ argumentRegisters[k].name ++ ", " ++ (operandAt (meet names p) p).render := by
      simp [Line.render,render_register,← String.toList_inj]
    have hlines : argumentLines (operandAt (meetAll names (p :: rest)))
        (argumentRegisters.drop k) (p :: rest) =
        .move (.register argumentRegisters[k]) (operandAt (meet names p) p) ::
          argumentLines (operandAt (meetAll (meet names p) rest)) (argumentRegisters.drop (k + 1))
            rest := by
      rw [drop_eq_getElem_cons hk,← hplace]
      rfl
    have hjoin : ∀ (t : String) (ts : List String),
        a.lines ++ (t :: ts).toArray = a.lines ++ #[t] ++ ts.toArray := by
      intro t ts
      simp
    simp only [hlines,map_cons,hrender]
    rw [hjoin,Assemble.storeParams,argRegister_eq hget]
    exact (runs_lift).bind <| (runs_place a names hp).bind <| runs_modify.bind hih

def frameLines (name : String) (size : Nat) : List Line :=
  [.label name,.push (.register .rbp),.move (.register .rsp) (.register .rbp),
    .arithmetic .sub (.immediate size) (.register .rsp)]

def entryLines (name : String) (size : Nat) : List Line :=
  [.text,.global name] ++ frameLines name size

def exitLines (name : String) : List Line :=
  [.label (Operation.exitName name),.move (.register .rbp) (.register .rsp),
    .pop (.register .rbp),.ret]

def procedureLines (name : String) (params : List String) (body : List Instr) : List Line :=
  let names := meetAll [] (body.flatMap Instr.operands)
  let place := operandAt (meetAll names params)
  entryLines name (8 * Assemble.frameSlots names.length) ++
    argumentLines place argumentRegisters params ++ body.flatMap (Instr.lines place name) ++
    exitLines name

theorem render_entryLines (name : String) (size : Nat) :
    (entryLines name size).map Line.render = [".text",".globl " ++ name,name ++ ":","pushq %rbp",
      "movq %rsp, %rbp","subq $" ++ toString size ++ ", %rsp"] := by
  simp [entryLines,frameLines,Line.render,render_register,render_immediate,X64.Register.name,
    X64.Arithmetic.mnemonic,Text.decimal,← String.toList_inj]

theorem render_exitLines (name : String) : (exitLines name).map Line.render =
    ["E_" ++ name ++ ":","movq %rbp, %rsp","popq %rbp","retq"] := by
  simp [exitLines,Line.render,render_register,X64.Register.name,Operation.exitName]

end BxToolchain.Bx
