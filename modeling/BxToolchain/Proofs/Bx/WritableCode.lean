import BxToolchain.Proofs.Bx.AcceptedProgram
import BxToolchain.Proofs.X64.Listing

namespace BxToolchain.Bx

open Lower List

variable {n : Node} {c c1 c2 : List Instr} {scopes : List (Table String String)} {args : List Node}
  {i : Instr} {p index : Nat} {op : String} {k k' : Counters}

def callInstr (name : String) (count : Nat) (result : Option String) : Instr :=
  .make "call" (callArgs name count) (result.elim .null .str)

mutual

inductive ExprCode (procedures : Table String Signature) :
    Node → List Instr → Option String → Prop where
  | var (line : Int) (type x : String) {r} : r ≠ "" →
      ExprCode procedures (.var line type x) [] (some r)
  | number (line : Int) (type : String) {n r} : inWordRange n = true → r ≠ "" →
      ExprCode procedures (.number line type (.int n)) [.make "const" [.int n] (.str r)] (some r)
  | boolean (line : Int) (type : String) (value : Datum) {r} : r ≠ "" →
      ExprCode procedures (.boolean line type value)
        [.make "const" [.int (truthNumber value)] (.str r)] (some r)
  | binary (line : Int) (type op : String) {a b ca cb x y r} :
      ExprCode procedures a ca (some x) → ExprCode procedures b cb (some y) → r ≠ "" →
      ExprCode procedures (.binary line type a b op)
        (ca ++ cb ++ [⟨binaryOpcode op,.list [.str x,.str y],.str r,.opcodeFirst⟩]) (some r)
  | unary (line : Int) (type op : String) {a c x r} : ExprCode procedures a c (some x) → r ≠ "" →
      ExprCode procedures (.unary line type a op)
        (c ++ [⟨unaryOpcode op,.list [.str x],.str r,.opcodeFirst⟩]) (some r)
  | call (line : Int) (type : String) {name args sig c zero} (σ : Surroundings) (next : Nat)
      (result : Option String) : procedures.get? name = some sig → args.length = sig.inputs.length →
      ArgCode procedures args.length 0 args c → (∀ r ∈ result, r ≠ "") → zero ≠ "" →
      ExprCode procedures (.call line type name args)
        (c ++ callInstr name args.length result :: passPending σ (.str zero) next) result

inductive ArgCode (procedures : Table String Signature) :
    Nat → Nat → List Node → List Instr → Prop where
  | nil (count index : Nat) : ArgCode procedures count index [] []
  | cons {count index arg rest c1 c2 x} :
      ExprCode procedures arg c1 (some x) → ArgCode procedures count (index + 1) rest c2 →
      ArgCode procedures count index (arg :: rest)
        (c1 ++ .act "param" [.int (argNumber count index),.str x] :: c2)

end

variable {procedures : Table String Signature} {visible : List String} {σ : Surroundings}

theorem ExprCode.ne_empty {x} (h : ExprCode procedures n c (some x)) : x ≠ "" := by
  cases h with
  | call _ _ _ _ _ _ _ _ hx _ => exact hx x rfl
  | _ => assumption

structure Covers (scopes : List (Table String String)) (visible : List String) : Prop where
  found : ∀ x ∈ visible, (lookupRegister x scopes).isSome = true
  named : ∀ x r, lookupRegister x scopes = some r → r ≠ ""
  inside : scopes ≠ []

theorem Covers.registerOf (h : Covers σ.scopes visible) {x} (hx : x ∈ visible) :
    ∃ r, σ.registerOf x = .str r ∧ r ≠ "" := by
  obtain ⟨r,hr⟩ := Option.isSome_iff_exists.1 (h.found x hx)
  exact ⟨r,by rw [Surroundings.registerOf,hr],h.named x r hr⟩

theorem register_ne_empty (n : Nat) : register n ≠ "" := by
  simp [register,← String.toList_inj]

theorem lookupRegister_bindIn (hscopes : scopes ≠ []) (x r y : String) :
    lookupRegister y (bindIn x r scopes) = if y = x then some r else lookupRegister y scopes := by
  cases scopes with
  | nil => exact absurd rfl hscopes
  | cons table rest =>
    rw [bindIn,lookupRegister_cons,lookupRegister_cons,Table.get?_insert]
    by_cases hy : y = x
    · simp [hy]
    · simp [hy]

theorem Covers.bindIn (h : Covers scopes visible) (x : String) (hr : r ≠ "") :
    Covers (bindIn x r scopes) (x :: visible) := by
  have hlookup := lookupRegister_bindIn h.inside x r
  refine ⟨fun y hy => ?_,fun y q hq => ?_,?_⟩
  · rw [hlookup]
    split
    · rfl
    · rename_i hne
      exact h.found y ((mem_cons.1 hy).resolve_left hne)
  · rw [hlookup] at hq
    split at hq
    · exact Option.some.inj hq ▸ hr
    · exact h.named y q hq
  · have hinside := h.inside
    cases scopes with
    | nil => exact absurd rfl hinside
    | cons table rest => exact cons_ne_nil _ _

theorem Covers.push (h : Covers scopes visible) : Covers ({} :: scopes) visible :=
  ⟨h.found,h.named,cons_ne_nil _ _⟩

theorem CheckedArgs.length_eq {args' types}
    (h : CheckedArgs procedures visible args args' types) : args'.length = types.length := by
  induction args generalizing args' types with
  | nil =>
    cases h
    rfl
  | cons e rest ih =>
    cases h with
    | cons _ hrest => rw [length_cons,length_cons,ih hrest]

mutual

theorem CheckedExpr.exprCode {n n' t k k' v c} (hsigned : WellSigned procedures σ.functions)
    (hcovers : Covers σ.scopes visible) :
    CheckedExpr procedures visible n n' t → ExprEmits σ n' k v c k' →
      ∃ value, ExprCode procedures n' c value ∧
        (value = none ∧ v = .null ∧ t = "void" ∨ ∃ x, value = some x ∧ v = .str x ∧ isWordType t = true)
  | .var line a hx ht, .var .. => by
    obtain ⟨r,hr,hne⟩ := hcovers.registerOf hx
    exact ⟨some r,.var line _ _ hne,.inr ⟨r,rfl,hr,ht⟩⟩
  | .number line a hn, .number .. =>
    ⟨some _,.number line _ hn (register_ne_empty _),.inr ⟨_,rfl,rfl,rfl⟩⟩
  | .boolean line a _, .boolean .. =>
    ⟨some _,.boolean line _ _ (register_ne_empty _),.inr ⟨_,rfl,rfl,rfl⟩⟩
  | .arithmetic line a _ hx hy, .binary _ _ _ hx' hy'
  | .comparison line a _ hx hy, .binary _ _ _ hx' hy'
  | .logical line a _ hx hy, .binary _ _ _ hx' hy' => by
    obtain ⟨x,hx,rfl⟩ := hx.wordCode hsigned hcovers hx' rfl
    obtain ⟨y,hy,rfl⟩ := hy.wordCode hsigned hcovers hy' rfl
    exact ⟨some _,.binary line _ _ hx hy (register_ne_empty _),.inr ⟨_,rfl,rfl,rfl⟩⟩
  | .minus line a _ hx, .unary _ _ _ hx' | .not line a hx, .unary _ _ _ hx' => by
    obtain ⟨x,hx,rfl⟩ := hx.wordCode hsigned hcovers hx' rfl
    exact ⟨some _,.unary line _ _ hx (register_ne_empty _),.inr ⟨_,rfl,rfl,rfl⟩⟩
  | .call line a _ hsig hargs, .function _ _ hargs' hfunction => by
    have hcode := hargs.argCode hsigned hcovers (hsigned.inputs _ _ hsig) hargs'
    exact ⟨some _,.call line _ σ _ (some _) hsig hargs.length_eq hcode
      (fun _ h => Option.some.inj h ▸ register_ne_empty _) (register_ne_empty _),
      .inr ⟨_,rfl,rfl,hsigned.function _ _ hsig hfunction⟩⟩
  | .call line a _ hsig hargs, .subroutine _ _ hargs' hfunction => by
    have hcode := hargs.argCode hsigned hcovers (hsigned.inputs _ _ hsig) hargs'
    exact ⟨none,.call line _ σ _ none hsig hargs.length_eq hcode nofun (register_ne_empty _),
      .inl ⟨rfl,rfl,hsigned.subroutine _ _ hsig hfunction⟩⟩

theorem CheckedExpr.wordCode {n n' t k k' v c} (hsigned : WellSigned procedures σ.functions)
    (hcovers : Covers σ.scopes visible) (h : CheckedExpr procedures visible n n' t)
    (h' : ExprEmits σ n' k v c k') (hword : isWordType t = true) :
    ∃ x, ExprCode procedures n' c (some x) ∧ v = .str x := by
  obtain ⟨value,hcode,⟨-,-,rfl⟩ | ⟨x,rfl,hv,-⟩⟩ := h.exprCode hsigned hcovers h'
  · exact absurd hword (by decide)
  · exact ⟨x,hcode,hv⟩

theorem CheckedArgs.argCode {args args' types count index k k' c}
    (hsigned : WellSigned procedures σ.functions)
    (hcovers : Covers σ.scopes visible) (htypes : types.all isWordType = true) :
    CheckedArgs procedures visible args args' types → ArgsEmit σ count index args' k c k' →
      ArgCode procedures count index args' c
  | .nil, .nil .. => .nil _ _
  | .cons he hrest, .cons he' hrest' => by
    rw [all_cons,Bool.and_eq_true] at htypes
    obtain ⟨x,he,rfl⟩ := he.wordCode hsigned hcovers he' htypes.1
    exact .cons he (hrest.argCode hsigned hcovers htypes.2 hrest')

end

structure Instr.IsSound (i : Instr) : Prop extends i.IsWritable where
  range : ∀ r n, i.step? = some (.operation (.const r n)) → inWordRange n = true

attribute [local simp] Step.operands Operation.operands

theorem isSound_of_step (st : Step) (h : i.step? = some st) (hnames : ∀ x ∈ st.operands, x ≠ "")
    (hrange : ∀ r n, st = .operation (.const r n) → inWordRange n = true) : i.IsSound :=
  ⟨⟨by rw [h]; rfl,by rw [Instr.names,h]; exact hnames⟩,
    fun r n hn => hrange r n (Option.some.inj (h.symm.trans hn))⟩

theorem binaryOpcode_eq (op : String) :
    binaryOpcode op = .null ∨ ∃ o : Tac.BinOp, binaryOpcode op = .str o.name := by
  unfold binaryOpcode
  split
  · exact .inr ⟨.add,rfl⟩
  · exact .inr ⟨.sub,rfl⟩
  · exact .inr ⟨.mul,rfl⟩
  · exact .inr ⟨.div,rfl⟩
  · exact .inr ⟨.mod,rfl⟩
  · exact .inr ⟨.and,rfl⟩
  · exact .inr ⟨.or,rfl⟩
  · exact .inr ⟨.xor,rfl⟩
  · exact .inr ⟨.shl,rfl⟩
  · exact .inr ⟨.shr,rfl⟩
  · exact .inl rfl

theorem unaryOpcode_eq (op : String) :
    unaryOpcode op = .null ∨ ∃ o : Tac.UnOp, unaryOpcode op = .str o.name := by
  unfold unaryOpcode
  split
  · exact .inr ⟨.neg,rfl⟩
  · exact .inr ⟨.not,rfl⟩
  · exact .inl rfl

theorem foldl_bytes_lt (bytes : List UInt8) (n : Nat) :
    bytes.foldl (fun n b => 256 * n + b.toNat) n < (n + 1) * 256 ^ bytes.length := by
  induction bytes generalizing n with
  | nil => simp
  | cons b rest ih =>
    have hb := b.toNat_lt
    refine (ih (256 * n + b.toNat)).trans_le ?_
    rw [length_cons,Nat.pow_succ',← Nat.mul_assoc]
    exact Nat.mul_le_mul_right _ (by omega)

theorem inWordRange_exceptionCode (name : String) : inWordRange (exceptionCode name) = true := by
  have hlt := foldl_bytes_lt (Digest.shake256 name.toUTF8.toList 3) 0
  have hlength : (Digest.shake256 name.toUTF8.toList 3).length ≤ 3 :=
    (length_take_le _ _).trans (Nat.min_le_left _ _)
  have hpow := Nat.pow_le_pow_right (show 0 < 256 by decide) hlength
  rw [inWordRange,exceptionCode,Bool.and_eq_true,decide_eq_true_eq,decide_eq_true_eq]
  omega

section Writable

theorem isSound_const {n} (hn : inWordRange n = true) (hr : r ≠ "") :
    (Instr.make "const" [.int n] (.str r)).IsSound :=
  isSound_of_step (.operation (.const r n)) rfl (by simpa) (by simpa using hn)

theorem isSound_copy (hx : x ≠ "") (hr : r ≠ "") : (Instr.make "copy" [.str x] (.str r)).IsSound :=
  isSound_of_step (.operation (.copy r x)) rfl (by simp [hx,hr]) nofun

theorem isSound_binary (op : String) (hx : x ≠ "") (hy : y ≠ "") (hr : r ≠ "") :
    (⟨binaryOpcode op,.list [.str x,.str y],.str r,.opcodeFirst⟩ : Instr).IsSound := by
  obtain hop | ⟨o,hop⟩ := binaryOpcode_eq op <;> rw [hop]
  · exact isSound_of_step .unknown rfl (by simp) (by simp)
  · refine isSound_of_step (.operation (.binary o r x y)) (by cases o <;> rfl) ?_ (by simp)
    simp [hx,hy,hr]

theorem isSound_unary (op : String) (hx : x ≠ "") (hr : r ≠ "") :
    (⟨unaryOpcode op,.list [.str x],.str r,.opcodeFirst⟩ : Instr).IsSound := by
  obtain hop | ⟨o,hop⟩ := unaryOpcode_eq op <;> rw [hop]
  · exact isSound_of_step .unknown rfl (by simp) (by simp)
  · refine isSound_of_step (.operation (.unary o r x)) (by cases o <;> rfl) ?_ (by simp)
    simp [hx,hr]

theorem isSound_compare (hx : x ≠ "") (hy : y ≠ "") : (Instr.act "cmpq" [.str x,.str y]).IsSound :=
  isSound_of_step (.operation (.compare x y)) rfl (by simp [hx,hy]) nofun

theorem isSound_label (n : Nat) : (labelAt n).IsSound :=
  isSound_of_step (.operation (.label _)) rfl (by simp) nofun

theorem isSound_jump (n : Nat) : (jumpTo n).IsSound :=
  isSound_of_step (.operation (.jump _)) rfl (by simp) nofun

theorem step?_branchTo {jump c} (h : branchNamed? jump = some c) (n : Nat) :
    (branchTo jump n).step? = some (.operation (.branch c (label n).display)) := by
  unfold branchNamed? at h
  split at h <;> cases h <;> rfl

theorem isSound_return : (Instr.act "ret" []).IsSound :=
  isSound_of_step (.operation (.ret none)) rfl (by simp) nofun

theorem isSound_return_value (hx : x ≠ "") : (Instr.act "ret" [.str x]).IsSound :=
  isSound_of_step (.operation (.ret (some x))) rfl (by simpa) nofun

theorem isSound_leave (σ : Surroundings) (hx : x ≠ "") : (σ.leave (.str x)).IsSound := by
  unfold Surroundings.leave
  split
  · exact isSound_jump _
  · split
    · exact isSound_return_value hx
    · exact isSound_return

end Writable

mutual

def Node.calls : Node → List (String × List Node)
  | .binary _ _ a b _ => a.calls ++ b.calls
  | .unary _ _ a _ => a.calls
  | .call _ _ name args => Node.callsOfAll args ++ [(name,args)]
  | .varInit _ value _ | .assign _ _ value | .eval _ value | .return' _ value => value.calls
  | .varDecl _ inits _ => Node.callsOfAll inits
  | .block _ statements => Node.callsOfAll statements
  | .ifElse _ condition a b => condition.calls ++ a.calls ++ b.calls
  | .while' _ condition body => condition.calls ++ body.calls
  | .tryExcept _ body catches => body.calls ++ Node.callsOfAll catches
  | .catch' _ _ body => body.calls
  | _ => []

def Node.callsOfAll : List Node → List (String × List Node)
  | [] => []
  | n :: rest => n.calls ++ Node.callsOfAll rest

end

def callPositions (code : List Instr) : List Nat := code.findIdxs (·.hasOpcode "call")

structure CallAt (procedures : Table String Signature) (code : List Instr)
    (call : String × List Node) (p : Nat) : Prop where
  args : ∃ before arguments, code.take p = before ++ arguments ∧
    ArgCode procedures call.2.length 0 call.2 arguments
  instr : ∃ result, code[p]? = some (callInstr call.1 call.2.length result)
  signature : ∃ sig, procedures.get? call.1 = some sig ∧ call.2.length = sig.inputs.length

structure Coded (procedures : Table String Signature) (calls : List (String × List Node))
    (code : List Instr) : Prop where
  writable : ∀ i ∈ code, i.IsSound
  calls : List.Forall₂ (CallAt procedures code) calls (callPositions code)

theorem CallAt.append_left (h : CallAt procedures c1 call p) :
    CallAt procedures (c1 ++ c2) call p := by
  obtain ⟨⟨before,arguments,htake,hargs⟩,⟨result,hcall⟩,hsig⟩ := h
  have hp := (List.getElem?_eq_some_iff.1 hcall).1
  refine ⟨⟨before,arguments,?_,hargs⟩,⟨result,?_⟩,hsig⟩
  · rw [take_append_of_le_length (Nat.le_of_lt hp),htake]
  · rw [getElem?_append_left hp,hcall]

theorem CallAt.append_right (h : CallAt procedures c2 call p) :
    CallAt procedures (c1 ++ c2) call (p + c1.length) := by
  obtain ⟨⟨before,arguments,htake,hargs⟩,⟨result,hcall⟩,hsig⟩ := h
  refine ⟨⟨c1 ++ before,arguments,?_,hargs⟩,⟨result,?_⟩,hsig⟩
  · rw [Nat.add_comm,take_length_add_append,htake,append_assoc]
  · rw [getElem?_append_right (Nat.le_add_left _ _),Nat.add_sub_cancel,hcall]

theorem step?_callInstr (name : String) (count : Nat) (result : Option String) :
    (callInstr name count result).step? = some (.call name (count + 1) result) := by
  cases result <;> simp [callInstr,callArgs,Instr.make,Instr.step?]

theorem callPositions_append (c1 c2 : List Instr) :
    callPositions (c1 ++ c2) = callPositions c1 ++ (callPositions c2).map (· + c1.length) := by
  unfold callPositions
  have hstart : c2.findIdxs (·.hasOpcode "call") c1.length =
      (c2.findIdxs (·.hasOpcode "call")).map (· + c1.length) := findIdxs_start
  rw [findIdxs_append,Nat.zero_add,hstart]

namespace Coded

variable {calls : List (String × List Node)} {c : List Instr}

theorem nil : Coded procedures [] [] := ⟨by simp,.nil⟩

theorem append (h1 : Coded procedures calls1 c1) (h2 : Coded procedures calls2 c2) :
    Coded procedures (calls1 ++ calls2) (c1 ++ c2) := by
  refine ⟨fun i hi => ?_,?_⟩
  · obtain hi | hi := mem_append.1 hi
    · exact h1.writable i hi
    · exact h2.writable i hi
  · rw [callPositions_append]
    refine rel_append (h1.calls.imp fun _ _ => CallAt.append_left) ?_
    rw [forall₂_map_right_iff]
    exact h2.calls.imp fun _ _ => CallAt.append_right

theorem append_silent (h1 : Coded procedures calls c1) (h2 : Coded procedures [] c2) :
    Coded procedures calls (c1 ++ c2) := by
  rw [← append_nil calls]
  exact h1.append h2

theorem cons (hi : i.IsSound) (hcall : i.hasOpcode "call" = false) (h : Coded procedures calls c) :
    Coded procedures calls (i :: c) := by
  have hsingle : Coded procedures [] [i] := ⟨by simpa using hi,by simp [callPositions,hcall]⟩
  exact hsingle.append h

theorem call (h : Coded procedures calls c) (hargs : ArgCode procedures args.length 0 args c)
    (hsig : procedures.get? name = some sig) (hlength : args.length = sig.inputs.length)
    (hresult : ∀ r ∈ result, r ≠ "") :
    Coded procedures (calls ++ [(name,args)]) (c ++ [callInstr name args.length result]) := by
  refine ⟨fun i hi => ?_,?_⟩
  · obtain hi | hi := mem_append.1 hi
    · exact h.writable i hi
    · rw [mem_singleton.1 hi]
      exact isSound_of_step _ (step?_callInstr _ _ _) (by simpa using hresult) nofun
  · have hself : callPositions [callInstr name args.length result] = [0] := rfl
    rw [callPositions_append,hself,map_singleton,Nat.zero_add]
    refine rel_append (h.calls.imp fun _ _ => CallAt.append_left) (.cons ?_ .nil)
    exact ⟨⟨[],c,by simp,hargs⟩,⟨result,by simp⟩,sig,hsig,hlength⟩

theorem label (n : Nat) (h : Coded procedures calls c) : Coded procedures calls (labelAt n :: c) :=
  h.cons (isSound_label n) rfl

theorem jump (n : Nat) (h : Coded procedures calls c) : Coded procedures calls (jumpTo n :: c) :=
  h.cons (isSound_jump n) rfl

theorem branch {jump o} (n : Nat) (hjump : branchNamed? jump = some o)
    (h : Coded procedures calls c) : Coded procedures calls (branchTo jump n :: c) := by
  refine h.cons (isSound_of_step _ (step?_branchTo hjump n)
    (by simp) nofun) ?_
  unfold branchNamed? at hjump
  split at hjump <;> first | rfl | cases hjump

theorem leave (σ : Surroundings) (hx : x ≠ "") (h : Coded procedures calls c) :
    Coded procedures calls (σ.leave (.str x) :: c) := by
  refine h.cons (isSound_leave σ hx) ?_
  unfold Surroundings.leave
  split
  · rfl
  · split <;> rfl

theorem pendingTest (next : Nat) (hzero : zero ≠ "") (h : Coded procedures calls c) :
    Coded procedures calls (pendingTest (.str zero) next ++ c) :=
  .cons (isSound_const (by decide) hzero) rfl <| .cons (isSound_compare hzero (by decide)) rfl <|
    .branch (o := .equal) next rfl h

theorem passPending (σ : Surroundings) (next : Nat) (hzero : zero ≠ "") :
    Coded procedures [] (passPending σ (.str zero) next) :=
  .pendingTest next hzero <| .leave σ hzero <| .label next .nil

end Coded

theorem hasOpcode_binaryOpcode (op : String) (args result : Datum) :
    (⟨binaryOpcode op,args,result,.opcodeFirst⟩ : Instr).hasOpcode "call" = false := by
  unfold binaryOpcode
  split <;> rfl

theorem hasOpcode_unaryOpcode (op : String) (args result : Datum) :
    (⟨unaryOpcode op,args,result,.opcodeFirst⟩ : Instr).hasOpcode "call" = false := by
  unfold unaryOpcode
  split <;> rfl

theorem argNumber_pos {count} (h : index < count) : 0 < argNumber count index := by
  unfold argNumber
  split
  · exact Nat.succ_pos _
  · omega

theorem step?_param {count} (x : String) (h : index < count) :
    (Instr.act "param" [.int (argNumber count index),.str x]).step? =
      some (.param (argNumber count index) x) :=
  if_pos (by exact_mod_cast argNumber_pos h)

mutual

theorem ExprCode.coded {n c value} : ExprCode procedures n c value → Coded procedures n.calls c
  | .var .. => by
    simp only [Node.calls]
    exact .nil
  | .number _ _ hn hr => by
    simp only [Node.calls]
    exact .cons (isSound_const hn hr) rfl .nil
  | .boolean _ _ value hr => by
    simp only [Node.calls]
    exact .cons (isSound_const (by unfold truthNumber; split <;> decide) hr) rfl .nil
  | .binary _ _ op ha hb hr => by
    rw [Node.calls]
    exact (ha.coded.append hb.coded).append_silent (.cons
      (isSound_binary op ha.ne_empty hb.ne_empty hr) (hasOpcode_binaryOpcode op _ _) .nil)
  | .unary _ _ op ha hr => by
    rw [Node.calls]
    exact ha.coded.append_silent
      (.cons (isSound_unary op ha.ne_empty hr) (hasOpcode_unaryOpcode op _ _) .nil)
  | .call _ _ σ next result hsig hlength hargs hresult hzero => by
    have hcall := (hargs.coded (Nat.zero_add _).le).call hargs hsig hlength hresult
    have hcode := hcall.append_silent (.passPending σ next hzero)
    rw [append_assoc] at hcode
    rw [Node.calls]
    exact hcode

theorem ArgCode.coded {count index args c} (hcount : index + args.length ≤ count) :
    ArgCode procedures count index args c → Coded procedures (Node.callsOfAll args) c
  | .nil _ _ => by
    rw [Node.callsOfAll]
    exact .nil
  | .cons (x := x) he hrest => by
    rw [length_cons] at hcount
    have hwritable := isSound_of_step _ (step?_param x (show index < count by omega))
      (by simpa using he.ne_empty) nofun
    rw [Node.callsOfAll]
    exact he.coded.append (.cons hwritable rfl (hrest.coded (by omega)))

end

theorem branchNamed?_of_comparisonJump? (h : comparisonJump? op = some jump) :
    ∃ c, branchNamed? jump = some c := by
  unfold comparisonJump? at h
  split at h <;> cases h <;> exact ⟨_,rfl⟩

theorem isSome_comparisonJump? (h : op ∈ comparisonOperators) :
    (comparisonJump? op).isSome = true := by
  simp only [comparisonOperators,mem_cons,not_mem_nil,or_false] at h
  obtain rfl | rfl | rfl | rfl | rfl | rfl := h <;> rfl

theorem CheckedExpr.condCode {yes no} (h : CheckedExpr procedures visible n n' t)
    (ht : t = "bool") (h' : CondEmits σ n' yes no k c k')
    (hsigned : WellSigned procedures σ.functions) (hcovers : Covers σ.scopes visible) :
    Coded procedures n'.calls c := by
  induction h' generalizing n t with
  | isTrue | isFalse =>
    simp only [Node.calls]
    exact .jump _ .nil
  | var line type x yes no k =>
    cases h with
    | var _ _ hx _ =>
      obtain ⟨r,hr,hne⟩ := hcovers.registerOf hx
      simp only [Node.calls,hr]
      exact .cons (isSound_const (by decide) (register_ne_empty _)) rfl <|
        .cons (isSound_compare (register_ne_empty _) hne) rfl <|
        .branch (o := .notEqual) yes rfl <| .jump no .nil
  | @comparison line type op jump yes no a b k k1 k2 x y c1 c2 hjump ha hb =>
    obtain ⟨comparison,hcomparison⟩ := branchNamed?_of_comparisonJump? hjump
    have hoperands : ∃ m m' u u', isWordType u = true ∧ isWordType u' = true ∧
        CheckedExpr procedures visible m a u ∧ CheckedExpr procedures visible m' b u' := by
      cases h with
      | arithmetic _ _ _ hx hy | comparison _ _ _ hx hy | logical _ _ _ hx hy =>
        exact ⟨_,_,_,_,rfl,rfl,hx,hy⟩
    obtain ⟨m,m',u,u',hu,hu',hx,hy⟩ := hoperands
    obtain ⟨x,hx,rfl⟩ := hx.wordCode hsigned hcovers ha hu
    obtain ⟨y,hy,rfl⟩ := hy.wordCode hsigned hcovers hb hu'
    have htest : Coded procedures [] [.act "cmpq" [.str x,.str y],branchTo jump yes,jumpTo no] :=
      .cons (isSound_compare hx.ne_empty hy.ne_empty) rfl <|
        .branch yes hcomparison <| .jump no .nil
    rw [Node.calls]
    exact (hx.coded.append hy.coded).append_silent htest
  | and line type _ _ iha ihb | or line type _ _ iha ihb =>
    cases h with
    | arithmetic _ _ hop _ _ | comparison _ _ hop _ _ => exact absurd hop (by decide)
    | logical _ _ _ hx hy =>
      rw [Node.calls]
      exact (iha hx rfl).append (.label _ (ihb hy rfl))
  | not line type _ ih =>
    cases h with
    | minus _ _ hop _ => exact absurd hop (by decide)
    | not _ _ hx =>
      rw [Node.calls]
      exact ih hx rfl
  | other yes no k htest hcall =>
    cases h with
    | var | not => cases htest
    | number | arithmetic | minus => exact absurd ht (by decide)
    | boolean _ _ hb => obtain rfl | rfl := hb <;> cases htest
    | comparison _ _ hop _ _ => simp [Node.isTest,isSome_comparisonJump? hop] at htest
    | logical _ _ hop _ _ =>
      simp only [logicalOperators,mem_cons,not_mem_nil,or_false] at hop
      obtain rfl | rfl := hop <;> cases htest
    | call => cases hcall

theorem CheckedInits.coded {inits inits' k k' c scopes vars}
    (h : CheckedInits procedures visible inits inits' visible')
    (h' : InitsEmit σ inits' k c scopes vars k') (hsigned : WellSigned procedures σ.functions)
    (hcovers : Covers σ.scopes visible) :
    Coded procedures (Node.callsOfAll inits') c ∧ Covers scopes visible' := by
  induction h generalizing σ k c vars with
  | nil visible =>
    cases h'
    rw [Node.callsOfAll]
    exact ⟨.nil,hcovers⟩
  | cons x line hvalue ht _ ih =>
    cases h' with
    | cons _ hvalue' hrest' =>
      obtain ⟨v,hvalue,rfl⟩ := hvalue.wordCode hsigned hcovers hvalue' ht
      obtain ⟨hrest,hcovers'⟩ := ih hrest' hsigned (hcovers.bindIn x (register_ne_empty _))
      rw [Node.callsOfAll,Node.calls]
      exact ⟨hvalue.coded.append
        (.cons (isSound_copy hvalue.ne_empty (register_ne_empty _)) rfl hrest),hcovers'⟩

theorem CheckedExpr.returnCode {n n' t k k' v c} (h : CheckedExpr procedures visible n n' t)
    (h' : ExprEmits σ n' k v c k')
    (hsigned : WellSigned procedures σ.functions) (hcovers : Covers σ.scopes visible) :
    Coded procedures n'.calls (c ++ [.act "ret" [v]]) := by
  obtain ⟨value,hcode,⟨-,rfl,rfl⟩ | ⟨x,rfl,rfl,hword⟩⟩ := h.exprCode hsigned hcovers h'
  · have hret : (Instr.act "ret" [.null]).IsSound :=
      isSound_of_step .returnNone rfl (by simp) nofun
    exact hcode.coded.append_silent (.cons hret rfl .nil)
  · exact hcode.coded.append_silent (.cons (isSound_return_value hcode.ne_empty) rfl .nil)

theorem Coded.catchTest {calls c} (name : String)
    (k : Counters) (h : Coded procedures calls c) : Coded procedures calls (catchTest name k ++ c) :=
  .cons (isSound_const (inWordRange_exceptionCode _) (register_ne_empty _)) rfl <|
    .cons (isSound_compare (register_ne_empty _) (by decide)) rfl <|
    .branch (o := .notEqual) _ rfl <| .cons (isSound_const (by decide) (register_ne_empty _)) rfl <|
    .cons (isSound_copy (register_ne_empty _) (by decide)) rfl h

mutual

theorem CheckedStatement.coded {σ visible visible' allowed n n' k k' c scopes vars} :
    CheckedStatement procedures visible allowed n n' visible' →
      StatementEmits σ n' k c scopes vars k' → WellSigned procedures σ.functions →
      Covers σ.scopes visible →
      Coded procedures n'.calls c ∧ Covers scopes visible'
  | .varDecl _ _ hinits, .varDecl _ _ hinits', hsigned, hcovers => by
    rw [Node.calls]
    exact hinits.coded hinits' hsigned hcovers
  | .assign _ hx hvalue ht, .assign _ _ hvalue', hsigned, hcovers => by
    obtain ⟨v,hvalue,rfl⟩ := hvalue.wordCode hsigned hcovers hvalue' ht
    obtain ⟨r,hr,hne⟩ := hcovers.registerOf hx
    rw [Node.calls,hr]
    exact ⟨hvalue.coded.append_silent
      (.cons (isSound_copy hvalue.ne_empty hne) rfl .nil),hcovers⟩
  | .eval _ hvalue, .eval _ hvalue', hsigned, hcovers => by
    obtain ⟨value,hvalue,-⟩ := hvalue.exprCode hsigned hcovers hvalue'
    rw [Node.calls]
    exact ⟨hvalue.coded,hcovers⟩
  | .block _ hstatements, .block _ hstatements', hsigned, hcovers => by
    rw [Node.calls]
    exact ⟨(hstatements.coded hstatements' hsigned hcovers.push).1,hcovers⟩
  | .ifElse _ hcondition ha hb, .ifElse _ hcondition' ha' hb', hsigned, hcovers => by
    have hcondition := hcondition.condCode rfl hcondition' hsigned hcovers
    obtain ⟨ha,hcoversA⟩ := ha.coded ha' hsigned hcovers
    obtain ⟨hb,hcoversB⟩ := hb.coded hb' hsigned hcoversA
    rw [Node.calls]
    exact ⟨((hcondition.append (.label _ ha)).append (.jump _ (.label _ hb))).append_silent
      (.label _ .nil),hcoversB⟩
  | .loop _ hcondition hbody, .loop _ hcondition' hbody', hsigned, hcovers => by
    have hcondition := hcondition.condCode rfl hcondition' hsigned hcovers
    obtain ⟨hbody,hcovers'⟩ := hbody.coded hbody' hsigned hcovers
    rw [Node.calls]
    exact ⟨((hcondition.label _).append (hbody.label _)).append_silent (.jump _ (.label _ .nil)),
      hcovers'⟩
  | .jump _ _, .break _ _ _, _, hcovers | .jump _ _, .continue _ _ _, _, hcovers => by
    simp only [Node.calls]
    exact ⟨.jump _ .nil,hcovers⟩
  | .jump _ _, .noJump .., _, hcovers => by
    simp only [Node.calls]
    exact ⟨.nil,hcovers⟩
  | .bareReturn _, .bareReturn _ _, _, hcovers => by
    simp only [Node.calls]
    exact ⟨.cons isSound_return rfl .nil,hcovers⟩
  | .return _ hvalue, .return _ _ hvalue', hsigned, hcovers => by
    rw [Node.calls]
    exact ⟨hvalue.returnCode hvalue' hsigned hcovers,hcovers⟩
  | .tryExcept _ hbody hcatches, .tryExcept _ hbody' hcatches', hsigned, hcovers => by
    obtain ⟨hbody,hcovers⟩ := hbody.coded hbody' hsigned hcovers
    obtain ⟨hcatches,hcovers⟩ := hcatches.coded hcatches' hsigned hcovers
    rw [Node.calls]
    exact ⟨(hbody.append (.jump _ (.label _ hcatches))).append_silent
      (.passPending σ _ (register_ne_empty _)),hcovers⟩
  | .raise _ _, .raise _ _ _, _, hcovers => by
    simp only [Node.calls]
    exact ⟨.cons (isSound_const (inWordRange_exceptionCode _) (register_ne_empty _)) rfl <|
      .cons (isSound_copy (register_ne_empty _) (by decide)) rfl <|
      .leave σ (register_ne_empty _) .nil,hcovers⟩

theorem CheckedStatements.coded {σ visible visible' allowed ns ns' k k' c scopes vars} :
    CheckedStatements procedures visible allowed ns ns' visible' →
      StatementsEmit σ ns' k c scopes vars k' → WellSigned procedures σ.functions →
      Covers σ.scopes visible →
      Coded procedures (Node.callsOfAll ns') c ∧ Covers scopes visible'
  | .nil, .nil _ _, _, hcovers => by
    rw [Node.callsOfAll]
    exact ⟨.nil,hcovers⟩
  | .cons hn hrest, .cons hn' hrest', hsigned, hcovers => by
    obtain ⟨hn,hcovers⟩ := hn.coded hn' hsigned hcovers
    obtain ⟨hrest,hcovers⟩ := hrest.coded hrest' hsigned hcovers
    rw [Node.callsOfAll]
    exact ⟨hn.append hrest,hcovers⟩

theorem CheckedCatches.coded {σ visible visible' allowed done ns ns' k k' c scopes vars} :
    CheckedCatches procedures visible allowed ns ns' visible' →
      CatchesEmit σ done ns' k c scopes vars k' → WellSigned procedures σ.functions →
      Covers σ.scopes visible →
      Coded procedures (Node.callsOfAll ns') c ∧ Covers scopes visible'
  | .nil, .nil _ _ _, _, hcovers => by
    rw [Node.callsOfAll]
    exact ⟨.nil,hcovers⟩
  | .cons _ _ hbody hrest, .cons _ name hbody' hrest', hsigned, hcovers => by
    obtain ⟨hbody,hcovers⟩ := hbody.coded hbody' hsigned hcovers
    obtain ⟨hrest,hcovers⟩ := hrest.coded hrest' hsigned hcovers
    rw [Node.callsOfAll,Node.calls,append_assoc]
    exact ⟨.catchTest name _ (hbody.append (.jump done (.label _ hrest))),hcovers⟩

end

end BxToolchain.Bx
