import BxToolchain.Proofs.Bx.LoweringFrame
import BxToolchain.Proofs.Table

namespace BxToolchain.Bx

open Lower List

variable {α : Type} {s s' s1 : Lowering} {u : Unit} {line : Int} {v : Datum} {x r : String}
  {n : Node} {σ : Surroundings} {k : Counters} {c : List Instr}

structure Surroundings where
  scopes : List (Table String String)
  loops : List (Nat × Nat)
  handlers : List Nat
  functions : List String
  procedure : String

structure Counters where
  temps : Nat
  labels : Nat

def Lowering.surroundings (s : Lowering) : Surroundings :=
  ⟨s.scopes,s.loops,s.handlers,s.functions,s.procedure⟩

def Lowering.counters (s : Lowering) : Counters := ⟨s.temps,s.labels⟩

namespace Counters

def register (k : Counters) : Datum := .str (Lower.register k.temps)

def addTemp (k : Counters) : Counters := { k with temps := k.temps + 1 }

def addLabels (k : Counters) (n : Nat) : Counters := { k with labels := k.labels + n }

end Counters

namespace Surroundings

def registerOf (σ : Surroundings) (x : String) : Datum :=
  match lookupRegister x σ.scopes with
  | some r => .str r
  | none => .null

def leave (σ : Surroundings) (filler : Datum) : Instr :=
  match σ.handlers with
  | handler :: _ => .act "jmp" [label handler]
  | [] => if σ.functions.contains σ.procedure then .act "ret" [filler] else .act "ret" []

def withScopes (σ : Surroundings) (scopes : List (Table String String)) : Surroundings :=
  { σ with scopes }

def inLoop (σ : Surroundings) (head done : Nat) : Surroundings :=
  { σ with loops := (head,done) :: σ.loops }

def inTry (σ : Surroundings) (handler : Nat) : Surroundings :=
  { σ with handlers := handler :: σ.handlers }

end Surroundings

def labelAt (n : Nat) : Instr := .act "label" [label n]

def jumpTo (n : Nat) : Instr := .act "jmp" [label n]

def branchTo (jump : String) (n : Nat) : Instr := .act jump [label n]

def pendingTest (zero : Datum) (whenNone : Nat) : List Instr :=
  [.make "const" [.int 0] zero,.act "cmpq" [zero,pending],branchTo "jz" whenNone]

def passPending (σ : Surroundings) (zero : Datum) (next : Nat) : List Instr :=
  pendingTest zero next ++ [σ.leave zero,labelAt next]

def afterCall (σ : Surroundings) (k : Counters) : List Instr := passPending σ k.register k.labels

def callArgs (name : String) (count : Nat) : List Datum := [.str ("@" ++ name),.int (count + 1)]

def truthNumber (value : Datum) : Int := if value.same (.str "true") then 1 else 0

def argNumber (count index : Nat) : Nat := if index < 6 then index + 1 else count - (index - 6)

def Node.isTerm : Node → Bool
  | .var .. | .number .. | .boolean .. | .binary .. | .unary .. | .call .. => true
  | _ => false

def Node.isTest : Node → Bool
  | .var .. => true
  | .boolean _ _ value => value.same (.str "true") || value.same (.str "false")
  | .binary _ _ _ _ op => (comparisonJump? op).isSome || op == "&&" || op == "||"
  | .unary _ _ _ op => op == "!"
  | _ => false

def Node.isCall : Node → Bool
  | .call .. => true
  | _ => false

def Node.isAction : Node → Bool
  | .varDecl .. | .assign .. | .eval .. | .block .. | .ifElse .. | .while' .. | .jump ..
  | .return' .. | .tryExcept .. | .raise .. => true
  | _ => false

mutual

inductive ExprEmits (σ : Surroundings) :
    Node → Counters → Datum → List Instr → Counters → Prop where
  | var (line : Int) (type x : String) (k : Counters) :
      ExprEmits σ (.var line type x) k (σ.registerOf x) [] k
  | number (line : Int) (type : String) (value : Datum) (k : Counters) :
      ExprEmits σ (.number line type value) k k.register [.make "const" [value] k.register] k.addTemp
  | boolean (line : Int) (type : String) (value : Datum) (k : Counters) :
      ExprEmits σ (.boolean line type value) k k.register
        [.make "const" [.int (truthNumber value)] k.register] k.addTemp
  | binary (line : Int) (type op : String) {a b k k1 k2 x y c1 c2} :
      ExprEmits σ a k x c1 k1 → ExprEmits σ b k1 y c2 k2 →
      ExprEmits σ (.binary line type a b op) k k2.register
        (c1 ++ c2 ++ [⟨binaryOpcode op,.list [x,y],k2.register,.opcodeFirst⟩]) k2.addTemp
  | unary (line : Int) (type op : String) {a k k1 x c} : ExprEmits σ a k x c k1 →
      ExprEmits σ (.unary line type a op) k k1.register
        (c ++ [⟨unaryOpcode op,.list [x],k1.register,.opcodeFirst⟩]) k1.addTemp
  | function (line : Int) (type : String) {name args k k1 c} :
      ArgsEmit σ args.length 0 args k c k1 → σ.functions.contains name = true →
      ExprEmits σ (.call line type name args) k k1.register
        (c ++ .make "call" (callArgs name args.length) k1.register :: afterCall σ k1.addTemp)
        (k1.addTemp.addTemp.addLabels 1)
  | subroutine (line : Int) (type : String) {name args k k1 c} :
      ArgsEmit σ args.length 0 args k c k1 → σ.functions.contains name = false →
      ExprEmits σ (.call line type name args) k .null
        (c ++ .act "call" (callArgs name args.length) :: afterCall σ k1) (k1.addTemp.addLabels 1)
  | other {n : Node} (k : Counters) : n.isTerm = false → ExprEmits σ n k .null [] k

inductive ArgsEmit (σ : Surroundings) :
    Nat → Nat → List Node → Counters → List Instr → Counters → Prop where
  | nil (count index : Nat) (k : Counters) : ArgsEmit σ count index [] k [] k
  | cons {count index arg rest k k1 k2 x c1 c2} :
      ExprEmits σ arg k x c1 k1 → ArgsEmit σ count (index + 1) rest k1 c2 k2 →
      ArgsEmit σ count index (arg :: rest) k
        (c1 ++ .act "param" [.int (argNumber count index),x] :: c2) k2

end

inductive CondEmits (σ : Surroundings) :
    Node → Nat → Nat → Counters → List Instr → Counters → Prop where
  | isTrue (line : Int) (type : String) {value} (yes no : Nat) (k : Counters) :
      value.same (.str "true") = true →
      CondEmits σ (.boolean line type value) yes no k [jumpTo yes] k
  | isFalse (line : Int) (type : String) {value} (yes no : Nat) (k : Counters) :
      value.same (.str "false") = true →
      CondEmits σ (.boolean line type value) yes no k [jumpTo no] k
  | var (line : Int) (type x : String) (yes no : Nat) (k : Counters) :
      CondEmits σ (.var line type x) yes no k
        [.make "const" [.int 0] k.register,.act "cmpq" [k.register,σ.registerOf x],
          branchTo "jnz" yes,jumpTo no] k.addTemp
  | comparison (line : Int) (type : String) {op jump} (yes no : Nat) {a b k k1 k2 x y c1 c2} :
      comparisonJump? op = some jump → ExprEmits σ a k x c1 k1 → ExprEmits σ b k1 y c2 k2 →
      CondEmits σ (.binary line type a b op) yes no k
        (c1 ++ c2 ++ [.act "cmpq" [x,y],branchTo jump yes,jumpTo no]) k2
  | and (line : Int) (type : String) {yes no a b k k1 k2 c1 c2} :
      CondEmits σ a k.labels no k c1 k1 → CondEmits σ b yes no (k1.addLabels 1) c2 k2 →
      CondEmits σ (.binary line type a b "&&") yes no k (c1 ++ labelAt k1.labels :: c2) k2
  | or (line : Int) (type : String) {yes no a b k k1 k2 c1 c2} :
      CondEmits σ a yes k.labels k c1 k1 → CondEmits σ b yes no (k1.addLabels 1) c2 k2 →
      CondEmits σ (.binary line type a b "||") yes no k (c1 ++ labelAt k1.labels :: c2) k2
  | not (line : Int) (type : String) {yes no a k k' c} :
      CondEmits σ a no yes k c k' → CondEmits σ (.unary line type a "!") yes no k c k'
  | other {n : Node} (yes no : Nat) (k : Counters) : n.isTest = false → n.isCall = false →
      CondEmits σ n yes no k [] k

def bindIn (x r : String) : List (Table String String) → List (Table String String)
  | [] => []
  | t :: rest => t.insert x r :: rest

inductive InitsEmit : Surroundings → List Node → Counters → List Instr →
    List (Table String String) → List Nat → Counters → Prop where
  | nil (σ : Surroundings) (k : Counters) : InitsEmit σ [] k [] σ.scopes [] k
  | cons {σ x value} (line : Int) {rest k k1 k2 v c1 c2 scopes vars} : ExprEmits σ value k v c1 k1 →
      InitsEmit (σ.withScopes (bindIn x (register k1.temps) σ.scopes)) rest k1.addTemp c2 scopes vars
        k2 →
      InitsEmit σ (.varInit x value line :: rest) k
        (c1 ++ .make "copy" [v] k1.register :: c2) scopes (k1.temps :: vars) k2

def catchTest (name : String) (k : Counters) : List Instr :=
  [.make "const" [.int (exceptionCode name)] k.register,.act "cmpq" [k.register,pending],
    branchTo "jnz" k.labels,.make "const" [.int 0] k.addTemp.register,
    .make "copy" [k.addTemp.register] pending]

mutual

inductive StatementEmits : Surroundings → Node → Counters → List Instr →
    List (Table String String) → List Nat → Counters → Prop where
  | varDecl {σ : Surroundings} (line : Int) {inits : List Node} (type : Node) {k k' c scopes vars} :
      InitsEmit σ inits k c scopes vars k' →
      StatementEmits σ (.varDecl line inits type) k c scopes vars k'
  | assign {σ : Surroundings} (line : Int) (x : String) {value k k' v c} :
      ExprEmits σ value k v c k' →
      StatementEmits σ (.assign line x value) k (c ++ [.make "copy" [v] (σ.registerOf x)]) σ.scopes
        [] k'
  | eval {σ : Surroundings} (line : Int) {value k k' v c} :
      ExprEmits σ value k v c k' → StatementEmits σ (.eval line value) k c σ.scopes [] k'
  | block {σ : Surroundings} (line : Int) {statements k k' c scopes vars} :
      StatementsEmit (σ.withScopes ({} :: σ.scopes)) statements k c scopes vars k' →
      StatementEmits σ (.block line statements) k c σ.scopes vars k'
  | ifElse {σ : Surroundings} (line : Int) {condition a b k k1 k2 k3 c ca cb sa sb va vb} :
      CondEmits σ condition k.labels (k.labels + 1) (k.addLabels 3) c k1 →
      StatementEmits σ a k1 ca sa va k2 → StatementEmits (σ.withScopes sa) b k2 cb sb vb k3 →
      StatementEmits σ (.ifElse line condition a b) k
        (c ++ labelAt k.labels :: ca ++ jumpTo (k.labels + 2) :: labelAt (k.labels + 1) :: cb ++
          [labelAt (k.labels + 2)]) sb (va ++ vb) k3
  | loop {σ : Surroundings} (line : Int) {condition body k k1 k2 c cb scopes vars} :
      CondEmits (σ.inLoop k.labels (k.labels + 2)) condition (k.labels + 1) (k.labels + 2)
        (k.addLabels 3) c k1 →
      StatementEmits (σ.inLoop k.labels (k.labels + 2)) body k1 cb scopes vars k2 →
      StatementEmits σ (.while' line condition body) k
        (labelAt k.labels :: c ++ labelAt (k.labels + 1) :: cb ++
          [jumpTo k.labels,labelAt (k.labels + 2)]) scopes vars k2
  | break {σ : Surroundings} (line : Int) {head done : Nat} {loops : List (Nat × Nat)}
      (k : Counters) : σ.loops = (head,done) :: loops →
      StatementEmits σ (.jump line "break") k [jumpTo done] σ.scopes [] k
  | continue {σ : Surroundings} (line : Int) {head done : Nat} {loops : List (Nat × Nat)}
      (k : Counters) : σ.loops = (head,done) :: loops →
      StatementEmits σ (.jump line "continue") k [jumpTo head] σ.scopes [] k
  | noJump {σ : Surroundings} (line : Int) (target : String) (k : Counters) :
      (target = "break" ∨ target = "continue" → σ.loops = []) →
      StatementEmits σ (.jump line target) k [] σ.scopes [] k
  | bareReturn {σ : Surroundings} (line : Int) (k : Counters) :
      StatementEmits σ (.return' line .absent) k [.act "ret" []] σ.scopes [] k
  | return {σ : Surroundings} (line : Int) {value k k' v c} : value ≠ .absent → ExprEmits σ value k
    v c k' →
      StatementEmits σ (.return' line value) k (c ++ [.act "ret" [v]]) σ.scopes [] k'
  | tryExcept {σ : Surroundings} (line : Int) {block catches k k1 k2 cb cc sb sc vb vc} :
      StatementEmits (σ.inTry k.labels) block (k.addLabels 2) cb sb vb k1 →
      CatchesEmit (σ.withScopes sb) (k.labels + 1) catches k1 cc sc vc k2 →
      StatementEmits σ (.tryExcept line block catches) k
        (cb ++ jumpTo (k.labels + 1) :: labelAt k.labels :: cc ++
          passPending σ k2.register (k.labels + 1)) sc (vb ++ vc) k2.addTemp
  | raise {σ : Surroundings} (line : Int) (name : String) (k : Counters) :
      StatementEmits σ (.raise line name) k
        [.make "const" [.int (exceptionCode name)] k.register,.make "copy" [k.register] pending,
          σ.leave k.register] σ.scopes [] k.addTemp
  | other {σ : Surroundings} {n : Node} (k : Counters) : n.isAction = false →
      StatementEmits σ n k [] σ.scopes [] k

inductive StatementsEmit : Surroundings → List Node → Counters → List Instr →
    List (Table String String) → List Nat → Counters → Prop where
  | nil (σ : Surroundings) (k : Counters) : StatementsEmit σ [] k [] σ.scopes [] k
  | cons {σ n rest k k1 k2 c1 c2 s1 s2 v1 v2} :
      StatementEmits σ n k c1 s1 v1 k1 → StatementsEmit (σ.withScopes s1) rest k1 c2 s2 v2 k2 →
      StatementsEmit σ (n :: rest) k (c1 ++ c2) s2 (v1 ++ v2) k2

inductive CatchesEmit : Surroundings → Nat → List Node → Counters → List Instr →
    List (Table String String) → List Nat → Counters → Prop where
  | nil (σ : Surroundings) (done : Nat) (k : Counters) : CatchesEmit σ done [] k [] σ.scopes [] k
  | cons {σ done} (line : Int) (name : String) {block rest k k1 k2 cb cr sb sr vb vr} :
      StatementEmits σ block (k.addTemp.addTemp.addLabels 1) cb sb vb k1 →
      CatchesEmit (σ.withScopes sb) done rest k1 cr sr vr k2 →
      CatchesEmit σ done (.catch' line name block :: rest) k
        (catchTest name k ++ cb ++ jumpTo done :: labelAt k.labels :: cr) sr (vb ++ vr) k2

end

variable {scopes : List (Table String String)}

theorem InitsEmit.extended {inits vars k'}
    (h : InitsEmit σ inits k c scopes vars k') : Extended (initNames inits) σ.scopes scopes := by
  induction h with
  | nil σ k => exact .refl _
  | @cons σ x _ _ _ _ k1 _ _ _ _ _ _ _ _ ih =>
    have hfirst : Extended [x] σ.scopes (bindIn x (register k1.temps) σ.scopes) :=
      ⟨[(x,register k1.temps)],rfl,by cases σ.scopes <;> rfl⟩
    exact hfirst.trans ih

theorem Node.newNames_of_isAction (hn : n.isAction = false) : n.newNames = [] := by
  cases n with
  | varDecl | ifElse | while' | tryExcept => cases hn
  | _ => simp only [Node.newNames]

mutual

theorem StatementEmits.extended {σ n k k' c scopes vars} :
    StatementEmits σ n k c scopes vars k' → Extended n.newNames σ.scopes scopes
  | .varDecl _ _ h => by
    rw [Node.newNames]
    exact h.extended
  | .ifElse _ _ ha hb => by
    rw [Node.newNames]
    exact ha.extended.trans hb.extended
  | .loop _ _ hb => by
    rw [Node.newNames]
    exact hb.extended
  | .tryExcept _ hb hc => by
    rw [Node.newNames]
    exact hb.extended.trans hc.extended
  | .assign .. | .eval .. | .block .. | .break .. | .continue .. | .noJump .. | .bareReturn ..
  | .return .. | .raise .. => by
    simp only [Node.newNames]
    exact .refl _
  | .other _ hn => by
    rw [Node.newNames_of_isAction hn]
    exact .refl _

theorem StatementsEmit.extended {σ ns k k' c scopes vars} :
    StatementsEmit σ ns k c scopes vars k' → Extended (Node.newNamesOfAll ns) σ.scopes scopes
  | .nil σ _ => .refl _
  | .cons hn hrest => hn.extended.trans hrest.extended

theorem CatchesEmit.extended {σ done ns k k' c scopes vars} :
    CatchesEmit σ done ns k c scopes vars k' →
      Extended (Node.newNamesOfCatches ns) σ.scopes scopes
  | .nil .. => by
    simp only [Node.newNamesOfCatches]
    exact .refl _
  | .cons _ _ hb hr => by
    rw [Node.newNamesOfCatches]
    exact hb.extended.trans hr.extended

end

def after {α : Type} (x : Lower α) (s : Lowering) : Lowering := (x.run.run s).2

def initRegisters : List Node → Lowering → List (Option String)
  | .varInit x value line :: rest, s =>
    let declared := after (lowerInits [.varInit x value line]) s
    lookupRegister x declared.scopes :: initRegisters rest declared
  | _, _ => []

mutual

def Node.variableRegisters : Node → Lowering → List (Option String)
  | .varDecl _ inits _, s => initRegisters inits s
  | .block _ statements, s => Node.registersOfAll statements (after enterScope s)
  | .ifElse _ condition ifBranch elseBranch, s =>
    let first := s.labels
    let yes := after (do
      let _ ← newLabels 3
      lowerCondition condition first (first + 1)
      emitLabel first) s
    let no := after (do
      lowerStatement ifBranch
      emitJump (first + 2)
      emitLabel (first + 1)) yes
    ifBranch.variableRegisters yes ++ elseBranch.variableRegisters no
  | .while' _ condition body, s =>
    let head := s.labels
    body.variableRegisters (after (do
      let _ ← newLabels 3
      modify fun s => { s with loops := (head,head + 2) :: s.loops }
      emitLabel head
      lowerCondition condition (head + 1) (head + 2)
      emitLabel (head + 1)) s)
  | .tryExcept _ body catches, s =>
    let handler := s.labels
    let inside := after (do
      let _ ← newLabels 2
      modify fun s => { s with handlers := handler :: s.handlers }) s
    let behind := after (do
      lowerStatement body
      emitJump (handler + 1)
      modify fun s => { s with handlers := s.handlers.drop 1 }
      emitLabel handler) inside
    body.variableRegisters inside ++ Node.registersOfCatches (handler + 1) catches behind
  | _, _ => []

def Node.registersOfAll : List Node → Lowering → List (Option String)
  | [], _ => []
  | n :: rest, s => n.variableRegisters s ++ Node.registersOfAll rest (after (lowerStatement n) s)

def Node.registersOfCatches (done : Nat) : List Node → Lowering → List (Option String)
  | .catch' _ name body :: rest, s =>
    let otherwise := s.labels
    let inside := after (do
      let _ ← newLabels 1
      enterCatch name otherwise) s
    let behind := after (do
      lowerStatement body
      emitJump done
      emitLabel otherwise) inside
    body.variableRegisters inside ++ Node.registersOfCatches done rest behind
  | _, _ => []

end

attribute [local grind] lowerExpr lowerArgs lowerCondition lowerStatement lowerStatements lowerCatches
  Node.variableRegisters Node.registersOfAll Node.registersOfCatches

attribute [local simp] labelAt jumpTo branchTo pendingTest passPending catchTest

theorem after_eq {x} (h : Runs x s a s') : after x s = s' := congrArg Prod.snd h

structure Emits (σ : Surroundings) (k : Counters) (code : List Instr) (s s' : Lowering) : Prop where
  body : s'.body.toList = s.body.toList ++ code
  surroundings : s'.surroundings = σ
  counters : s'.counters = k
  items : s'.items = s.items

theorem Emits.refl (s : Lowering) : Emits s.surroundings s.counters [] s s :=
  ⟨by simp,rfl,rfl,rfl⟩

namespace Emits

variable {σ : Surroundings} {k : Counters} {c : List Instr} {s s' : Lowering}

theorem of_eq (h : Emits σ k c s s') (hc : c = c') : Emits σ k c' s s' := hc ▸ h

theorem nil (h : Emits σ k c s s') : Emits σ k (c ++ []) s s' := h.of_eq (by simp)

variable (h : Emits σ k c s s1)
include h

theorem emit (hrun : Runs (emit i) s1 u s') : Emits σ k (c ++ [i]) s s' := by
  obtain rfl := runs_modify_iff.1 hrun
  exact ⟨by simp [h.body],h.surroundings,h.counters,h.items⟩

theorem report (hrun : Runs (Lower.report reason line) s1 u s') : Emits σ k c s s' := by
  obtain rfl := runs_modify_iff.1 hrun
  exact ⟨h.body,h.surroundings,h.counters,h.items⟩

theorem newRegister (hrun : Runs newRegister s1 v s') :
    Emits σ k.addTemp c s s' ∧ v = k.register := by
  obtain rfl := h.counters
  cases hrun
  exact ⟨⟨h.body,h.surroundings,rfl,h.items⟩,rfl⟩

theorem newLabels {n l} (hrun : Runs (newLabels n) s1 l s') :
    Emits σ (k.addLabels n) c s s' ∧ l = k.labels := by
  obtain rfl := h.counters
  cases hrun
  exact ⟨⟨h.body,h.surroundings,rfl,h.items⟩,rfl⟩

theorem variableRegister (hrun : Runs (variableRegister x) s1 v s') :
    Emits σ k c s s' ∧ v = σ.registerOf x := by
  obtain rfl := h.surroundings
  have hfound := runs_get.bind_iff.1 hrun
  split at hfound
  · rename_i r hr
    obtain ⟨rfl,rfl⟩ := runs_pure_iff.1 hfound
    exact ⟨h,by simp [Surroundings.registerOf,Lowering.surroundings,hr]⟩
  · rename_i hr
    obtain ⟨_,_,hreport,hnull⟩ := hfound.of_bind
    obtain ⟨rfl,rfl⟩ := runs_pure_iff.1 hnull
    exact ⟨h.report hreport,by simp [Surroundings.registerOf,Lowering.surroundings,hr]⟩

end Emits

theorem escape_eq (filler : Datum) :
    escape filler = get >>= fun s => emit (s.surroundings.leave filler) := by
  unfold escape
  refine congrArg (get >>= ·) (funext fun s => ?_)
  obtain ⟨temps,labels,body,items,scopes,loops,handlers,procedure,functions,reporter⟩ := s
  simp only [Surroundings.leave,Lowering.surroundings]
  cases handlers with
  | cons handler rest => rfl
  | nil => exact (apply_ite emit _ _ _).symm

namespace Emits

variable (h : Emits σ k c s s1)
include h

theorem escape (hrun : Runs (escape filler) s1 u s') :
    Emits σ k (c ++ [σ.leave filler]) s s' := by
  obtain rfl := h.surroundings
  rw [escape_eq,runs_get.bind_iff] at hrun
  exact h.emit hrun

theorem testPending (hrun : Runs (testPending whenNone) s1 zero s') :
    Emits σ k.addTemp (c ++ pendingTest k.register whenNone) s s' ∧ zero = k.register := by
  simp only [Lower.testPending,runs_bind,runs_pure_iff] at hrun
  obtain ⟨_,s2,h2,_,s3,h3,_,s4,h4,_,s5,h5,rfl,rfl⟩ := hrun
  obtain ⟨h,rfl⟩ := h.newRegister h2
  have h := ((h.emit h3).emit h4).emit h5
  exact ⟨h.of_eq (by simp),rfl⟩

theorem afterCall {result} (hrun : Runs (do
      let after ← Lower.newLabels 1
      let zero ← Lower.testPending after
      Lower.escape zero
      emitLabel after
      return result) s1 v s') :
    Emits σ (k.addTemp.addLabels 1) (c ++ Bx.afterCall σ k) s s' ∧ v = result := by
  simp only [runs_bind,runs_pure_iff] at hrun
  obtain ⟨_,s2,h2,_,s3,h3,_,s4,h4,_,s5,h5,rfl,rfl⟩ := hrun
  obtain ⟨h,rfl⟩ := h.newLabels h2
  obtain ⟨h,rfl⟩ := h.testPending h3
  exact ⟨((h.escape h4).emit h5).of_eq (by simp; rfl),rfl⟩

theorem lowerCall {count} (hrun : Runs (lowerCall name count) s1 v s') :
    (σ.functions.contains name = true ∧ v = k.register ∧
      Emits σ (k.addTemp.addTemp.addLabels 1)
        (c ++ .make "call" (callArgs name count) k.register :: Bx.afterCall σ k.addTemp) s s') ∨
    (σ.functions.contains name = false ∧ v = .null ∧
      Emits σ (k.addTemp.addLabels 1)
        (c ++ .act "call" (callArgs name count) :: Bx.afterCall σ k) s s') := by
  have hfunctions : σ.functions = s1.functions := by rw [← h.surroundings]; rfl
  have hcall := runs_get.bind_iff.1 hrun
  rw [← hfunctions] at hcall
  split at hcall
  · rename_i hname
    simp only [runs_bind (x := Lower.newRegister),runs_bind (x := Lower.emit _),pure_bind] at hcall
    obtain ⟨_,s2,h2,_,s3,h3,hafter⟩ := hcall
    obtain ⟨h,rfl⟩ := h.newRegister h2
    obtain ⟨h,rfl⟩ := (h.emit h3).afterCall hafter
    exact .inl ⟨hname,rfl,h.of_eq (by simp; rfl)⟩
  · rename_i hname
    simp only [runs_bind (x := Lower.emit _),pure_bind] at hcall
    obtain ⟨_,s2,h2,hafter⟩ := hcall
    obtain ⟨h,rfl⟩ := (h.emit h2).afterCall hafter
    exact .inr ⟨by simpa using hname,rfl,h.of_eq (by simp; rfl)⟩

end Emits

def EmitsExpr (n : Node) : Prop :=
  ∀ ⦃σ k c s s1 v s'⦄, Emits σ k c s s1 → Runs (lowerExpr n) s1 v s' →
    ∃ c' k', Emits σ k' (c ++ c') s s' ∧ ExprEmits σ n k v c' k'

def EmitsArgs (count index : Nat) (args : List Node) : Prop :=
  ∀ ⦃σ k c s s1 s'⦄, Emits σ k c s s1 → Runs (lowerArgs count index args) s1 () s' →
    ∃ c' k', Emits σ k' (c ++ c') s s' ∧ ArgsEmit σ count index args k c' k'

theorem emitsExpr_and_emitsArgs :
    (∀ n, EmitsExpr n) ∧ ∀ count index args, EmitsArgs count index args := by
  refine lowerExpr.mutual_induct EmitsExpr EmitsArgs ?var ?number ?boolean ?binary ?unary ?call
    ?bareCall ?otherNone ?otherSome ?nil ?cons <;> intros <;> intro σ k c s s1 <;> intros <;>
    rename_i h hrun <;>
    simp only [lowerExpr,lowerArgs,runs_bind,runs_pure_iff,not_runs_throw, *] at hrun
  case var =>
    obtain ⟨h,rfl⟩ := h.variableRegister hrun
    exact ⟨[],k,h.nil,.var _ _ _ k⟩
  case number =>
    obtain ⟨_,s2,h2,_,s3,h3,rfl,rfl⟩ := hrun
    obtain ⟨h,rfl⟩ := h.newRegister h2
    exact ⟨_,_,h.emit h3,.number _ _ _ k⟩
  case boolean =>
    obtain ⟨_,s2,h2,_,s3,h3,rfl,rfl⟩ := hrun
    obtain ⟨h,rfl⟩ := h.newRegister h2
    exact ⟨_,_,h.emit h3,.boolean _ _ _ k⟩
  case binary iha ihb _ _ =>
    obtain ⟨x,s2,ha,y,s3,hb,_,s4,h4,_,s5,h5,rfl,rfl⟩ := hrun
    obtain ⟨ca,k1,h,ea⟩ := iha h ha
    obtain ⟨cb,k2,h,eb⟩ := ihb h hb
    obtain ⟨h,rfl⟩ := h.newRegister h4
    exact ⟨_,_,(h.emit h5).of_eq (by simp),.binary _ _ _ ea eb⟩
  case unary ih _ _ =>
    obtain ⟨x,s2,ha,_,s4,h4,_,s5,h5,rfl,rfl⟩ := hrun
    obtain ⟨ca,k1,h,ea⟩ := ih h ha
    obtain ⟨h,rfl⟩ := h.newRegister h4
    exact ⟨_,_,(h.emit h5).of_eq (by simp),.unary _ _ _ ea⟩
  case call ih _ _ =>
    obtain ⟨_,s2,hargs,hcall⟩ := hrun
    obtain ⟨ca,k1,h,ea⟩ := ih h hargs
    obtain ⟨hname,rfl,h⟩ | ⟨hname,rfl,h⟩ := h.lowerCall hcall
    · exact ⟨_,_,h.of_eq (by simp),.function _ _ ea hname⟩
    · exact ⟨_,_,h.of_eq (by simp),.subroutine _ _ ea hname⟩
  case otherSome n _ _ _ _ _ _ _ _ _ _ _ =>
    obtain ⟨_,s2,hreport,rfl,rfl⟩ := hrun
    exact ⟨[],k,(h.report hreport).nil,.other k (by cases n <;> grind [Node.isTerm])⟩
  case nil =>
    obtain ⟨-,rfl⟩ := hrun
    exact ⟨[],k,h.nil,.nil _ _ k⟩
  case cons iharg ihrest _ =>
    obtain ⟨x,s2,harg,_,s3,hparam,hrest⟩ := hrun
    obtain ⟨ca,k1,h,ea⟩ := iharg h harg
    obtain ⟨cr,k2,h,er⟩ := ihrest (h.emit hparam) hrest
    exact ⟨_,_,h.of_eq (by simp [argNumber]),.cons ea er⟩

theorem emits_lowerExpr (h : Emits σ k c s s1) (hrun : Runs (lowerExpr n) s1 v s') :
    ∃ c' k', Emits σ k' (c ++ c') s s' ∧ ExprEmits σ n k v c' k' :=
  emitsExpr_and_emitsArgs.1 n h hrun

theorem Emits.labels_eq (h : Emits σ k c s s1) :
    s1.labels = k.labels := congrArg Counters.labels h.counters

theorem emits_lowerCondition (n : Node) (yes no : Nat) (h : Emits σ k c s s1)
    (hrun : Runs (lowerCondition n yes no) s1 u s') :
    ∃ c' k', Emits σ k' (c ++ c') s s' ∧ CondEmits σ n yes no k c' k' := by
  fun_induction lowerCondition n yes no generalizing k c s1 s' with
  | case1 line type value yes no htrue =>
    exact ⟨_,k,h.emit hrun,.isTrue line type yes no k htrue⟩
  | case2 line type value yes no htrue hfalse =>
    exact ⟨_,k,h.emit hrun,.isFalse line type yes no k hfalse⟩
  | case3 | case9 =>
    obtain ⟨-,rfl⟩ := runs_pure_iff.1 hrun
    exact ⟨[],k,h.nil,.other _ _ k (by simp_all [Node.isTest]) rfl⟩
  | case4 line type x yes no =>
    simp only [runs_bind] at hrun
    obtain ⟨_,s2,h2,_,s3,h3,_,s4,h4,_,s5,h5,_,s6,h6,h7⟩ := hrun
    obtain ⟨h,rfl⟩ := h.variableRegister h2
    obtain ⟨h,rfl⟩ := h.newRegister h3
    have h := (((h.emit h4).emit h5).emit h6).emit h7
    exact ⟨_,_,h.of_eq (by simp),.var line type x yes no k⟩
  | case5 line type a b op yes no jump hjump =>
    simp only [runs_bind] at hrun
    obtain ⟨x,s2,h2,y,s3,h3,_,s4,h4,_,s5,h5,h6⟩ := hrun
    obtain ⟨ca,k1,h,ea⟩ := emits_lowerExpr h h2
    obtain ⟨cb,k2,h,eb⟩ := emits_lowerExpr h h3
    have h := ((h.emit h4).emit h5).emit h6
    exact ⟨_,_,h.of_eq (by simp),.comparison line type yes no hjump ea eb⟩
  | case6 | case12 => exact absurd hrun not_runs_throw
  | case7 line type a b yes no _ iha ihb | case8 line type a b yes no _ iha ihb =>
    have hlabels := h.labels_eq
    simp only [runs_bind] at hrun
    obtain ⟨_,_,hget,_,s2,h2,_,s3,h3,_,s4,h4,h5⟩ := hrun
    obtain ⟨rfl,rfl⟩ := runs_get_iff.1 hget
    obtain ⟨ca,k1,h,ea⟩ := iha _ h h2
    obtain ⟨h,rfl⟩ := h.newLabels h3
    obtain ⟨cb,k2,h,eb⟩ := ihb (h.emit h4) h5
    first
    | exact ⟨_,_,h.of_eq (by simp),.and line type (hlabels ▸ ea) eb⟩
    | exact ⟨_,_,h.of_eq (by simp),.or line type (hlabels ▸ ea) eb⟩
  | case10 => exact absurd hrun not_runs_throw_bind
  | case11 line type a op yes no next hjump =>
    rename_i ih
    dsimp only [next] at hrun
    split at hrun
    · obtain ⟨c',k',h,e⟩ := ih h hrun
      exact ⟨c',k',h,.not line type e⟩
    · exact absurd hrun not_runs_throw
    · exact absurd hrun not_runs_throw
    · obtain ⟨-,rfl⟩ := runs_pure_iff.1 hrun
      exact ⟨[],k,h.nil,.other yes no k (by simp_all [Node.isTest]) rfl⟩

theorem Emits.bind (h : Emits σ k c s s1) (hrun : Runs (Lower.bind x r) s1 u s') :
    Emits (σ.withScopes (bindIn x r σ.scopes)) k c s s' := by
  obtain rfl := h.surroundings
  have hset := runs_get.bind_iff.1 hrun
  split at hset
  · exact absurd hset not_runs_throw
  · rename_i scope rest hscopes
    obtain rfl := runs_set_iff.1 hset
    refine ⟨h.body,?_,h.counters,h.items⟩
    simp only [Lowering.surroundings,Surroundings.withScopes,hscopes,bindIn]

theorem lookupRegister_bindIn_self (h : scopes ≠ []) :
    lookupRegister x (bindIn x r scopes) = some r := by
  cases scopes with
  | nil => exact absurd rfl h
  | cons t rest => simp [bindIn,lookupRegister]

theorem scopes_ne_nil_of_bind (h : Runs (Lower.bind x r) s u s') : s.scopes ≠ [] := by
  intro hscopes
  have hset := runs_get.bind_iff.1 h
  simp only [hscopes] at hset
  exact not_runs_throw hset

theorem emits_lowerInits (inits : List Node) (h : Emits σ k c s s1)
    (hrun : Runs (lowerInits inits) s1 u s') :
    ∃ c' scopes vars k', Emits (σ.withScopes scopes) k' (c ++ c') s s' ∧
      InitsEmit σ inits k c' scopes vars k' ∧
      initRegisters inits s1 = vars.map fun n => some (register n) := by
  fun_induction lowerInits inits generalizing σ k c s1 s' with
  | case1 =>
    obtain ⟨-,rfl⟩ := runs_pure_iff.1 hrun
    exact ⟨[],σ.scopes,[],k,h.nil,.nil σ k,rfl⟩
  | case2 x value line rest ih =>
    simp only [runs_bind] at hrun
    obtain ⟨v,s2,h2,_,s3,h3,_,s4,h4,_,s5,h5,h6⟩ := hrun
    obtain ⟨cv,k1,h,ev⟩ := emits_lowerExpr h h2
    obtain ⟨h,rfl⟩ := h.newRegister h3
    have hscopes : σ.scopes ≠ [] := by
      have := scopes_ne_nil_of_bind h4
      rwa [← congrArg Surroundings.scopes h.surroundings]
    have h := (h.bind h4).emit h5
    have hfirst : after (lowerInits [.varInit x value line]) s1 = s5 := by
      refine after_eq (a := ()) ?_
      simp only [lowerInits]
      exact h2.bind (h3.bind (h4.bind (h5.bind runs_pure)))
    have hregister : lookupRegister x s5.scopes = some (register k1.temps) := by
      have : s5.scopes = bindIn x (register k1.temps) σ.scopes :=
        congrArg Surroundings.scopes h.surroundings
      rw [this,lookupRegister_bindIn_self hscopes]
    obtain ⟨cr,scopes,vars,k2,h,er,hvars⟩ := ih h h6
    refine ⟨_,scopes,_,k2,h.of_eq (by simp),.cons line ev er,?_⟩
    rw [initRegisters,hfirst,hregister,hvars,map_cons]
  | case3 => exact absurd hrun not_runs_throw

theorem Emits.modify (h : Emits σ k c s s1) (hrun : Runs (modify f) s1 u s')
    (g : Surroundings → Surroundings)
    (hbody : ∀ s, (f s).body = s.body ∧ (f s).counters = s.counters ∧ (f s).items = s.items)
    (hsurroundings : ∀ s, (f s).surroundings = g s.surroundings) : Emits (g σ) k c s s' := by
  obtain rfl := runs_modify_iff.1 hrun
  obtain ⟨hbody,hcounters,hitems⟩ := hbody s1
  refine ⟨?_,?_,?_,?_⟩
  · rw [hbody,h.body]
  · rw [hsurroundings,h.surroundings]
  · rw [hcounters,h.counters]
  · rw [hitems,h.items]

def Surroundings.leaveLoop (σ : Surroundings) : Surroundings := { σ with loops := σ.loops.drop 1 }

def Surroundings.leaveTry (σ : Surroundings) : Surroundings :=
  { σ with handlers := σ.handlers.drop 1 }

def Surroundings.leaveScope (σ : Surroundings) : Surroundings := σ.withScopes (σ.scopes.drop 1)

theorem emits_lowerRaise (h : Emits σ k c s s1) (hrun : Runs (lowerRaise name) s1 u s') :
    Emits σ k.addTemp (c ++ [.make "const" [.int (exceptionCode name)] k.register,
      .make "copy" [k.register] pending,σ.leave k.register]) s s' := by
  simp only [lowerRaise,runs_bind] at hrun
  obtain ⟨_,s2,h2,_,s3,h3,_,s4,h4,h5⟩ := hrun
  obtain ⟨h,rfl⟩ := h.newRegister h2
  exact (((h.emit h3).emit h4).escape h5).of_eq (by simp)

theorem emits_enterCatch (h : Emits σ (k.addLabels 1) c s s1) (hotherwise : otherwise = k.labels)
    (hrun : Runs (enterCatch name otherwise) s1 u s') :
    Emits σ (k.addTemp.addTemp.addLabels 1) (c ++ catchTest name k) s s' := by
  obtain rfl := hotherwise
  simp only [enterCatch,runs_bind] at hrun
  obtain ⟨_,s2,h2,_,s3,h3,_,s4,h4,_,s5,h5,_,s6,h6,_,s7,h7,h8⟩ := hrun
  obtain ⟨h,rfl⟩ := h.newRegister h2
  obtain ⟨h,rfl⟩ := (((h.emit h3).emit h4).emit h5).newRegister h6
  exact ((h.emit h7).emit h8).of_eq (by simp only [append_assoc]; rfl)

theorem emits_lowerBreak (h : Emits σ k c s s1) (hrun : Runs (lowerBreak target line) s1 u s') :
    ∃ c', Emits σ k (c ++ c') s s' ∧
      StatementEmits σ (.jump line target) k c' σ.scopes [] k := by
  have hloops : σ.loops = s1.loops := by rw [← h.surroundings]; rfl
  have hjump := runs_get.bind_iff.1 hrun
  rw [← hloops] at hjump
  split at hjump
  · rename_i heq
    exact ⟨_,h.emit hjump,.break line k heq⟩
  · rename_i heq
    exact ⟨[],(h.report hjump).nil,.noJump line _ k fun _ => heq⟩
  · rename_i heq
    exact ⟨_,h.emit hjump,.continue line k heq⟩
  · rename_i heq
    exact ⟨[],(h.report hjump).nil,.noJump line _ k fun _ => heq⟩
  · rename_i hbreak hnone hcontinue hnone'
    refine ⟨[],(h.report hjump).nil,.noJump line _ k ?_⟩
    rintro (rfl | rfl)
    · cases hl : σ.loops with
      | nil => rfl
      | cons l rest => exact absurd hl (hbreak l.1 l.2 rest rfl)
    · cases hl : σ.loops with
      | nil => rfl
      | cons l rest => exact absurd hl (hcontinue l.1 l.2 rest rfl)

def EmitsStatement (n : Node) : Prop :=
  ∀ ⦃σ k c s s1 s'⦄, Emits σ k c s s1 → Runs (lowerStatement n) s1 () s' →
    ∃ c' scopes vars k', Emits (σ.withScopes scopes) k' (c ++ c') s s' ∧
      StatementEmits σ n k c' scopes vars k' ∧
      n.variableRegisters s1 = vars.map fun m => some (register m)

def EmitsStatements (statements : List Node) : Prop :=
  ∀ ⦃σ k c s s1 s'⦄, Emits σ k c s s1 → Runs (lowerStatements statements) s1 () s' →
    ∃ c' scopes vars k', Emits (σ.withScopes scopes) k' (c ++ c') s s' ∧
      StatementsEmit σ statements k c' scopes vars k' ∧
      Node.registersOfAll statements s1 = vars.map fun m => some (register m)

def EmitsCatches (done : Nat) (catches : List Node) : Prop :=
  ∀ ⦃σ k c s s1 s'⦄, Emits σ k c s s1 → Runs (lowerCatches done catches) s1 () s' →
    ∃ c' scopes vars k', Emits (σ.withScopes scopes) k' (c ++ c') s s' ∧
      CatchesEmit σ done catches k c' scopes vars k' ∧
      Node.registersOfCatches done catches s1 = vars.map fun m => some (register m)

theorem EmitsStatements.scope {statements} (hstatements : EmitsStatements statements)
    (h : Emits σ k c s s1) (hrun : Runs (do
      enterScope
      lowerStatements statements
      leaveScope) s1 () s') :
    ∃ c' scopes vars k', Emits σ k' (c ++ c') s s' ∧
      StatementsEmit (σ.withScopes ({} :: σ.scopes)) statements k c' scopes vars k' ∧
      Node.registersOfAll statements (after enterScope s1) =
        vars.map fun m => some (register m) := by
  simp only [runs_bind] at hrun
  obtain ⟨_,s2,henter,_,s3,hbody,hleave⟩ := hrun
  have h := h.modify henter (fun σ => σ.withScopes ({} :: σ.scopes)) (fun _ => ⟨rfl,rfl,rfl⟩) fun _ => rfl
  obtain ⟨c',scopes,vars,k',h,e,hvars⟩ := hstatements h hbody
  have h := h.modify hleave Surroundings.leaveScope (fun _ => ⟨rfl,rfl,rfl⟩) fun _ => rfl
  have hlast : Surroundings.leaveScope (σ.withScopes scopes) = σ :=
    congrArg σ.withScopes e.extended.drop
  exact ⟨c',scopes,vars,k',hlast ▸ h,e,by rw [after_eq henter,hvars]⟩

theorem emits_ifElse {a b} (iha : EmitsStatement a) (ihb : EmitsStatement b) :
    EmitsStatement (.ifElse line condition a b) := by
  intro σ k c s s1 s' h hrun
  have hlabels := h.labels_eq
  simp only [lowerStatement,runs_bind] at hrun
  obtain ⟨_,s2,h2,_,s3,h3,_,s4,h4,_,s5,h5,_,s6,h6,_,s7,h7,_,s8,h8,h9⟩ := hrun
  obtain ⟨h,rfl⟩ := h.newLabels h2
  obtain ⟨cc,k1,h,ec⟩ := emits_lowerCondition condition _ _ h h3
  obtain ⟨ca,sa,va,k2,h,ea,hva⟩ := iha (h.emit h4) h5
  obtain ⟨cb,sb,vb,k3,h,eb,hvb⟩ := ihb ((h.emit h6).emit h7) h8
  refine ⟨_,sb,_,k3,(h.emit h9).of_eq (by simp),.ifElse line ec ea eb,?_⟩
  rw [Node.variableRegisters,hlabels,after_eq (h2.bind (h3.bind h4)),
    after_eq (h5.bind (h6.bind h7)),hva,hvb,map_append]

theorem emits_loop {body} (ih : EmitsStatement body) :
    EmitsStatement (.while' line condition body) := by
  intro σ k c s s1 s' h hrun
  have hlabels := h.labels_eq
  simp only [lowerStatement,runs_bind] at hrun
  obtain ⟨_,s2,h2,_,s3,h3,_,s4,h4,_,s5,h5,_,s6,h6,_,s7,h7,_,s8,h8,_,s9,h9,h10⟩ := hrun
  obtain ⟨h,rfl⟩ := h.newLabels h2
  have h := h.modify h3 (·.inLoop k.labels (k.labels + 2)) (fun _ => ⟨rfl,rfl,rfl⟩) fun _ => rfl
  obtain ⟨cc,k1,h,ec⟩ := emits_lowerCondition condition _ _ (h.emit h4) h5
  obtain ⟨cb,sb,vb,k2,h,eb,hvb⟩ := ih (h.emit h6) h7
  have h := ((h.emit h8).emit h9).modify h10 Surroundings.leaveLoop (fun _ => ⟨rfl,rfl,rfl⟩) fun _ => rfl
  refine ⟨_,sb,vb,k2,h.of_eq (by simp),.loop line ec eb,?_⟩
  rw [Node.variableRegisters,hlabels,after_eq (h2.bind (h3.bind (h4.bind (h5.bind h6)))),hvb]

theorem emits_tryExcept {block catches} (ihblock : EmitsStatement block)
    (ihcatches : ∀ handler, EmitsCatches (handler + 1) catches) :
    EmitsStatement (.tryExcept line block catches) := by
  intro σ k c s s1 s' h hrun
  have hlabels := h.labels_eq
  simp only [lowerStatement,runs_bind] at hrun
  obtain ⟨_,s2,h2,_,s3,h3,_,s4,h4,_,s5,h5,_,s6,h6,_,s7,h7,_,s8,h8,_,s9,h9,_,s10,h10,h11⟩ := hrun
  obtain ⟨h,rfl⟩ := h.newLabels h2
  have h := h.modify h3 (·.inTry k.labels) (fun _ => ⟨rfl,rfl,rfl⟩) fun _ => rfl
  obtain ⟨cb,sb,vb,k1,h,eb,hvb⟩ := ihblock h h4
  have h := (h.emit h5).modify h6 Surroundings.leaveTry (fun _ => ⟨rfl,rfl,rfl⟩) fun _ => rfl
  obtain ⟨cc,sc,vc,k2,h,ec,hvc⟩ := ihcatches _ (h.emit h7) h8
  obtain ⟨h,rfl⟩ := h.testPending h9
  refine ⟨_,sc,_,k2.addTemp,((h.escape h10).emit h11).of_eq (by simp; rfl),.tryExcept line eb ec,?_⟩
  rw [Node.variableRegisters,hlabels,after_eq (h2.bind h3),
    after_eq (h4.bind (h5.bind (h6.bind h7))),hvb,hvc,map_append]

theorem emits_catchCons {block} (ihblock : EmitsStatement block) (ihrest : EmitsCatches done rest) :
    EmitsCatches done (.catch' line name block :: rest) := by
  intro σ k c s s1 s' h hrun
  have hlabels := h.labels_eq
  simp only [lowerCatches,runs_bind] at hrun
  obtain ⟨_,s2,h2,_,s3,h3,_,s4,h4,_,s5,h5,_,s6,h6,h7⟩ := hrun
  obtain ⟨h,hlabel⟩ := h.newLabels h2
  have h := emits_enterCatch h hlabel h3
  obtain rfl := hlabel
  obtain ⟨cb,sb,vb,k1,h,eb,hvb⟩ := ihblock h h4
  obtain ⟨cr,sr,vr,k2,h,er,hvr⟩ := ihrest ((h.emit h5).emit h6) h7
  have hinside : after (do
      let _ ← newLabels 1
      enterCatch name k.labels) s1 = s3 := after_eq (h2.bind h3)
  refine ⟨_,sr,_,k2,h.of_eq (by simp),.cons line name eb er,?_⟩
  rw [Node.registersOfCatches,hlabels,hinside,after_eq (h4.bind (h5.bind h6)),hvb,hvr,
    map_append]

theorem emits_lowerStatement_and_others :
    (∀ n, EmitsStatement n) ∧ (∀ done catches, EmitsCatches done catches) ∧
      ∀ statements, EmitsStatements statements := by
  refine lowerStatement.mutual_induct EmitsStatement EmitsCatches EmitsStatements
    ?varDecl ?assign ?eval ?block ?ifElse ?loop ?jump ?returnNone ?returnValue ?tryExcept ?raise
    ?otherNone ?otherSome ?catchNil ?catchCons ?catchOther ?nil ?cons <;> intros
  case ifElse iha ihb => exact emits_ifElse iha ihb
  case loop ih => exact emits_loop ih
  case tryExcept ihblock ihcatches => exact emits_tryExcept ihblock ihcatches
  case catchCons ihblock ihrest => exact emits_catchCons ihblock ihrest
  all_goals
    intro σ k c s s1 s' h hrun
    simp only [lowerStatement,lowerCatches,lowerStatements,runs_bind,runs_pure_iff,
      not_runs_throw,and_false,exists_false, *] at hrun
  case varDecl =>
    obtain ⟨c',scopes,vars,k',h,e,hvars⟩ := emits_lowerInits _ h hrun
    exact ⟨c',scopes,vars,k',h,.varDecl _ _ e,by rw [Node.variableRegisters,hvars]⟩
  case assign =>
    obtain ⟨v,s2,h2,_,s3,h3,h4⟩ := hrun
    obtain ⟨cv,k1,h,e⟩ := emits_lowerExpr h h2
    obtain ⟨h,rfl⟩ := h.variableRegister h3
    exact ⟨_,σ.scopes,[],k1,(h.emit h4).of_eq (by simp),.assign _ _ e,
      by simp [Node.variableRegisters]⟩
  case eval =>
    obtain ⟨v,s2,h2,-,rfl⟩ := hrun
    obtain ⟨cv,k1,h,e⟩ := emits_lowerExpr h h2
    exact ⟨cv,σ.scopes,[],k1,h,.eval _ e,by simp [Node.variableRegisters]⟩
  case block ih =>
    obtain ⟨c',scopes,vars,k',h,e,hvars⟩ := ih.scope h (by simpa only [runs_bind] using hrun)
    exact ⟨c',σ.scopes,vars,k',h,.block _ e,by rw [Node.variableRegisters,hvars]⟩
  case jump =>
    obtain ⟨c',h,e⟩ := emits_lowerBreak h hrun
    exact ⟨c',σ.scopes,[],k,h,e,by simp [Node.variableRegisters]⟩
  case returnNone =>
    exact ⟨_,σ.scopes,[],k,h.emit hrun,.bareReturn _ k,by simp [Node.variableRegisters]⟩
  case returnValue habsent =>
    obtain ⟨v,s2,h2,h3⟩ := hrun
    obtain ⟨cv,k1,h,e⟩ := emits_lowerExpr h h2
    exact ⟨_,σ.scopes,[],k1,(h.emit h3).of_eq (by simp),.return _ habsent e,
      by simp [Node.variableRegisters]⟩
  case raise =>
    exact ⟨_,σ.scopes,[],_,emits_lowerRaise h hrun,.raise _ _ k,by simp [Node.variableRegisters]⟩
  case otherSome n _ _ _ _ _ _ _ _ _ _ _ _ _ =>
    have hn : n.isAction = false := by cases n <;> grind [Node.isAction]
    refine ⟨[],σ.scopes,[],k,(h.report hrun).nil,.other k hn,?_⟩
    cases n <;> first | (simp only [Node.variableRegisters]; rfl) | cases hn
  case catchNil =>
    obtain ⟨-,rfl⟩ := hrun
    exact ⟨[],σ.scopes,[],k,h.nil,.nil σ _ k,by simp [Node.registersOfCatches]⟩
  case nil =>
    obtain ⟨-,rfl⟩ := hrun
    exact ⟨[],σ.scopes,[],k,h.nil,.nil σ k,by simp [Node.registersOfAll]⟩
  case cons ihn ihrest =>
    obtain ⟨_,s2,h2,h3⟩ := hrun
    obtain ⟨c1,sc1,v1,k1,h,e1,hv1⟩ := ihn h h2
    obtain ⟨c2,sc2,v2,k2,h,e2,hv2⟩ := ihrest h h3
    refine ⟨_,sc2,_,k2,h.of_eq (by simp),.cons e1 e2,?_⟩
    rw [Node.registersOfAll,after_eq h2,hv1,hv2,map_append]

theorem Emits.sameScopes (h : Emits s.surroundings k c s s') : SameScopes s s' :=
  congrArg Surroundings.scopes h.surroundings

theorem Emits.bound (h : Emits (s.surroundings.withScopes scopes) k c s s')
    (hscopes : Extended names s.scopes scopes) : Bound names s s' := by
  obtain rfl : s'.scopes = scopes := congrArg Surroundings.scopes h.surroundings
  exact hscopes

theorem quiet_lowerExpr (n : Node) : Quiet (lowerExpr n) := by
  intro s v s' hrun
  obtain ⟨c,k,h,-⟩ := emits_lowerExpr (.refl s) hrun
  exact h.sameScopes

theorem quiet_lowerArgs (count index : Nat) (args : List Node) :
    Quiet (lowerArgs count index args) := by
  intro s v s' hrun
  obtain ⟨c,k,h,-⟩ := emitsExpr_and_emitsArgs.2 count index args (.refl s) hrun
  exact h.sameScopes

theorem quiet_lowerCondition (n : Node) (yes no : Nat) : Quiet (lowerCondition n yes no) := by
  intro s v s' hrun
  obtain ⟨c,k,h,-⟩ := emits_lowerCondition n yes no (.refl s) hrun
  exact h.sameScopes

theorem binds_lowerInits (inits : List Node) : Binds (initNames inits) (lowerInits inits) := by
  intro s v s' hrun
  obtain ⟨c,scopes,vars,k,h,e,-⟩ := emits_lowerInits inits (.refl s) hrun
  exact h.bound e.extended

theorem binds_lowerStatement (n : Node) : Binds n.newNames (lowerStatement n) := by
  intro s v s' hrun
  obtain ⟨c,scopes,vars,k,h,e,-⟩ := emits_lowerStatement_and_others.1 n (.refl s) hrun
  exact h.bound e.extended

theorem binds_lowerCatches (done : Nat) (catches : List Node) :
    Binds (Node.newNamesOfCatches catches) (lowerCatches done catches) := by
  intro s v s' hrun
  obtain ⟨c,scopes,vars,k,h,e,-⟩ :=
    emits_lowerStatement_and_others.2.1 done catches (.refl s) hrun
  exact h.bound e.extended

theorem emits_procedure {block result params raises}
    (hrun : Runs (lowerDeclaration (.procDecl line name block params result raises)) s () s') :
    ∃ names s1 bodyLine statements code scopes vars,
      Runs (enterProcedure name params) s names s1 ∧ block = .block bodyLine statements ∧
      StatementsEmit (s1.surroundings.withScopes ({} :: s1.scopes)) statements s1.counters code
        scopes vars s'.counters ∧
      Node.registersOfAll statements (after enterScope s1) =
        vars.map (fun m => some (register m)) ∧
      s'.surroundings = s1.surroundings ∧ s'.body = #[] ∧
      s'.items.toList = s1.items.toList ++
        [.procedure ("@" ++ name) (names.map ("%" ++ ·)) (s1.body.toList ++ code)] := by
  obtain ⟨names,s1,hnames,hrun1⟩ := hrun.of_bind
  obtain ⟨_,s2,hbind,hrun2⟩ := hrun1.of_bind
  obtain ⟨_,s3,hname,hrun3⟩ := hrun2.of_bind
  obtain ⟨_,s4,hblock,hitem⟩ := hrun3.of_bind
  have henter : Runs (enterProcedure name params) s names s3 :=
    hnames.bind (hbind.bind (hname.bind runs_pure))
  unfold lowerBlock at hblock
  split at hblock
  · exact absurd hblock not_runs_throw
  · rename_i bodyLine statements
    obtain ⟨code,scopes,vars,k',hemits,hcode,hvars⟩ :=
      (emits_lowerStatement_and_others.2.2 statements).scope (.refl s3) hblock
    obtain rfl := runs_modify_iff.1 hitem
    obtain rfl := hemits.counters
    refine ⟨names,s3,bodyLine,statements,code,scopes,vars,henter,rfl,hcode,hvars,
      hemits.surroundings,rfl,?_⟩
    rw [Array.toList_push,hemits.items,hemits.body,nil_append]
  · obtain ⟨_,_,-,hthrow⟩ := hblock.of_bind
    exact absurd hthrow not_runs_throw

def Node.localRegisters : Node → Lowering → List (Option String)
  | .procDecl _ name (.block _ statements) params _ _, s =>
    Node.registersOfAll statements (after enterScope (after (enterProcedure name params) s))
  | _, _ => []

def localRegisters : List Node → Lowering → List (Option String)
  | [], _ => []
  | d :: rest, s => d.localRegisters s ++ localRegisters rest (after (lowerDeclaration d) s)

def lowerPending : Lower Unit := do
  addGlobal "exception" (.value (.int 0))
  Lower.bind "exception" "@exception"

def programRegisters (declarations : List Node) (s : Lowering) : List (Option String) :=
  localRegisters declarations (after lowerPending s)

end BxToolchain.Bx
