import BxToolchain.Proofs.Bx.Emitted

namespace BxToolchain.Bx

open Lower List

variable {others : List Nat} {c1 c2 : List Instr} {i : Instr} {l : Nat}

def branchOpcodes : List String := ["jmp","jl","jg","jle","jge","jz","jnz"]

namespace Instr

def isLabel (i : Instr) : Bool := i.hasOpcode "label"

def isBranch (i : Instr) : Bool := branchOpcodes.any i.hasOpcode

def labelOperand? (i : Instr) : Option Nat :=
  match i.args with
  | .list [.int (.ofNat n)] => some n
  | _ => none

def setsLabel? (i : Instr) : Option Nat := if i.isLabel then i.labelOperand? else none

def branchesTo? (i : Instr) : Option Nat := if i.isBranch then i.labelOperand? else none

end Instr

def setLabels (code : List Instr) : List Nat := code.filterMap Instr.setsLabel?

def jumpTargets (code : List Instr) : List Nat := code.filterMap Instr.branchesTo?

def Item.code : Item → List Instr
  | .global _ _ => []
  | .procedure _ _ body => body

@[simp]
theorem isLabel_make (op : String) (args : List Datum) (r : Datum) :
    (Instr.make op args r).isLabel = (op == "label") := rfl

@[simp]
theorem isBranch_make (op : String) (args : List Datum) (r : Datum) :
    (Instr.make op args r).isBranch = branchOpcodes.any (op == ·) := rfl

@[simp]
theorem setLabels_nil : setLabels [] = [] := rfl

@[simp]
theorem jumpTargets_nil : jumpTargets [] = [] := rfl

@[simp]
theorem setLabels_append (c1 c2 : List Instr) : setLabels (c1 ++ c2) = setLabels c1 ++ setLabels c2 :=
  filterMap_append

@[simp]
theorem jumpTargets_append (c1 c2 : List Instr) :
    jumpTargets (c1 ++ c2) = jumpTargets c1 ++ jumpTargets c2 := filterMap_append

@[simp]
theorem setLabels_labelAt (n : Nat) (code : List Instr) :
    setLabels (labelAt n :: code) = n :: setLabels code := rfl

@[simp]
theorem jumpTargets_labelAt (n : Nat) (code : List Instr) :
    jumpTargets (labelAt n :: code) = jumpTargets code := rfl

@[simp]
theorem setLabels_jumpTo (n : Nat) (code : List Instr) :
    setLabels (jumpTo n :: code) = setLabels code := rfl

@[simp]
theorem jumpTargets_jumpTo (n : Nat) (code : List Instr) :
    jumpTargets (jumpTo n :: code) = n :: jumpTargets code := rfl

def NamesNumbers (code : List Instr) : Prop :=
  ∀ i ∈ code, i.isLabel = true ∨ i.isBranch = true → ∃ n : Nat, i.args = .list [label n]

def Instr.isPlain (i : Instr) : Bool := !i.isLabel && !i.isBranch

structure Ranged (others : List Nat) (first past : Nat) (code : List Instr) : Prop where
  le : first ≤ past
  count : ∀ l, (setLabels code).count l = if first ≤ l ∧ l < past then 1 else 0
  targets : ∀ l ∈ jumpTargets code, l ∈ others ∨ first ≤ l ∧ l < past
  numbered : NamesNumbers code

@[simp]
theorem namesNumbers_append (c1 c2 : List Instr) :
    NamesNumbers (c1 ++ c2) ↔ NamesNumbers c1 ∧ NamesNumbers c2 := forall_mem_append

@[simp]
theorem namesNumbers_labelAt (n : Nat) (code : List Instr) :
    NamesNumbers (labelAt n :: code) ↔ NamesNumbers code := by
  simp only [NamesNumbers,mem_cons,forall_eq_or_imp]
  exact and_iff_right fun _ => ⟨n,rfl⟩

@[simp]
theorem namesNumbers_jumpTo (n : Nat) (code : List Instr) :
    NamesNumbers (jumpTo n :: code) ↔ NamesNumbers code := by
  simp only [NamesNumbers,mem_cons,forall_eq_or_imp]
  exact and_iff_right fun _ => ⟨n,rfl⟩

@[simp]
theorem namesNumbers_nil : NamesNumbers [] := forall_mem_nil _

theorem branchesTo?_branchTo (l : Nat) (h : jump ∈ branchOpcodes) :
    (branchTo jump l).branchesTo? = some l := by
  have : (branchTo jump l).isBranch = true := by simpa [branchTo,Instr.act] using h
  rw [Instr.branchesTo?,if_pos this]
  rfl

theorem isLabel_branchTo (l : Nat) (h : jump ∈ branchOpcodes) :
    (branchTo jump l).isLabel = false := by
  rw [branchTo,Instr.act,isLabel_make,beq_eq_false_iff_ne]
  rintro rfl
  simp [branchOpcodes] at h

namespace Ranged

variable {others : List Nat}

theorem mono (h : Ranged others first past code)
    (hothers : ∀ l ∈ others, l ∈ others' ∨ first ≤ l ∧ l < past) :
    Ranged others' first past code := by
  refine ⟨h.le,h.count,?_,h.numbered⟩
  intro l hl
  obtain hl | hl := h.targets l hl
  · exact hothers l hl
  · exact .inr hl

theorem append (h1 : Ranged others first middle c1) (h2 : Ranged others middle past c2) :
    Ranged others first past (c1 ++ c2) := by
  have hle1 := h1.le
  have hle2 := h2.le
  refine ⟨by omega,?_,?_,by simp [h1.numbered,h2.numbered]⟩
  · intro l
    rw [setLabels_append,count_append,h1.count,h2.count]
    split_ifs <;> omega
  · have ht1 := h1.targets
    have ht2 := h2.targets
    simp only [jumpTargets_append,mem_append]
    grind

theorem nil (others : List Nat) (n : Nat) : Ranged others n n [] := by
  refine ⟨Nat.le_refl n,?_,by simp,namesNumbers_nil⟩
  intro l
  rw [if_neg (by omega)]
  rfl

theorem plain_cons (hi : i.isPlain = true) (h : Ranged others first past code) :
    Ranged others first past (i :: code) := by
  obtain ⟨hlabel,hbranch⟩ : i.isLabel = false ∧ i.isBranch = false := by
    simpa [Instr.isPlain] using hi
  refine ⟨h.le,?_,?_,?_⟩
  · simpa [setLabels,Instr.setsLabel?,hlabel] using h.count
  · simpa [jumpTargets,Instr.branchesTo?,hbranch] using h.targets
  · intro j hj hnamed
    obtain rfl | hj := mem_cons.1 hj
    · simp [hlabel,hbranch] at hnamed
    · exact h.numbered j hj hnamed

theorem plain (others : List Nat) (n : Nat) (hi : i.isPlain = true) :
    Ranged others n n [i] := plain_cons hi (.nil others n)

theorem label (others : List Nat) (n : Nat) : Ranged others n (n + 1) [labelAt n] := by
  refine ⟨Nat.le_succ n,?_,by simp,by simp⟩
  intro l
  simp only [setLabels_labelAt,setLabels_nil,count_cons,count_nil,beq_iff_eq]
  split_ifs <;> omega

theorem branch_cons (hjump : jump ∈ branchOpcodes) (hl : l ∈ others)
    (h : Ranged others first past code) : Ranged others first past (branchTo jump l :: code) := by
  have hbranch := branchesTo?_branchTo l hjump
  have hlabel := isLabel_branchTo l hjump
  refine ⟨h.le,?_,?_,?_⟩
  · simpa [setLabels,Instr.setsLabel?,hlabel] using h.count
  · intro l' hl'
    rw [jumpTargets,filterMap_cons_some hbranch,mem_cons] at hl'
    obtain rfl | hl' := hl'
    · exact .inl hl
    · exact h.targets l' hl'
  · intro j hj hnamed
    obtain rfl | hj := mem_cons.1 hj
    · exact ⟨l,rfl⟩
    · exact h.numbered j hj hnamed

theorem jump (n : Nat) (hl : l ∈ others) : Ranged others n n [jumpTo l] :=
  branch_cons (by decide) hl (.nil others n)

theorem mem_setLabels (h : Ranged others first past code) (l : Nat) :
    l ∈ setLabels code ↔ first ≤ l ∧ l < past := by
  rw [← count_pos_iff,h.count]
  split_ifs <;> simp_all

end Ranged

def Surroundings.exits (σ : Surroundings) : List Nat :=
  σ.handlers ++ σ.loops.flatMap fun loop => [loop.1,loop.2]

@[simp]
theorem mem_exits_inLoop (σ : Surroundings) (head done l : Nat) :
    l ∈ (σ.inLoop head done).exits ↔ l = head ∨ l = done ∨ l ∈ σ.exits := by
  simp only [Surroundings.exits,Surroundings.inLoop,flatMap_cons,mem_append,
    mem_cons,not_mem_nil,or_false]
  tauto

theorem ranged_leave (σ : Surroundings) (filler : Datum) (n : Nat) :
    Ranged σ.exits n n [σ.leave filler] := by
  unfold Surroundings.leave
  split
  · rename_i handler rest hhandlers
    exact .jump n (by simp [Surroundings.exits,hhandlers])
  · split
    · exact .plain _ n rfl
    · exact .plain _ n rfl

theorem ranged_passPending (σ : Surroundings) (zero : Datum) (next : Nat) :
    Ranged σ.exits next (next + 1) (passPending σ zero next) := by
  have hleave : Ranged (next :: σ.exits) next next [σ.leave zero] :=
    (ranged_leave σ zero next).mono fun _ hl => .inl (mem_cons_of_mem next hl)
  have h : Ranged (next :: σ.exits) next (next + 1) (passPending σ zero next) :=
    .plain_cons rfl (.plain_cons rfl (.branch_cons (by decide) mem_cons_self
      (hleave.append (.label _ next))))
  apply h.mono
  intro l hl
  obtain rfl | hl := mem_cons.1 hl
  · exact .inr ⟨Nat.le_refl l,Nat.lt_succ_self l⟩
  · exact .inl hl

theorem isPlain_binaryOpcode (op : String) (args r : Datum) :
    (Instr.mk (binaryOpcode op) args r .opcodeFirst).isPlain = true := by
  unfold binaryOpcode
  split <;> rfl

theorem isPlain_unaryOpcode (op : String) (args r : Datum) :
    (Instr.mk (unaryOpcode op) args r .opcodeFirst).isPlain = true := by
  unfold unaryOpcode
  split <;> rfl

mutual

theorem ExprEmits.ranged : ExprEmits σ n k v c k' → Ranged σ.exits k.labels k'.labels c
  | .var _ _ _ k | .other k _ => .nil _ k.labels
  | .number _ _ _ k | .boolean _ _ _ k => .plain _ k.labels rfl
  | .binary _ _ op ha hb =>
    (ha.ranged.append hb.ranged).append (.plain _ _ (isPlain_binaryOpcode op _ _))
  | .unary _ _ op ha => ha.ranged.append (.plain _ _ (isPlain_unaryOpcode op _ _))
  | .function _ _ hargs _ | .subroutine _ _ hargs _ =>
    hargs.ranged.append (.plain_cons rfl (ranged_passPending σ _ _))

theorem ArgsEmit.ranged {σ count index args k k' c} :
    ArgsEmit σ count index args k c k' → Ranged σ.exits k.labels k'.labels c
  | .nil _ _ k => .nil _ k.labels
  | .cons harg hrest => harg.ranged.append (.plain_cons rfl hrest.ranged)

end

theorem comparisonJump?_mem (h : comparisonJump? op = some jump) : jump ∈ branchOpcodes := by
  unfold comparisonJump? at h
  split at h <;> cases h <;> decide

theorem Ranged.logical (h1 : Ranged others' k k1 c1) (h2 : Ranged others (k1 + 1) k2 c2)
    (hothers : ∀ l ∈ others', l ∈ others ∨ l = k) :
    Ranged others k k2 (c1 ++ labelAt k1 :: c2) := by
  have hle1 := h1.le
  have hle2 := h2.le
  refine ⟨by omega,?_,?_,by simp [h1.numbered,h2.numbered]⟩
  · intro l
    simp only [setLabels_append,setLabels_labelAt,count_append,count_cons,beq_iff_eq,
      h1.count,h2.count]
    split_ifs <;> omega
  · have ht1 := h1.targets
    have ht2 := h2.targets
    simp only [jumpTargets_append,jumpTargets_labelAt,mem_append]
    grind

theorem CondEmits.ranged (h : CondEmits σ n yes no k c k') :
    Ranged (yes :: no :: σ.exits) k.labels k'.labels c := by
  induction h with
  | isTrue | isFalse => exact .jump _ (by simp)
  | var =>
    exact .plain_cons rfl (.plain_cons rfl (.branch_cons (by decide) (by simp) (.jump _ (by simp))))
  | comparison line type yes no hjump ha hb =>
    have hoperands := (ha.ranged.append hb.ranged).mono fun l hl =>
      .inl (mem_cons_of_mem yes (mem_cons_of_mem no hl))
    exact hoperands.append (.plain_cons rfl (.branch_cons (comparisonJump?_mem hjump) (by simp)
      (.jump _ (by simp))))
  | and line type ha hb iha ihb | or line type ha hb iha ihb =>
    apply iha.logical ihb
    grind
  | not line type ha ih => exact ih.mono (by grind)
  | other yes no k => exact .nil _ k.labels

theorem InitsEmit.ranged {σ inits k k' c scopes vars} (h : InitsEmit σ inits k c scopes vars k') :
    Ranged σ.exits k.labels k'.labels c := by
  induction h with
  | nil σ k => exact .nil _ k.labels
  | cons line hvalue hrest ih => exact hvalue.ranged.append (.plain_cons rfl ih)

section

theorem Ranged.ifElse (hc : Ranged (k :: (k + 1) :: others) (k + 3) k1 c1)
    (ha : Ranged others k1 k2 c2) (hb : Ranged others k2 k3 c3) :
    Ranged others k k3 (c1 ++ labelAt k :: c2 ++ jumpTo (k + 2) :: labelAt (k + 1) :: c3 ++
      [labelAt (k + 2)]) := by
  have hle1 := hc.le
  have hle2 := ha.le
  have hle3 := hb.le
  refine ⟨by omega,?_,?_,by simp [hc.numbered,ha.numbered,hb.numbered]⟩
  · intro l
    simp only [setLabels_append,setLabels_labelAt,setLabels_jumpTo,setLabels_nil,count_append,
      count_cons,count_nil,beq_iff_eq,hc.count,ha.count,hb.count]
    split_ifs <;> omega
  · have ht1 := hc.targets
    have ht2 := ha.targets
    have ht3 := hb.targets
    simp only [jumpTargets_append,jumpTargets_labelAt,jumpTargets_jumpTo,jumpTargets_nil,
      mem_append,mem_cons]
    grind

theorem Ranged.loop (hc : Ranged ((k + 1) :: (k + 2) :: others') (k + 3) k1 c1)
    (hb : Ranged others' k1 k2 c2) (hothers : ∀ l ∈ others', l = k ∨ l = k + 2 ∨ l ∈ others) :
    Ranged others k k2 (labelAt k :: c1 ++ labelAt (k + 1) :: c2 ++
      [jumpTo k,labelAt (k + 2)]) := by
  have hle1 := hc.le
  have hle2 := hb.le
  refine ⟨by omega,?_,?_,by simp [hc.numbered,hb.numbered]⟩
  · intro l
    simp only [setLabels_append,setLabels_labelAt,setLabels_jumpTo,setLabels_nil,count_append,
      count_cons,count_nil,beq_iff_eq,hc.count,hb.count,cons_append]
    split_ifs <;> omega
  · have ht1 := hc.targets
    have ht2 := hb.targets
    simp only [jumpTargets_append,jumpTargets_labelAt,jumpTargets_jumpTo,jumpTargets_nil,
      mem_append,mem_cons,cons_append]
    grind

theorem Ranged.tryExcept (hb : Ranged (k :: others) (k + 2) k1 c1)
    (hc : Ranged ((k + 1) :: others) k1 k2 c2) (hp : Ranged others (k + 1) (k + 2) c3) :
    Ranged others k k2 (c1 ++ jumpTo (k + 1) :: labelAt k :: c2 ++ c3) := by
  have hle1 := hb.le
  have hle2 := hc.le
  refine ⟨by omega,?_,?_,by simp [hb.numbered,hc.numbered,hp.numbered]⟩
  · intro l
    simp only [setLabels_append,setLabels_labelAt,setLabels_jumpTo,count_append,
      count_cons,beq_iff_eq,hb.count,hc.count,hp.count]
    split_ifs <;> omega
  · have ht1 := hb.targets
    have ht2 := hc.targets
    have ht3 := hp.targets
    simp only [jumpTargets_append,jumpTargets_labelAt,jumpTargets_jumpTo,mem_append,mem_cons]
    grind

theorem Ranged.catchClause (htest : Ranged (k :: others) k k c1) (hb : Ranged others (k + 1) k1 c2)
    (hr : Ranged (done :: others) k1 k2 c3) :
    Ranged (done :: others) k k2 (c1 ++ c2 ++ jumpTo done :: labelAt k :: c3) := by
  have hle1 := hb.le
  have hle2 := hr.le
  refine ⟨by omega,?_,?_,by simp [htest.numbered,hb.numbered,hr.numbered]⟩
  · intro l
    simp only [setLabels_append,setLabels_labelAt,setLabels_jumpTo,count_append,
      count_cons,beq_iff_eq,htest.count,hb.count,hr.count]
    split_ifs <;> omega
  · have ht1 := htest.targets
    have ht2 := hb.targets
    have ht3 := hr.targets
    simp only [jumpTargets_append,jumpTargets_labelAt,jumpTargets_jumpTo,mem_append,mem_cons]
    grind

end

theorem ranged_catchTest (others : List Nat) (name : String) (k : Counters) :
    Ranged (k.labels :: others) k.labels k.labels (catchTest name k) :=
  .plain_cons rfl (.plain_cons rfl (.branch_cons (by decide) mem_cons_self
    (.plain_cons rfl (.plain _ _ rfl))))

mutual

theorem StatementEmits.ranged :
    StatementEmits σ n k c scopes vars k' → Ranged σ.exits k.labels k'.labels c
  | .varDecl _ _ h => h.ranged
  | .assign _ _ h => h.ranged.append (.plain _ _ rfl)
  | .eval _ h => h.ranged
  | .block _ h => h.ranged
  | .ifElse _ hc ha hb => .ifElse hc.ranged ha.ranged hb.ranged
  | .loop _ hc hb => .loop hc.ranged hb.ranged fun _ => (mem_exits_inLoop σ _ _ _).1
  | .break _ k hloops | .continue _ k hloops => .jump _ (by simp [Surroundings.exits,hloops])
  | .noJump _ _ k _ => .nil _ k.labels
  | .bareReturn _ k => .plain _ k.labels rfl
  | .return _ _ h => h.ranged.append (.plain _ _ rfl)
  | .tryExcept _ hb hc => .tryExcept hb.ranged hc.ranged (ranged_passPending _ _ _)
  | .raise _ _ k => .plain_cons rfl (.plain_cons rfl (ranged_leave σ _ _))
  | .other k _ => .nil _ k.labels

theorem StatementsEmit.ranged :
    StatementsEmit σ ns k c scopes vars k' → Ranged σ.exits k.labels k'.labels c
  | .nil _ k => .nil _ k.labels
  | .cons hn hrest => hn.ranged.append hrest.ranged

theorem CatchesEmit.ranged :
    CatchesEmit σ done ns k c scopes vars k' → Ranged (done :: σ.exits) k.labels k'.labels c
  | .nil _ _ k => .nil _ k.labels
  | .cons _ name hb hr => .catchClause (ranged_catchTest _ name _) hb.ranged hr.ranged

end

structure WellLabelled (s : Lowering) : Prop where
  body : s.body = #[]
  exits : s.surroundings.exits = []
  count : ∀ l, (setLabels (s.items.toList.flatMap Item.code)).count l = if l < s.labels then 1 else 0
  closed : ∀ item ∈ s.items.toList, jumpTargets item.code ⊆ setLabels item.code
  numbered : ∀ item ∈ s.items.toList, NamesNumbers item.code

theorem keepsLabels_report (reason : String) (line : Int) :
    Respects (Keeps WellLabelled) (Lower.report reason line) :=
  .modify fun _ h => ⟨h.body,h.exits,h.count,h.closed,h.numbered⟩

theorem keepsLabels_addGlobal (name : String) (init : Init) :
    Respects (Keeps WellLabelled) (addGlobal name init) := by
  refine .modify fun s h => ⟨h.body,h.exits,?_,?_,?_⟩
  · simpa [Item.code] using h.count
  · simpa [or_imp,forall_and,Item.code] using h.closed
  · simpa [or_imp,forall_and,Item.code] using h.numbered

theorem keepsLabels_bind (x r : String) : Respects (Keeps WellLabelled) (Lower.bind x r) :=
  respects_bind fun _ h => ⟨h.body,h.exits,h.count,h.closed,h.numbered⟩

theorem WellLabelled.addProcedure (h : WellLabelled s) (hcode : Ranged [] s.labels s'.labels code)
    (hexits : s'.surroundings.exits = []) (hbody : s'.body = #[])
    (hitems : s'.items.toList = s.items.toList ++ [.procedure name params code]) :
    WellLabelled s' := by
  refine ⟨hbody,hexits,?_,?_,?_⟩
  · intro l
    have hle := hcode.le
    rw [hitems,flatMap_append,setLabels_append,count_append,h.count,
      flatMap_singleton,Item.code,hcode.count]
    split_ifs <;> omega
  · rw [hitems,forall_mem_append,forall_mem_singleton]
    refine ⟨h.closed,fun l hl => ?_⟩
    rw [Item.code,hcode.mem_setLabels]
    exact (hcode.targets l hl).resolve_left not_mem_nil
  · rw [hitems,forall_mem_append,forall_mem_singleton]
    exact ⟨h.numbered,hcode.numbered⟩

theorem keepsLabels_lowerDeclaration (d : Node) : Respects (Keeps WellLabelled) (lowerDeclaration d) := by
  cases d with
  | varDecl =>
    exact respects_lowerGlobals keepsLabels_report keepsLabels_addGlobal
      (fun name => keepsLabels_bind name _) _ _
  | procDecl line name block params result raises =>
    intro s a s' hrun h
    obtain ⟨names,s1,-,statements,code,scopes,vars,henter,-,hcode,-,hσ,hbody,hitems⟩ :=
      emits_procedure hrun
    have h1 : WellLabelled s1 := respects_enterProcedure (fun x _ => keepsLabels_bind x _)
      (fun _ h => ⟨h.body,h.exits,h.count,h.closed,h.numbered⟩) _ _ _ henter h
    have hranged : Ranged [] s1.labels s'.labels code := by
      rw [← h1.exits]
      exact hcode.ranged
    rw [h1.body] at hitems
    exact h1.addProcedure hranged (by rw [hσ]; exact h1.exits) hbody hitems
  | _ => exact .pure

theorem keepsLabels_lowerProgram (declarations : List Node) :
    Respects (Keeps WellLabelled) (lowerProgram declarations) :=
  respects_lowerProgram keepsLabels_addGlobal (keepsLabels_bind _ _) fun d _ =>
    keepsLabels_lowerDeclaration d

theorem wellLabelled_start (functions : List String) (reporter : Reporter) :
    WellLabelled { functions, reporter } := ⟨rfl,rfl,fun _ => rfl,by simp,by simp⟩

theorem lowerProgram_wellLabelled (declarations : List Node) (functions : List String)
    (reporter : Reporter) (s : Lowering)
    (h : Runs (lowerProgram declarations) { functions, reporter } () s) :
    (setLabels (s.items.toList.flatMap Item.code)).Nodup ∧
      ∀ name params body, Item.procedure name params body ∈ s.items.toList →
        (∀ l ∈ jumpTargets body, l ∈ setLabels body) ∧
          ∀ i ∈ body, i.isLabel = true ∨ i.isBranch = true →
            ∃ n : Nat, i.args = .list [.int n] := by
  have hs := keepsLabels_lowerProgram declarations _ _ _ h (wellLabelled_start functions reporter)
  constructor
  · rw [nodup_iff_count]
    intro l
    rw [hs.count]
    split_ifs <;> omega
  · intro name params body hitem
    exact ⟨hs.closed _ hitem,hs.numbered _ hitem⟩

def pollingProgram : List Node :=
  let number (n : Int) : Node := .number 1 Node.undefined (.int n)
  let binary (a : Node) (op : String) (b : Node) : Node := .binary 1 Node.undefined a b op
  let poll : Node := .call 1 Node.undefined "poll" [number 1]
  let spare : Node := .unary 1 Node.undefined (binary poll "<=" (number 4)) "!"
  [.procDecl 1 "main"
    (.block 1
      [.tryExcept 1
        (.block 1
          [.while' 1 (binary (binary (binary poll "<" (number 2)) "&&" spare) "||" spare)
            (.block 1 [.ifElse 1 spare (.block 1 [.jump 1 "break"]) (.block 1 [.raise 1 "Late"])])])
        [.catch' 1 "Late" (.block 1 [])]])
    [] .absent []]

theorem pollingProgram_wellLabelled :
    ∃ s, Runs (lowerProgram pollingProgram) { functions := ["poll"], reporter := {} } () s ∧
      s.labels = 15 ∧ (setLabels (s.items.toList.flatMap Item.code)).Nodup ∧
      ∀ name params body, Item.procedure name params body ∈ s.items.toList →
        ∀ l ∈ jumpTargets body, l ∈ setLabels body := by
  have hrun := runs_of_isOk (x := lowerProgram pollingProgram)
    (s := { functions := ["poll"], reporter := {} }) (by decide +kernel)
  obtain ⟨hnodup,hclosed⟩ := lowerProgram_wellLabelled _ _ _ _ hrun
  exact ⟨_,hrun,by decide +kernel,hnodup,fun name params body hitem =>
    (hclosed name params body hitem).1⟩

end BxToolchain.Bx
