import BxToolchain.Proofs.Bx.Preservation

namespace BxToolchain.Bx

open Lower List

variable {names : Declared} {σ : Surroundings} {k k' : Counters} {c code : List Instr} {n : Node}
  {yes no l : Nat} {vars : List String} {holds : Scopes → Option Bool}

namespace Node

def isConnective (op : String) : Bool := op == "&&" || op == "||"

def isLogical (vars : List String) : Node → Bool
  | .var _ _ x => vars.contains x
  | .boolean _ _ b => (truth? b).isSome
  | .binary _ _ a b op =>
    if isConnective op then a.isLogical vars && b.isLogical vars
    else (comparison? op).isSome && a.isInteger vars && b.isInteger vars
  | .unary _ _ a op => op == "!" && a.isLogical vars
  | _ => false

def isCompound : Node → Bool
  | .binary _ _ _ _ op => isConnective op
  | .unary _ _ a _ => a.isCompound
  | _ => false

def isRightNested : Node → Bool
  | .binary _ _ a b op => !isConnective op || !a.isCompound && b.isRightNested
  | .unary _ _ a _ => a.isRightNested
  | _ => true

section

theorem isLogical_connective (hop : isConnective op = true)
    (h : (Node.binary line type a b op).isLogical vars = true) :
    a.isLogical vars = true ∧ b.isLogical vars = true := by
  simpa [isLogical,hop] using h

theorem isLogical_comparison (hop : isConnective op = false)
    (h : (Node.binary line type a b op).isLogical vars = true) :
    (comparison? op).isSome = true ∧ a.isInteger vars = true ∧ b.isInteger vars = true := by
  simpa [isLogical,hop,and_assoc] using h

theorem isRightNested_connective (hop : isConnective op = true)
    (h : (Node.binary line type a b op).isRightNested = true) :
    a.isCompound = false ∧ b.isRightNested = true := by
  simpa [isRightNested,hop] using h

end

theorem isCondition_of_isLogical (h : n.isLogical vars = true) (hc : n.isCompound = false) :
    n.isCondition vars = true := by
  fun_induction isLogical vars n with
  | case1 | case2 => exact h
  | case3 line type a b op hop => simp [isCompound,hop] at hc
  | case4 => simpa [isCondition] using h
  | case5 line type a op ih =>
    simp only [Bool.and_eq_true] at h
    simp [isCondition,h.1,ih h.2 hc]
  | case6 => cases h

theorem isDecidable_of_isLogical (h : n.isLogical vars = true) : n.isDecidable = true := by
  fun_induction isLogical vars n with
  | case1 | case2 => rfl
  | case3 line type a b op hop iha ihb =>
    have hor : op = "&&" ∨ op = "||" := by simpa [isConnective] using hop
    simp only [Bool.and_eq_true] at h
    obtain rfl | rfl := hor <;> simp [isDecidable,comparisonJump?,iha h.1,ihb h.2]
  | case4 line type a b op hop =>
    simp only [Bool.and_eq_true,Option.isSome_iff_exists] at h
    obtain ⟨⟨⟨compare,hcompare⟩,ha⟩,hb⟩ := h
    obtain ⟨jump,hjump,-⟩ := comparisonJump?_of_comparison? hcompare
    simp [isDecidable,hjump,isComputable_of_isInteger ha,isComputable_of_isInteger hb]
  | case5 line type a op ih =>
    simp only [Bool.and_eq_true,beq_iff_eq] at h
    obtain ⟨rfl,ha⟩ := h
    simp [isDecidable,ih ha]
  | case6 => cases h

theorem holds?_and (line : Int) (type : String) (a b : Node) (env : Scopes) :
    (Node.binary line type a b "&&").holds? env =
      (a.holds? env).bind fun x => if x = true then b.holds? env else some x := by
  simp only [holds?,Option.bind_eq_bind,Option.pure_def]
  congr 1
  funext x
  cases x <;> rfl

theorem holds?_or (line : Int) (type : String) (a b : Node) (env : Scopes) :
    (Node.binary line type a b "||").holds? env =
      (a.holds? env).bind fun x => if x = false then b.holds? env else some x := by
  simp only [holds?,Option.bind_eq_bind,Option.pure_def]
  congr 1
  funext x
  cases x <;> rfl

end Node

theorem isConnective_of_comparisonJump? (h : comparisonJump? op = some jump) :
    Node.isConnective op = false := by
  unfold comparisonJump? at h
  split at h <;> first | rfl | cases h

theorem ExprEmits.ranged_of_isInteger (h : ExprEmits σ n k v c k')
    (hn : n.isInteger vars = true) : k'.labels = k.labels ∧ Ranged [] k.labels k.labels c := by
  induction n using Node.isInteger.induct generalizing k v c k' with
  | case1 =>
    cases h with
    | other _ hterm => cases hterm
    | var => exact ⟨rfl,.nil _ _⟩
  | case2 =>
    cases h with
    | other _ hterm => cases hterm
    | number => exact ⟨rfl,.plain _ _ rfl⟩
  | case3 line type a b op iha ihb =>
    simp only [Node.isInteger,Bool.and_eq_true] at hn
    cases h with
    | other _ hterm => cases hterm
    | binary _ _ _ ha hb =>
      obtain ⟨hla,hra⟩ := iha ha hn.1.2
      obtain ⟨hlb,hrb⟩ := ihb hb hn.2
      rw [hla] at hlb hrb
      exact ⟨hlb,(hra.append hrb).append (.plain _ _ (isPlain_binaryOpcode op _ _))⟩
  | case4 line type a op ih =>
    simp only [Node.isInteger,Bool.and_eq_true] at hn
    cases h with
    | other _ hterm => cases hterm
    | unary _ _ _ ha =>
      obtain ⟨hla,hra⟩ := ih ha hn.2
      exact ⟨hla,hra.append (.plain _ _ (isPlain_unaryOpcode op _ _))⟩
  | case5 => simp [Node.isInteger] at hn

theorem Node.isTest_of_isLogical (h : n.isLogical vars = true) : n.isTest = true := by
  fun_cases Node.isLogical vars n with
  | case1 => rfl
  | case2 line type b =>
    simp only [isLogical,truth?] at h
    split at h
    · rfl
    · rfl
    · cases h
  | case3 line type a b op hop =>
    have hor : op = "&&" ∨ op = "||" := by simpa [isConnective] using hop
    obtain rfl | rfl := hor <;> rfl
  | case4 line type a b op hop =>
    obtain ⟨hsome,-,-⟩ := isLogical_comparison (by simpa using hop) h
    obtain ⟨compare,hcompare⟩ := Option.isSome_iff_exists.1 hsome
    obtain ⟨jump,hjump,-⟩ := comparisonJump?_of_comparison? hcompare
    simp [isTest,hjump]
  | case5 line type a op =>
    simp only [isLogical,Bool.and_eq_true] at h
    exact h.1
  | case6 => simp_all [isLogical]

section

variable (h : CondEmits σ n yes no k c k') (hn : n.isLogical vars = true)
include h hn

theorem CondEmits.ranged_of_isLogical : Ranged [yes,no] k.labels k'.labels c := by
  induction h with
  | isTrue | isFalse => exact .jump _ (by simp)
  | var =>
    exact .plain_cons rfl (.plain_cons rfl (.branch_cons (by decide) (by simp) (.jump _ (by simp))))
  | @comparison line type op jump yes no a b k k1 k2 _ _ c1 c2 hjump hx hy =>
    obtain ⟨-,hna,hnb⟩ := Node.isLogical_comparison (isConnective_of_comparisonJump? hjump) hn
    obtain ⟨hx,hrx⟩ := hx.ranged_of_isInteger hna
    obtain ⟨hy,hry⟩ := hy.ranged_of_isInteger hnb
    rw [hx] at hy hry
    rw [hy]
    exact ((hrx.append hry).mono (by simp)).append (.plain_cons rfl
      (.branch_cons (comparisonJump?_mem hjump) (by simp) (.jump _ (by simp))))
  | and line type ha hb iha ihb | or line type ha hb iha ihb =>
    obtain ⟨hna,hnb⟩ := Node.isLogical_connective rfl hn
    apply (iha hna).logical (ihb hnb)
    grind
  | not line type ha ih =>
    simp only [Node.isLogical,Bool.and_eq_true] at hn
    exact (ih hn.2).mono (by grind)
  | other yes no k htest => cases (Node.isTest_of_isLogical hn).symm.trans htest

theorem CondEmits.labels_lt_iff : k.labels < k'.labels ↔ n.isCompound = true := by
  induction h with
  | isTrue | isFalse | var => simp [Node.isCompound,Counters.addTemp]
  | comparison line type yes no hjump hx hy =>
    have hop := isConnective_of_comparisonJump? hjump
    obtain ⟨-,hna,hnb⟩ := Node.isLogical_comparison hop hn
    have hlx := (hx.ranged_of_isInteger hna).1
    have hly := (hy.ranged_of_isInteger hnb).1
    simp [Node.isCompound,hop,hly,hlx]
  | and line type ha hb | or line type ha hb =>
    have hle1 := ha.ranged.le
    have hle2 := hb.ranged.le
    simp only [Counters.addLabels] at hle2
    simp only [Node.isCompound,Node.isConnective]
    exact iff_of_true (by omega) (by decide)
  | not line type ha ih =>
    simp only [Node.isLogical,Bool.and_eq_true] at hn
    exact ih hn.2
  | other yes no k htest => cases (Node.isTest_of_isLogical hn).symm.trans htest

theorem CondEmits.labels_eq (hsimple : n.isCompound = false) : k'.labels = k.labels := by
  have hle := h.ranged.le
  have hlt : ¬k.labels < k'.labels := by rw [h.labels_lt_iff hn,hsimple]; decide
  omega

end

structure Selects (names : Declared) (σ : Surroundings) (yes no : Nat) (k : Counters)
    (c : List Instr) (k' : Counters) (holds : Scopes → Option Bool) : Prop where
  le : k.temps ≤ k'.temps
  tries : ∀ {code pc τ env p q}, CodeAt code pc c → FindsLabels code →
    Holds τ env names σ.scopes → labelIndex code (labelName yes) = some p →
    labelIndex code (labelName no) = some q →
    Tries code pc τ (fun b pc' τ' => pc' = (if b then p else q) ∧ Kept k.temps τ τ') (holds env)

theorem Tries.imp (h : Tries code pc τ P o) (himp : ∀ a pc' τ', P a pc' τ' → Q a pc' τ') :
    Tries code pc τ Q o := by
  cases o with
  | none => exact h
  | some a =>
    obtain ⟨n,pc',τ',hgo,ha⟩ := h
    exact ⟨n,pc',τ',hgo,himp a pc' τ' ha⟩

theorem Branches.selects (h : Branches names σ yes no k c k' holds) :
    Selects names σ yes no k c k' holds :=
  ⟨h.le,fun hcode _ => h.tries hcode⟩

theorem Selects.swap (h : Selects names σ no yes k c k' holds) :
    Selects names σ yes no k c k' (fun env => (holds env).map not) := by
  refine ⟨h.le,fun {code pc τ env p q} hcode hfinds hholds hp hq => ?_⟩
  rw [Option.map_eq_bind]
  refine (h.tries hcode hfinds hholds hq hp).bind fun b pc' τ' ⟨hpc,hkept⟩ =>
    ⟨0,_,_,.refl,?_,hkept⟩
  cases b <;> exact hpc

section

theorem Branches.andThen (hleft : Branches names σ (if w then k1.labels else yes)
      (if w then no else k1.labels) k c1 k1 left)
    (hright : Selects names σ yes no (k1.addLabels 1) c2 k2 right)
    (ha : Allocated k.temps names σ.scopes) :
    Selects names σ yes no k (c1 ++ labelAt k1.labels :: c2) k2
      (fun env => (left env).bind fun b => if b = w then right env else some b) := by
  have hle := hleft.le
  refine ⟨Nat.le_trans hle hright.le,fun {code pc τ env p q} hcode hfinds hholds hp hq => ?_⟩
  have hlabel := hcode.right.head
  have hmiddle := hfinds hlabel
  have hpass : ∀ τ, Goes code 1 (pc + c1.length) τ (pc + c1.length + 1) τ :=
    fun _ => goes_label hlabel rfl
  have hgo := hleft.tries (p := if w then pc + c1.length else p)
    (q := if w then q else pc + c1.length) hcode.left hholds
    (by cases w <;> simp_all) (by cases w <;> simp_all)
  refine hgo.bind fun b pc' τ' ⟨hpc,hkept⟩ => ?_
  by_cases hb : b = w
  · subst hb
    have hpc : pc' = pc + c1.length := by cases b <;> simpa using hpc
    subst hpc
    rw [if_pos rfl]
    refine ((hright.tries hcode.right.tail hfinds (hholds.frame ha hkept) hp hq).imp
      fun _ _ _ h => ⟨h.1,hkept.trans hle h.2⟩).prepend (hpass τ')
  · rw [if_neg hb]
    refine ⟨0,_,_,.refl,?_,hkept⟩
    cases b <;> cases w <;> simp_all

end

theorem CondEmits.selects (h : CondEmits σ n yes no k c k')
    (hn : n.isLogical names.flatten = true) (hnested : n.isRightNested = true)
    (ha : Allocated k.temps names σ.scopes) :
    Selects names σ yes no k c k' (fun env => n.holds? env) := by
  induction h with
  | isTrue line type yes no k hb =>
    exact ((CondEmits.isTrue line type yes no k hb).branches hn ha).selects
  | isFalse line type yes no k hb =>
    exact ((CondEmits.isFalse line type yes no k hb).branches hn ha).selects
  | var line type x yes no k =>
    exact ((CondEmits.var line type x yes no k).branches hn ha).selects
  | comparison line type yes no hjump hx hy =>
    have hn := Node.isCondition_of_isLogical hn (isConnective_of_comparisonJump? hjump)
    exact ((CondEmits.comparison line type yes no hjump hx hy).branches hn ha).selects
  | and line type hx hy _ ih | or line type hx hy _ ih =>
    obtain ⟨hna,hnb⟩ := Node.isLogical_connective rfl hn
    obtain ⟨hsimple,hnested⟩ := Node.isRightNested_connective rfl hnested
    have hleft := hx.branches (Node.isCondition_of_isLogical hna hsimple) ha
    rw [← hx.labels_eq hna hsimple] at hleft
    have hright := ih hnb hnested (ha.mono hleft.le)
    simp only [Node.holds?_and,Node.holds?_or]
    first
    | exact Branches.andThen (w := true) hleft hright ha
    | exact Branches.andThen (w := false) hleft hright ha
  | not line type ha ih =>
    simp only [Node.isLogical,Bool.and_eq_true] at hn
    exact (ih hn.2 hnested ha).swap
  | other yes no k htest => cases (Node.isTest_of_isLogical hn).symm.trans htest

theorem CondEmits.ends_in_jump (h : CondEmits σ n yes no k c k') (hn : n.isLogical vars = true) :
    ∃ l, c.getLast? = some (jumpTo l) := by
  induction h with
  | isTrue | isFalse | var => exact ⟨_,rfl⟩
  | comparison line type yes no => exact ⟨no,by simp⟩
  | and line type hx hy _ ih | or line type hx hy _ ih =>
    obtain ⟨l,hl⟩ := ih (Node.isLogical_connective rfl hn).2
    exact ⟨l,by simp [getLast?_cons,hl]⟩
  | not line type ha ih =>
    simp only [Node.isLogical,Bool.and_eq_true] at hn
    exact ih hn.2
  | other yes no k htest => cases (Node.isTest_of_isLogical hn).symm.trans htest

def Bypasses (σ : Surroundings) (right : Node) (yes no : Nat) (c : List Instr) : Prop :=
  ∃ c1 c2 middle k k', c = c1 ++ labelAt middle :: c2 ∧ CondEmits σ right yes no k c2 k' ∧
    middle ∉ jumpTargets c ∧ ∃ l, c1.getLast? = some (jumpTo l)

theorem CondEmits.bypasses (h : CondEmits σ (.binary line type a b op) yes no k c k')
    (hop : Node.isConnective op = true) (hn : (Node.binary line type a b op).isLogical vars = true)
    (hcompound : a.isCompound = true) (hyes : yes < k.labels) (hno : no < k.labels) :
    Bypasses σ b yes no c := by
  obtain ⟨hna,hnb⟩ := Node.isLogical_connective hop hn
  cases h with
  | comparison _ _ _ _ hjump =>
    rw [isConnective_of_comparisonJump? hjump] at hop
    cases hop
  | other _ _ _ htest =>
    rw [Node.isTest_of_isLogical hn] at htest
    cases htest
  | and _ _ hx hy | or _ _ hx hy =>
    refine ⟨_,_,_,_,_,rfl,hy,fun hmem => ?_,hx.ends_in_jump hna⟩
    -- the left operand has labels of its own, so the one behind it is not the one it was given
    have hlt := (hx.labels_lt_iff hna).2 hcompound
    have hleft := (hx.ranged_of_isLogical hna).targets
    have hright := (hy.ranged_of_isLogical hnb).targets
    simp only [jumpTargets_append,jumpTargets_labelAt,mem_append] at hmem
    simp only [Counters.addLabels] at hright
    obtain hmem | hmem := hmem
    · have := hleft _ hmem
      simp only [mem_cons,not_mem_nil,or_false] at this
      omega
    · have := hright _ hmem
      simp only [mem_cons,not_mem_nil,or_false] at this
      omega

theorem lowerCondition_selects (n : Node) (yes no : Nat) (names : Declared) (s : Lowering)
    (hscopes : s.scopes ≠ []) (hn : n.isLogical names.flatten = true)
    (ha : Allocated s.temps names s.scopes) (hyes : yes < s.labels) (hno : no < s.labels) :
    ∃ s' c, Runs (lowerCondition n yes no) s () s' ∧ s'.body.toList = s.body.toList ++ c ∧
      (n.isRightNested = true → ∀ code pc p q τ env, CodeAt code pc c → (setLabels code).Nodup →
        NamesNumbers code → Holds τ env names s.scopes →
        labelIndex code (labelName yes) = some p → labelIndex code (labelName no) = some q →
        Tries code pc τ (fun b pc' τ' => pc' = (if b then p else q) ∧ Kept s.temps τ τ')
          (n.holds? env)) ∧
      ∀ line type a b op, n = .binary line type a b op → Node.isConnective op = true →
        a.isCompound = true → Bypasses s.surroundings b yes no c := by
  have hcompletes := completes_lowerCondition n yes no s hscopes
  rw [Node.isDecidable_of_isLogical hn] at hcompletes
  obtain ⟨_,s',hrun,-⟩ := hcompletes
  obtain ⟨c,k',hemits,hcode⟩ := emits_lowerCondition n yes no (.refl s) hrun
  refine ⟨s',c,hrun,by simpa using hemits.body,?_,?_⟩
  · intro hnested code pc p q τ env hat hnodup hnumbers hholds hp hq
    have hfinds := findsLabels (nodup_iff_count_le_one.1 hnodup) hnumbers
    exact (hcode.selects hn hnested ha).tries hat hfinds hholds hp hq
  · rintro line type a b op rfl hop hcompound
    exact hcode.bypasses hop hn hcompound hyes hno

def guardedTest : Node :=
  let var (x : String) : Node := .var 1 Node.undefined x
  let number (n : Int) : Node := .number 1 Node.undefined (.int n)
  let binary (a : Node) (op : String) (b : Node) : Node := .binary 1 Node.undefined a b op
  binary (binary (var "x") "<" (number 3)) "&&"
    (.unary 1 Node.undefined (binary (var "b") "||" (binary (var "x") "==" (number 1))) "!")

def guardedScopes : List (Table String String) := [⟨[("x","%0")]⟩,⟨[("b","@b")]⟩]

def guardedStore : Store := Store.set (Store.set (fun _ => none) "%0" 2) "@b" 0

theorem guardedTest_selects :
    guardedTest.isLogical ["x","b"] = true ∧ guardedTest.isRightNested = true ∧
    ∃ s' c, Runs (lowerCondition guardedTest 0 1) { temps := 1, labels := 2, scopes := guardedScopes }
        () s' ∧ s'.body.toList = c ∧
      ∃ steps τ', Goes (c ++ [labelAt 0,labelAt 1]) steps 0 guardedStore c.length τ' ∧
        τ' "%0" = some 2 ∧ τ' "@b" = some 0 := by
  have hkey {α : Type} {k x : String} {v u : α} (h : (⟨[(k,v)]⟩ : Table String α).get? x = some u) :
      x ∈ [k] := by
    simpa using (Prod.mk.inj (mem_singleton.1 (Table.mem_of_get? h))).1
  have hglobal : Old 1 "@b" := fun k _ => by simp [register,← String.toList_inj]
  have hallocated : Allocated 1 [["x"],["b"]] guardedScopes := by
    refine ⟨?_,by simp,?_,?_,by simp,by simp,trivial⟩
    · simp only [mem_singleton,forall_eq]
      exact ⟨"%0",rfl,old_register 0,by decide⟩
    · exact fun _ _ _ => hkey
    · simp only [mem_singleton,forall_eq]
      exact ⟨"@b",rfl,hglobal,by decide⟩
  obtain ⟨s',c,hrun,hbody,hselects,-⟩ := lowerCondition_selects guardedTest 0 1 [["x"],["b"]]
    { temps := 1, labels := 2, scopes := guardedScopes } (by decide) (by decide) hallocated (by decide)
    (by decide)
  obtain ⟨c',k',hemits,hcode⟩ := emits_lowerCondition guardedTest 0 1 (.refl _) hrun
  obtain rfl : c = c' := append_cancel_left (hbody.symm.trans hemits.body)
  have hc : c = s'.body.toList := by simpa using hbody.symm
  obtain rfl := after_eq hrun
  subst hc
  have hholds : Holds guardedStore [⟨[("x",2)]⟩,⟨[("b",0)]⟩] [["x"],["b"]] guardedScopes := by
    refine ⟨?_,?_,?_,?_,trivial⟩
    · simp only [mem_singleton,forall_eq]
      exact ⟨2,"%0",rfl,rfl,rfl⟩
    · exact fun _ _ => hkey
    · simp only [mem_singleton,forall_eq]
      exact ⟨0,"@b",rfl,rfl,rfl⟩
    · exact fun _ _ => hkey
  refine ⟨by decide,by decide,_,_,hrun,rfl,?_⟩
  obtain ⟨steps,_,τ',hgo,rfl,hkept⟩ := hselects (by decide) _ 0 _ _ guardedStore _
    ⟨[],[labelAt 0,labelAt 1],rfl,rfl⟩ (by decide) (by simp [hcode.ranged.numbered]) hholds rfl rfl
  exact ⟨steps,τ',hgo,hkept _ (old_register 0),hkept _ hglobal⟩

def chainedTest : Node :=
  let holds : Node := .boolean 1 Node.undefined (.str "true")
  let both (a b : Node) : Node := .binary 1 Node.undefined a b "&&"
  both (both holds holds) holds

theorem chainedTest_circles :
    chainedTest.isLogical [] = true ∧ chainedTest.holds? [] = some true ∧
    ∃ s', Runs (lowerCondition chainedTest 0 1) { labels := 2 } () s' ∧
      ∀ τ steps m, Machine.Reach (s'.body.toList ++ [labelAt 0,labelAt 1]) steps { store := τ } m →
        m.pc < s'.body.toList.length := by
  refine ⟨by decide,by decide,_,runs_of_isOk (by decide),fun τ steps m hreach => ?_⟩
  have hcode : ((lowerCondition chainedTest 0 1).run.run { labels := 2 }).2.body.toList =
      [jumpTo 2,labelAt 2,jumpTo 2,labelAt 3,jumpTo 0] := rfl
  rw [hcode] at hreach ⊢
  -- control stays at the first three instructions
  have hinvariant : ∀ steps (m m' : Machine), m.pc < 3 →
      Machine.Reach ([jumpTo 2,labelAt 2,jumpTo 2,labelAt 3,jumpTo 0] ++
        [labelAt 0,labelAt 1]) steps m m' → m'.pc < 3 := by
    intro steps
    induction steps with
    | zero => rintro m _ hm rfl; exact hm
    | succ steps ih =>
      rintro m m' hm ⟨next,hstep,hreach⟩
      refine ih next m' ?_ hreach
      obtain ⟨store,compared,pc⟩ := m
      match pc, hm with
      | 0, _ | 1, _ | 2, _ =>
        cases hstep
        simp
  exact Nat.lt_trans (hinvariant steps _ m (Nat.zero_lt_succ 2) hreach) (by decide)

end BxToolchain.Bx
