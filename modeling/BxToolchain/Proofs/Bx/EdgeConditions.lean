import BxToolchain.Proofs.Bx.Serializing
import BxToolchain.Proofs.Bx.Stages
import BxToolchain.Proofs.Tac.Effects

namespace BxToolchain.Bx

open List Lower

def Comparison.compares (c : Comparison) (a b : Int) : Prop :=
  match c with
  | less => a < b
  | greater => b < a
  | lessEq => a ≤ b
  | greaterEq => b ≤ a
  | equal => a = b
  | notEqual => a ≠ b

theorem Comparison.holds_iff (c : Comparison) (a b : Word) :
    c.holds a b = true ↔ c.compares a.toInt b.toInt := by
  cases c <;>
    simp [holds,compares,BitVec.slt_iff_toInt_lt,BitVec.sle_iff_toInt_le,BitVec.toInt_inj]

namespace Shape

structure Interpretation (σ : Type) extends Meaning σ where
  value : σ → Datum → Word
  compared : σ → Word × Word
  const {i s t k} : perform i s = some t → i.opcode = .str "const" → i.arg 0 = .ok (.int k) →
    value t i.result = BitVec.ofInt 64 k
  keeps {i s t n} : perform i s = some t → i.writes n = false →
    value t (.str (register n)) = value s (.str (register n))
  compare {i s t x y} : perform i s = some t → i.opcode = .str "cmpq" → i.arg 0 = .ok x →
    i.arg 1 = .ok y → value t = value s ∧ compared t = (value s x,value s y)
  test (op : String) (s : σ) : takes (.str op) s =
    (branchNamed? op).any fun c => c.holds (compared s).1 (compared s).2

variable {σ : Type} {s t : σ} {m : Meaning σ} {c front tail body rest : List Instr} {g g' : Graph}
  {i x : Instr} {b : Block} {l : String} {n : Nat} {k : Int} {y z : Datum}

def Interpretation.number (M : Interpretation σ) (s : σ) : Datum → Int
  | .int k => k
  | x => (M.value s x).toInt

def Meaning.pass (m : Meaning σ) : List Instr → σ → Option σ
  | [], s => some s
  | i :: rest, s =>
    match m.turn i s with
    | .next t => m.pass rest t
    | _ => none

theorem pass_append : m.pass (c1 ++ c2) s = (m.pass c1 s).bind (m.pass c2) := by
  induction c1 generalizing s with
  | nil => rfl
  | cons i rest ih =>
    simp only [cons_append,Meaning.pass]
    split
    · exact ih
    · rfl

theorem pass_cons (h : m.pass (i :: c) s = some t) :
    ∃ s1, m.turn i s = .next s1 ∧ m.pass c s1 = some t := by
  rw [Meaning.pass] at h
  split at h
  · exact ⟨_,by assumption,h⟩
  · cases h

def measures (i : Instr) : Bool :=
  match i.opcode with
  | .str op => op == "const" || op == "cmpq"
  | _ => false

theorem not_measures (h : i.isJump = .ok true) : measures i = false := by
  unfold Instr.isJump at h
  split at h
  · rename_i op hop
    rw [measures,hop,Bool.or_eq_false_iff,beq_eq_false_iff_ne,beq_eq_false_iff_ne]
    constructor <;> rintro rfl <;> simp at h
  · cases h

def Meaning.Explains (m : Meaning σ) (i : Instr) (s : σ) : Turn σ → Prop
  | .next t => m.perform i s = some t ∨ t = s ∧ measures i = false
  | .goto _ => i.hasOpcode "jmp" = true ∨ i.isJump = .ok true ∧ m.takes i.opcode s = true
  | .stop => True

theorem explains_turn (m : Meaning σ) (i : Instr) (s : σ) : m.Explains i s (m.turn i s) := by
  unfold Meaning.turn
  split
  · rename_i hop
    exact .inr ⟨rfl,by rw [measures,opcode_of_hasOpcode hop]; rfl⟩
  split
  · trivial
  split
  · rename_i hgoal
    have hjump : i.isJump = .ok true := by
      unfold Instr.goal? at hgoal
      split at hgoal
      · assumption
      · cases hgoal
    split
    · rename_i htakes
      exact (Bool.or_eq_true_iff.1 htakes).imp_right fun h => ⟨hjump,h⟩
    · exact .inr ⟨rfl,not_measures hjump⟩
  · cases hperform : m.perform i s with
    | none => trivial
    | some t => exact .inl hperform

theorem perform_of_next (hi : measures i = true) (h : m.turn i s = .next t) :
    m.perform i s = some t := by
  have hnext : m.Explains i s (.next t) := h ▸ explains_turn m i s
  exact hnext.resolve_right fun hno => by simp [hi] at hno

theorem Interpretation.value_pass (M : Interpretation σ) (hc : writers n c = 0)
    (h : M.pass c s = some t) : M.value t (.str (register n)) = M.value s (.str (register n)) := by
  induction c generalizing s with
  | nil =>
    cases h
    rfl
  | cons i rest ih =>
    rw [writers_cons] at hc
    obtain ⟨s1,hturn,hrest⟩ := pass_cons h
    rw [ih (by omega) hrest]
    have hnext : M.Explains i s (.next s1) := hturn ▸ explains_turn _ i s
    obtain hperform | ⟨rfl,-⟩ := hnext
    · exact M.keeps hperform (by by_contra hw; simp [hw] at hc)
    · rfl

def trace (i : Instr) : Option (Option Instr × Datum) :=
  if measures i then some (some i,i.result)
  else
    match i.result with
    | .null => none
    | r => some (none,r)

def DrawnFrom (c code : List Instr) : Prop := (code.filterMap trace).Sublist (c.filterMap trace)

theorem DrawnFrom.mem (h : DrawnFrom c c1) (hi : i ∈ c1) (hm : measures i = true) : i ∈ c := by
  obtain ⟨j,hj,htrace⟩ := mem_filterMap.1 (h.subset (mem_filterMap.2 ⟨i,hi,if_pos hm⟩))
  unfold trace at htrace
  split at htrace
  · cases htrace
    exact hj
  · split at htrace <;> cases htrace

theorem DrawnFrom.writers_le (h : DrawnFrom c c1) (n : Nat) : writers n c1 ≤ writers n c := by
  have hcount (c : List Instr) : writers n c = (c.filterMap trace).countP (isRegister n ·.2) := by
    rw [countP_filterMap,writers]
    refine countP_congr fun i _ => ?_
    unfold trace Instr.writes
    split
    · rfl
    · split <;> simp_all [isRegister]
  rw [hcount,hcount]
  exact h.countP_le

def Drawn (c : List Instr) (g : Graph) : Prop :=
  g.edges = [] ∧ ∀ l code, g.code l = some code → DrawnFrom c code

theorem Drawn.insert (h : Drawn c g) (hb : DrawnFrom (c ++ [i]) b.content) :
    Drawn (c ++ [i]) { g with blocks := g.blocks.insert l b } := by
  refine ⟨h.1,fun l' code hcode => ?_⟩
  simp only [Graph.code,Table.get?_insert] at hcode
  split at hcode
  · cases hcode
    exact hb
  · exact (h.2 l' code hcode).trans ((sublist_append_left c [i]).filterMap _)

theorem Drawn.append (h : Drawn c g) (hrun : Runs (append l i) g u g') : Drawn (c ++ [i]) g' := by
  simp only [Shape.append,updateBlock,setBlock,runs_bind,runs_block_iff,runs_modify_iff]
    at hrun
  obtain ⟨b,_,⟨hb,rfl⟩,rfl⟩ := hrun
  refine h.insert ?_
  rw [DrawnFrom,filterMap_append,filterMap_append]
  exact (h.2 l b.content (by simp [Graph.code,hb])).append_right _

theorem Drawn.setBlock (h : Drawn c g) (hb : b.content = [i]) (hrun : Runs (setBlock l b) g u g') :
    Drawn (c ++ [i]) g' := by
  obtain rfl := runs_modify_iff.1 hrun
  exact h.insert (hb ▸ (sublist_append_right c [i]).filterMap _)

theorem Drawn.congr (h : Drawn (c ++ [x]) g) (hx : trace x = trace i) : Drawn (c ++ [i]) g := by
  simpa [Drawn,DrawnFrom,filterMap_cons,hx] using h

theorem Drawn.silent (h : Drawn (c ++ [i]) g) (hi : trace i = none) : Drawn c g := by
  simpa [Drawn,DrawnFrom,hi] using h

theorem Drawn.freshBlock (h : Drawn c g) (hrun : Runs freshBlock g l g') : Drawn c g' := by
  simp only [Shape.freshBlock,runs_bind,runs_get_iff,runs_modify_iff,runs_pure_iff] at hrun
  obtain ⟨_,_,⟨rfl,rfl⟩,_,g1,hset,_,_,rfl,rfl,rfl⟩ := hrun
  exact (h.setBlock rfl hset).silent rfl

theorem trace_withArgs (h : measures i = false) (args : Datum) :
    trace { i with args } = trace i := by
  have h' : measures { i with args } = false := h
  simp [trace,h,h']

theorem trace_redirect (h : redirect first entry i = .ok x) : trace x = trace i := by
  unfold redirect at h
  split at h
  · cases h
    rfl
  · obtain ⟨jumps,hjump,h⟩ := Tac.Except.bind_eq_ok.1 h
    split at h
    · rename_i htrue
      have hargs := trace_withArgs (not_measures (htrue ▸ hjump))
      split at h
      · cases h
        exact hargs _
      · split at h
        · split at h <;> cases h
          rfl
        · cases h
      · cases h
    · cases h
      rfl

theorem drawn_cut {first index label} (hg : Drawn c g)
    (hrun : Runs (cut first index label rest) g l g') : Drawn (c ++ rest) g' := by
  induction rest generalizing c g index label with
  | nil =>
    obtain ⟨-,rfl⟩ := runs_pure_iff.1 hrun
    rwa [append_nil]
  | cons i rest ih =>
    rw [append_cons]
    unfold cut at hrun
    simp only [runs_bind,runs_get_iff,runs_lift_iff] at hrun
    obtain ⟨_,_,⟨rfl,rfl⟩,x,g,⟨hx,rfl⟩,hrun⟩ := hrun
    have htrace := trace_redirect hx
    split at hrun
    · obtain ⟨_,g1,happend,hrun⟩ := hrun.of_bind
      have h1 := (hg.append happend).congr htrace
      split at hrun
      · exact ih h1 hrun
      · split at hrun
        · exact ih h1 hrun
        · obtain ⟨_,g2,hfresh,hrun⟩ := hrun.of_bind
          exact ih (h1.freshBlock hfresh) hrun
    simp only [runs_bind,runs_lift_iff] at hrun
    obtain ⟨jumps,_,⟨-,rfl⟩,hrun⟩ := hrun
    split at hrun
    · obtain ⟨_,g1,happend,hrun⟩ := hrun.of_bind
      have h1 := (hg.append happend).congr htrace
      split at hrun
      · cases hrun
      · split at hrun
        · simp only [runs_bind,runs_lift_iff] at hrun
          obtain ⟨_,_,⟨-,rfl⟩,hrun⟩ := hrun
          exact ih h1 hrun
        · simp only [runs_bind] at hrun
          obtain ⟨_,g2,hfresh,_,g3,hjump,hrun⟩ := hrun
          exact ih (((h1.freshBlock hfresh).append hjump).silent rfl) hrun
    split at hrun
    · simp only [runs_bind,runs_lift_iff] at hrun
      obtain ⟨new,_,⟨-,rfl⟩,hrun⟩ := hrun
      have hset {g} (hg : Drawn c g) (hrun : Runs (setBlock new ⟨new,[x],[],[]⟩ >>= fun _ =>
          cut first (index + 1) new rest) g l g') : Drawn (c ++ [i] ++ rest) g' := by
        obtain ⟨_,g1,hset,hrun⟩ := hrun.of_bind
        exact ih ((hg.setBlock rfl hset).congr htrace) hrun
      split at hrun
      · simp only [runs_bind,runs_block_iff,runs_lift_iff] at hrun
        obtain ⟨_,_,⟨-,rfl⟩,_,_,⟨-,rfl⟩,hrun⟩ := hrun
        split at hrun
        · exact hset hg hrun
        · obtain ⟨_,g1,hjump,hrun⟩ := hrun.of_bind
          exact hset ((hg.append hjump).silent rfl) hrun
      · exact hset hg hrun
    · obtain ⟨_,g1,happend,hrun⟩ := hrun.of_bind
      exact ih ((hg.append happend).congr htrace) hrun

theorem runs_markEntry (h : Runs (markEntry body) g (first,body') g') :
    DrawnFrom body body' ∧ g' = g := by
  simp only [markEntry,runs_bind,runs_get_iff] at h
  obtain ⟨_,_,⟨rfl,rfl⟩,h⟩ := h
  split at h
  · obtain ⟨⟨⟩,rfl⟩ := runs_pure_iff.1 h
    exact ⟨.refl _,rfl⟩
  · split at h
    · rename_i i rest hlabel
      simp only [runs_bind,runs_lift_iff,runs_pure_iff] at h
      obtain ⟨_,_,⟨-,rfl⟩,⟨⟩,rfl⟩ := h
      have hi : measures i = false := by rw [measures,opcode_of_hasOpcode hlabel]; rfl
      exact ⟨by rw [DrawnFrom,filterMap_cons,filterMap_cons,trace_withArgs hi],rfl⟩
    · obtain ⟨⟨⟩,rfl⟩ := runs_pure_iff.1 h
      exact ⟨.refl _,rfl⟩

theorem drawn_of_inferBlocks (hg : Drawn [] g) (h : Runs (inferBlocks body) g () g') :
    Drawn body g' := by
  simp only [inferBlocks,runs_bind,runs_get_iff,runs_block_iff,runs_lift_iff] at h
  obtain ⟨_,_,hmark,_,_,⟨rfl,rfl⟩,_,_,hcut,_,_,⟨-,rfl⟩,_,g2,⟨-,rfl⟩,h⟩ := h
  obtain ⟨hbody,rfl⟩ := runs_markEntry hmark
  obtain ⟨hedges,hcode⟩ := drawn_cut hg hcut
  have h2 : Drawn body g2 := ⟨hedges,fun l code h => (hcode l code h).trans hbody⟩
  split at h
  · obtain ⟨-,rfl⟩ := runs_pure_iff.1 h
    exact h2
  · exact (h2.append h).silent rfl

def Recorded (g : Graph) (e : Edge) : Prop :=
  ∃ b k i, g.code e.source = some (Block.content b) ∧ 0 < k ∧ b.instr (-k) = .ok i ∧
    b.condition k = .ok e.condition ∧ i.target = .ok e.target

structure Links (g g' : Graph) : Prop where
  code : g'.code = g.code
  edges : ∀ e ∈ g'.edges, e ∈ g.edges ∨ Recorded g e

instance : Std.Refl Links := ⟨fun _ => ⟨rfl,fun _ => .inl⟩⟩

instance : Trans Links Links Links where
  trans h h' := by
    refine ⟨h'.code.trans h.code,fun e he => (h'.edges e he).elim (h.edges e) fun hr => .inr ?_⟩
    rwa [Recorded,h.code] at hr

theorem links_setBlock (hb : g.code l = some b.content) :
    Links g { g with blocks := g.blocks.insert l b } := by
  refine ⟨funext fun l' => ?_,fun _ => .inl⟩
  simp only [Graph.code,Table.get?_insert] at hb ⊢
  split
  · rename_i hl
    rw [beq_iff_eq.1 hl,hb]
    rfl
  · rfl

theorem links_linkBlock (l : String) (fuel : Nat) (hk : 0 < k) :
    Respects Links (linkBlock l fuel k) := by
  induction fuel generalizing k with
  | zero => exact .pure
  | succ fuel ih =>
    intro g u g' hrun
    simp only [linkBlock,runs_bind,runs_block_iff,runs_lift_iff] at hrun
    obtain ⟨b,_,⟨hb,rfl⟩,i,_,⟨hi,rfl⟩,jumps,_,⟨-,rfl⟩,hrun⟩ := hrun
    split at hrun
    · simp only [setBlock,updateBlock,addEdge,runs_bind,runs_lift_iff,runs_block_iff,
        runs_modify_iff] at hrun
      obtain ⟨condition,_,⟨hcondition,rfl⟩,target,g0,⟨htarget,rfl⟩,_,_,hg1,_,g2,
        ⟨c,g1,⟨hc,rfl⟩,hg2⟩,_,g3,hg3,hrest⟩ := hrun
      have hcode : g0.code l = some b.content := by simp [Graph.code,hb]
      have h1 : Links g0 g1 := hg1 ▸ links_setBlock (b := { b with next := _ }) hcode
      have h2 : Links g1 g2 :=
        hg2 ▸ links_setBlock (b := { c with prev := _ }) (by simp [Graph.code,hc])
      have h3 : Links g2 g3 := by
        subst hg3
        refine ⟨rfl,forall_mem_append.2 ⟨fun _ => .inl,forall_mem_singleton.2 (.inr ?_)⟩⟩
        exact ⟨b,k,i,by rw [h2.code,h1.code,hcode],hk,hi,hcondition,htarget⟩
      exact Trans.trans h1 (Trans.trans h2 (Trans.trans h3 (ih (by omega) _ _ _ hrest)))
    · exact Respects.pure _ _ _ hrun

theorem links_link : Respects Links link := by
  intro g u g' hrun
  simp only [link,runs_bind,runs_get_iff] at hrun
  obtain ⟨_,g,⟨rfl,rfl⟩,_,g1,hloop,hrun⟩ := hrun
  obtain ⟨-,rfl⟩ := runs_pure_iff.1 hrun
  generalize g.blocks.entries = entries at hloop
  induction entries generalizing g with
  | nil =>
    obtain ⟨-,rfl⟩ := runs_pure_iff.1 hloop
    exact Std.Refl.refl g'
  | cons e rest ih =>
    simp only [forIn_cons,bind_assoc,pure_bind,runs_bind] at hloop
    obtain ⟨_,g1,hfirst,hrest⟩ := hloop
    exact Trans.trans (links_linkBlock _ _ (by decide) _ _ _ hfirst) (ih g1 hrest)

theorem exists_of_instr (hb : b.content = front ++ tail) (hk : (tail.length : Int) < k)
    (h : b.instr (-k) = .ok i) :
    ∃ before mid, front = before ++ i :: mid ∧ (mid.length + tail.length + 1 : Int) = k := by
  simp only [Block.instr,show -k < 0 by omega,if_true,hb,length_append] at h
  split at h
  · cases h
  · split at h
    · rename_i hn y hy
      cases h
      rw [getElem?_append_left (by omega)] at hy
      obtain ⟨hlt,rfl⟩ := List.getElem?_eq_some_iff.1 hy
      refine ⟨_,_,((congrArg _ (getElem_cons_drop hlt)).trans (take_append_drop _ _)).symm,?_⟩
      rw [length_drop]
      omega
    · cases h

def Known (b : Block) (k : Int) (y z : Datum) : Prop :=
  ∃ j c, k ≤ j ∧ b.instr (-j) = .ok c ∧ b.isConst j = .ok true ∧ c.arg 0 = .ok z ∧
    y.same c.result = true

theorem knownOperands_eq (h : b.knownOperands y z fuel k = .ok (y',z')) :
    (y' = y ∨ Known b k y y') ∧ (z' = z ∨ Known b k z z') := by
  induction fuel generalizing k with
  | zero =>
    cases h
    exact ⟨.inl rfl,.inl rfl⟩
  | succ fuel ih =>
    have hrest (h : b.knownOperands y z fuel (k + 1) = .ok (y',z')) :
        (y' = y ∨ Known b k y y') ∧ (z' = z ∨ Known b k z z') := by
      have hlater {x x'} : Known b (k + 1) x x' → Known b k x x' :=
        fun ⟨j,c,hj,hc⟩ => ⟨j,c,by omega,hc⟩
      exact (ih h).imp (Or.imp_right hlater) (Or.imp_right hlater)
    unfold Block.knownOperands at h
    split at h
    · cases h
      exact ⟨.inl rfl,.inl rfl⟩
    simp only [Tac.Except.bind_eq_ok] at h
    obtain ⟨c,hc,loads,hloads,h⟩ := h
    split at h
    · rename_i htrue
      subst htrue
      split at h
      · obtain ⟨v,hv,h⟩ := Tac.Except.bind_eq_ok.1 h
        cases h
        exact ⟨.inr ⟨k,c,Int.le_refl k,hc,hloads,hv,by assumption⟩,.inl rfl⟩
      split at h
      · obtain ⟨v,hv,h⟩ := Tac.Except.bind_eq_ok.1 h
        cases h
        exact ⟨.inl rfl,.inr ⟨k,c,Int.le_refl k,hc,hloads,hv,by assumption⟩⟩
      · exact hrest h
    · exact hrest h

theorem isConst_eq_true (hi : b.instr (-k) = .ok i) (h : b.isConst k = .ok true) :
    i.opcode = .str "const" ∧ ∃ n, i.arg 0 = .ok (.int n) := by
  obtain ⟨_,hi',h⟩ := Tac.Except.bind_eq_ok.1 h
  cases hi.symm.trans hi'
  split at h
  · cases h
  · rename_i hop
    obtain ⟨v,hv,h⟩ := Tac.Except.bind_eq_ok.1 h
    split at h <;> cases h
    exact ⟨opcode_of_hasOpcode (by simpa using hop),_,hv⟩

theorem inWordRange_of_isSound (h : i.IsSound) (hop : i.opcode = .str "const")
    (harg : i.arg 0 = .ok (.int k)) : inWordRange k = true := by
  obtain ⟨⟨hstep,-⟩,hrange⟩ := h
  obtain ⟨op,args,result,layout⟩ := i
  obtain rfl : op = _ := hop
  simp only [Instr.step?,Instr.operation?] at hstep hrange
  split at hstep <;> simp_all
  split at hstep <;> simp_all [Instr.arg]
  all_goals
    subst_vars
    cases hstep

theorem names_of_isSound (h : i.IsSound) (hop : i.opcode = .str "cmpq") :
    ∃ x y, i.arg 0 = .ok (.str x) ∧ i.arg 1 = .ok (.str y) := by
  have hstep := h.step
  obtain ⟨op,args,result,layout⟩ := i
  obtain rfl : op = _ := hop
  simp only [Instr.step?,Instr.operation?] at hstep
  split at hstep <;> simp_all
  split at hstep <;> simp_all [Instr.arg]
  all_goals
    subst_vars
    cases hstep

theorem eq_of_same (h : y.same (.str r) = true) : y = .str r := by
  cases y <;> simp_all [Datum.same,Datum.int?]

theorem toInt_ofInt_of_inWordRange (h : inWordRange k = true) : (BitVec.ofInt 64 k).toInt = k := by
  simp only [inWordRange,Bool.and_eq_true,decide_eq_true_eq] at h
  rw [BitVec.toInt_ofInt]
  exact Int.bmod_eq_of_le (by omega) (by omega)

section

variable (hused : WellUsed body) (hsound : ∀ i ∈ body, i.IsSound)

include hused hsound

theorem Interpretation.number_known (M : Interpretation σ) (hdrawn : DrawnFrom body b.content)
    (hb : b.content = front ++ tail) (hk : (tail.length : Int) < k) (h : Known b k y z)
    (hpass : M.pass front s = some t) : M.number t z = (M.value t y).toInt := by
  obtain ⟨j,i,hj,hi,hconst,harg,hsame⟩ := h
  obtain ⟨hop,n,hn⟩ := isConst_eq_true hi hconst
  cases harg.symm.trans hn
  obtain ⟨before,mid,rfl,-⟩ := exists_of_instr hb (by omega) hi
  have hm : measures i = true := by rw [measures,hop]; rfl
  have hmem : i ∈ body := hdrawn.mem (by simp [hb]) hm
  obtain ⟨m,hwrites,hone⟩ := hused.consts i hmem (by rw [Instr.hasOpcode,hop]; rfl)
  have hresult : i.result = .str (register m) := by
    unfold Instr.writes isRegister at hwrites
    split at hwrites <;> simp_all
  have hy : y = .str (register m) := eq_of_same (hresult ▸ hsame)
  have hmid : writers m mid = 0 := by
    have hcount := hdrawn.writers_le m
    simp only [hb,writers_append,writers_cons,hwrites,if_true] at hcount
    omega
  rw [pass_append] at hpass
  obtain ⟨s1,-,hpass⟩ := Option.bind_eq_some_iff.1 hpass
  obtain ⟨s2,hturn,hpass⟩ := pass_cons hpass
  have hperform := perform_of_next hm hturn
  rw [hy,M.value_pass hmid hpass,← hresult,M.const hperform hop harg]
  exact (toInt_ofInt_of_inWordRange (inWordRange_of_isSound (hsound i hmem) hop hn)).symm

def HoldsWhenTaken (g : Graph) (e : Edge) : Prop :=
  ∀ left jump right, e.condition = .test left jump right → ∃ before i after,
    g.code e.source = some (before ++ i :: after) ∧ i.opcode = jump ∧ i.target = .ok e.target ∧
    ∀ (σ : Type) (M : Interpretation σ) (s t : σ), M.pass before s = some t →
      M.turn i t = .goto e.target → ∃ op c, jump = .str op ∧ branchNamed? op = some c ∧
        c.compares (M.number t left) (M.number t right)

theorem Recorded.holdsWhenTaken (hr : Recorded g e) (hg : Drawn body g) : HoldsWhenTaken g e := by
  intro left jump right he
  obtain ⟨b,k,i,hcode,hk,hi,hcondition,htarget⟩ := hr
  have hdrawn := hg.2 _ _ hcode
  rw [he] at hcondition
  simp only [Block.condition,Tac.Except.bind_eq_ok] at hcondition
  obtain ⟨_,hi',hcondition⟩ := hcondition
  cases hi.symm.trans hi'
  split at hcondition
  · cases hcondition
  rename_i hno
  obtain ⟨cmp,hcmp,hcondition⟩ := Tac.Except.bind_eq_ok.1 hcondition
  split at hcondition
  · cases hcondition
  rename_i hop
  replace hop : cmp.opcode = .str "cmpq" := opcode_of_hasOpcode (by simpa using hop)
  simp only [Tac.Except.bind_eq_ok] at hcondition
  obtain ⟨y,hy,z,hz,⟨left',right'⟩,hknown,hcondition⟩ := hcondition
  cases hcondition
  obtain ⟨before,after,hb,hlength⟩ := exists_of_instr (append_nil _).symm (by simpa) hi
  obtain ⟨front,mid,rfl,hlength'⟩ := exists_of_instr hb (by simp at hlength ⊢; omega) hcmp
  obtain rfl : mid = [] := length_eq_zero_iff.1 (by simp at hlength hlength'; omega)
  have hm : measures cmp = true := by rw [measures,hop]; rfl
  obtain ⟨_,_,hy',hz'⟩ := names_of_isSound (hsound cmp (hdrawn.mem (by simp [hb]) hm)) hop
  cases hy.symm.trans hy'
  cases hz.symm.trans hz'
  refine ⟨_,i,after,hcode.trans (congrArg some hb),rfl,htarget,fun σ M s t hpass hturn => ?_⟩
  rw [pass_append] at hpass
  obtain ⟨s1,hfront,hlast⟩ := Option.bind_eq_some_iff.1 hpass
  obtain ⟨_,hcompare,hlast⟩ := pass_cons hlast
  cases hlast
  obtain ⟨hvalue,hcompared⟩ := M.compare (perform_of_next hm hcompare) hop hy hz
  have hnumber {x y} (h : y = .str x ∨ Known b (k + 2) (.str x) y) :
      M.number t y = (M.value s1 (.str x)).toInt := by
    obtain rfl | h := h
    · rw [← hvalue]
      rfl
    · rw [← M.number_known hused hsound hdrawn (by simpa using hb) (by simp at hlength ⊢; omega) h
        hfront]
      obtain ⟨_,_,_,hi,hconst,harg,_⟩ := h
      obtain ⟨-,n,hn⟩ := isConst_eq_true hi hconst
      cases harg.symm.trans hn
      rfl
  have hgoto : M.Explains i t (.goto e.target) := hturn ▸ explains_turn _ i t
  obtain ⟨hjump,htakes⟩ := hgoto.resolve_left hno
  unfold Instr.isJump at hjump
  split at hjump
  · rename_i op hop'
    rw [hop',M.test] at htakes
    obtain ⟨c,hc,hholds⟩ := (Option.any_eq_true _ _).1 htakes
    obtain ⟨hleft,hright⟩ := knownOperands_eq hknown
    refine ⟨op,c,hop',hc,?_⟩
    rw [hnumber hleft,hnumber hright,← Comparison.holds_iff]
    rwa [hcompared] at hholds
  · cases hjump

end

theorem edges_holdWhenTaken {source r r' ds ds' reporter reporter' c' s name params}
    (hparse : Runs (parse source) r (some ds) r')
    (hcheck : (checkProgram ds).run { reporter } = ((ds',.ok ()),c'))
    (haccept : c'.reporter.reports = reporter.reports)
    (hlower : Runs (lowerProgram ds') { functions := c'.functions, reporter := reporter' } () s)
    (hbody : .procedure name params body ∈ s.items.toList) (hg : g.blocks = {} ∧ g.edges = [])
    (hgraph : Runs (inferBlocks body >>= fun _ => link) g () g') :
    ∀ e ∈ g'.edges, HoldsWhenTaken g' e := by
  have hprogram := isProgram_of_parse hparse
  obtain ⟨vars,hassigned,-⟩ := (wellAssigned_start c'.functions reporter').of_lowerProgram
    (isDeclaration_of_checkProgram hprogram hcheck) hlower
  obtain ⟨c,haccepted⟩ := accepted_of_checkProgram hprogram hcheck haccept
  obtain ⟨d,-,hcode⟩ := mem_of_forall₂_right (haccepted.compiled hlower)
    (mem_filter.2 ⟨hbody,rfl⟩)
  obtain ⟨_,g1,hinfer,hlink⟩ := hgraph.of_bind
  have hdrawn : Drawn body g1 :=
    drawn_of_inferBlocks ⟨hg.2,fun l code h => by simp [Graph.code,hg.1] at h⟩ hinfer
  have hlinks := links_link _ _ _ hlink
  intro e he
  obtain hold | hr := hlinks.edges e he
  · rw [hdrawn.1] at hold
    cases hold
  · rw [HoldsWhenTaken,hlinks.code]
    exact hr.holdsWhenTaken (hassigned.used _ hbody) hcode.isSound.2 hdrawn

section

variable {m1 m2 : Machine} {o : Operation}

-- jumps are decided by `turn`, so an instruction runs with no label to go to
def performOn (i : Instr) (m : Machine) : Option Machine :=
  match i.operation?.map (m.perform []) with
  | some (.running m') => some m'
  | _ => none

theorem exists_of_performOn (h : performOn i m1 = some m2) :
    ∃ o : Operation, o.IsOf i ∧ m1.perform [] o = .running m2 := by
  unfold performOn at h
  split at h
  · rename_i hperform
    cases h
    obtain ⟨o,ho,hrunning⟩ := Option.map_eq_some_iff.1 hperform
    exact ⟨o,isOf_of_operation? ho,hrunning⟩
  · cases h

theorem register_of_assign {v : Option Word} (h : m1.assign r v = .running m2)
    (hr : i.result = .str r) (hn : i.writes n = false) :
    m2.store (register n) = m1.store (register n) := by
  rw [Instr.writes,hr,isRegister,beq_eq_false_iff_ne] at hn
  cases v with
  | none => cases h
  | some w =>
    cases h
    exact if_neg hn.symm

theorem register_of_performOn (h : performOn i m1 = some m2) (hn : i.writes n = false) :
    m2.store (register n) = m1.store (register n) := by
  obtain ⟨o,hof,hperform⟩ := exists_of_performOn h
  cases o with
  | const | copy | binary | unary =>
    rw [Machine.perform] at hperform
    exact register_of_assign hperform hof.2.2 hn
  | nop | label =>
    cases hperform
    rfl
  | ret a => cases a <;> simp only [Machine.perform] at hperform <;> grind
  | _ =>
    simp only [Machine.perform,Machine.next] at hperform
    grind [Machine.goto,labelIndex]

theorem operation_of_measures (h : o.IsOf i) (hm : measures i = true) :
    (∃ r n, o = .const r n) ∨ ∃ x y, o = .compare x y := by
  cases o with
  | const | compare => simp
  | nop => simp [measures,show i.opcode = _ from h] at hm
  | binary op | unary op | branch op | ret op =>
    cases op <;> simp [measures,h.1,Tac.BinOp.name,Tac.UnOp.name,X64.branchMnemonic] at hm
  | _ => simp [measures,h.1] at hm

def valueIn (store : Store) : Datum → Word
  | .str x => (store x).getD 0
  | _ => 0

def flags (m : Machine) : Word × Word := m.compared.getD (0,0)

def machine : Interpretation Machine where
  perform := performOn
  takes
    | .str op, m => (branchNamed? op).any fun c => c.holds (flags m).1 (flags m).2
    | _, _ => false
  value m := valueIn m.store
  compared := flags
  const h hop harg := by
    obtain ⟨o,hof,hperform⟩ := exists_of_performOn h
    obtain ⟨r,n,rfl⟩ | ⟨x,y,rfl⟩ := operation_of_measures hof (by rw [measures,hop]; rfl)
    · obtain ⟨-,hargs,hr⟩ := hof
      rw [Instr.arg,hargs] at harg
      cases harg
      cases hperform
      rw [hr]
      exact congrArg (Option.getD · 0) (if_pos rfl)
    · simp [hof.1] at hop
  keeps h hn := congrArg (Option.getD · 0) (register_of_performOn h hn)
  compare h hop hx hy := by
    obtain ⟨o,hof,hperform⟩ := exists_of_performOn h
    obtain ⟨r,n,rfl⟩ | ⟨x,y,rfl⟩ := operation_of_measures hof (by rw [measures,hop]; rfl)
    · simp [hof.1] at hop
    · rw [Instr.arg,hof.2] at hx hy
      cases hx
      cases hy
      simp only [Machine.perform] at hperform
      split at hperform
      · rename_i hx hy
        cases hperform
        exact ⟨rfl,by simp [flags,valueIn,hx,hy]⟩
      · cases hperform
  test _ _ := rfl

end

def thresholdSource : String := "def main()\x7bvar x=3:int;while(x<5)\x7bx=x+1;\x7dreturn;\x7d"

def isMeasured (e : Edge) : Bool :=
  match e.condition with
  | .test (.str "%1") (.str "jl") (.int 5) => true
  | _ => false

def atThree : Machine := { store := fun r => if r = "%1" then some 3 else none }

def exit? (code : List Instr) (i : Instr) (m : Machine) : Option String :=
  match (machine.pass code m).map (machine.turn i) with
  | some (.goto l) => some l
  | _ => none

theorem exists_of_exit? {m : Machine} (h : exit? c i m = some l) :
    ∃ t, machine.pass c m = some t ∧ machine.turn i t = .goto l := by
  unfold exit? at h
  split at h
  · rename_i hturn
    cases h
    exact Option.map_eq_some_iff.1 hturn
  · cases h

-- the machine enters the block at its start and leaves it at every `jl`
def isTaken (g : Graph) (e : Edge) : Bool :=
  let code := (g.code e.source).getD []
  code.zipIdx.all fun p => !p.1.hasOpcode "jl" || exit? (code.take p.2) p.1 atThree = some e.target

theorem exit?_of_isTaken (h : isTaken g e = true) (hcode : g.code e.source = some (c ++ i :: rest))
    (hi : i.opcode = .str "jl") : exit? c i atThree = some e.target := by
  have hmem : (i,c.length) ∈ (c ++ i :: rest).zipIdx := by simp [mem_zipIdx_iff_getElem?]
  have hjump : i.hasOpcode "jl" = true := by rw [Instr.hasOpcode,hi]; rfl
  rw [isTaken,hcode,Option.getD_some] at h
  simpa [hjump] using all_eq_true.1 h _ hmem

theorem thresholdSource_edges : ∃ ds r' ds' c' s name params body g',
    Runs (parse thresholdSource) {} (some ds) r' ∧
    (checkProgram ds).run {} = ((ds',.ok ()),c') ∧ c'.reporter.reports = [] ∧
    Runs (lowerProgram ds') { functions := c'.functions, reporter := {} } () s ∧
    .procedure name params body ∈ s.items.toList ∧
    Runs (inferBlocks body >>= fun _ => link) {} () g' ∧
    (∀ e ∈ g'.edges, HoldsWhenTaken g' e) ∧
    ∃ e ∈ g'.edges, ∃ before i after t, g'.code e.source = some (before ++ i :: after) ∧
      machine.pass before atThree = some t ∧ machine.turn i t = .goto e.target ∧
      e.condition = .test (.str "%1") (.str "jl") (.int 5) ∧ machine.number t (.str "%1") < 5 := by
  have hparse := runs_parse_of_isEmpty thresholdSource (by decide +kernel)
  have hcheck := run_eq_ok (x := checkProgram (parsed thresholdSource)) (s := {})
    (by decide +kernel)
  have haccept : ((checkProgram (parsed thresholdSource)).run {}).2.reporter.reports = [] := by
    decide +kernel
  obtain ⟨s,hlower,hitems⟩ := Compile.exists_of_endsIn
    (x := lowerProgram ((checkProgram (parsed thresholdSource)).run {}).1.1)
    (s := { functions := ((checkProgram (parsed thresholdSource)).run {}).2.functions
            reporter := {} })
    (p := fun s => s.items.toList.any fun item =>
      Compile.endsIn (inferBlocks item.code >>= fun _ => link) {} fun g =>
        g.edges.any fun e => isMeasured e && isTaken g e)
    (by decide +kernel)
  obtain ⟨item,hmem,hitem⟩ := any_eq_true.1 hitems
  cases item with
  | procedure name params body =>
    obtain ⟨g',hgraph,hmeasured⟩ := Compile.exists_of_endsIn hitem
    obtain ⟨e,he,hmeasured⟩ := any_eq_true.1 hmeasured
    obtain ⟨hcondition,htaken⟩ := Bool.and_eq_true_iff.1 hmeasured
    have hedges := edges_holdWhenTaken hparse hcheck haccept hlower hmem ⟨rfl,rfl⟩ hgraph
    replace hcondition : e.condition = .test (.str "%1") (.str "jl") (.int 5) := by
      unfold isMeasured at hcondition
      split at hcondition
      · assumption
      · cases hcondition
    obtain ⟨before,i,after,hcode,hi,-,hholds⟩ := hedges e he _ _ _ hcondition
    obtain ⟨t,hpass,hturn⟩ := exists_of_exit? (exit?_of_isTaken htaken hcode hi)
    obtain ⟨_,_,⟨⟩,⟨⟩,hless⟩ := hholds _ machine atThree t hpass hturn
    exact ⟨_,_,_,_,s,name,params,body,g',hparse,hcheck,haccept,hlower,hmem,hgraph,hedges,
      e,he,before,i,after,t,hcode,hpass,hturn,hcondition,hless⟩
  | global name init => cases hitem

end Shape

end BxToolchain.Bx
