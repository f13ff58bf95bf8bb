import BxToolchain.Proofs.Bx.ExpressionCode

namespace BxToolchain.Bx

open Lower List

variable {inLoop : Bool} {names names' : Declared} {σ : Surroundings} {k k' : Counters} {v : Datum}
  {code c : List Instr} {value : Scopes → Option Word}

def Arrives (exits : Option (Nat × Nat)) (pc' : Nat) (after out : Scopes → Store → Prop) :
    Outcome → Nat → Store → Prop
  | .normal env, pc, τ => pc = pc' ∧ after env τ
  | .broke env, pc, τ => (∃ head, exits = some (head,pc)) ∧ out env τ
  | .continued env, pc, τ => (∃ done, exits = some (pc,done)) ∧ out env τ
  | _, _, _ => False

def Follows (code : List Instr) (exits : Option (Nat × Nat)) (rounds pc : Nat) (τ : Store)
    (pc' : Nat) (after out : Scopes → Store → Prop) : Outcome → Prop
  | .returned v => Halts code pc τ (.returned v)
  | .stuck => Halts code pc τ .stuck
  | .unfinished => ∃ n p τ', rounds ≤ n ∧ Goes code n pc τ p τ'
  | o => ∃ n p τ', Goes code n pc τ p τ' ∧ Arrives exits pc' after out o p τ'

namespace Follows

variable {exits : Option (Nat × Nat)} {rounds n pc pc' : Nat} {τ τ' : Store}
  {after out : Scopes → Store → Prop} {o : Outcome}

theorem mono (h : Follows code exits rounds pc τ pc' after out o) (hr : rounds' ≤ rounds) :
    Follows code exits rounds' pc τ pc' after out o := by
  cases o with
  | unfinished =>
    obtain ⟨n,p,τ',hn,hgo⟩ := h
    exact ⟨n,p,τ',Nat.le_trans hr hn,hgo⟩
  | _ => exact h

theorem prepend (hgo : Goes code n pc τ pc' τ')
    (h : Follows code exits rounds pc' τ' pc'' after out o) :
    Follows code exits (n + rounds) pc τ pc'' after out o := by
  cases o with
  | returned | stuck => exact hgo.halts h
  | unfinished =>
    obtain ⟨m,p,τ1,hm,hgo'⟩ := h
    exact ⟨n + m,p,τ1,Nat.add_le_add_left hm n,hgo.trans hgo'⟩
  | normal | broke | continued =>
    obtain ⟨m,p,τ1,hm,harrives⟩ := h
    exact ⟨n + m,p,τ1,hgo.trans hm,harrives⟩

theorem prepend' (hgo : Goes code n pc τ pc' τ')
    (h : Follows code exits rounds pc' τ' pc'' after out o) :
    Follows code exits rounds pc τ pc'' after out o :=
  (prepend hgo h).mono (Nat.le_add_left _ _)

variable (h : Follows code exits rounds pc τ pc' after out o)
include h

theorem append (hgo : ∀ τ, ∃ m, Goes code m pc' τ pc'' τ) :
    Follows code exits rounds pc τ pc'' after out o := by
  cases o with
  | normal env =>
    obtain ⟨n,_,τ',hn,rfl,hτ'⟩ := h
    obtain ⟨m,hm⟩ := hgo τ'
    exact ⟨n + m,_,τ',hn.trans hm,rfl,hτ'⟩
  | _ => exact h

theorem andThen
    (hnext : ∀ env τ, after env τ → Follows code exits rounds pc' τ pc'' after' out' (f env))
    (hout : ∀ env τ, out env τ → out' env τ) :
    Follows code exits rounds pc τ pc'' after' out' (o.andThen f) := by
  cases o with
  | normal env =>
    obtain ⟨n,_,τ',hn,rfl,hτ'⟩ := h
    exact prepend' hn (hnext env τ' hτ')
  | broke env | continued env =>
    obtain ⟨n,p,τ',hn,hexits,hτ'⟩ := h
    exact ⟨n,p,τ',hn,hexits,hout env τ' hτ'⟩
  | returned | stuck | unfinished => exact h

theorem leave (hafter : ∀ env τ, after env τ → after' (env.drop 1) τ)
    (hout : ∀ env τ, out env τ → out' (env.drop 1) τ) :
    Follows code exits rounds pc τ pc' after' out' o.leave := by
  cases o with
  | normal env =>
    obtain ⟨n,p,τ',hn,hp,hτ'⟩ := h
    exact ⟨n,p,τ',hn,hp,hafter env τ' hτ'⟩
  | broke env | continued env =>
    obtain ⟨n,p,τ',hn,hexits,hτ'⟩ := h
    exact ⟨n,p,τ',hn,hexits,hout env τ' hτ'⟩
  | returned | stuck | unfinished => exact h

end Follows

theorem Tries.follows {α : Type} {P : α → Nat → Store → Prop} {value o exits rounds pc pc' τ}
    {after out : Scopes → Store → Prop} (h : Tries code pc τ P value)
    (hnone : value = none → o = .stuck)
    (hsome : ∀ a p τ', value = some a → P a p τ' → Follows code exits rounds p τ' pc' after out o) :
    Follows code exits rounds pc τ pc' after out o := by
  cases value with
  | none =>
    rw [hnone rfl]
    exact h
  | some a =>
    obtain ⟨n,p,τ',hgo,ha⟩ := h
    exact (hsome a p τ' rfl ha).prepend' hgo

def FindsLabels (code : List Instr) : Prop :=
  ∀ ⦃pc n⦄, code[pc]? = some (labelAt n) → labelIndex code (labelName n) = some pc

def Exits (code : List Instr) (inLoop : Bool) (loops : List (Nat × Nat)) :
    Option (Nat × Nat) → Prop
  | none => inLoop = false
  | some (h,d) => ∃ head done rest, loops = (head,done) :: rest ∧
      labelIndex code (labelName head) = some h ∧ labelIndex code (labelName done) = some d

def Simulates (inLoop : Bool) (names : Declared) (σ : Surroundings) (c : List Instr)
    (evaluate : Nat → Scopes → Outcome) (after out : Scopes → Store → Prop) : Prop :=
  ∀ ⦃code pc exits rounds τ env⦄, CodeAt code pc c → FindsLabels code →
    Exits code inLoop σ.loops exits → Holds τ env names σ.scopes →
    Follows code exits rounds pc τ (pc + c.length) after out (evaluate rounds env)

def KeepsScope (inLoop : Bool) (names : Declared) (σ : Surroundings) (c : List Instr)
    (evaluate : Nat → Scopes → Outcome) : Prop :=
  Simulates inLoop names σ c evaluate (fun env τ => Holds τ env names σ.scopes)
    (fun env τ => Holds τ env names σ.scopes)

def Declares (names names' : Declared) (σ : Surroundings) (c : List Instr)
    (scopes : List (Table String String)) (evaluate : Scopes → Outcome) : Prop :=
  ∀ inLoop, Simulates inLoop names σ c (fun _ => evaluate) (fun env τ => Holds τ env names' scopes)
    (fun _ _ => False)

def FillsScope (inLoop : Bool) (names : Declared) (σ : Surroundings) (c : List Instr)
    (evaluate : Nat → Scopes → Outcome) : Prop :=
  Simulates inLoop names σ c evaluate
    (fun env τ => Holds τ (env.drop 1) (names.drop 1) (σ.scopes.drop 1))
    (fun env τ => Holds τ (env.drop 1) (names.drop 1) (σ.scopes.drop 1))

theorem keepsScope_assign {x : String} (halloc : Allocated k.temps names σ.scopes)
    (hx : x ∈ names.flatten) (hvalue : Computes names σ k v c k' value) :
    KeepsScope inLoop names σ (c ++ [.make "copy" [v] (σ.registerOf x)])
      (fun _ env => .ofOption do env.assign x (← value env)) := by
  obtain ⟨-,p,rfl,-,hc⟩ := hvalue
  intro code pc exits rounds τ env hcode _ _ hholds
  refine (hc hcode.left hholds).follows (fun hnone => by simp [hnone,Outcome.ofOption]) ?_
  rintro w _ τ1 hw ⟨rfl,hp,hkept⟩
  obtain ⟨r,env',hreg,-,hassign,hholds'⟩ := (hholds.frame halloc hkept).assign halloc hx w
  have hregister : σ.registerOf x = .str r := by simp [Surroundings.registerOf,hreg]
  have hlast := hcode.right.head
  rw [hregister] at hlast
  have hcopy : Goes code 1 (pc + c.length) τ1 (pc + c.length + 1) (τ1.set r w) :=
    goes_assign hlast rfl fun _ => by simp [Machine.perform,hp]
  simp only [hw,Option.bind_eq_bind,Option.bind_some,hassign,Outcome.ofOption]
  exact ⟨1,_,_,hcopy,by simp [Nat.add_assoc],hholds'⟩

theorem keepsScope_eval (halloc : Allocated k.temps names σ.scopes)
    (hvalue : Computes names σ k v c k' value) :
    KeepsScope inLoop names σ c (fun _ env => .ofOption do let _ ← value env; return env) := by
  obtain ⟨-,p,rfl,-,hc⟩ := hvalue
  intro code pc exits rounds τ env hcode _ _ hholds
  refine (hc hcode hholds).follows (fun hnone => by simp [hnone,Outcome.ofOption]) ?_
  rintro w _ τ1 hw ⟨rfl,-,hkept⟩
  simp only [hw,Option.bind_eq_bind,Option.bind_some,Option.pure_def,Outcome.ofOption]
  exact ⟨0,_,_,.refl,rfl,hholds.frame halloc hkept⟩

theorem keepsScope_return (hvalue : Computes names σ k v c k' value) :
    KeepsScope inLoop names σ (c ++ [.act "ret" [v]]) (fun _ env =>
      match value env with
      | some v => .returned (some v)
      | none => .stuck) := by
  obtain ⟨-,p,rfl,-,hc⟩ := hvalue
  intro code pc exits rounds τ env hcode _ _ hholds
  refine (hc hcode.left hholds).follows (fun hnone => by simp [hnone]) ?_
  rintro w _ τ1 hw ⟨rfl,hp,-⟩
  simp only [hw]
  exact halts_one hcode.right.head rfl fun _ => by simp [Machine.perform,hp]

theorem keepsScope_returnNone :
    KeepsScope inLoop names σ [.act "ret" []] (fun _ _ => .returned none) := by
  intro code pc exits rounds τ env hcode _ _ _
  exact halts_one hcode.head rfl fun _ => rfl

theorem keepsScope_jump {head done l loops leave} (hloops : σ.loops = (head,done) :: loops)
    (hleave : l = done ∧ leave = .broke ∨ l = head ∧ leave = .continued) :
    KeepsScope true names σ [jumpTo l] (fun _ => leave) := by
  intro code pc exits rounds τ env hcode _ hexits hholds
  match exits, hexits with
  | some (h,d), ⟨head',done',rest,hloops',hhead,hdone⟩ =>
    cases hloops.symm.trans hloops'
    obtain ⟨rfl,rfl⟩ | ⟨rfl,rfl⟩ := hleave
    · exact ⟨1,d,τ,goes_jump hcode.head rfl hdone,⟨h,rfl⟩,hholds⟩
    · exact ⟨1,h,τ,goes_jump hcode.head rfl hhead,⟨d,rfl⟩,hholds⟩

theorem keepsScope_block
    (h : FillsScope inLoop ([] :: names) (σ.withScopes ({} :: σ.scopes)) c evaluate) :
    KeepsScope inLoop names σ c (fun rounds env => (evaluate rounds ({} :: env)).leave) := by
  intro code pc exits rounds τ env hcode hlabels hexits hholds
  exact (h hcode hlabels hexits hholds.enter).leave (fun _ _ h => h) fun _ _ h => h

theorem fillsScope_nil (hn : names ≠ []) :
    FillsScope inLoop names σ [] (fun _ env => .normal env) := by
  intro code pc exits rounds τ env _ _ _ hholds
  exact ⟨0,_,τ,.refl,rfl,hholds.leave hn⟩

variable {f : Nat → Scopes → Outcome}

theorem KeepsScope.fillsScope (hn : names ≠ []) (h : KeepsScope inLoop names σ c f)
    (hrest : FillsScope inLoop names σ c' g) :
    FillsScope inLoop names σ (c ++ c') (fun rounds env => (f rounds env).andThen (g rounds)) := by
  intro code pc exits rounds τ env hcode hlabels hexits hholds
  rw [length_append,← Nat.add_assoc]
  exact (h hcode.left hlabels hexits hholds).andThen
    (fun env τ h => hrest hcode.right hlabels hexits h) fun env τ h => h.leave hn

variable {scopes : List (Table String String)}

theorem Declares.fillsScope {f} (hnames : names'.drop 1 = names.drop 1)
    (hscopes : scopes.drop 1 = σ.scopes.drop 1) (h : Declares names names' σ c scopes f)
    (hrest : FillsScope inLoop names' (σ.withScopes scopes) c' g) :
    FillsScope inLoop names σ (c ++ c') (fun rounds env => (f env).andThen (g rounds)) := by
  intro code pc exits rounds τ env hcode hlabels hexits hholds
  rw [length_append,← Nat.add_assoc]
  refine (h inLoop hcode.left hlabels hexits hholds).andThen (fun env τ h => ?_)
    fun env τ h => h.elim
  have hfollows := @hrest _ _ _ rounds _ _ hcode.right hlabels hexits h
  simp only [hnames,Surroundings.withScopes,hscopes] at hfollows
  exact hfollows

theorem Declares.trans {names'' scopes' f g} (h : Declares names names' σ c scopes f)
    (hrest : Declares names' names'' (σ.withScopes scopes) c' scopes' g) :
    Declares names names'' σ (c ++ c') scopes' (fun env => (f env).andThen g) := by
  intro inLoop code pc exits rounds τ env hcode hlabels hexits hholds
  rw [length_append,← Nat.add_assoc]
  exact (h inLoop hcode.left hlabels hexits hholds).andThen
    (fun env τ h => hrest inLoop hcode.right hlabels hexits h) fun env τ h => h

theorem declares_var {level : List String} {x : String}
    (halloc : Allocated k.temps (level :: names) σ.scopes)
    (hvalue : Computes (level :: names) σ k v c k' value) :
    Declares (level :: names) ((x :: level) :: names) σ (c ++ [.make "copy" [v] k'.register])
      (bindIn x (register k'.temps) σ.scopes)
      (fun env => .ofOption do env.declare x (← value env)) := by
  obtain ⟨hle,p,rfl,-,hc⟩ := hvalue
  intro inLoop code pc exits rounds τ env hcode _ _ hholds
  refine (hc hcode.left hholds).follows (fun hnone => by simp [hnone,Outcome.ofOption]) ?_
  rintro w _ τ1 hw ⟨rfl,hp,hkept⟩
  have hholds1 := hholds.frame halloc hkept
  have hcopy : Goes code 1 (pc + c.length) τ1 (pc + c.length + 1) (τ1.set (register k'.temps) w) :=
    goes_assign hcode.right.head rfl fun _ => by simp [Machine.perform,hp]
  cases hscopes : σ.scopes with
  | nil =>
    rw [hscopes] at halloc
    exact halloc.elim
  | cons table rest =>
    rw [hscopes] at halloc hholds1
    cases env with
    | nil => exact hholds1.elim
    | cons e env =>
      simp only [hw,Option.bind_eq_bind,Option.bind_some,Scopes.declare,Outcome.ofOption]
      exact ⟨1,_,_,hcopy,by simp [Nat.add_assoc],hholds1.declare (halloc.mono hle) x w⟩

theorem InitsEmit.declares {inits vars} (h : InitsEmit σ inits k c scopes vars k') (hn : names ≠ [])
    (hinits : Node.areInits inits names = true) (halloc : Allocated k.temps names σ.scopes) :
    Declares names (Node.declaredBy inits names) σ c scopes (Node.declareAll inits) ∧
      Allocated k'.temps (Node.declaredBy inits names) scopes ∧ k.temps ≤ k'.temps := by
  induction h generalizing names with
  | nil σ k =>
    refine ⟨?_,halloc,Nat.le_refl _⟩
    intro inLoop code pc exits rounds τ env _ _ _ hholds
    exact ⟨0,_,τ,.refl,rfl,hholds⟩
  | @cons σ x value line rest k k1 k2 v c1 c2 scopes vars hvalue hrest ih =>
    simp only [Node.areInits,Bool.and_eq_true] at hinits
    match names, hn with
    | level :: names, _ =>
      have hcomputes := hvalue.computes hinits.1 halloc
      have hdeclared : Allocated k1.addTemp.temps ((x :: level) :: names)
          (bindIn x (register k1.temps) σ.scopes) := by
        have halloc1 := halloc.mono hcomputes.le
        cases hscopes : σ.scopes with
        | nil =>
          rw [hscopes] at halloc1
          exact halloc1.elim
        | cons table rest =>
          rw [hscopes] at halloc1
          exact halloc1.declare x
      obtain ⟨hdeclares,halloc',hle⟩ := ih (cons_ne_nil _ _) hinits.2 hdeclared
      have hboth := (declares_var (x := x) halloc hcomputes).trans hdeclares
      simp only [append_assoc,cons_append,nil_append] at hboth
      exact ⟨hboth,halloc',Nat.le_trans hcomputes.le (Nat.le_of_succ_le hle)⟩

theorem keepsScope_if {ct ca cb k1 l} (halloc : Allocated k.temps names σ.scopes)
    (hc : Branches names σ l (l + 1) k ct k1 holds) (ha : KeepsScope inLoop names σ ca f)
    (hb : KeepsScope inLoop names σ cb g) :
    KeepsScope inLoop names σ (ct ++ labelAt l :: ca ++ jumpTo (l + 2) :: labelAt (l + 1) :: cb ++
      [labelAt (l + 2)]) (fun rounds env =>
        match holds env with
        | some true => f rounds env
        | some false => g rounds env
        | none => .stuck) := by
  intro code pc exits rounds τ env hcode hlabels hexits hholds
  simp only [append_assoc,cons_append] at hcode
  have hyes := hcode.right
  have hjump := hyes.tail.right
  have hno := hjump.tail
  have hend := hno.tail.right
  have hlength : pc + (ct ++ labelAt l :: ca ++ jumpTo (l + 2) :: labelAt (l + 1) :: cb ++
      [labelAt (l + 2)]).length = pc + ct.length + 1 + ca.length + 1 + 1 + cb.length + 1 := by
    simp
    omega
  rw [hlength]
  refine (hc.tries hcode.left hholds (hlabels hyes.head) (hlabels hno.head)).follows
    (fun hnone => by simp only [hnone]) ?_
  rintro b _ τ1 hb' ⟨rfl,hkept⟩
  have hholds1 := hholds.frame halloc hkept
  simp only [hb']
  cases b with
  | true =>
    have hbody := @ha _ _ _ rounds _ _ hyes.tail.left hlabels hexits hholds1
    exact (hbody.append fun τ => ⟨_,(goes_jump hjump.head rfl (hlabels hend.head)).trans
      (goes_label hend.head rfl)⟩).prepend' (goes_label hyes.head rfl)
  | false =>
    have hbody := @hb _ _ _ rounds _ _ hno.tail.left hlabels hexits hholds1
    exact (hbody.append fun τ => ⟨_,goes_label hend.head rfl⟩).prepend' (goes_label hno.head rfl)

def Round (code : List Instr) (rounds head back exit done : Nat) (R : Scopes → Store → Prop)
    (f : Scopes → Outcome) (env : Scopes) (τ : Store) : Option Bool → Prop
  | none => Halts code head τ .stuck
  | some false => ∃ n τ', Goes code n head τ done τ' ∧ R env τ'
  | some true => ∃ n start τ', Goes code (n + 1) head τ start τ' ∧
      Follows code (some (head,exit)) rounds start τ' back R R (f env)

theorem follows_loop {exits rounds r head back exit done R f} (hr : r ≤ rounds)
    (hround : ∀ env τ, R env τ → Round code rounds head back exit done R f env τ (holds env))
    (hback : ∀ τ, Goes code 1 back τ head τ) (hexit : ∀ τ, Goes code 1 exit τ done τ)
    {env τ} (hR : R env τ) :
    Follows code exits r head τ done R R (loop holds f r env) := by
  induction r generalizing env τ with
  | zero => exact ⟨0,head,τ,Nat.le_refl _,Goes.refl⟩
  | succ r ih =>
    have hone := hround env τ hR
    rw [loop]
    match hh : holds env with
    | none =>
      rw [hh] at hone
      exact hone
    | some false =>
      rw [hh] at hone
      obtain ⟨n,τ',hgo,hτ'⟩ := hone
      exact ⟨n,_,τ',hgo,rfl,hτ'⟩
    | some true =>
      rw [hh] at hone
      obtain ⟨n,start,τ1,hstart,hbody⟩ := hone
      have hagain : ∀ {m τ' env'}, Goes code m start τ1 head τ' → R env' τ' →
          Follows code exits (r + 1) head τ done R R (loop holds f r env') := by
        intro m τ' env' hm hτ'
        have hnext := (ih (Nat.le_of_succ_le hr) hτ').prepend (hstart.trans hm)
        exact hnext.mono (by omega)
      cases hf : f env with
      | normal env' =>
        rw [hf] at hbody
        obtain ⟨m,_,τ',hm,rfl,hτ'⟩ := hbody
        exact hagain (hm.trans (hback τ')) hτ'
      | continued env' =>
        rw [hf] at hbody
        obtain ⟨m,p,τ',hm,⟨_,hexits⟩,hτ'⟩ := hbody
        cases hexits
        exact hagain hm hτ'
      | broke env' =>
        rw [hf] at hbody
        obtain ⟨m,p,τ',hm,⟨_,hexits⟩,hτ'⟩ := hbody
        cases hexits
        exact ⟨n + 1 + m + 1,_,τ',(hstart.trans hm).trans (hexit τ'),rfl,hτ'⟩
      | returned | stuck =>
        rw [hf] at hbody
        exact hstart.halts hbody
      | unfinished =>
        rw [hf] at hbody
        obtain ⟨m,p,τ',hm,hgo⟩ := hbody
        exact ⟨n + 1 + m,p,τ',by omega,hstart.trans hgo⟩

theorem keepsScope_while (halloc : Allocated k.temps names σ.scopes)
    (hc : Branches names (σ.inLoop l (l + 2)) (l + 1) (l + 2) k ct k1 holds)
    (hb : KeepsScope true names (σ.inLoop l (l + 2)) cb f) :
    KeepsScope inLoop names σ
      (labelAt l :: ct ++ labelAt (l + 1) :: cb ++ [jumpTo l,labelAt (l + 2)])
      (fun rounds => loop holds (f rounds) rounds) := by
  intro code pc exits rounds τ env hcode hlabels hexits hholds
  simp only [append_assoc,cons_append] at hcode
  have hyes := hcode.tail.right
  have hend := hyes.tail.right
  have hlength : pc + (labelAt l :: ct ++ labelAt (l + 1) :: cb ++ [jumpTo l,labelAt (l + 2)]).length =
      pc + 1 + ct.length + 1 + cb.length + 1 + 1 := by
    simp
    omega
  rw [hlength]
  refine follows_loop (Nat.le_refl _) ?_ (fun τ => goes_jump hend.head rfl (hlabels hcode.head))
    (fun τ => goes_label hend.tail.head rfl) hholds
  intro env τ hholds
  have hdecides := hc.tries hcode.tail.left hholds (hlabels hyes.head) (hlabels hend.tail.head)
  have hlabel : Goes code 1 pc τ (pc + 1) τ := goes_label hcode.head rfl
  match hh : holds env with
  | none =>
    rw [hh] at hdecides
    exact hlabel.halts hdecides
  | some false =>
    rw [hh] at hdecides
    obtain ⟨n,_,τ1,hgo,rfl,hkept⟩ := hdecides
    exact ⟨1 + n + 1,τ1,(hlabel.trans hgo).trans (goes_label hend.tail.head rfl),
      hholds.frame halloc hkept⟩
  | some true =>
    rw [hh] at hdecides
    obtain ⟨n,_,τ1,hgo,rfl,hkept⟩ := hdecides
    refine ⟨1 + n,_,τ1,(hlabel.trans hgo).trans (goes_label hyes.head rfl),?_⟩
    exact hb hyes.tail.left hlabels ⟨l,l + 2,σ.loops,rfl,hlabels hcode.head,hlabels hend.tail.head⟩
      (hholds.frame halloc hkept)

def StatementCode (inLoop : Bool) (names : Declared) (n : Node) : Prop :=
  n.isPlain inLoop names = true → n.isDecl = false → names ≠ [] → ∀ {σ k c scopes vars k'},
    StatementEmits σ n k c scopes vars k' → Allocated k.temps names σ.scopes →
    (inLoop = true → σ.loops ≠ []) →
    scopes = σ.scopes ∧ k.temps ≤ k'.temps ∧
      KeepsScope inLoop names σ c (fun rounds => n.evaluate rounds)

def StatementsCode (inLoop : Bool) (names : Declared) (statements : List Node) : Prop :=
  Node.arePlain inLoop names statements = true → names ≠ [] → ∀ {σ k c scopes vars k'},
    StatementsEmit σ statements k c scopes vars k' → Allocated k.temps names σ.scopes →
    (inLoop = true → σ.loops ≠ []) →
    k.temps ≤ k'.temps ∧ FillsScope inLoop names σ c (fun rounds => Node.evaluateAll rounds statements)

theorem statementCode_and_statementsCode :
    (∀ inLoop names n, StatementCode inLoop names n) ∧
      ∀ inLoop names statements, StatementsCode inLoop names statements := by
  refine Node.isPlain.mutual_induct StatementCode StatementsCode ?varDecl ?assign ?eval ?block
    ?ifElse ?loop ?jump ?returnNone ?returnValue ?other ?nil ?cons <;> intros
  case nil =>
    intro _ hnames σ k c scopes vars k' h _ _
    cases h
    exact ⟨Nat.le_refl _,fillsScope_nil hnames⟩
  case cons names n rest ihn ihrest =>
    intro hplain hnames σ k c scopes vars k' h halloc hloops
    simp only [Node.arePlain,Bool.and_eq_true] at hplain
    cases h with
    | cons hn hrest =>
      cases hdecl : n.isDecl with
      | false =>
        rw [Node.declared_of_isDecl_eq_false hdecl] at ihrest hplain
        obtain ⟨rfl,hle,hkeeps⟩ := ihn hplain.1 hdecl hnames hn halloc hloops
        obtain ⟨hle',hfills⟩ := ihrest hplain.2 hnames hrest (halloc.mono hle) hloops
        exact ⟨Nat.le_trans hle hle',hkeeps.fillsScope hnames hfills⟩
      | true =>
        obtain ⟨line,inits,type,rfl⟩ := Node.eq_varDecl_of_isDecl hdecl
        cases hn with
        | other _ haction => cases haction
        | varDecl _ _ hinits =>
          obtain ⟨hdeclares,halloc',hle⟩ := hinits.declares hnames hplain.1 halloc
          obtain ⟨hle',hfills⟩ := ihrest hplain.2 (Node.declaredBy_ne_nil hnames) hrest halloc' hloops
          exact ⟨Nat.le_trans hle hle',hdeclares.fillsScope (Node.declaredBy_drop inits names)
            hinits.extended.drop hfills⟩
  all_goals
    intro hplain hdecl hnames σ k c scopes vars k' h halloc hloops
    simp only [Node.isPlain,Bool.and_eq_true,Bool.or_eq_true,beq_iff_eq,contains_iff_mem,
      Bool.false_eq_true] at hplain <;> cases h
  case assign.assign hvalue =>
    have hcomputes := hvalue.computes hplain.2 halloc
    exact ⟨rfl,hcomputes.le,keepsScope_assign halloc hplain.1 hcomputes⟩
  case eval.eval hvalue =>
    have hcomputes := hvalue.computes hplain halloc
    exact ⟨rfl,hcomputes.le,keepsScope_eval halloc hcomputes⟩
  case block.block ih _ hstatements =>
    obtain ⟨hle,hfills⟩ := ih hplain (by simp) hstatements halloc.enter hloops
    exact ⟨rfl,hle,keepsScope_block hfills⟩
  case ifElse.ifElse iha ihb _ _ _ _ _ _ _ _ ha hc hb =>
    obtain ⟨⟨⟨⟨hcond,hablock⟩,haplain⟩,hbbranch⟩,hbplain⟩ := hplain
    have hbranches := hc.branches hcond halloc
    have halloc1 := halloc.mono hbranches.le
    obtain ⟨rfl,hle1,hkeeps⟩ := iha haplain
      (Node.isDecl_of_isBranch (Node.isBranch_of_isBlock hablock)) hnames ha halloc1 hloops
    obtain ⟨rfl,hle2,hkeeps'⟩ := ihb hbplain (Node.isDecl_of_isBranch hbbranch) hnames hb
      (halloc1.mono hle1) hloops
    exact ⟨rfl,Nat.le_trans hbranches.le (Nat.le_trans hle1 hle2),
      keepsScope_if (k := k.addLabels 3) halloc hbranches hkeeps hkeeps'⟩
  case loop.loop ih _ _ _ hc hb =>
    obtain ⟨⟨hcond,hblock⟩,hbody⟩ := hplain
    have hbranches := hc.branches hcond halloc
    obtain ⟨rfl,hle,hkeeps⟩ := ih hbody
      (Node.isDecl_of_isBranch (Node.isBranch_of_isBlock hblock)) hnames hb
      (halloc.mono hbranches.le) fun _ => cons_ne_nil _ _
    exact ⟨rfl,Nat.le_trans hbranches.le hle,keepsScope_while (k := k.addLabels 3) halloc hbranches hkeeps⟩
  case jump.break hσ =>
    obtain ⟨rfl,-⟩ := hplain
    exact ⟨rfl,Nat.le_refl _,keepsScope_jump hσ (.inl ⟨rfl,rfl⟩)⟩
  case jump.continue hσ =>
    obtain ⟨rfl,-⟩ := hplain
    exact ⟨rfl,Nat.le_refl _,keepsScope_jump hσ (.inr ⟨rfl,rfl⟩)⟩
  case jump.noJump hnone => exact absurd (hnone hplain.2) (hloops hplain.1)
  case returnNone.return habsent _ => exact absurd rfl habsent
  case returnNone.bareReturn => exact ⟨rfl,Nat.le_refl _,keepsScope_returnNone⟩
  case returnValue.bareReturn habsent => exact absurd rfl habsent
  case returnValue.return line value habsent _ _ _ hvalue =>
    have hcomputes := hvalue.computes hplain halloc
    have hevaluate : (fun rounds => (Node.return' line value).evaluate rounds) = fun _ env =>
        match value.value? env with
        | some v => .returned (some v)
        | none => .stuck := by
      funext rounds env
      cases value with
      | absent => exact (habsent rfl).elim
      | _ => rfl
    rw [hevaluate]
    exact ⟨rfl,hcomputes.le,keepsScope_return hcomputes⟩
  case varDecl.varDecl => cases hdecl
  -- A statement of one of these kinds is an action.
  all_goals
    rename_i haction
    cases haction

end BxToolchain.Bx
