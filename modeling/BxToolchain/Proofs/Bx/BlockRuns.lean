import BxToolchain.Bx.Optimize
import BxToolchain.Proofs.Run
import BxToolchain.Proofs.Table
import Mathlib.Logic.Relation

namespace BxToolchain.Bx

def Instr.goal? (i : Instr) : Option String :=
  match i.isJump, i.target with
  | .ok true, .ok l => some l
  | _, _ => none

def Graph.code (g : Graph) (l : String) : Option (List Instr) := (g.blocks.get? l).map Block.content

namespace Shape

open Relation (ReflTransGen)

variable {σ : Type}

structure Meaning (σ : Type) where
  perform : Instr → σ → Option σ
  takes : Datum → σ → Bool

inductive Turn (σ : Type) where
  | next (state : σ)
  | goto (label : String)
  | stop

def Meaning.turn (m : Meaning σ) (i : Instr) (s : σ) : Turn σ :=
  if i.hasOpcode "label" then .next s
  else if i.hasOpcode "ret" then .stop
  else
    match i.goal? with
    | some l => if i.hasOpcode "jmp" || m.takes i.opcode s then .goto l else .next s
    | none => (m.perform i s).elim .stop .next

structure Labelled where
  start : Option (List Instr)
  code : String → Option (List Instr)

def layout (g : Graph) : Labelled := ⟨g.code g.entry,g.code⟩

structure Point (σ : Type) where
  seen : List Instr
  rest : List Instr
  state : σ

section

variable (view : Instr → Option Instr) (m : Meaning σ) (P P' : Labelled)

def advance (p : Point σ) : Option (Point σ) :=
  match p.rest with
  | [] => none
  | i :: rest =>
    let seen := p.seen ++ (view i).toList
    match m.turn i p.state with
    | .next state => some ⟨seen,rest,state⟩
    | .goto l => (P.code l).map fun code => ⟨seen,code,p.state⟩
    | .stop => some ⟨seen,[],p.state⟩

def Reaches : Point σ → Point σ → Prop := ReflTransGen fun p q => advance view m P p = some q

def Shows (s : σ) (seen : List Instr) (t : σ) (done : Bool) : Prop :=
  ∃ code rest, P.start = some code ∧ Reaches view m P ⟨[],code,s⟩ ⟨seen,rest,t⟩ ∧
    (done = true → advance view m P ⟨seen,rest,t⟩ = none)

def RunsAlikeFor : Prop := ∀ s seen t done, Shows view m P s seen t done ↔ Shows view m P' s seen t done

def RunsAlike : Prop := ∀ (σ : Type) (m : Meaning σ), RunsAlikeFor view m P P'

def Silent (s : σ) (r q : List Instr) : Prop :=
  ∀ seen, advance view m P ⟨seen,r,s⟩ = some ⟨seen,q,s⟩

variable (S : σ → List Instr → List Instr → Prop)

def Behind (s : σ) (r r' : List Instr) : Prop := ∃ q, ReflTransGen (Silent view m P s) r q ∧ S s q r'

inductive Agrees (s : σ) (r r' : List Instr) : Turn σ → Turn σ → Prop where
  | next {t : σ} : Behind view m P S t r r' → Agrees s r r' (.next t) (.next t)
  | goto {l l' : String} : Option.Rel (Behind view m P S s) (P.code l) (P'.code l') →
      Agrees s r r' (.goto l) (.goto l')
  | stop : S s [] [] → Agrees s r r' .stop .stop

structure Tracks : Prop where
  start (s : σ) : Option.Rel (Behind view m P S s) P.start P'.start
  nil {s : σ} {r' : List Instr} : S s [] r' → r' = []
  cons {s : σ} {i : Instr} {r q : List Instr} : S s (i :: r) q → ∃ i' r', q = i' :: r' ∧
    view i' = view i ∧ Agrees view m P P' S s r r' (m.turn i s) (m.turn i' s)

structure Near (p p' : Point σ) : Prop where
  seen : p.seen = p'.seen
  state : p.state = p'.state
  rest : Behind view m P S p.state p.rest p'.rest

end

variable {view : Instr → Option Instr} {m : Meaning σ} {P P' : Labelled} {s : σ}
  {S : σ → List Instr → List Instr → Prop} {seen r r' : List Instr} {i : Instr} {l : String}

section

theorem exists_of_rel_left (h : Option.Rel R a b) (ha : a = some x) : ∃ y, b = some y ∧ R x y := by
  subst ha
  cases h with
  | some h => exact ⟨_,rfl,h⟩

theorem exists_of_rel_right (h : Option.Rel R a b) (hb : b = some y) : ∃ x, a = some x ∧ R x y := by
  subst hb
  cases h with
  | some h => exact ⟨_,rfl,h⟩

theorem eq_none_iff_of_rel (h : Option.Rel R a b) : a = none ↔ b = none := by
  cases h <;> simp

end

theorem RunsAlike.refl (P : Labelled) : RunsAlike view P P := fun _ _ _ _ _ _ => Iff.rfl

theorem RunsAlike.trans (h : RunsAlike view P P') (h' : RunsAlike view P' P'') : RunsAlike view P P'' :=
  fun σ m s seen t done => (h σ m s seen t done).trans (h' σ m s seen t done)

theorem Behind.of_rel (h : S s r r') : Behind view m P S s r r' := ⟨r,.refl,h⟩

theorem opcode_of_hasOpcode (h : i.hasOpcode name = true) : i.opcode = .str name := by
  unfold Instr.hasOpcode at h
  cases hop : i.opcode <;> simp_all [Datum.same,Datum.int?]

theorem turn_jump (h : i.hasOpcode "jmp" = true) (hgoal : i.goal? = some l) :
    m.turn i s = .goto l := by
  have hother : i.hasOpcode "label" = false ∧ i.hasOpcode "ret" = false := by
    simp [Instr.hasOpcode,opcode_of_hasOpcode h,Datum.same]
  simp [Meaning.turn,hother,h,hgoal]

theorem silent_jump (h : i.hasOpcode "jmp" = true) (hview : view i = none)
    (hgoal : i.goal? = some l) (hcode : P.code l = some q) : Silent view m P s (i :: r) q := by
  intro seen
  simp [advance,turn_jump h hgoal,hview,hcode]

theorem reaches_of_silent (h : ReflTransGen (Silent view m P s) r q) (seen : List Instr) :
    Reaches view m P ⟨seen,r,s⟩ ⟨seen,q,s⟩ := by
  induction h with
  | refl => exact .refl
  | tail _ hstep ih => exact ih.tail (hstep seen)

theorem agrees_self (m : Meaning σ) (s : σ) (i : Instr) (hnil : S s [] [])
    (hnext : ∀ t, Behind view m P S t r r')
    (hgoto : ∀ l, i.goal? = some l → Option.Rel (Behind view m P S s) (P.code l) (P'.code l)) :
    Agrees view m P P' S s r r' (m.turn i s) (m.turn i s) := by
  unfold Meaning.turn
  split
  · exact .next (hnext s)
  split
  · exact .stop hnil
  · cases hl : i.goal? with
    | none =>
      cases m.perform i s with
      | none => exact .stop hnil
      | some t => exact .next (hnext t)
    | some l =>
      dsimp only
      split_ifs
      · exact .goto (hgoto l hl)
      · exact .next (hnext s)

theorem Tracks.near (h : Tracks view m P P' S) (hS : S s r r') (seen : List Instr) :
    Option.Rel (Near view m P S) (advance view m P ⟨seen,r,s⟩)
      (advance view m P' ⟨seen,r',s⟩) := by
  cases r with
  | nil =>
    rw [h.nil hS]
    exact .none
  | cons i r =>
    obtain ⟨i',r',rfl,hview,hagrees⟩ := h.cons hS
    simp only [advance,hview]
    generalize m.turn i s = turn at hagrees ⊢
    generalize m.turn i' s = turn' at hagrees ⊢
    cases hagrees with
    | next hbehind => exact .some ⟨rfl,rfl,hbehind⟩
    | @goto l l' hcode =>
      dsimp only
      generalize P.code l = code at hcode ⊢
      generalize P'.code l' = code' at hcode ⊢
      cases hcode with
      | none => exact .none
      | some hbehind => exact .some ⟨rfl,rfl,hbehind⟩
    | stop hnil => exact .some ⟨rfl,rfl,.of_rel hnil⟩

theorem Tracks.forward (h : Tracks view m P P' S) (hrun : Reaches view m P p p1)
    (hnear : Near view m P S p p') :
    ∃ p1', Reaches view m P' p' p1' ∧ Near view m P S p1 p1' := by
  induction hrun using ReflTransGen.head_induction_on generalizing p' with
  | refl => exact ⟨p',.refl,hnear⟩
  | @head p p2 hstep _ ih =>
    obtain ⟨seen,r,s⟩ := p
    obtain ⟨_,r',_⟩ := p'
    obtain ⟨rfl,rfl,q,hsilent,hS⟩ := hnear
    obtain rfl | ⟨c,hfirst,hrest⟩ := hsilent.cases_head
    · obtain ⟨p2',hstep',hnear⟩ := exists_of_rel_left (h.near hS seen) hstep
      obtain ⟨p1',hreaches,hnear⟩ := ih hnear
      exact ⟨p1',.head hstep' hreaches,hnear⟩
    · cases hstep.symm.trans (hfirst seen)
      exact ih ⟨rfl,rfl,q,hrest,hS⟩

theorem Tracks.backward (h : Tracks view m P P' S) (hrun : Reaches view m P' p' p1')
    (hnear : Near view m P S p p') :
    ∃ p1, Reaches view m P p p1 ∧ Near view m P S p1 p1' := by
  induction hrun using ReflTransGen.head_induction_on generalizing p with
  | refl => exact ⟨p,.refl,hnear⟩
  | @head p' p2' hstep _ ih =>
    obtain ⟨seen,r,s⟩ := p
    obtain ⟨_,r',_⟩ := p'
    obtain ⟨rfl,rfl,q,hsilent,hS⟩ := hnear
    obtain ⟨p2,hstep',hnear⟩ := exists_of_rel_right (h.near hS seen) hstep
    obtain ⟨p1,hreaches,hnear⟩ := ih hnear
    exact ⟨p1,(reaches_of_silent hsilent seen).trans (.head hstep' hreaches),hnear⟩

theorem Tracks.alikeFor (h : Tracks view m P P' S) : RunsAlikeFor view m P P' := by
  intro s seen t done
  constructor
  · rintro ⟨code,r,hcode,hrun,hdone⟩
    obtain ⟨code',hcode',hbehind⟩ := exists_of_rel_left (h.start s) hcode
    have hnear : Near view m P S ⟨[],code,s⟩ ⟨[],code',s⟩ := ⟨rfl,rfl,hbehind⟩
    obtain ⟨⟨_,r',_⟩,hrun',rfl,rfl,q,hsilent,hS⟩ := h.forward hrun hnear
    refine ⟨code',r',hcode',hrun',fun hd => ?_⟩
    obtain rfl | ⟨c,hfirst,-⟩ := hsilent.cases_head
    · exact (eq_none_iff_of_rel (h.near hS _)).1 (hdone hd)
    · cases (hdone hd).symm.trans (hfirst seen)
  · rintro ⟨code',r',hcode',hrun,hdone⟩
    obtain ⟨code,hcode,hbehind⟩ := exists_of_rel_right (h.start s) hcode'
    have hnear : Near view m P S ⟨[],code,s⟩ ⟨[],code',s⟩ := ⟨rfl,rfl,hbehind⟩
    obtain ⟨⟨_,r,_⟩,hrun',rfl,rfl,q,hsilent,hS⟩ := h.backward hrun hnear
    refine ⟨code,q,hcode,hrun'.trans (reaches_of_silent hsilent _),fun hd => ?_⟩
    exact (eq_none_iff_of_rel (h.near hS _)).2 (hdone hd)

end Shape

end BxToolchain.Bx
