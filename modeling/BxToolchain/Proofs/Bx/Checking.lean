import BxToolchain.Proofs.Bx.CheckerFrame
import BxToolchain.Proofs.Bx.Syntax

namespace BxToolchain.Bx

open List

variable {α β γ δ ρ σ : Type} {c c' c1 : Checker} {n n' x y value : Node} {line : Int}
  {type name op : String} {raised : List String} {args args' ns ns' : List Node}

mutual

inductive Retyped : Node → Node → Prop where
  | refl (n : Node) : Retyped n n
  | var {line t t' x} : Retyped (.var line t x) (.var line t' x)
  | number {line t t' value} : Retyped (.number line t value) (.number line t' value)
  | boolean {line t t' value} : Retyped (.boolean line t value) (.boolean line t' value)
  | binary {line t t' op a a' b b'} : Retyped a a' → Retyped b b' →
      Retyped (.binary line t a b op) (.binary line t' a' b' op)
  | unary {line t t' op a a'} : Retyped a a' →
      Retyped (.unary line t a op) (.unary line t' a' op)
  | call {line t t' name name' args args'} :
      (name = "print" ∧ (name' = "__bx_print_int" ∨ name' = "__bx_print_bool") ∨ name' = name) →
      RetypedAll args args' → Retyped (.call line t name args) (.call line t' name' args')
  | varInit {x value value' line} : Retyped value value' →
      Retyped (.varInit x value line) (.varInit x value' line)
  | varDecl {line inits inits' type} : RetypedAll inits inits' →
      Retyped (.varDecl line inits type) (.varDecl line inits' type)
  | assign {line x value value'} : Retyped value value' →
      Retyped (.assign line x value) (.assign line x value')
  | eval {line value value'} : Retyped value value' →
      Retyped (.eval line value) (.eval line value')
  | block {line : Int} {ns ns' : List Node} : RetypedAll ns ns' →
      Retyped (.block line ns) (.block line ns')
  | ifElse {line c c' a a' b b'} : Retyped c c' → Retyped a a' → Retyped b b' →
      Retyped (.ifElse line c a b) (.ifElse line c' a' b')
  | loop {line c c' body body'} : Retyped c c' → Retyped body body' →
      Retyped (.while' line c body) (.while' line c' body')
  | return {line value value'} : Retyped value value' →
      Retyped (.return' line value) (.return' line value')
  | catch {line name body body'} : Retyped body body' →
      Retyped (.catch' line name body) (.catch' line name body')
  | tryExcept {line body body' catches catches'} :
      Retyped body body' → RetypedAll catches catches' →
      Retyped (.tryExcept line body catches) (.tryExcept line body' catches')
  | procDecl {line name body body' result params raises} :
      Retyped body body' → Retyped (.procDecl line name body params result raises)
        (.procDecl line name body' params result raises)

inductive RetypedAll : List Node → List Node → Prop where
  | nil : RetypedAll [] []
  | cons {n n' : Node} {ns ns' : List Node} : Retyped n n' → RetypedAll ns ns' →
      RetypedAll (n :: ns) (n' :: ns')

end

theorem RetypedAll.refl (ns : List Node) : RetypedAll ns ns := by
  induction ns with
  | nil => exact .nil
  | cons n rest ih => exact .cons (.refl n) ih

structure Retains (c c' : Checker) : Prop where
  depth : c'.scopes.length = c.scopes.length
  procedures : c'.procedures = c.procedures
  functions : c'.functions = c.functions
  current : c'.current = c.current ∨ c'.current = none

theorem Retains.refl (c : Checker) : Retains c c := ⟨rfl,rfl,rfl,.inl rfl⟩

theorem Retains.trans (h : Retains c c') (h' : Retains c' c'') : Retains c c'' :=
  ⟨h'.depth.trans h.depth,h'.procedures.trans h.procedures,h'.functions.trans h.functions,by
    obtain hcurrent | hcurrent := h'.current
    · rw [hcurrent]
      exact h.current
    · exact .inr hcurrent⟩

structure Checker.Sound (c : Checker) : Prop where
  scopes : 0 < c.scopes.length
  current : ∀ name, c.current = some name → c.procedures.contains name = true

theorem Checker.Sound.retained (hc : c.Sound) (h : Retains c c') : c'.Sound := by
  refine ⟨h.depth ▸ hc.scopes,fun name hname => ?_⟩
  obtain hcurrent | hcurrent := h.current
  · rw [h.procedures]
    exact hc.current name (hcurrent ▸ hname)
  · cases hcurrent.symm.trans hname

structure Ended {ρ γ : Type} (outcome : ρ → Except Fault γ) (shape : Prop) (c : Checker)
    (keeps : ρ → Prop) (passes : ρ → Checker → Prop) (a : ρ) (c' : Checker) : Prop where
  grows : Grows c c'
  keeps : keeps a
  sound : shape → c.Sound → ∃ r, outcome a = .ok r
  retains : ∀ r, outcome a = .ok r → Retains c c'
  passes : ∀ r, outcome a = .ok r → c'.reporter.reports = c.reporter.reports → passes a c'

theorem Ended.failed (hgrows : Grows c c') (hk : K a) (ho : o a = .error e)
    (hS : S → c.Sound → False) :
    Ended o S c K P a c' :=
  have hnot {r} : o a ≠ .ok r := fun hr => by cases ho.symm.trans hr
  ⟨hgrows,hk,fun h hc => (hS h hc).elim,fun _ hr => (hnot hr).elim,fun _ hr => (hnot hr).elim⟩

def Ends {ρ γ : Type} (outcome : ρ → Except Fault γ) (shape : Prop) (x : Check ρ) (c : Checker)
    (keeps : ρ → Prop) (passes : ρ → Checker → Prop) : Prop :=
  Ended outcome shape c keeps passes (x.run c).1 (x.run c).2

abbrev PartEnds {α γ : Type} (shape : Prop) (x : Check (α × Except Fault γ)) (c : Checker)
    (keeps : α → Prop) (passes : α × Except Fault γ → Checker → Prop) : Prop :=
  Ends Prod.snd shape x c (fun a => keeps a.1) passes

theorem run_get_bind (f : Checker → Check α) (c : Checker) : (get >>= f).run c = (f c).run c := rfl

theorem exists_run_of_bind {x : Check α} {f : α → Check β} {b : β}
    (h : (x >>= f).run c = (b,c'')) : ∃ a c', x.run c = (a,c') ∧ (f a).run c' = (b,c'') :=
  ⟨_,_,rfl,h⟩

structure Passes {α γ : Type} (x : Check (α × Except Fault γ)) (c : Checker) (a : α) (r : γ)
    (c' : Checker) : Prop where
  run : x.run c = ((a,.ok r),c')
  silent : c'.reporter.reports = c.reporter.reports

namespace Ends

section

variable {o : ρ → Except Fault γ} {o' : σ → Except Fault δ} {S S1 : Prop} {x x' : Check ρ}
  {f : ρ → Check σ} {K K1 : ρ → Prop} {P P1 : ρ → Checker → Prop} {L : σ → Prop}
  {Q : σ → Checker → Prop} {a : ρ} {r : γ} {e : Fault}

theorem pure (ho : o a = .ok r) (hk : K a) (hp : P a c) : Ends o S (Pure.pure a) c K P :=
  ⟨prefix_refl _,hk,fun _ _ => ⟨r,ho⟩,fun _ _ => .refl c,fun _ _ _ => hp⟩

theorem fault (ho : o a = .error e) (hk : K a) (hS : S → c.Sound → False) :
    Ends o S (Pure.pure a) c K P := .failed (prefix_refl _) hk ho hS

theorem report (ho : o a = .ok r) (hk : K a) :
    Ends o S (Bx.report reason line >>= fun _ => Pure.pure a) c K P := by
  refine ⟨prefix_append _ _,hk,fun _ _ => ⟨r,ho⟩,fun _ _ => ⟨rfl,rfl,rfl,.inl rfl⟩,
    fun _ _ hsilent => ?_⟩
  change c.reporter.reports ++ [_] = _ at hsilent
  simp at hsilent

theorem mono (h : Ends o S1 x c K P1) (hS : S → S1) (hp : ∀ a c', P1 a c' → P a c') :
    Ends o S x c K P :=
  ⟨h.grows,h.keeps,fun hs => h.sound (hS hs),h.retains,
    fun r hr hsilent => hp _ _ (h.passes r hr hsilent)⟩

theorem ite [Decidable p] (hx : p → Ends o S x c K P) (hx' : ¬p → Ends o S x' c K P) :
    Ends o S (if p then x else x') c K P := by
  split
  · exact hx ‹_›
  · exact hx' ‹_›

theorem get {f : Checker → Check ρ} (h : Ends o S (f c) c K P) :
    Ends o S (MonadState.get >>= f) c K P := h

theorem bind (hx : Ends o S1 x c K1 P1) (hS : S → S1)
    (herror : ∀ a e, o a = .error e → K1 a → ∃ b e', f a = Pure.pure b ∧ o' b = .error e' ∧ L b)
    (hok : ∀ a r c1, x.run c = (a,c1) → o a = .ok r → K1 a → Retains c c1 →
      Ends o' S (f a) c1 L fun b c' =>
        c1.reporter.reports = c.reporter.reports → P1 a c1 → Q b c') :
    Ends o' S (x >>= f) c L Q := by
  rcases hrun : x.run c with ⟨a,c1⟩
  rw [Ends,hrun] at hx
  rw [Ends,run_bind_of hrun]
  cases ho : o a with
  | error e =>
    obtain ⟨b,e',hstop,ho',hb⟩ := herror a e ho hx.keeps
    rw [hstop]
    refine .failed hx.grows hb ho' fun h hc => ?_
    obtain ⟨r,hr⟩ := hx.sound (hS h) hc
    cases ho.symm.trans hr
  | ok r =>
    have hretains := hx.retains r ho
    have hrest := hok a r c1 hrun ho hx.keeps hretains
    refine ⟨hx.grows.trans hrest.grows,hrest.keeps,fun h hc => hrest.sound h (hc.retained hretains),
      fun r' hr' => hretains.trans (hrest.retains r' hr'),fun r' hr' hsilent => ?_⟩
    obtain ⟨hfirst,hsecond⟩ := Grows.silent_of_trans hx.grows hrest.grows hsilent
    exact hrest.passes r' hr' hsecond hfirst (hx.passes r ho hfirst)

theorem after {x : Check (Except Fault γ)} {f : Except Fault γ → Check σ}
    {K1 : Except Fault γ → Prop} {P1 : Except Fault γ → Checker → Prop}
    (hx : Ends id S1 x c K1 P1) (hS : S → S1)
    (herror : ∀ e, ∃ b e', f (.error e) = Pure.pure b ∧ o' b = .error e' ∧ L b)
    (hok : ∀ r c1, x.run c = (.ok r,c1) → K1 (.ok r) → Retains c c1 →
      Ends o' S (f (.ok r)) c1 L fun b c' =>
        c1.reporter.reports = c.reporter.reports → P1 (.ok r) c1 → Q b c') :
    Ends o' S (x >>= f) c L Q := by
  refine hx.bind hS ?_ ?_
  · rintro _ e rfl -
    exact herror e
  · rintro _ r c1 hrun rfl hk hretains
    exact hok r c1 hrun hk hretains

end

variable {S S1 : Prop} {K : β → Prop} {K1 : α → Prop} {P : β × Except Fault δ → Checker → Prop}
  {P1 : α × Except Fault γ → Checker → Prop} {x : Check (α × Except Fault γ)}

theorem andThen (hx : PartEnds S1 x c K1 P1) (hS : S → S1)
    (herror : ∀ a e, K1 a → ∃ b e', f (a,.error e) = Pure.pure (b,.error e') ∧ K b)
    (hok : ∀ a r c1, K1 a → Retains c c1 →
      PartEnds S (f (a,.ok r)) c1 K fun b c' => Passes x c a r c1 → P b c') :
    PartEnds S (x >>= f) c K P := by
  refine hx.bind hS ?_ ?_
  · rintro ⟨a,_⟩ e rfl hk
    obtain ⟨b,e',hstop,hb⟩ := herror a e hk
    exact ⟨_,e',hstop,rfl,hb⟩
  · rintro ⟨a,_⟩ r c1 hrun rfl hk hretains
    exact (hok a r c1 hk hretains).mono id fun b c' hb hsilent _ => hb ⟨hrun,hsilent⟩

theorem step {x : Check (Except Fault γ)} {f : Except Fault γ → Check (β × Except Fault δ)}
    {K1 : Except Fault γ → Prop} {P1 : Except Fault γ → Checker → Prop}
    (hx : Ends id S1 x c K1 P1) (hS : S → S1)
    (herror : ∀ e, ∃ b e', f (.error e) = Pure.pure (b,.error e') ∧ K b)
    (hok : ∀ r c1, x.run c = (.ok r,c1) → K1 (.ok r) → Retains c c1 →
      PartEnds S (f (.ok r)) c1 K fun b c' =>
        c1.reporter.reports = c.reporter.reports → P1 (.ok r) c1 → P b c') :
    PartEnds S (x >>= f) c K P := by
  refine hx.after hS (fun e => ?_) fun r c1 hrun hk hretains => hok r c1 hrun hk hretains
  obtain ⟨b,e',hstop,hb⟩ := herror e
  exact ⟨_,e',hstop,rfl,hb⟩

theorem map {P : β × Except Fault γ → Checker → Prop} {g : α → β} (hx : PartEnds S1 x c K1 P1)
    (hS : S → S1) (hk : ∀ a, K1 a → K (g a))
    (hp : ∀ a r c', Passes x c a r c' → P1 (a,.ok r) c' → P (g a,.ok r) c') :
    PartEnds S (x >>= fun s => Pure.pure (g s.1,s.2)) c K P := by
  refine hx.bind hS ?_ ?_
  · rintro ⟨a,_⟩ e rfl ha
    exact ⟨_,e,rfl,rfl,hk a ha⟩
  · rintro ⟨a,_⟩ r c1 hrun rfl ha -
    exact .pure rfl (hk a ha) fun hsilent => hp a r c1 ⟨hrun,hsilent⟩

end Ends

namespace PartEnds

variable {S : Prop} {K : α → Prop} {P : α × Except Fault γ → Checker → Prop}
  {x y : Check (α × Except Fault γ)}

theorem ite [Decidable p] (hx : p → PartEnds S x c K P) (hy : ¬p → PartEnds S y c K P) :
    PartEnds S (if p then x else y) c K P :=
  Ends.ite hx hy

theorem get (h : PartEnds S (f c) c K P) : PartEnds S (MonadState.get >>= f) c K P := h

end PartEnds

theorem Ends.retained {ρ : Type} {o : ρ → Except Fault γ} {S : Prop} {K : ρ → Prop}
    {P : ρ → Checker → Prop} {x : Check ρ} {a : ρ} {r : γ} (h : Ends o S x c K P)
    (hrun : x.run c = (a,c')) (ho : o a = .ok r) : Retains c c' := by
  rw [Ends,hrun] at h
  exact h.retains r ho

theorem Passes.of_ends {S : Prop} {K : α → Prop} {P : α × Except Fault γ → Checker → Prop}
    {x : Check (α × Except Fault γ)} {a : α} {r : γ} (h : Passes x c a r c')
    (hx : PartEnds S x c K P) : P (a,.ok r) c' := by
  rw [PartEnds,Ends,h.run] at hx
  exact hx.passes r rfl h.silent

mutual

def Node.printsArguments : Node → Bool
  | .unary _ _ a _ | .varInit _ a _ | .assign _ _ a | .eval _ a | .return' _ a | .catch' _ _ a
  | .procDecl _ _ a _ _ _ => a.printsArguments
  | .binary _ _ a b _ | .while' _ a b => a.printsArguments && b.printsArguments
  | .ifElse _ c a b => c.printsArguments && a.printsArguments && b.printsArguments
  | .call _ _ name args => (name ≠ "print" || !args.isEmpty) && Node.allPrintArguments args
  | .varDecl _ ns _ | .block _ ns => Node.allPrintArguments ns
  | .tryExcept _ a ns => a.printsArguments && Node.allPrintArguments ns
  | _ => true

def Node.allPrintArguments : List Node → Bool
  | [] => true
  | n :: rest => n.printsArguments && Node.allPrintArguments rest

end

def isWordType (t : String) : Bool := t = "int" || t = "bool"

def printerNames : List String := ["__bx_print_int","__bx_print_bool"]

def Means (name name' : String) : Prop :=
  name ≠ "print" ∧ name' = name ∨ name = "print" ∧ name' ∈ printerNames

inductive ExprPasses (c : Checker) : Node → Node × Raised → Checker → Prop where
  | var {line a x t} : c.typeOf? x = some t → isWordType t = true →
      ExprPasses c (.var line a x) (.var line t x,.ok []) c
  | number {line a value} : (∀ n, value = .int n → inWordRange n = true) →
      ExprPasses c (.number line a value) (.number line "int" value,.ok []) c
  | boolean {line a value} : value = .str "true" ∨ value = .str "false" →
      ExprPasses c (.boolean line a value) (.boolean line "bool" value,.ok []) c
  | binary {line a t op x x' y y' r r' c1 c2} : Passes (checkExpr x) c x' r c1 →
      Passes (checkExpr y) c1 y' r' c2 →
      (∀ operand result, binaryType? op = some (operand,result) →
        t = result ∧ x'.type? = some operand ∧ y'.type? = some operand) →
      ExprPasses c (.binary line a x y op) (.binary line t x' y' op,.ok (r ++ r')) c2
  | unary {line a t op x x' r c1} : Passes (checkExpr x) c x' r c1 →
      (∀ operand, unaryType? op = some operand → t = operand ∧ x'.type? = some operand) →
      ExprPasses c (.unary line a x op) (.unary line t x' op,.ok r) c1
  | call {line a name name' sig args args' r c1} : Passes (checkExprs args) c args' r c1 →
      Means name name' → c.procedures.get? name' = some sig →
      args'.map Node.type? = sig.inputs.map some →
      ExprPasses c (.call line a name args) (.call line sig.result name' args',.ok (r ++ sig.raises)) c1

inductive ExprsPass (c : Checker) : List Node → List Node × Raised → Checker → Prop where
  | nil : ExprsPass c [] ([],.ok []) c
  | cons {e e' rest rest' r r' c1 c2} : Passes (checkExpr e) c e' r c1 →
      Passes (checkExprs rest) c1 rest' r' c2 →
      ExprsPass c (e :: rest) (e' :: rest',.ok (r ++ r')) c2

section

variable {S : Prop} {K : Node → Prop} {P : Node × Raised → Checker → Prop}

theorem ends_unidentified (hS : ¬S) (hk : K n) : PartEnds S (unidentified what n) c K P := by
  unfold unidentified
  split
  · exact .fault rfl hk fun h _ => hS h
  · exact .report rfl hk

theorem ends_checkBinary (hS : S → (∃ t, x.type? = some t) ∧ ∃ t, y.type? = some t)
    (hk : ∀ t, K (.binary line t x y op))
    (hp : ∀ t, (∀ operand result, binaryType? op = some (operand,result) →
      t = result ∧ x.type? = some operand ∧ y.type? = some operand) →
      P (.binary line t x y op,.ok raised) c) :
    PartEnds S (checkBinary line type x y op raised) c K P := by
  unfold checkBinary
  split
  · rename_i hnone
    exact .pure rfl (hk _) (hp _ fun operand result h => by cases hnone.symm.trans h)
  · rename_i operand result htype
    split
    · rename_i t u ht hu
      refine .ite (fun heq => .pure rfl (hk _) (hp _ fun operand' result' h => ?_)) fun _ =>
        .report rfl (hk _)
      cases htype.symm.trans h
      simp only [Bool.and_eq_true,decide_eq_true_eq] at heq
      exact ⟨rfl,heq.1 ▸ ht,heq.2 ▸ hu⟩
    · rename_i hnone
      refine .fault rfl (hk _) fun h _ => ?_
      obtain ⟨⟨t,ht⟩,u,hu⟩ := hS h
      exact hnone t u ht hu

theorem ends_checkUnary (hS : S → ∃ t, x.type? = some t) (hk : ∀ t, K (.unary line t x op))
    (hp : ∀ t, (∀ operand, unaryType? op = some operand → t = operand ∧ x.type? = some operand) →
      P (.unary line t x op,.ok raised) c) :
    PartEnds S (checkUnary line type x op raised) c K P := by
  unfold checkUnary
  split
  · rename_i hnone
    exact .pure rfl (hk _) (hp _ fun operand h => by cases hnone.symm.trans h)
  · rename_i operand htype
    split
    · rename_i t ht
      refine .ite (fun heq => .pure rfl (hk _) (hp _ fun operand' h => ?_)) fun _ =>
        .report rfl (hk _)
      cases htype.symm.trans h
      exact ⟨rfl,heq ▸ ht⟩
    · rename_i hnone
      refine .fault rfl (hk _) fun h _ => ?_
      obtain ⟨t,ht⟩ := hS h
      cases hnone.symm.trans ht

def Typable (name : String) (args : List Node) : Prop :=
  (name = "print" → args ≠ []) ∧ ∃ ts : List String, args.map Node.type? = ts.map some

theorem ends_resolvePrinter (hS : S → Typable name args) :
    Ends id S (resolvePrinter line name args) c
      (fun r => ∀ name', r = .ok name' →
        name = "print" ∧ (name' = "__bx_print_int" ∨ name' = "__bx_print_bool") ∨ name' = name)
      fun r c' => c' = c ∧ ∀ name', r = .ok name' → Means name name' := by
  have hfirst : ∀ arg rest, args = arg :: rest → arg.type? = none → ¬S := by
    rintro arg rest rfl hnone h
    obtain ⟨-,ts,hts⟩ := hS h
    cases ts with
    | nil => cases hts
    | cons t ts => cases hnone.symm.trans (List.cons.inj hts).1
  unfold resolvePrinter
  refine .ite (fun hprint => ?_) fun hprint =>
    .pure rfl (by simp) ⟨rfl,fun name' h => .inl ⟨hprint,(Except.ok.inj h).symm⟩⟩
  split
  · exact .fault rfl (by simp) fun h _ => (hS h).1 hprint rfl
  · split
    · exact .fault rfl (by simp) fun h _ => hfirst _ _ rfl ‹_› h
    · exact .pure rfl (by simp [hprint]) (by simp [Means,hprint,printerNames])
    · exact .pure rfl (by simp [hprint]) (by simp [Means,hprint,printerNames])
    · split
      · rename_i hnone
        refine .fault rfl (by simp) fun h _ => ?_
        obtain ⟨-,ts,hts⟩ := hS h
        obtain ⟨quoted,hquoted⟩ := mapM_quotedType?_of_types hts
        cases hnone.symm.trans hquoted
      · exact .report rfl (by simp)

theorem types_of_mismatch? (hlength : args.length = inputs.length)
    (h : mismatch? args inputs = .ok none) : args.map Node.type? = inputs.map some := by
  induction args generalizing inputs with
  | nil =>
    obtain rfl : inputs = [] := by simpa using hlength.symm
    rfl
  | cons arg rest ih =>
    cases inputs with
    | nil => simp at hlength
    | cons t inputs =>
      rw [mismatch?] at h
      split at h
      · cases h
      · rename_i u hu
        split at h
        · rename_i heq
          rw [map_cons,map_cons,hu,heq,ih (by simpa using hlength) h]
        · cases h

theorem ends_checkCall (hS : S → Typable name args') (hargs : RetypedAll args args')
    (hp : ∀ name' sig, Means name name' → c.procedures.get? name' = some sig →
      args'.map Node.type? = sig.inputs.map some →
      P (.call line sig.result name' args',.ok (raised ++ sig.raises)) c) :
    PartEnds S (checkCall line type name args' raised) c (Retyped (.call line type name args)) P := by
  unfold checkCall
  refine (ends_resolvePrinter hS).step id (fun e => ⟨_,e,rfl,.call (.inr rfl) hargs⟩)
    fun name' c1 _ hname _ => ?_
  have hcall : ∀ t, Retyped (.call line type name args) (.call line t name' args') :=
    fun t => .call (hname name' rfl) hargs
  refine .get ?_
  split
  · exact .report rfl (hcall _)
  · rename_i sig hsig
    refine .ite (fun _ => .report rfl (hcall _)) fun hlength => ?_
    rw [not_not] at hlength
    split
    · rename_i e hfault
      refine .fault rfl (hcall _) fun h _ => ?_
      obtain ⟨-,ts,hts⟩ := hS h
      have hlength' : ts.length = sig.inputs.length := by
        rw [← hlength,← length_map (f := Node.type?),hts,length_map]
      have hmismatch := mismatch?_of_types hts hlength'
      rw [hfault] at hmismatch
      split at hmismatch
      · cases hmismatch
      · obtain ⟨t,ht⟩ := hmismatch
        cases ht
    · exact .report rfl (hcall _)
    · rename_i hmismatch
      refine .pure rfl (hcall _) fun _ hresolved => ?_
      obtain ⟨rfl,hmeans⟩ := hresolved
      exact hp _ sig (hmeans _ rfl) hsig (types_of_mismatch? hlength hmismatch)

end

mutual

theorem isExpression_of_isExpr (n : Node) (h : n.isExpr = true) : n.isExpression = true :=
  match n with
  | .var .. | .number _ _ (.int _) | .boolean _ _ (.str _) => rfl
  | .binary _ _ a b op => by
    simp only [Node.isExpr,Bool.and_eq_true] at h
    rw [Node.isExpression,h.1.1,isExpression_of_isExpr a h.1.2,isExpression_of_isExpr b h.2]
    rfl
  | .unary _ _ a op => by
    simp only [Node.isExpr,unaryOperators,Bool.and_eq_true,contains_iff_mem] at h
    rw [Node.isExpression,isExpression_of_isExpr a h.2,Bool.and_true,contains_iff_mem]
    grind
  | .call _ _ name args => by
    simp only [Node.isExpr,Bool.and_eq_true] at h
    exact areExpressions_of_areExprs args h.2

theorem areExpressions_of_areExprs (ns : List Node) (h : Node.areExprs ns = true) :
    Node.areExpressions ns = true :=
  match ns with
  | [] => rfl
  | n :: rest => by
    simp only [Node.areExprs,Bool.and_eq_true] at h
    rw [Node.areExpressions,isExpression_of_isExpr n h.1,areExpressions_of_areExprs rest h.2]
    rfl

end

theorem Retyped.exists_type (h : Retyped n n') (hn : n.isExpression = true) :
    ∃ t, n'.type? = some t := by
  cases h with
  | refl =>
    cases n with
    | var | number | boolean | binary | unary | call => exact ⟨_,rfl⟩
    | _ => simp [Node.isExpression] at hn
  | var | number | boolean | binary | unary | call => exact ⟨_,rfl⟩
  | _ => simp [Node.isExpression] at hn

theorem RetypedAll.exists_types (h : RetypedAll ns ns') (hns : Node.areExpressions ns = true) :
    ∃ ts : List String, ns'.map Node.type? = ts.map some := by
  induction ns generalizing ns' with
  | nil =>
    cases h
    exact ⟨[],rfl⟩
  | cons n rest ih =>
    simp only [Node.areExpressions,Bool.and_eq_true] at hns
    cases h with
    | cons hn hrest =>
      obtain ⟨t,ht⟩ := hn.exists_type hns.1
      obtain ⟨ts,hts⟩ := ih hrest hns.2
      exact ⟨t :: ts,by rw [map_cons,ht,hts,map_cons]⟩

theorem ends_checkExpr_and_checkExprs :
    (∀ n c, PartEnds (n.isExpression = true ∧ n.printsArguments = true) (checkExpr n) c (Retyped n)
      (ExprPasses c n)) ∧
    ∀ ns c, PartEnds (Node.areExpressions ns = true ∧ Node.allPrintArguments ns = true) (checkExprs ns) c
      (RetypedAll ns) (ExprsPass c ns) := by
  refine checkExpr.mutual_induct _ _ ?var ?binary ?unary ?notNumber ?number ?overflow ?isTrue ?isFalse
    ?noTruth ?call ?bareCall ?other ?nil ?cons <;> intros <;> simp only [checkExpr,checkExprs,
      Node.isExpression,Node.areExpressions,Node.printsArguments,Node.allPrintArguments,
      Bool.and_eq_true, *]
  case var =>
    refine .get ?_
    split
    · exact .report rfl .var
    · exact .ite (fun ht => .pure rfl .var (.var ‹_› ht)) fun _ => .report rfl .var
  case binary y _ ihx ihy c =>
    exact (ihx c).andThen (fun h => ⟨h.1.1.2,h.2.1⟩)
      (fun _ e hx => ⟨_,e,rfl,.binary hx (.refl y)⟩) fun x' r c1 hx _ =>
      (ihy c1).andThen (fun h => ⟨h.1.2,h.2.2⟩) (fun _ e hy => ⟨_,e,rfl,.binary hx hy⟩)
        fun y' r' c2 hy _ => ends_checkBinary
          (fun h => ⟨hx.exists_type h.1.1.2,hy.exists_type h.1.2⟩) (fun _ => .binary hx hy)
          fun t ht hpassy hpassx => .binary hpassx hpassy ht
  case unary ih c =>
    exact (ih c).andThen (fun h => ⟨h.1.2,h.2⟩) (fun _ e hx => ⟨_,e,rfl,.unary hx⟩)
      fun x' r c1 hx _ => ends_checkUnary (fun h => hx.exists_type h.1.2) (fun _ => .unary hx)
        fun t ht hpass => .unary hpass ht
  case notNumber value e h c =>
    refine .fault rfl .number fun hn _ => ?_
    cases value with
    | int => cases h
    | _ => simp [Node.isExpression] at hn
  case number h hn c =>
    refine .ite (fun _ => .pure rfl .number (.number fun m hm => ?_)) fun _ => .report rfl .number
    subst hm
    cases h
    exact hn
  case overflow => exact .ite (fun h => by cases h) fun _ => .report rfl .number
  case isTrue | isFalse => exact .pure rfl .boolean (.boolean (by simp))
  case noTruth => exact .report rfl .boolean
  case call ih c =>
    refine (ih c).andThen (fun h => ⟨h.1,h.2.2⟩)
      (fun _ e hargs => ⟨_,e,rfl,.call (.inr rfl) hargs⟩) fun args' r c1 hargs hretains =>
        ends_checkCall (fun h => ⟨?_,hargs.exists_types h.1⟩) hargs
          fun name' sig hname hsig htypes hpass => .call hpass hname (hretains.procedures ▸ hsig) htypes
    rintro rfl rfl
    cases hargs
    simp at h
  case bareCall => exact .fault rfl (.refl _) fun h _ => by simp at h
  case other n h1 h2 h3 h4 h5 h6 h7 c =>
    refine ends_unidentified (fun h => ?_) (.refl n)
    cases n with
    | var => exact h1 _ _ _ rfl
    | binary => exact h2 _ _ _ _ _ rfl
    | unary => exact h3 _ _ _ _ rfl
    | number => exact h4 _ _ _ rfl
    | boolean => exact h5 _ _ _ rfl
    | call => exact h6 _ _ _ _ rfl
    | _ => simp [Node.isExpression] at h
  case nil => exact .pure rfl .nil .nil
  case cons rest ihe ihrest c =>
    exact (ihe c).andThen (fun h => ⟨h.1.1,h.2.1⟩)
      (fun _ f he => ⟨_,f,rfl,.cons he (.refl rest)⟩) fun e' r c1 he _ =>
      (ihrest c1).andThen (fun h => ⟨h.1.2,h.2.2⟩) (fun _ f hrest => ⟨_,f,rfl,.cons he hrest⟩)
        fun rest' r' c2 hrest _ => .pure rfl (.cons he hrest) fun hpass hpasse => .cons hpasse hpass

theorem ends_checkExpr (n : Node) (c : Checker) :
    PartEnds (n.isExpr = true ∧ n.printsArguments = true) (checkExpr n) c (Retyped n)
      (ExprPasses c n) :=
  (ends_checkExpr_and_checkExprs.1 n c).mono (fun h => ⟨isExpression_of_isExpr n h.1,h.2⟩)
    fun _ _ h => h

theorem passes_checkExpr (h : Passes (checkExpr n) c n' raised c') :
    ExprPasses c n (n',.ok raised) c' :=
  h.of_ends (ends_checkExpr_and_checkExprs.1 n c)

theorem passes_checkExprs (h : Passes (checkExprs ns) c ns' raised c') :
    ExprsPass c ns (ns',.ok raised) c' :=
  h.of_ends (ends_checkExpr_and_checkExprs.2 ns c)

end BxToolchain.Bx
