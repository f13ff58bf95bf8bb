import BxToolchain.Proofs.Bx.Typing

namespace BxToolchain.Bx

def Upholds (R : Checker → Checker → Prop) {α : Type} (x : Check α) : Prop :=
  ∀ c, R c (x.run c).2

namespace Upholds

variable {α β : Type}

theorem pure [Std.Refl R] : Upholds R (Pure.pure a) := fun c => Std.Refl.refl c

theorem bind [Trans R R R] (hx : Upholds R x) (hf : ∀ a, Upholds R (f a)) :
    Upholds R (x >>= f) := by
  intro c
  rw [StateT.run_bind]
  exact Trans.trans (hx c) (hf _ _)

theorem of_run (h : Upholds R x) (hrun : x.run c = (a,c')) : R c c' := by
  have hc := h c
  rwa [hrun] at hc

end Upholds

structure LooksAlike (c c' : Checker) : Prop where
  types : c'.typeOf? = c.typeOf?
  procedures : c'.procedures = c.procedures
  reporter : c'.reporter = c.reporter

variable {c c' : Checker}

theorem LooksAlike.reporting (h : LooksAlike c c') (reports : List Report) :
    LooksAlike (c.reporting reports) (c'.reporting reports) :=
  ⟨h.types,h.procedures,by simp only [Checker.reporting,h.reporter]⟩

def Observes {α : Type} (x : Check α) : Prop :=
  ∀ c c', LooksAlike c c' → ∃ reports,
    (x.run c).2 = c.reporting reports ∧ x.run c' = ((x.run c).1,c'.reporting reports)

namespace Observes

theorem pure : Observes (Pure.pure a) :=
  fun c c' _ => ⟨[],c.reporting_nil.symm,by rw [c'.reporting_nil]; rfl⟩

theorem bind (hx : Observes x) (hf : ∀ a, Observes (f a)) : Observes (x >>= f) := by
  intro c c' h
  obtain ⟨reports,hc,hc'⟩ := hx c c' h
  obtain ⟨more,hmore,hmore'⟩ := hf (x.run c).1 _ _ (h.reporting reports)
  rw [← hc] at hmore hmore'
  rw [Checker.reporting_reporting] at hmore'
  rw [StateT.run_bind,StateT.run_bind,hc']
  exact ⟨reports ++ more,hmore.trans (by rw [hc,c.reporting_reporting]),hmore'⟩

theorem get_bind (hf : ∀ c, Observes (f c)) (hread : ∀ c c', LooksAlike c c' → f c' = f c) :
    Observes (get >>= f) := by
  intro c c' h
  obtain ⟨reports,hc,hc'⟩ := hf c c c' h
  exact ⟨reports,hc,(congrArg (StateT.run · c') (hread c c' h)).trans hc'⟩

theorem ite [Decidable p] (hx : Observes x) (hy : Observes y) : Observes (if p then x else y) := by
  split
  · exact hx
  · exact hy

theorem report : Observes (Bx.report reason line >>= fun _ => Pure.pure a) := by
  intro c c' h
  refine ⟨[⟨.str reason,line,c.reporter.stage⟩],rfl,?_⟩
  rw [← h.reporter]
  rfl

end Observes

theorem observes_unidentified (what : String) (n : Node) : Observes (unidentified what n) := by
  unfold unidentified
  split
  · exact .pure
  · exact .report

theorem observes_checkBinary (line : Int) (a : String) (x y : Node) (op : String)
    (raised : List String) : Observes (checkBinary line a x y op raised) := by
  unfold checkBinary
  split
  · exact .pure
  · split
    · exact .ite .pure .report
    · exact .pure

theorem observes_checkUnary (line : Int) (a : String) (x : Node) (op : String)
    (raised : List String) : Observes (checkUnary line a x op raised) := by
  unfold checkUnary
  split
  · exact .pure
  · split
    · exact .ite .pure .report
    · exact .pure

theorem observes_resolvePrinter (line : Int) (name : String) (args : List Node) :
    Observes (resolvePrinter line name args) := by
  unfold resolvePrinter
  refine .ite ?_ .pure
  split
  · exact .pure
  · split
    · exact .pure
    · exact .pure
    · exact .pure
    · split
      · exact .pure
      · exact .report

theorem observes_checkCall (line : Int) (a name : String) (args : List Node)
    (raised : List String) : Observes (checkCall line a name args raised) := by
  unfold checkCall
  refine (observes_resolvePrinter _ _ _).bind fun r => ?_
  split
  · exact .pure
  · refine .get_bind (fun c => ?_) fun c c' h => by rw [h.procedures]
    split
    · exact .report
    · refine .ite .report ?_
      split
      · exact .pure
      · exact .report
      · exact .pure

theorem observes_checkExpr_and_checkExprs :
    (∀ n, Observes (checkExpr n)) ∧ ∀ ns, Observes (checkExprs ns) := by
  refine checkExpr.mutual_induct _ _ ?var ?binary ?unary ?notNumber ?number ?overflow ?isTrue ?isFalse
    ?noTruth ?call ?bareCall ?other ?nil ?cons <;> intros <;> simp only [checkExpr,checkExprs, *]
  case var =>
    refine .get_bind (fun c => ?_) fun c c' h => by rw [h.types]
    split
    · exact .report
    · exact .ite .pure .report
  case binary ihx ihy =>
    refine ihx.bind fun r => ?_
    split
    · exact .pure
    · refine ihy.bind fun r => ?_
      split
      · exact .pure
      · exact observes_checkBinary _ _ _ _ _ _
  case unary ih =>
    refine ih.bind fun r => ?_
    split
    · exact .pure
    · exact observes_checkUnary _ _ _ _ _
  case notNumber | isTrue | isFalse | bareCall | nil => exact .pure
  case number | overflow => exact .ite .pure .report
  case noTruth => exact .report
  case call ih =>
    refine ih.bind fun r => ?_
    split
    · exact .pure
    · exact observes_checkCall _ _ _ _ _
  case other => exact observes_unidentified _ _
  case cons ihe ihrest =>
    refine ihe.bind fun r => ?_
    split
    · exact .pure
    · refine ihrest.bind fun r => ?_
      split
      · exact .pure
      · exact .pure

def OnlyReports (c c' : Checker) : Prop := ∃ reports, c' = c.reporting reports

theorem Observes.onlyReports (h : Observes x) : Upholds OnlyReports x := by
  intro c
  obtain ⟨reports,hc,-⟩ := h c c ⟨rfl,rfl,rfl⟩
  exact ⟨reports,hc⟩

theorem onlyReports_checkExpr (n : Node) : Upholds OnlyReports (checkExpr n) :=
  (observes_checkExpr_and_checkExprs.1 n).onlyReports

def Grows (c c' : Checker) : Prop := c.reporter.reports <+: c'.reporter.reports

instance : Std.Refl Grows := ⟨fun _ => List.prefix_refl _⟩

instance : Trans Grows Grows Grows := ⟨List.IsPrefix.trans⟩

theorem Grows.silent_of_trans (h : Grows c c') (h' : Grows c' c'')
    (hsilent : c''.reporter.reports = c.reporter.reports) :
    c'.reporter.reports = c.reporter.reports ∧ c''.reporter.reports = c'.reporter.reports := by
  have hlength : c'.reporter.reports.length ≤ c.reporter.reports.length := hsilent ▸ h'.length_le
  have heq := (h.eq_of_length_le hlength).symm
  exact ⟨heq,hsilent.trans heq.symm⟩

end BxToolchain.Bx
