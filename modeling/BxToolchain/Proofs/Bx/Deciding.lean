import BxToolchain.Proofs.Bx.Checking

namespace BxToolchain.Bx

open List

variable {c : Checker} {e e' : Node} {t : String} {raised : List String}

def Annotates (c : Checker) (e e' : Node) : Prop := ∃ t, c.Typed e t ∧ e'.type? = some t

structure Judged (c : Checker) (e e' : Node) (reports : List Report) : Prop where
  typed : reports = [] → ∃ t, c.Typed e t ∧ e'.type? = some t ∧
    List.Forall₂ (Annotates c) e.subexpressions e'.subexpressions
  silent : ∀ t, c.Typed e t → reports = []

def Checks (c : Checker) (e : Node) : Prop :=
  ∃ e' raised reports, (checkExpr e).run c = ((e',.ok raised),c.reporting reports) ∧
    e'.bare = e.bare ∧ Judged c e e' reports

mutual

theorem Retyped.bare_eq : Retyped n n' → n.isExpression = true → n'.bare = n.bare
  | .refl _, _ | .var, _ | .number, _ | .boolean, _ => rfl
  | .binary ha hb, hn => by
    simp only [Node.isExpression,Bool.and_eq_true] at hn
    rw [Node.bare,ha.bare_eq hn.1.2,hb.bare_eq hn.2,Node.bare]
  | .unary ha, hn => by
    simp only [Node.isExpression,Bool.and_eq_true] at hn
    rw [Node.bare,ha.bare_eq hn.2,Node.bare]
  | .call hname hargs, hn => by
    rw [Node.bare,hargs.bare_eq hn,Node.bare]
    obtain ⟨rfl,rfl | rfl⟩ | rfl := hname <;> rfl
  | .varInit _, hn | .varDecl _, hn | .assign _, hn | .eval _, hn | .block _, hn
  | .ifElse _ _ _, hn | .loop _ _, hn | .return _, hn | .catch _, hn | .tryExcept _ _, hn
  | .procDecl _, hn => by simp [Node.isExpression] at hn

theorem RetypedAll.bare_eq :
    RetypedAll ns ns' → Node.areExpressions ns = true → Node.allBare ns' = Node.allBare ns
  | .nil, _ => rfl
  | .cons h hrest, hns => by
    simp only [Node.areExpressions,Bool.and_eq_true] at hns
    rw [Node.allBare,h.bare_eq hns.1,hrest.bare_eq hns.2,Node.allBare]

end

mutual

theorem printsArguments_of_notMem (e : Node) (he : e.isExpression = true)
    (h : ∀ line a, .call line a "print" [] ∉ e.subexpressions) : e.printsArguments = true :=
  match e with
  | .var .. | .number .. | .boolean .. => rfl
  | .binary line a x y op => by
    simp only [Node.isExpression,Bool.and_eq_true] at he
    simp only [Node.subexpressions,mem_cons,mem_append,not_or] at h
    rw [Node.printsArguments,printsArguments_of_notMem x he.1.2 fun line a => (h line a).2.1,
      printsArguments_of_notMem y he.2 fun line a => (h line a).2.2]
    rfl
  | .unary line a x op => by
    simp only [Node.isExpression,Bool.and_eq_true] at he
    simp only [Node.subexpressions,mem_cons,not_or] at h
    exact printsArguments_of_notMem x he.2 fun line a => (h line a).2
  | .call line a name args => by
    simp only [Node.subexpressions,mem_cons,not_or] at h
    rw [Node.printsArguments,allPrintArguments_of_notMem args he fun line a => (h line a).2,
      Bool.and_true,Bool.or_eq_true,decide_eq_true_eq,Bool.not_eq_true',← Bool.not_eq_true]
    by_contra hprint
    rw [not_or,not_not,not_not,List.isEmpty_iff] at hprint
    obtain ⟨rfl,rfl⟩ := hprint
    exact (h line a).1 rfl

theorem allPrintArguments_of_notMem (es : List Node) (hes : Node.areExpressions es = true)
    (h : ∀ line a, .call line a "print" [] ∉ Node.allSubexpressions es) :
    Node.allPrintArguments es = true :=
  match es with
  | [] => rfl
  | e :: rest => by
    simp only [Node.areExpressions,Bool.and_eq_true] at hes
    simp only [Node.allSubexpressions,mem_append,not_or] at h
    rw [Node.allPrintArguments,printsArguments_of_notMem e hes.1 fun line a => (h line a).1,
      allPrintArguments_of_notMem rest hes.2 fun line a => (h line a).2]
    rfl

end

theorem eq_of_passes (h : Passes (checkExpr n) c n' raised c') : c' = c := by
  obtain ⟨reports,rfl⟩ := (onlyReports_checkExpr n).of_run h.run
  rw [(c.reports_reporting_eq_iff reports).1 h.silent,c.reporting_nil]

theorem exists_unaryType? (hop : op ∈ ["!","-","~"]) : ∃ operand, unaryType? op = some operand := by
  simp only [mem_cons,not_mem_nil,or_false] at hop
  obtain rfl | rfl | rfl := hop <;> exact ⟨_,rfl⟩

theorem signature_of_printer (hc : c.Ready) (hname : name ∈ printerNames)
    (hsig : c.procedures.get? name = some sig) :
    ∃ t, (t = "int" ∨ t = "bool") ∧ sig.inputs = [t] ∧ sig.result = "void" := by
  simp only [printerNames,mem_cons,not_mem_nil,or_false] at hname
  obtain rfl | rfl := hname
  · cases hsig.symm.trans (hc.printers "__bx_print_int" _ rfl)
    exact ⟨"int",.inl rfl,rfl,rfl⟩
  · cases hsig.symm.trans (hc.printers "__bx_print_bool" _ rfl)
    exact ⟨"bool",.inr rfl,rfl,rfl⟩

def Types (c : Checker) (e e' : Node) : Prop :=
  ∃ t, c.Typed e t ∧ e'.type? = some t ∧
    List.Forall₂ (Annotates c) e.subexpressions e'.subexpressions

theorem types_of_parts (ht : c.Typed e t) (ht' : e'.type? = some t)
    (he : e.subexpressions = e :: parts) (he' : e'.subexpressions = e' :: parts')
    (hparts : List.Forall₂ (Annotates c) parts parts') : Types c e e' :=
  ⟨t,ht,ht',he ▸ he' ▸ .cons ⟨t,ht,ht'⟩ hparts⟩

mutual

theorem types_of_passes {c c' e' raised} (hc : c.Ready) (e : Node) (he : e.isExpression = true)
    (h : Passes (checkExpr e) c e' raised c') : Types c e e' :=
  match e, passes_checkExpr h with
  | .var line a x, .var hx _ => types_of_parts (.var hx) rfl rfl rfl .nil
  | .number line a (.int n), .number hrange => by
    have hn := hrange n rfl
    simp only [inWordRange,Bool.and_eq_true,decide_eq_true_eq] at hn
    exact types_of_parts (.number hn.1 hn.2) rfl rfl rfl .nil
  | .boolean line a (.str b), .boolean hb =>
    types_of_parts (.boolean (by simpa using hb)) rfl rfl rfl .nil
  | .binary line a x y op, .binary hx hy htypes => by
    simp only [Node.isExpression,Bool.and_eq_true,contains_iff_mem] at he
    obtain ⟨operand,t,htype⟩ := exists_binaryType? he.1.1
    obtain ⟨rfl,hx',hy'⟩ := htypes operand t htype
    obtain rfl := eq_of_passes hx
    obtain ⟨u,hu,hu',hpartsx⟩ := types_of_passes hc x he.1.2 hx
    obtain ⟨v,hv,hv',hpartsy⟩ := types_of_passes hc y he.2 hy
    cases hx'.symm.trans hu'
    cases hy'.symm.trans hv'
    exact types_of_parts (hasType_binary_iff.2 ⟨he.1.1,_,htype,hu,hv⟩) rfl rfl rfl
      (rel_append hpartsx hpartsy)
  | .unary line a x op, .unary hx htypes => by
    simp only [Node.isExpression,Bool.and_eq_true,contains_iff_mem] at he
    obtain ⟨operand,htype⟩ := exists_unaryType? he.1
    obtain ⟨rfl,hx'⟩ := htypes operand htype
    obtain ⟨u,hu,hu',hparts⟩ := types_of_passes hc x he.2 hx
    cases hx'.symm.trans hu'
    exact types_of_parts (hasType_unary_iff.2 ⟨htype,hu⟩) rfl rfl rfl hparts
  | .call line a name args, .call hargs hname hsig htypes => by
    obtain ⟨hts,hparts⟩ := haveTypes_of_passes hc args he hargs htypes
    refine types_of_parts ?_ rfl rfl rfl hparts
    obtain ⟨hne,rfl⟩ | ⟨rfl,hprinter⟩ := hname
    · exact .call hne hsig hts
    · obtain ⟨t,ht,hinputs,hresult⟩ := signature_of_printer hc hprinter hsig
      rw [hinputs] at hts
      rw [hresult]
      cases hts with
      | cons hx hrest =>
        cases hrest
        exact .print ht hx
termination_by structural e

theorem haveTypes_of_passes {c c' es' raised ts} (hc : c.Ready) (es : List Node)
    (hes : Node.areExpressions es = true) (h : Passes (checkExprs es) c es' raised c')
    (hts : es'.map Node.type? = ts.map some) :
    HaveTypes c.typeOf? c.procedures.get? es ts ∧
      List.Forall₂ (Annotates c) (Node.allSubexpressions es) (Node.allSubexpressions es') :=
  match es, passes_checkExprs h, ts with
  | [], .nil, [] => ⟨.nil,.nil⟩
  | e :: rest, .cons he hrest, t :: ts => by
    simp only [Node.areExpressions,Bool.and_eq_true] at hes
    simp only [map_cons,List.cons.injEq] at hts
    obtain ⟨u,hu,hu',hparts⟩ := types_of_passes hc e hes.1 he
    cases hts.1.symm.trans hu'
    obtain rfl := eq_of_passes he
    obtain ⟨hts,hparts'⟩ := haveTypes_of_passes hc rest hes.2 hrest hts.2
    exact ⟨.cons hu hts,rel_append hparts hparts'⟩
termination_by structural es

end

def Silent (c : Checker) (e : Node) (t : String) : Prop :=
  ∃ e' raised, (checkExpr e).run c = ((e',.ok raised),c) ∧ e'.type? = some t

theorem silent_binary {line a x y op operand} (htype : binaryType? op = some (operand,t))
    (hx : Silent c x operand) (hy : Silent c y operand) : Silent c (.binary line a x y op) t := by
  obtain ⟨x',raised,hrunx,hx'⟩ := hx
  obtain ⟨y',raised',hruny,hy'⟩ := hy
  simp only [Silent,checkExpr,run_bind_of hrunx,run_bind_of hruny,checkBinary,htype,hx',hy',
    decide_true,Bool.and_self,if_true]
  exact ⟨_,_,rfl,rfl⟩

theorem silent_unary (htype : unaryType? op = some t) (hx : Silent c x t) :
    Silent c (.unary line a x op) t := by
  obtain ⟨x',raised,hrun,hx'⟩ := hx
  simp only [Silent,checkExpr,run_bind_of hrun,checkUnary,htype,hx',if_true]
  exact ⟨_,_,rfl,rfl⟩

theorem silent_call (hrun : (checkExprs args).run c = ((args',.ok raised),c))
    (hresolve : (resolvePrinter line name args').run c = (.ok name',c))
    (hs : c.procedures.get? name' = some s) (hargs : args'.map Node.type? = s.inputs.map some) :
    Silent c (.call line a name args) s.result := by
  have hlength : args'.length = s.inputs.length := by simpa using congrArg List.length hargs
  have hmismatch := mismatch?_of_types hargs rfl
  rw [if_pos rfl] at hmismatch
  simp only [Silent,checkExpr,run_bind_of hrun,checkCall,run_bind_of hresolve,run_get_bind,hs,
    hlength,ne_eq,not_true_eq_false,if_false,hmismatch]
  exact ⟨_,_,rfl,rfl⟩

mutual

theorem silent_of_typed {e t} (hc : c.Ready) : c.Typed e t → Silent c e t
  | .var hx => by
    have hword := hc.types _ _ hx
    simp only [Silent,checkExpr,run_get_bind,hx,Bool.or_eq_true,decide_eq_true_eq,hword,if_true]
    exact ⟨_,_,rfl,rfl⟩
  | .number (n := n) hn hn' => by
    have hrange : inWordRange n = true := by simpa [inWordRange] using ⟨hn,hn'⟩
    simp only [Silent,checkExpr,Datum.integer,hrange,if_true]
    exact ⟨_,_,rfl,rfl⟩
  | .boolean hb => by
    obtain rfl | rfl := hb
    all_goals
      simp only [Silent,checkExpr]
      exact ⟨_,_,rfl,rfl⟩
  | .arithmetic hop hx hy =>
    silent_binary ((binaryType?_eq_some_iff (mem_binaryOperators.2 (.inl hop))).2
      (.inl ⟨hop,rfl,rfl⟩)) (silent_of_typed hc hx) (silent_of_typed hc hy)
  | .comparison hop hx hy =>
    silent_binary ((binaryType?_eq_some_iff (mem_binaryOperators.2 (.inr (.inl hop)))).2
      (.inr (.inl ⟨hop,rfl,rfl⟩))) (silent_of_typed hc hx) (silent_of_typed hc hy)
  | .logical hop hx hy =>
    silent_binary ((binaryType?_eq_some_iff (mem_binaryOperators.2 (.inr (.inr hop)))).2
      (.inr (.inr ⟨hop,rfl,rfl⟩))) (silent_of_typed hc hx) (silent_of_typed hc hy)
  | .negation hx => silent_unary rfl (silent_of_typed hc hx)
  | .sign hop hx => silent_unary (by obtain rfl | rfl := hop <;> rfl) (silent_of_typed hc hx)
  | .call hname hs hargs => by
    obtain ⟨args',raised,hrun,hargs'⟩ := allSilent_of_haveTypes hc hargs
    exact silent_call hrun (by simp only [resolvePrinter,if_neg hname]; rfl) hs hargs'
  | .print (x := x) ht hx => by
    obtain ⟨x',raised,hrun,hx'⟩ := silent_of_typed hc hx
    have hargs : (checkExprs [x]).run c = (([x'],.ok (raised ++ [])),c) := by
      simp only [checkExprs,run_bind_of hrun]
      rfl
    obtain rfl | rfl := ht
    · have hs := hc.printers "__bx_print_int" ⟨["int"],"void",[]⟩ rfl
      exact silent_call hargs (by simp only [resolvePrinter,if_true,hx']; rfl) hs
        (congrArg (fun t => [t]) hx')
    · have hs := hc.printers "__bx_print_bool" ⟨["bool"],"void",[]⟩ rfl
      exact silent_call hargs (by simp only [resolvePrinter,if_true,hx']; rfl) hs
        (congrArg (fun t => [t]) hx')

theorem allSilent_of_haveTypes {es ts} (hc : c.Ready) :
    HaveTypes c.typeOf? c.procedures.get? es ts →
    ∃ es' raised, (checkExprs es).run c = ((es',.ok raised),c) ∧ es'.map Node.type? = ts.map some
  | .nil => ⟨[],[],by rw [checkExprs]; rfl,rfl⟩
  | .cons hx hxs => by
    obtain ⟨x',raised,hrun,hx'⟩ := silent_of_typed hc hx
    obtain ⟨xs',raised',hruns,hxs'⟩ := allSilent_of_haveTypes hc hxs
    refine ⟨x' :: xs',raised ++ raised',?_,by rw [map_cons,hx',hxs',map_cons]⟩
    simp only [checkExprs,run_bind_of hrun,run_bind_of hruns]
    rfl

end

theorem checks_of_isExpression (hc : c.Ready) (e : Node) (he : e.isExpression = true)
    (hprint : ∀ line a, .call line a "print" [] ∉ e.subexpressions) : Checks c e := by
  -- In an empty scope and outside procedures the check goes the same way.
  let c1 : Checker := { c with scopes := {} :: c.scopes, current := none }
  obtain ⟨reports,hreports,hrun⟩ := observes_checkExpr_and_checkExprs.1 e c c1 ⟨rfl,rfl,rfl⟩
  have hends := ends_checkExpr_and_checkExprs.1 e c1
  obtain ⟨raised,hok⟩ := hends.sound ⟨he,printsArguments_of_notMem e he hprint⟩
    ⟨Nat.succ_pos _,nofun⟩
  have hretyped := hends.keeps
  rw [hrun] at hok hretyped
  have hrun : (checkExpr e).run c = ((((checkExpr e).run c).1.1,.ok raised),c.reporting reports) :=
    Prod.ext (Prod.ext rfl hok) hreports
  refine ⟨_,raised,reports,hrun,hretyped.bare_eq he,fun hnil => ?_,fun t ht => ?_⟩
  · exact types_of_passes hc e he ⟨hrun,(c.reports_reporting_eq_iff reports).2 hnil⟩
  · obtain ⟨e',raised',hsilent,-⟩ := silent_of_typed hc ht
    rw [hsilent] at hreports
    rw [← c.reports_reporting_eq_iff,← hreports]

theorem checkExpr_decides {c : Checker} (hc : c.Ready) {e : Node} (he : e.isExpression = true)
    (hprint : ∀ line a, .call line a "print" [] ∉ e.subexpressions) :
    ∃ e' raised c', (checkExpr e).run c = ((e',.ok raised),c') ∧ e'.bare = e.bare ∧
      (c'.reporter.reports = c.reporter.reports ↔ ∃ t, c.Typed e t) ∧
      ∀ t, c.Typed e t → e'.type? = some t ∧
        List.Forall₂ (Annotates c) e.subexpressions e'.subexpressions := by
  obtain ⟨e',raised,reports,hrun,hbare,hjudged⟩ := checks_of_isExpression hc e he hprint
  refine ⟨e',raised,c.reporting reports,hrun,hbare,?_,fun t ht => ?_⟩
  · rw [c.reports_reporting_eq_iff]
    constructor
    · intro hnil
      obtain ⟨t,ht,-⟩ := hjudged.typed hnil
      exact ⟨t,ht⟩
    · rintro ⟨t,ht⟩
      exact hjudged.silent t ht
  · obtain ⟨u,hu,htype,hparts⟩ := hjudged.typed (hjudged.silent t ht)
    exact ⟨by rw [htype,hu.unique ht],hparts⟩

def printedComparison : Node :=
  .call 1 Node.undefined "print" [.binary 1 Node.undefined
    (.call 1 Node.undefined "f"
      [.binary 1 Node.undefined (.var 1 Node.undefined "x") (.number 1 Node.undefined (.int 1)) "+",
       .unary 1 Node.undefined (.var 1 Node.undefined "b") "!"])
    (.number 1 Node.undefined (.int 3)) "<="]

def checkerWithF : Checker :=
  { scopes := [{ types := ⟨[("b","bool"),("x","int")]⟩ }]
    procedures := printers.insert "f" ⟨["int","bool"],"int",[]⟩ }

theorem ready_checkerWithF : checkerWithF.Ready :=
  ((Checker.ready_start.declare (x := "b") rfl (.inr rfl)).declare (x := "x") rfl
    (.inl rfl)).collect (rfl : printers.contains "f" = false) _

theorem typed_printedComparison : checkerWithF.Typed printedComparison "void" := by
  have hx : checkerWithF.Typed (.var 1 Node.undefined "x") "int" := .var rfl
  have hb : checkerWithF.Typed (.var 1 Node.undefined "b") "bool" := .var rfl
  have hnumber : ∀ n : Nat, n < 4 → checkerWithF.Typed (.number 1 Node.undefined (.int n)) "int" :=
    fun n hn => .number (by omega) (by omega)
  have hf : checkerWithF.procedures.get? "f" = some ⟨["int","bool"],"int",[]⟩ := rfl
  exact .print (.inr rfl) (.comparison (by simp [comparisonOperators])
    (.call (by simp) hf (.cons (.arithmetic (by simp [arithmeticOperators]) hx (hnumber 1 (by simp)))
      (.cons (.negation hb) .nil))) (hnumber 3 (by simp)))

theorem printedComparison_decided :
    checkerWithF.Ready ∧ printedComparison.isExpression = true ∧
      (∀ line a, Node.call line a "print" [] ∉ printedComparison.subexpressions) ∧
      checkerWithF.Typed printedComparison "void" ∧
      ∃ e' raised c', (checkExpr printedComparison).run checkerWithF = ((e',.ok raised),c') ∧
        c'.reporter.reports = [] ∧ e'.type? = some "void" := by
  have he : printedComparison.isExpression = true := by decide
  have hprint : ∀ line a, Node.call line a "print" [] ∉ printedComparison.subexpressions := by
    simp [printedComparison,Node.subexpressions,Node.allSubexpressions]
  obtain ⟨e',raised,c',hrun,-,hreports,htypes⟩ :=
    checkExpr_decides ready_checkerWithF he hprint
  exact ⟨ready_checkerWithF,he,hprint,typed_printedComparison,e',raised,c',hrun,
    hreports.2 ⟨_,typed_printedComparison⟩,(htypes _ typed_printedComparison).1⟩

end BxToolchain.Bx
