import BxToolchain.Bx.Check
import BxToolchain.Proofs.Table

namespace BxToolchain.Bx

open List

variable {op t a : String} {line : Int} {x y e : Node} {args : List Node} {c : Checker}
  {reports : List Report} {ts : List String}

def arithmeticOperators : List String := ["+","-","*","/","%","&","|","^","<<",">>"]

def comparisonOperators : List String := ["<","<=",">",">=","==","!="]

def logicalOperators : List String := ["&&","||"]

def binaryOperators : List String := arithmeticOperators ++ comparisonOperators ++ logicalOperators

mutual

def Node.isExpression : Node → Bool
  | .var .. | .number _ _ (.int _) | .boolean _ _ (.str _) => true
  | .binary _ _ a b op =>
    binaryOperators.contains op && a.isExpression && b.isExpression
  | .unary _ _ a op => ["!","-","~"].contains op && a.isExpression
  | .call _ _ _ args => Node.areExpressions args
  | _ => false

def Node.areExpressions : List Node → Bool
  | [] => true
  | e :: rest => e.isExpression && Node.areExpressions rest

end

mutual

def Node.subexpressions : Node → List Node
  | .binary line a x y op => .binary line a x y op :: (x.subexpressions ++ y.subexpressions)
  | .unary line a x op => .unary line a x op :: x.subexpressions
  | .call line a name args => .call line a name args :: Node.allSubexpressions args
  | n => [n]

def Node.allSubexpressions : List Node → List Node
  | [] => []
  | e :: rest => e.subexpressions ++ Node.allSubexpressions rest

end

def sourceName (name : String) : String :=
  if name = "__bx_print_int" ∨ name = "__bx_print_bool" then "print" else name

mutual

def Node.bare : Node → Node
  | .var line _ x => .var line undefined x
  | .number line _ n => .number line undefined n
  | .boolean line _ b => .boolean line undefined b
  | .binary line _ x y op => .binary line undefined x.bare y.bare op
  | .unary line _ x op => .unary line undefined x.bare op
  | .call line _ name args => .call line undefined (sourceName name) (Node.allBare args)
  | n => n

def Node.allBare : List Node → List Node
  | [] => []
  | e :: rest => e.bare :: Node.allBare rest

end

section

variable (types : String → Option String) (procedures : String → Option Signature)

mutual

inductive HasType : Node → String → Prop where
  | var {line : Int} {a x t : String} : types x = some t → HasType (.var line a x) t
  | number {line a n} : -(2 ^ 63) ≤ n → n < 2 ^ 63 →
      HasType (.number line a (.int n)) "int"
  | boolean {line a b} : b = "true" ∨ b = "false" →
      HasType (.boolean line a (.str b)) "bool"
  | arithmetic {line : Int} {a op : String} {x y : Node} : op ∈ arithmeticOperators →
      HasType x "int" → HasType y "int" → HasType (.binary line a x y op) "int"
  | comparison {line : Int} {a op : String} {x y : Node} : op ∈ comparisonOperators →
      HasType x "int" → HasType y "int" → HasType (.binary line a x y op) "bool"
  | logical {line : Int} {a op : String} {x y : Node} : op ∈ logicalOperators →
      HasType x "bool" → HasType y "bool" → HasType (.binary line a x y op) "bool"
  | negation {line : Int} {a : String} {x : Node} : HasType x "bool" →
      HasType (.unary line a x "!") "bool"
  | sign {line : Int} {a op : String} {x : Node} : op = "-" ∨ op = "~" → HasType x "int" →
      HasType (.unary line a x op) "int"
  | call {line a name args s} : name ≠ "print" →
      procedures name = some s → HaveTypes args s.inputs → HasType (.call line a name args) s.result
  | print {line : Int} {a t : String} {x : Node} : t = "int" ∨ t = "bool" → HasType x t →
      HasType (.call line a "print" [x]) "void"

inductive HaveTypes : List Node → List String → Prop where
  | nil : HaveTypes [] []
  | cons {x xs t ts} : HasType x t →
      HaveTypes xs ts → HaveTypes (x :: xs) (t :: ts)

end

end

variable {name : String}

section

theorem binaryType?_eq_some_iff {operand} (hop : op ∈ binaryOperators) :
    binaryType? op = some (operand,t) ↔
      (op ∈ arithmeticOperators ∧ operand = "int" ∧ t = "int") ∨
      (op ∈ comparisonOperators ∧ operand = "int" ∧ t = "bool") ∨
      (op ∈ logicalOperators ∧ operand = "bool" ∧ t = "bool") := by
  simp only [binaryOperators,arithmeticOperators,comparisonOperators,logicalOperators,
    cons_append,nil_append,mem_cons,not_mem_nil,or_false] at hop
  rcases hop with rfl | rfl | rfl | rfl | rfl | rfl | rfl | rfl | rfl | rfl | rfl | rfl | rfl |
    rfl | rfl | rfl | rfl | rfl <;>
    simp [binaryType?,boolOperators,comparisons,intOperators,arithmeticOperators,
      comparisonOperators,logicalOperators,eq_comm]

theorem mem_binaryOperators : op ∈ binaryOperators ↔
    op ∈ arithmeticOperators ∨ op ∈ comparisonOperators ∨ op ∈ logicalOperators := by
  simp [binaryOperators]

theorem exists_binaryType? (hop : op ∈ binaryOperators) :
    ∃ operand t, binaryType? op = some (operand,t) := by
  simp only [binaryType?_eq_some_iff hop]
  obtain h | h | h := mem_binaryOperators.1 hop
  · exact ⟨_,_,.inl ⟨h,rfl,rfl⟩⟩
  · exact ⟨_,_,.inr (.inl ⟨h,rfl,rfl⟩)⟩
  · exact ⟨_,_,.inr (.inr ⟨h,rfl,rfl⟩)⟩

theorem hasType_binary_iff :
    HasType types procedures (.binary line a x y op) t ↔
      op ∈ binaryOperators ∧ ∃ operand, binaryType? op = some (operand,t) ∧
        HasType types procedures x operand ∧ HasType types procedures y operand := by
  constructor
  · intro h
    have hop : op ∈ binaryOperators := by
      cases h with
      | arithmetic hop => exact mem_binaryOperators.2 (.inl hop)
      | comparison hop => exact mem_binaryOperators.2 (.inr (.inl hop))
      | logical hop => exact mem_binaryOperators.2 (.inr (.inr hop))
    simp only [binaryType?_eq_some_iff hop]
    cases h with
    | arithmetic hop' hx hy => exact ⟨hop,_,.inl ⟨hop',rfl,rfl⟩,hx,hy⟩
    | comparison hop' hx hy => exact ⟨hop,_,.inr (.inl ⟨hop',rfl,rfl⟩),hx,hy⟩
    | logical hop' hx hy => exact ⟨hop,_,.inr (.inr ⟨hop',rfl,rfl⟩),hx,hy⟩
  · rintro ⟨hop,operand,htype,hx,hy⟩
    obtain ⟨hop,rfl,rfl⟩ | ⟨hop,rfl,rfl⟩ | ⟨hop,rfl,rfl⟩ :=
      (binaryType?_eq_some_iff hop).1 htype
    · exact .arithmetic hop hx hy
    · exact .comparison hop hx hy
    · exact .logical hop hx hy

theorem hasType_unary_iff :
    HasType types procedures (.unary line a x op) t ↔
      unaryType? op = some t ∧ HasType types procedures x t := by
  constructor
  · intro h
    cases h with
    | negation hx => exact ⟨rfl,hx⟩
    | sign hop hx =>
      obtain rfl | rfl := hop
      · exact ⟨rfl,hx⟩
      · exact ⟨rfl,hx⟩
  · rintro ⟨hop,hx⟩
    simp only [unaryType?,Bool.or_eq_true,decide_eq_true_eq] at hop
    split at hop
    · rename_i h
      obtain rfl := h
      cases hop
      exact .negation hx
    · split at hop
      · rename_i h
        cases hop
        exact .sign h hx
      · cases hop

theorem HasType.unique (h : HasType types procedures e t) (h' : HasType types procedures e u) :
    t = u := by
  cases e with
  | var line a x =>
    cases h with
    | var hx => cases h' with
      | var hx' => exact Option.some.inj (hx.symm.trans hx')
  | number | boolean => cases h; cases h'; rfl
  | binary line a x y op =>
    obtain ⟨-,operand,hop,-⟩ := hasType_binary_iff.1 h
    obtain ⟨-,operand',hop',-⟩ := hasType_binary_iff.1 h'
    rw [hop] at hop'
    exact (Prod.mk.inj (Option.some.inj hop')).2
  | unary line a x op =>
    exact Option.some.inj ((hasType_unary_iff.1 h).1.symm.trans (hasType_unary_iff.1 h').1)
  | call line a name args =>
    cases h with
    | call hname hs => cases h' with
      | call _ hs' => rw [Option.some.inj (hs.symm.trans hs')]
      | print => exact absurd rfl hname
    | print => cases h' with
      | call hname => exact absurd rfl hname
      | print => rfl
  | _ => cases h

end

namespace Checker

def reporting (c : Checker) (reports : List Report) : Checker :=
  { c with reporter := { c.reporter with reports := c.reporter.reports ++ reports } }

@[simp]
theorem reporting_nil (c : Checker) : c.reporting [] = c := by
  simp [reporting]

@[simp]
theorem reporting_reporting (c : Checker) (reports more : List Report) :
    (c.reporting reports).reporting more = c.reporting (reports ++ more) := by
  simp [reporting]

@[simp]
theorem procedures_reporting (c : Checker) (reports : List Report) :
    (c.reporting reports).procedures = c.procedures := rfl

theorem reports_reporting_eq_iff (c : Checker) (reports : List Report) :
    (c.reporting reports).reporter.reports = c.reporter.reports ↔ reports = [] := by
  simp [reporting]

structure Ready (c : Checker) : Prop where
  types : ∀ x t, c.typeOf? x = some t → t = "int" ∨ t = "bool"
  printers : ∀ name s, printers.get? name = some s → c.procedures.get? name = some s

theorem ready_start : ({} : Checker).Ready :=
  ⟨fun x t h => by simp [typeOf?,lookupIn] at h,fun _ _ h => h⟩

theorem Ready.declare {s rest x} (hc : c.Ready)
    (hscopes : c.scopes = s :: rest) (ht : t = "int" ∨ t = "bool") :
    { c with scopes := s.declare x t :: rest }.Ready := by
  refine ⟨fun y u hy => ?_,hc.printers⟩
  have hold := hc.types y u
  simp only [typeOf?,hscopes,lookupIn,Scope.declare] at hold hy
  cases hx : s.types.contains x with
  | true => exact hold (by simpa [hx] using hy)
  | false =>
    by_cases hyx : y = x
    · exact (show t = u by simpa [hx,hyx] using hy) ▸ ht
    · exact hold (by simpa [hx,hyx] using hy)

theorem Ready.collect (hc : c.Ready) (hname : Bx.printers.contains name = false) (s : Signature) :
    { c with procedures := c.procedures.insert name s }.Ready := by
  refine ⟨hc.types,fun other s' hs' => ?_⟩
  rw [Table.get?_insert_of_ne _ _ ?_]
  · exact hc.printers other s' hs'
  · rintro rfl
    simp [Table.contains,hs'] at hname

abbrev Typed (c : Checker) : Node → String → Prop := HasType c.typeOf? c.procedures.get?

end Checker

theorem run_bind_of {α β : Type} {x : Check α} {f : α → Check β} {c' : Checker} {a : α}
    (h : x.run c = (a,c')) : (x >>= f).run c = (f a).run c' := by
  rw [StateT.run_bind,h]
  rfl

theorem mismatch?_of_types (hts : args.map Node.type? = ts.map some)
    (hlength : ts.length = inputs.length) :
    if ts = inputs then mismatch? args inputs = .ok none
    else ∃ t, mismatch? args inputs = .ok (some t) := by
  induction args generalizing ts inputs with
  | nil =>
    obtain rfl : ts = [] := by simpa using hts.symm
    obtain rfl : inputs = [] := by simpa using hlength.symm
    rfl
  | cons arg rest ih =>
    cases ts with
    | nil => simp at hts
    | cons t ts =>
      cases inputs with
      | nil => simp at hlength
      | cons u inputs =>
        simp only [map_cons,List.cons.injEq] at hts
        simp only [length_cons,Nat.add_right_cancel_iff] at hlength
        simp only [mismatch?,hts.1,List.cons.injEq]
        by_cases ht : t = u
        · simpa [ht] using ih hts.2 hlength
        · simp [ht]

theorem mapM_quotedType?_of_types (hts : args.map Node.type? = ts.map some) :
    ∃ quoted, args.mapM Node.quotedType? = some quoted := by
  induction args generalizing ts with
  | nil => exact ⟨[],rfl⟩
  | cons arg rest ih =>
    cases ts with
    | nil => simp at hts
    | cons t ts =>
      simp only [map_cons,List.cons.injEq] at hts
      obtain ⟨quoted,hquoted⟩ := ih hts.2
      obtain ⟨q,hq⟩ : ∃ q, arg.quotedType? = some q := by
        unfold Node.quotedType?
        split
        · exact ⟨_,rfl⟩
        · exact ⟨_,rfl⟩
        · simp [hts.1]
      exact ⟨q :: quoted,by simp [hq,hquoted]⟩

end BxToolchain.Bx
