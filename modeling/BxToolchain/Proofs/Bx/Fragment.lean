import BxToolchain.Proofs.Bx.Evaluation

namespace BxToolchain.Bx

abbrev Declared := List (List String)

def Declared.add (x : String) : Declared → Declared
  | [] => []
  | level :: rest => (x :: level) :: rest

namespace Node

def isInteger (names : List String) : Node → Bool
  | .var _ _ x => names.contains x
  | .number _ _ (.int _) => true
  | .binary _ _ a b op => (arithmetic? op).isSome && a.isInteger names && b.isInteger names
  | .unary _ _ a op => (sign? op).isSome && a.isInteger names
  | _ => false

def isValue (names : List String) : Node → Bool
  | .boolean _ _ b => (truth? b).isSome
  | n => n.isInteger names

def isCondition (names : List String) : Node → Bool
  | .var _ _ x => names.contains x
  | .boolean _ _ b => (truth? b).isSome
  | .binary _ _ a b op => (comparison? op).isSome && a.isInteger names && b.isInteger names
  | .unary _ _ a op => op == "!" && a.isCondition names
  | _ => false

def isBlock : Node → Bool
  | .block .. => true
  | _ => false

def isBranch : Node → Bool
  | .block .. | .ifElse .. => true
  | _ => false

def declaredBy : List Node → Declared → Declared
  | .varInit x _ _ :: rest, names => declaredBy rest (names.add x)
  | _, names => names

def declared : Node → Declared → Declared
  | .varDecl _ inits _, names => declaredBy inits names
  | _, names => names

theorem declaredBy_drop (inits : List Node) (names : Declared) :
    (declaredBy inits names).drop 1 = names.drop 1 := by
  induction inits, names using declaredBy.induct with
  | case1 x value line rest names ih =>
    rw [declaredBy,ih]
    cases names <;> rfl
  | case2 inits names h =>
    unfold declaredBy
    split
    · exact absurd rfl (h _ _ _ _)
    · rfl

theorem declaredBy_ne_nil (h : names ≠ []) : declaredBy inits names ≠ [] := by
  induction inits, names using declaredBy.induct with
  | case1 x value line rest names ih =>
    rw [declaredBy]
    refine ih ?_
    cases names with
    | nil => exact absurd rfl h
    | cons => simp [Declared.add]
  | case2 inits names hinits =>
    unfold declaredBy
    split
    · exact absurd rfl (hinits _ _ _ _)
    · exact h

def isDecl : Node → Bool
  | .varDecl .. => true
  | _ => false

theorem eq_varDecl_of_isDecl {n : Node} (h : n.isDecl = true) :
    ∃ line inits type, n = .varDecl line inits type := by
  unfold isDecl at h
  split at h
  · exact ⟨_,_,_,rfl⟩
  · cases h

theorem declared_of_isDecl_eq_false {n : Node} (h : n.isDecl = false) (names : Declared) :
    n.declared names = names := by
  unfold declared
  split
  · cases h
  · rfl

theorem isDecl_of_isBranch {n : Node} (h : n.isBranch = true) : n.isDecl = false := by
  unfold isBranch at h
  split at h
  · rfl
  · rfl
  · cases h

theorem isBranch_of_isBlock {n : Node} (h : n.isBlock = true) : n.isBranch = true := by
  unfold isBlock at h
  split at h
  · rfl
  · cases h

def areInits : List Node → Declared → Bool
  | [], _ => true
  | .varInit x value _ :: rest, names => value.isValue names.flatten && areInits rest (names.add x)
  | _ :: _, _ => false

mutual

def isPlain (inLoop : Bool) (names : Declared) : Node → Bool
  | .varDecl _ inits _ => areInits inits names
  | .assign _ x value => names.flatten.contains x && value.isValue names.flatten
  | .eval _ value => value.isValue names.flatten
  | .block _ statements => arePlain inLoop ([] :: names) statements
  | .ifElse _ condition a b =>
    condition.isCondition names.flatten && a.isBlock && a.isPlain inLoop names &&
      b.isBranch && b.isPlain inLoop names
  | .while' _ condition body =>
    condition.isCondition names.flatten && body.isBlock && body.isPlain true names
  | .jump _ target => inLoop && (target == "break" || target == "continue")
  | .return' _ .absent => true
  | .return' _ value => value.isValue names.flatten
  | _ => false

def arePlain (inLoop : Bool) (names : Declared) : List Node → Bool
  | [] => true
  | s :: rest => s.isPlain inLoop names && arePlain inLoop (s.declared names) rest

end

end Node

end BxToolchain.Bx
