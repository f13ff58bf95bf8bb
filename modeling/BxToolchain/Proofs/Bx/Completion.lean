import BxToolchain.Proofs.Bx.ExpressionCode

namespace BxToolchain.Bx

open Lower

variable {α : Type} {b : Bool} {x : Lower α}

def Completes (x : Lower α) (b : Bool) : Prop :=
  ∀ s : Lowering, s.scopes ≠ [] →
    if b then ∃ a s', Runs x s a s' ∧ s'.scopes.length = s.scopes.length
    else ∀ a s', ¬Runs x s a s'

namespace Completes

theorem bind (hx : Completes x b) (hf : ∀ a, Completes (f a) b') :
    Completes (x >>= f) (b && b') := by
  intro s hs
  cases b with
  | false =>
    intro c s' h
    obtain ⟨a,s1,h1,-⟩ := h.of_bind
    exact hx s hs a s1 h1
  | true =>
    obtain ⟨a,s1,h1,hlength⟩ := hx s hs
    have hs1 := List.ne_nil_of_length_pos (hlength ▸ List.length_pos_of_ne_nil hs)
    cases b' with
    | false =>
      intro c s' h
      obtain ⟨a',s1',h1',h2⟩ := h.of_bind
      obtain ⟨rfl,rfl⟩ := h1.unique h1'
      exact hf a s1 hs1 c s' h2
    | true =>
      obtain ⟨c,s',h2,hlength'⟩ := hf a s1 hs1
      exact ⟨c,s',h1.bind h2,hlength'.trans hlength⟩

theorem of_runs (hx : Completes x b) (hs : s.scopes ≠ []) (h : Runs x s a s') : b = true := by
  cases b with
  | false => exact absurd h (hx s hs a s')
  | true => rfl

theorem before (hx : Completes x b) (hf : ∀ a, Completes (f a) true) : Completes (x >>= f) b :=
  Bool.and_true b ▸ hx.bind hf

theorem after (hx : Completes x true) (hf : ∀ a, Completes (f a) b) : Completes (x >>= f) b :=
  hx.bind hf

theorem pure : Completes (Pure.pure a) true := fun s _ => ⟨a,s,runs_pure,rfl⟩

theorem throw : Completes (throw e : Lower α) false := fun _ _ _ _ => not_runs_throw

theorem throw_bind : Completes (MonadExcept.throw e >>= f) false := by
  intro s _ a s' h
  obtain ⟨_,_,h1,-⟩ := h.of_bind
  exact not_runs_throw h1

theorem get : Completes get true := fun s _ => ⟨s,s,runs_get,rfl⟩

theorem modify {f} (hf : ∀ s, (f s).scopes.length = s.scopes.length) :
    Completes (modify f) true := fun s _ => ⟨_,_,runs_modify,hf s⟩

theorem emit (i : Instr) : Completes (emit i) true := modify fun _ => rfl

theorem report (reason : String) (line : Int) : Completes (Lower.report reason line) true :=
  modify fun _ => rfl

theorem newRegister : Completes newRegister true := fun _ _ => ⟨_,_,rfl,rfl⟩

theorem newLabels (n : Nat) : Completes (newLabels n) true := fun _ _ => ⟨_,_,rfl,rfl⟩

theorem variableRegister (x : String) : Completes (variableRegister x) true :=
  (get).bind fun s => by
    split
    · exact pure
    · exact (report _ _).bind fun _ => pure

theorem bindName (x r : String) : Completes (Lower.bind x r) true := by
  intro s hs
  obtain ⟨t,rest,hscopes⟩ := List.exists_cons_of_ne_nil hs
  have hbind : Runs (Lower.bind x r) s () { s with scopes := t.insert x r :: rest } := by
    unfold Lower.bind
    refine runs_get.bind ?_
    rw [hscopes]
    exact runs_set
  exact ⟨_,_,hbind,by simp [hscopes]⟩

theorem escape (filler : Datum) : Completes (escape filler) true := by
  rw [escape_eq]
  exact (get).bind fun _ => emit _

theorem testPending (whenNone : Nat) : Completes (testPending whenNone) true :=
  (newRegister).bind fun _ => (emit _).bind fun _ => (emit _).bind fun _ => (emit _).bind fun _ => pure

theorem lowerCall (name : String) (count : Nat) : Completes (lowerCall name count) true := by
  have hafter : ∀ result : Datum, Completes (do
      let after ← Lower.newLabels 1
      let zero ← Lower.testPending after
      Lower.escape zero
      emitLabel after
      return result) true := fun _ =>
    (newLabels 1).bind fun _ => (testPending _).bind fun _ => (escape _).bind fun _ =>
      (emit _).bind fun _ => pure
  unfold Lower.lowerCall
  refine (get).bind fun s => ?_
  split
  · exact (newRegister).bind fun _ => (emit _).bind fun _ => hafter _
  · exact (emit _).bind fun _ => hafter _

theorem lowerBreak (target : String) (line : Int) : Completes (lowerBreak target line) true :=
  (get).bind fun s => by
    split
    · exact emit _
    · exact report _ _
    · exact emit _
    · exact report _ _
    · exact report _ _

theorem lowerRaise (name : String) : Completes (lowerRaise name) true :=
  (newRegister).bind fun _ => (emit _).bind fun _ => (emit _).bind fun _ => escape _

theorem enterCatch (name : String) (otherwise : Nat) : Completes (enterCatch name otherwise) true :=
  (newRegister).bind fun _ => (emit _).bind fun _ => (emit _).bind fun _ => (emit _).bind fun _ =>
    (newRegister).bind fun _ => (emit _).bind fun _ => emit _

theorem unrecognized {n : Node} {what : String} {a : α} :
    Completes (match n.line? with
      | none => MonadExcept.throw Fault.missingPart
      | some line => do
        Lower.report (what ++ n.kindText) line
        return a : Lower α) n.line?.isSome := by
  cases n.line? with
  | none => exact throw
  | some line => exact (report _ _).bind fun _ => pure

theorem scope (hx : Completes x b) : Completes (do
    enterScope
    let _ ← x
    leaveScope) b := by
  intro s hs
  have hx := hx { s with scopes := {} :: s.scopes } (List.cons_ne_nil _ _)
  cases b with
  | false =>
    intro a s' h
    obtain ⟨_,s1,henter,h1⟩ := h.of_bind
    obtain rfl := runs_modify_iff.1 henter
    obtain ⟨a,s2,h2,-⟩ := h1.of_bind
    exact hx a s2 h2
  | true =>
    obtain ⟨a,s1,h1,hlength⟩ := hx
    exact ⟨(),_,runs_modify.bind (h1.bind runs_modify),by simp [hlength]⟩

end Completes

mutual

def Node.isComputable : Node → Bool
  | .var .. | .number .. | .boolean .. => true
  | .binary _ _ a b _ => a.isComputable && b.isComputable
  | .unary _ _ a _ => a.isComputable
  | .call _ _ _ args => Node.areComputable args
  | .bareCall .. => false
  | n => n.line?.isSome

def Node.areComputable : List Node → Bool
  | [] => true
  | arg :: rest => arg.isComputable && Node.areComputable rest

end

def Node.isDecidable : Node → Bool
  | .boolean .. | .var .. => true
  | .binary _ _ a b op =>
    if (comparisonJump? op).isSome then a.isComputable && b.isComputable
    else if op = "&&" ∨ op = "||" then a.isDecidable && b.isDecidable
    else op != "!"
  | .unary _ _ a op =>
    if op = "!" then a.isDecidable
    else !((comparisonJump? op).isSome || op == "&&" || op == "||")
  | _ => false

def Node.areComputableInits : List Node → Bool
  | [] => true
  | .varInit _ value _ :: rest => value.isComputable && Node.areComputableInits rest
  | _ => false

mutual

def Node.isLowerable : Node → Bool
  | .varDecl _ inits _ => Node.areComputableInits inits
  | .assign _ _ value | .eval _ value => value.isComputable
  | .block _ statements => Node.areLowerable statements
  | .ifElse _ condition a b => condition.isDecidable && (a.isLowerable && b.isLowerable)
  | .while' _ condition body => condition.isDecidable && body.isLowerable
  | .jump .. | .return' _ .absent | .raise .. => true
  | .return' _ value => value.isComputable
  | .tryExcept _ body catches => body.isLowerable && Node.areLowerableCatches catches
  | n => n.line?.isSome

def Node.areLowerable : List Node → Bool
  | [] => true
  | n :: rest => n.isLowerable && Node.areLowerable rest

def Node.areLowerableCatches : List Node → Bool
  | [] => true
  | .catch' _ _ body :: rest => body.isLowerable && Node.areLowerableCatches rest
  | _ => false

end

theorem completes_lowerExpr_and_lowerArgs :
    (∀ n, Completes (lowerExpr n) n.isComputable) ∧
      ∀ count index args, Completes (lowerArgs count index args) (Node.areComputable args) := by
  refine lowerExpr.mutual_induct _ _ ?var ?number ?boolean ?binary ?unary ?call ?bareCall ?otherNone
    ?otherSome ?nil ?cons <;> intros <;>
    simp only [lowerExpr,lowerArgs,Node.isComputable,Node.areComputable]
  case var x => exact .variableRegister x
  case number | boolean => exact .after .newRegister fun _ => .after (.emit _) fun _ => .pure
  case binary iha ihb =>
    exact .bind iha fun _ => .before ihb fun _ => .after .newRegister fun _ =>
      .after (.emit _) fun _ => .pure
  case unary ih =>
    exact .before ih fun _ => .after .newRegister fun _ => .after (.emit _) fun _ => .pure
  case call ih => exact .before ih fun _ => .lowerCall _ _
  case bareCall => exact .throw
  case otherNone | otherSome => exact .unrecognized
  case nil => exact .pure
  case cons iharg ihrest => exact .bind iharg fun _ => .after (.emit _) fun _ => ihrest

theorem completes_lowerExpr (n : Node) : Completes (lowerExpr n) n.isComputable :=
  completes_lowerExpr_and_lowerArgs.1 n

theorem completes_lowerCondition (n : Node) (yes no : Nat) :
    Completes (lowerCondition n yes no) n.isDecidable := by
  fun_induction lowerCondition n yes no with
  | case1 | case2 => exact .emit _
  | case3 => exact .pure
  | case4 line type x yes no =>
    exact .after (.variableRegister x) fun _ => .after .newRegister fun _ =>
      .after (.emit _) fun _ => .after (.emit _) fun _ =>
        .after (.emit _) fun _ => .emit _
  | case5 line type a b op yes no jump hjump =>
    simp only [Node.isDecidable,hjump,Option.isSome_some,if_true]
    exact .bind (completes_lowerExpr a) fun _ => .before (completes_lowerExpr b) fun _ =>
      .after (.emit _) fun _ => .after (.emit _) fun _ => .emit _
  | case6 => exact .throw
  | case7 line type a b yes no hjump iha ihb | case8 line type a b yes no hjump iha ihb =>
    exact .after .get fun _ => .bind (iha _) fun _ => .after (.newLabels 1) fun _ =>
      .after (.emit _) fun _ => ihb
  | case9 line type a b op yes no hjump hnot hand hor =>
    have hdecidable : (Node.binary line type a b op).isDecidable = true := by
      simp_all [Node.isDecidable]
    exact hdecidable ▸ .pure
  | case10 line type a op yes no next hjump =>
    have hdecidable : (Node.unary line type a op).isDecidable = false := by
      have hnot : op ≠ "!" := by
        rintro rfl
        cases hjump
      simp [Node.isDecidable,hnot,hjump]
    exact hdecidable ▸ .throw_bind
  | case11 line type a op yes no next hjump ih =>
    dsimp only [next]
    split
    · exact ih
    · exact .throw
    · exact .throw
    · have hdecidable : (Node.unary line type a op).isDecidable = true := by
        simp_all [Node.isDecidable]
      exact hdecidable ▸ .pure
  | case12 n yes no h1 h2 h3 h4 =>
    simp only [Node.isDecidable]
    exact .throw

theorem completes_lowerInits (inits : List Node) :
    Completes (lowerInits inits) (Node.areComputableInits inits) := by
  fun_induction lowerInits inits with
  | case1 => exact .pure
  | case2 x value line rest ih =>
    simp only [Node.areComputableInits]
    exact .bind (completes_lowerExpr value) fun _ => .after .newRegister fun _ =>
      .after (.bindName _ _) fun _ => .after (.emit _) fun _ => ih
  | case3 n h1 h2 =>
    simp only [Node.areComputableInits]
    exact .throw

theorem completes_lowerStatement_and_others :
    (∀ n, Completes (lowerStatement n) n.isLowerable) ∧
      (∀ done catches, Completes (lowerCatches done catches) (Node.areLowerableCatches catches)) ∧
      ∀ statements, Completes (lowerStatements statements) (Node.areLowerable statements) := by
  refine lowerStatement.mutual_induct _ _ _ ?varDecl ?assign ?eval ?block ?ifElse ?loop ?jump
    ?returnNone ?returnValue ?tryExcept ?raise ?otherNone ?otherSome ?catchNil ?catchCons ?catchOther
    ?nil ?cons <;> intros <;> simp only [lowerStatement,lowerCatches,lowerStatements,
      Node.isLowerable,Node.areLowerableCatches,Node.areLowerable]
  case varDecl => exact completes_lowerInits _
  case assign x value =>
    exact .before (completes_lowerExpr value) fun _ => .after (.variableRegister x) fun _ => .emit _
  case eval value => exact .before (completes_lowerExpr value) fun _ => .pure
  case block ih => exact ih.scope
  case ifElse condition _ _ iha ihb =>
    exact .after (.newLabels 3) fun _ => .bind (completes_lowerCondition condition _ _) fun _ =>
      .after (.emit _) fun _ => .bind iha fun _ => .after (.emit _) fun _ =>
        .after (.emit _) fun _ => .before ihb fun _ => .emit _
  case loop condition _ ih =>
    exact .after (.newLabels 3) fun _ => .after (.modify fun _ => rfl) fun _ =>
      .after (.emit _) fun _ => .bind (completes_lowerCondition condition _ _) fun _ =>
        .after (.emit _) fun _ => .before ih fun _ => .after (.emit _) fun _ =>
          .after (.emit _) fun _ => .modify fun _ => rfl
  case jump line target => exact .lowerBreak target line
  case returnNone => exact .emit _
  case returnValue value _ => exact .before (completes_lowerExpr value) fun _ => .emit _
  case tryExcept ihblock ihcatches =>
    exact .after (.newLabels 2) fun _ => .after (.modify fun _ => rfl) fun _ =>
      .bind ihblock fun _ => .after (.emit _) fun _ => .after (.modify fun _ => rfl) fun _ =>
        .after (.emit _) fun _ => .before (ihcatches _) fun _ => .after (.testPending _) fun _ =>
          .after (.escape _) fun _ => .emit _
  case raise name => exact .lowerRaise name
  case otherNone hline => exact hline ▸ .throw
  case otherSome hline => exact hline ▸ .report _ _
  case catchNil | nil => exact .pure
  case catchCons ihblock ihrest =>
    exact .after (.newLabels 1) fun _ => .after (.enterCatch _ _) fun _ =>
      .bind ihblock fun _ => .after (.emit _) fun _ => .after (.emit _) fun _ => ihrest
  case catchOther => exact .after (.newLabels 1) fun _ => .throw
  case cons ihn ihrest => exact .bind ihn fun _ => ihrest

def Node.isWritten : Node → Bool
  | .number .. | .boolean .. | .unary .. => true
  | _ => false

def Node.areWrittenInits : List Node → Bool
  | [] => true
  | .varInit _ value _ :: rest =>
    (match value.type? with
      | none => false
      | some t => t != "int" && t != "bool" || value.isWritten) && Node.areWrittenInits rest
  | _ => false

def Node.areParams : List Node → Bool
  | [] => true
  | .param .. :: rest => Node.areParams rest
  | _ => false

def Node.isLowerableBody : Node → Bool
  | .block _ statements => Node.areLowerable statements
  | _ => false

def Node.isLowerableDecl : Node → Bool
  | .varDecl _ inits _ => Node.areWrittenInits inits
  | .procDecl _ _ body params _ _ => Node.areParams params && body.isLowerableBody
  | _ => true

theorem completes_writtenValue (n : Node) : Completes (writtenValue n) n.isWritten := by
  unfold writtenValue
  split
  · exact .pure
  · exact .pure
  · exact .pure
  · simp only [Node.isWritten]
    exact .throw

theorem completes_lowerGlobals (line : Int) (inits : List Node) :
    Completes (lowerGlobals line inits) (Node.areWrittenInits inits) := by
  fun_induction lowerGlobals line inits with
  | case1 => exact .pure
  | case2 name value initLine rest ih =>
    simp only [Node.areWrittenInits]
    refine .bind ?_ fun _ => ih
    unfold lowerGlobal
    split
    · rename_i htype
      simp only [htype]
      exact .throw
    · rename_i htype
      simp only [htype]
      refine .before (completes_writtenValue value) fun init => ?_
      split
      · exact .after (.modify fun _ => rfl) fun _ => .bindName _ _
      · exact .after (.report _ _) fun _ => .after (.modify fun _ => rfl) fun _ => .bindName _ _
    · rename_i htype
      simp only [htype]
      refine .before (completes_writtenValue value) fun init => ?_
      split
      · exact .after (.modify fun _ => rfl) fun _ => .bindName _ _
      · exact .after (.modify fun _ => rfl) fun _ => .bindName _ _
      · exact .after (.report _ _) fun _ => .bindName _ _
    · rename_i t hint hbool htype
      have hother : (t != "int" && t != "bool") = true := by
        simp_all
      simp only [htype,hother,Bool.true_or]
      exact .bindName _ _
  | case3 n h1 h2 =>
    simp only [Node.areWrittenInits]
    exact .throw

theorem completes_paramNames (params : List Node) :
    Completes (Lower.paramNames params) (Node.areParams params) := by
  fun_induction Lower.paramNames params with
  | case1 => exact .pure
  | case2 line names type rest ih => exact .before ih fun _ => .pure
  | case3 n h1 h2 =>
    simp only [Node.areParams]
    exact .throw

theorem completes_forM (h : ∀ a, Completes (g a) (p a)) (xs : List α) :
    Completes (xs.forM g) (xs.all p) := by
  induction xs with
  | nil => exact .pure
  | cons a rest ih => exact .bind (h a) fun _ => ih

theorem completes_lowerBlock (block : Node) :
    Completes (lowerBlock block) block.isLowerableBody := by
  unfold lowerBlock
  split
  · exact .throw
  · exact .scope (completes_lowerStatement_and_others.2.2 _)
  · simp only [Node.isLowerableBody]
    intro s _ a s' h
    obtain ⟨_,_,-,hthrow⟩ := h.of_bind
    exact not_runs_throw hthrow

theorem completes_lowerDeclaration (d : Node) : Completes (lowerDeclaration d) d.isLowerableDecl := by
  unfold lowerDeclaration
  split
  · exact completes_lowerGlobals _ _
  · refine .bind (completes_paramNames _) fun names => .after ?_ fun _ =>
      .after (.modify fun _ => rfl) fun _ => .before (completes_lowerBlock _) fun _ =>
        .modify fun _ => rfl
    have hall : (names.all fun _ => true) = true := List.all_eq_true.2 fun _ _ => rfl
    exact hall ▸ completes_forM (fun x => .bindName x ("%" ++ x)) names
  · simp only [Node.isLowerableDecl]
    exact .pure

theorem completes_lowerProgram (declarations : List Node) :
    Completes (lowerProgram declarations) (declarations.all Node.isLowerableDecl) :=
  .after (.modify fun _ => rfl) fun _ => .after (.bindName _ _) fun _ =>
    completes_forM completes_lowerDeclaration declarations

namespace Node

variable {n : Node} {names : List String}

theorem isComputable_of_isInteger (h : n.isInteger names = true) : n.isComputable = true := by
  fun_induction isInteger names n with
  | case1 | case2 => rfl
  | case3 line type a b op iha ihb =>
    simp only [Bool.and_eq_true] at h
    simp only [isComputable,iha h.1.2,ihb h.2,Bool.and_self]
  | case4 line type a op ih =>
    simp only [Bool.and_eq_true] at h
    exact ih h.2
  | case5 => cases h

theorem isComputable_of_isValue (h : n.isValue names = true) : n.isComputable = true := by
  unfold isValue at h
  split at h
  · rfl
  · exact isComputable_of_isInteger h

theorem isDecidable_of_isCondition (h : n.isCondition names = true) : n.isDecidable = true := by
  fun_induction isCondition names n with
  | case1 | case2 => rfl
  | case3 line type a b op =>
    simp only [Bool.and_eq_true,Option.isSome_iff_exists] at h
    obtain ⟨⟨⟨c,hc⟩,ha⟩,hb⟩ := h
    obtain ⟨jump,hjump,-⟩ := comparisonJump?_of_comparison? hc
    simp only [isDecidable,hjump,Option.isSome_some,if_true,isComputable_of_isInteger ha,
      isComputable_of_isInteger hb,Bool.and_self]
  | case4 line type a op ih =>
    simp only [Bool.and_eq_true,beq_iff_eq] at h
    simp only [isDecidable,h.1,if_true,ih h.2]
  | case5 => cases h

theorem areComputableInits_of_areInits {inits names}
    (h : areInits inits names = true) : areComputableInits inits = true := by
  fun_induction areInits inits names with
  | case1 => rfl
  | case2 x value line rest names ih =>
    simp only [Bool.and_eq_true] at h
    simp only [areComputableInits,isComputable_of_isValue h.1,ih h.2,Bool.and_self]
  | case3 => cases h

theorem isLowerable_of_isPlain_and_areLowerable :
    (∀ inLoop names n, isPlain inLoop names n = true → n.isLowerable = true) ∧
      ∀ inLoop names statements, arePlain inLoop names statements = true →
        areLowerable statements = true := by
  refine isPlain.mutual_induct _ _ ?varDecl ?assign ?eval ?block ?ifElse ?loop ?jump ?returnNone
    ?returnValue ?other ?nil ?cons <;> intros <;>
    simp_all only [isPlain,arePlain,isLowerable,areLowerable,Bool.and_eq_true,Bool.false_eq_true,
      and_self]
  case varDecl h => exact areComputableInits_of_areInits h
  case assign h => exact isComputable_of_isValue h.2
  case eval h | returnValue h => exact isComputable_of_isValue h
  case ifElse h => exact ⟨isDecidable_of_isCondition h.1.1.1.1,trivial⟩
  case loop h => exact ⟨isDecidable_of_isCondition h.1.1,trivial⟩

end Node

end BxToolchain.Bx
