import BxToolchain.Proofs.Bx.ExpressionCode
import BxToolchain.Proofs.Bx.Passing

namespace BxToolchain.Bx

open Lower

variable {line : Int} {name : String} {names : List String} {n n' : Node}
  {tree ns ns' params : List Node} {c : Checker} {k : Nat}

theorem RetypedAll.get (h : RetypedAll ns ns') (hk : ns[k]? = some n) :
    ∃ n', ns'[k]? = some n' ∧ Retyped n n' := by
  induction ns generalizing ns' k with
  | nil => simp at hk
  | cons m rest ih =>
    cases h with
    | cons hm hrest =>
      cases k with
      | zero =>
        cases hk
        exact ⟨_,rfl,hm⟩
      | succ k =>
        rw [List.getElem?_cons_succ] at hk ⊢
        exact ih hrest hk

def Named (params : List Node) : Prop :=
  ∀ s : Lowering, Runs (Lower.paramNames params) s (params.flatMap Node.paramNames) s

theorem named_of_declareParams (h : (declareParams params).run c = (.ok u,c')) : Named params := by
  fun_induction declareParams params generalizing c with
  | case1 => exact fun _ => runs_pure
  | case2 line names type rest ih =>
    obtain ⟨declared,c1,-,hrest⟩ := exists_run_of_bind h
    cases declared with
    | error e => cases hrest
    | ok u =>
      intro s
      rw [Lower.paramNames]
      exact (ih hrest s).bind runs_pure
  | case3 => cases h

def Node.HasNames (d : Node) : Prop :=
  ∀ line name block params result raises, d = .procDecl line name block params result raises →
    Named params

theorem named_of_inScope
    (h : (inScope params exceptions start body).run c = ((a,.ok raised),c')) : Named params := by
  unfold inScope at h
  obtain ⟨_,_,-,h⟩ := exists_run_of_bind h
  obtain ⟨declared,_,hparams,h⟩ := exists_run_of_bind h
  cases declared with
  | error e => cases h
  | ok u => exact named_of_declareParams hparams

theorem hasNames_of_checkDeclaration (h : (checkDeclaration d).run c = ((d',.ok ()),c')) :
    d.HasNames := by
  rintro line name block params result raises rfl
  rw [checkDeclaration,checkProcedure] at h
  obtain ⟨_,_,-,h⟩ := exists_run_of_bind h
  obtain ⟨_,_,-,h⟩ := exists_run_of_bind h
  split at h
  · cases h
  · obtain ⟨⟨block',r⟩,c1,hbody,h⟩ := exists_run_of_bind h
    cases r with
    | error e => cases h
    | ok r =>
      unfold checkBody at hbody
      split at hbody
      · obtain ⟨⟨statements',r'⟩,_,hscope,hend⟩ := exists_run_of_bind hbody
        cases hend
        exact named_of_inScope hscope
      · exact named_of_inScope hbody

theorem hasNames_of_checkDeclarations (h : (checkDeclarations ds).run c = ((ds',.ok ()),c')) :
    ∀ d ∈ ds, d.HasNames := by
  induction ds generalizing ds' c with
  | nil => simp
  | cons d rest ih =>
    rw [checkDeclarations] at h
    obtain ⟨⟨d',r⟩,c1,hd,h⟩ := exists_run_of_bind h
    cases r with
    | error e => cases h
    | ok u =>
      obtain ⟨⟨rest',r'⟩,c2,hrest,hend⟩ := exists_run_of_bind h
      cases hend
      exact List.forall_mem_cons.2 ⟨hasNames_of_checkDeclaration hd,ih hrest⟩

theorem retyped_checkProgram (ds : List Node) (c : Checker) :
    RetypedAll ds ((checkProgram ds).run c).1.1 := by
  obtain ⟨c1,-,hrun⟩ | ⟨-,e,c',hrun⟩ := run_checkProgram ds c
  · rw [hrun]
    exact (ends_checkDeclarations ds c1).keeps
  · rw [hrun]
    exact .refl ds

theorem Retyped.lowerExpr_eq (h : Retyped n n') (hn : n.isInteger names = true) :
    lowerExpr n' = lowerExpr n := by
  induction n using Node.isInteger.induct generalizing n' with
  | case1 | case2 => cases h <;> simp only [lowerExpr]
  | case3 line type a b op iha ihb =>
    simp only [Node.isInteger,Bool.and_eq_true] at hn
    cases h with
    | refl => rfl
    | binary ha hb => simp only [lowerExpr,iha ha hn.1.2,ihb hb hn.2]
  | case4 line type a op ih =>
    simp only [Node.isInteger,Bool.and_eq_true] at hn
    cases h with
    | refl => rfl
    | unary ha => simp only [lowerExpr,ih ha hn.2]
  | case5 n h1 h2 h3 h4 => simp [Node.isInteger] at hn

theorem Retyped.lowerValue_eq (h : Retyped n n') (hn : n.isValue names = true) :
    lowerExpr n' = lowerExpr n := by
  unfold Node.isValue at hn
  split at hn
  · cases h <;> simp only [lowerExpr]
  · exact h.lowerExpr_eq hn

theorem Retyped.lowerCondition_eq (h : Retyped n n') (hn : n.isCondition names = true) :
    lowerCondition n' = lowerCondition n := by
  induction n using Node.isCondition.induct generalizing n' with
  | case1 | case2 =>
    funext yes no
    cases h <;> simp only [lowerCondition]
  | case3 line type a b op =>
    simp only [Node.isCondition,Bool.and_eq_true,Option.isSome_iff_exists] at hn
    obtain ⟨⟨⟨c,hc⟩,hna⟩,hnb⟩ := hn
    obtain ⟨jump,hjump,-⟩ := comparisonJump?_of_comparison? hc
    funext yes no
    cases h with
    | refl => rfl
    | binary ha hb =>
      simp only [lowerCondition,hjump,ha.lowerExpr_eq hna,hb.lowerExpr_eq hnb]
  | case4 line type a op ih =>
    simp only [Node.isCondition,Bool.and_eq_true,beq_iff_eq] at hn
    obtain ⟨rfl,hna⟩ := hn
    funext yes no
    cases h with
    | refl => rfl
    | unary ha => simp only [lowerCondition,ih ha hna]
  | case5 n h1 h2 h3 h4 => simp [Node.isCondition] at hn

theorem RetypedAll.lowerInits_eq {names} (h : RetypedAll inits inits')
    (hinits : Node.areInits inits names = true) : lowerInits inits' = lowerInits inits := by
  induction inits, names using Node.areInits.induct generalizing inits' with
  | case1 names =>
    cases h
    rfl
  | case2 x value line rest names ih =>
    simp only [Node.areInits,Bool.and_eq_true] at hinits
    cases h with
    | cons hinit hrest =>
      cases hinit with
      | refl => rw [lowerInits,lowerInits,ih hrest hinits.2]
      | varInit hvalue =>
        rw [lowerInits,lowerInits,hvalue.lowerValue_eq hinits.1,ih hrest hinits.2]
  | case3 n rest names h => simp [Node.areInits] at hinits

theorem lowerStatement_eq_and_lowerStatements_eq :
    (∀ inLoop names n, n.isPlain inLoop names = true → ∀ n', Retyped n n' →
      lowerStatement n' = lowerStatement n) ∧
    ∀ inLoop names ns, Node.arePlain inLoop names ns = true → ∀ ns', RetypedAll ns ns' →
      lowerStatements ns' = lowerStatements ns := by
  refine Node.isPlain.mutual_induct _ _ ?varDecl ?assign ?eval ?block ?ifElse ?loop ?jump ?returnNone
    ?returnValue ?other ?nil ?cons <;> intros <;> rename_i hplain _ h <;>
    simp only [Node.isPlain,Node.arePlain,Bool.and_eq_true,Bool.false_eq_true] at hplain <;>
    cases h
  case varDecl.varDecl hinits => simp only [lowerStatement,hinits.lowerInits_eq hplain]
  case assign.assign hvalue => simp only [lowerStatement,hvalue.lowerValue_eq hplain.2]
  case eval.eval hvalue => simp only [lowerStatement,hvalue.lowerValue_eq hplain]
  case block.block ih _ hstatements => simp only [lowerStatement,ih hplain _ hstatements]
  case ifElse.ifElse iha ihb _ _ _ hc ha hb =>
    obtain ⟨⟨⟨⟨hcondition,-⟩,haplain⟩,-⟩,hbplain⟩ := hplain
    simp only [lowerStatement,hc.lowerCondition_eq hcondition,iha haplain _ ha,ihb hbplain _ hb]
  case loop.loop ih _ _ hc hbody =>
    simp only [lowerStatement,hc.lowerCondition_eq hplain.1.1,ih hplain.2 _ hbody]
  case returnNone.return hvalue =>
    cases hvalue
    rfl
  case returnValue.return habsent value' hvalue =>
    have habsent' : value' = .absent → False := by
      rintro rfl
      cases hvalue
      exact habsent rfl
    simp only [lowerStatement,hvalue.lowerValue_eq hplain]
  case cons.cons ihn ihrest _ _ hn hrest =>
    simp only [lowerStatements,ihn hplain.1 _ hn,ihrest hplain.2 _ hrest]
  all_goals rfl

theorem checkProgram_procedure {declarations}
    (h : ((checkProgram declarations).run c).1 = (tree,.ok ())) {blockLine statements raises
    result names} (hk : declarations[k]? =
      some (.procDecl line name (.block blockLine statements) params result raises))
    (hplain : Node.arePlain false names statements = true) :
    Named params ∧
    ∃ statements',
      tree[k]? = some (.procDecl line name (.block blockLine statements') params result raises) ∧
      lowerStatements statements' = lowerStatements statements := by
  have hprogram := retyped_checkProgram declarations c
  rw [h] at hprogram
  obtain ⟨d,hd,hretyped⟩ := hprogram.get hk
  obtain ⟨c1,-,hrun⟩ := registers_of_run (Prod.ext h rfl)
  refine ⟨hasNames_of_checkDeclarations hrun _ (List.mem_of_getElem? hk) _ _ _ _ _ _ rfl,?_⟩
  have hsame := lowerStatement_eq_and_lowerStatements_eq.2 false names statements hplain
  cases hretyped with
  | refl => exact ⟨statements,hd,rfl⟩
  | procDecl hbody =>
    cases hbody with
    | refl => exact ⟨statements,hd,rfl⟩
    | block hstatements => exact ⟨_,hd,hsame _ hstatements⟩

end BxToolchain.Bx
