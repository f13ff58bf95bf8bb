import BxToolchain.Proofs.Bx.CheckedCode

namespace BxToolchain.Bx

variable {n n' : Node} {ns ns' : List Node}

mutual

theorem Retyped.isExpr_eq {n n'} (h : Retyped n n') : n'.isExpr = n.isExpr :=
  match h with
  | .refl _ => rfl
  | .var | .varInit _ | .varDecl _ | .assign _ | .eval _ | .block _ | .ifElse _ _ _ | .loop _ _
  | .return _ | .catch _ | .tryExcept _ _ | .procDecl _ => by simp only [Node.isExpr]
  | @Retyped.number _ _ _ value | @Retyped.boolean _ _ _ value => by
    cases value <;> simp only [Node.isExpr]
  | .binary ha hb => by simp only [Node.isExpr,ha.isExpr_eq,hb.isExpr_eq]
  | .unary ha => by simp only [Node.isExpr,ha.isExpr_eq]
  | .call hname hargs => by
    simp only [Node.isExpr,hargs.areExprs_eq]
    obtain ⟨rfl,rfl | rfl⟩ | rfl := hname
    · rw [show isIdentifier "__bx_print_int" = isIdentifier "print" by decide]
    · rw [show isIdentifier "__bx_print_bool" = isIdentifier "print" by decide]
    · rfl

theorem RetypedAll.areExprs_eq {ns ns'} (h : RetypedAll ns ns') :
    Node.areExprs ns' = Node.areExprs ns :=
  match h with
  | .nil => rfl
  | .cons hn hns => by simp only [Node.areExprs,hn.isExpr_eq,hns.areExprs_eq]

end

theorem Retyped.isBlock_eq (h : Retyped n n') : n'.isBlock = n.isBlock := by
  cases h <;> rfl

theorem Retyped.isBranch_eq (h : Retyped n n') : n'.isBranch = n.isBranch := by
  cases h <;> rfl

theorem RetypedAll.areInitializers_eq (h : RetypedAll ns ns') :
    Node.areInitializers ns' = Node.areInitializers ns := by
  induction ns generalizing ns' with
  | nil =>
    cases h
    rfl
  | cons n rest ih =>
    cases h with
    | @cons _ n' _ rest' hn hrest =>
      have hothers := ih hrest
      cases n with
      | varInit x value line =>
        obtain ⟨value',rfl,hvalue⟩ : ∃ value', n' = .varInit x value' line ∧
            value'.isExpr = value.isExpr := by
          cases hn with
          | refl => exact ⟨value,rfl,rfl⟩
          | varInit hvalue => exact ⟨_,rfl,hvalue.isExpr_eq⟩
        cases hrest <;> simp only [Node.areInitializers,hvalue,hothers]
      | _ => cases hn <;> simp only [Node.areInitializers]

mutual

theorem isStatement_eq_of_retyped (n : Node) {n'} (h : Retyped n n') :
    n'.isStatement = n.isStatement :=
  match n, h with
  | _, .refl _ => rfl
  | .varDecl .., .varDecl hinits => by simp only [Node.isStatement,hinits.areInitializers_eq]
  | .assign .., .assign hvalue | .eval .., .eval hvalue => by
    simp only [Node.isStatement,hvalue.isExpr_eq]
  | .block _ ns, .block hns => by simp only [Node.isStatement,areStatements_eq_of_retyped ns hns]
  | .ifElse _ _ a b, .ifElse hc ha hb => by
    simp only [Node.isStatement,hc.isExpr_eq,ha.isBlock_eq,isStatement_eq_of_retyped a ha,
      hb.isBranch_eq,isStatement_eq_of_retyped b hb]
  | .while' _ _ body, .loop hc hbody => by
    simp only [Node.isStatement,hc.isExpr_eq,hbody.isBlock_eq,isStatement_eq_of_retyped body hbody]
  | .return' .., .return hvalue => by
    have h := hvalue.isExpr_eq
    cases hvalue <;> simp only [Node.isStatement,h]
  | .tryExcept _ body catches, .tryExcept hbody hcatches => by
    simp only [Node.isStatement,hbody.isBlock_eq,isStatement_eq_of_retyped body hbody,
      areCatches_eq_of_retyped catches hcatches]
  | .var .., .var | .number .., .number | .boolean .., .boolean | .binary .., .binary _ _
  | .unary .., .unary _ | .call .., .call _ _ | .varInit .., .varInit _ | .catch' .., .catch _
  | .procDecl .., .procDecl _ => by simp only [Node.isStatement]

theorem areStatements_eq_of_retyped (ns : List Node) {ns'} (h : RetypedAll ns ns') :
    Node.areStatements ns' = Node.areStatements ns :=
  match ns, h with
  | [], .nil => rfl
  | n :: rest, .cons hn hrest => by
    simp only [Node.areStatements,isStatement_eq_of_retyped n hn,
      areStatements_eq_of_retyped rest hrest]

theorem areCatches_eq_of_retyped (ns : List Node) {ns'} (h : RetypedAll ns ns') :
    Node.areCatches ns' = Node.areCatches ns :=
  match ns, h with
  | [], .nil => rfl
  | n :: rest, .cons hn hrest => by
    have h := areCatches_eq_of_retyped rest hrest
    cases n with
    | catch' line name body =>
      cases hn with
      | refl => simp only [Node.areCatches,h]
      | «catch» hbody =>
        simp only [Node.areCatches,hbody.isBlock_eq,isStatement_eq_of_retyped body hbody,h]
    | _ => cases hn <;> simp only [Node.areCatches]

end

theorem Retyped.isDeclaration_eq (h : Retyped n n') : n'.isDeclaration = n.isDeclaration := by
  cases h with
  | varDecl hinits => simp only [Node.isDeclaration,hinits.areInitializers_eq]
  | procDecl hbody => simp only [Node.isDeclaration,hbody.isBlock_eq,
    isStatement_eq_of_retyped _ hbody]
  | _ => rfl

theorem RetypedAll.isEmpty_eq (h : RetypedAll ns ns') : ns'.isEmpty = ns.isEmpty := by
  cases h <;> rfl

theorem RetypedAll.all_isDeclaration_eq (h : RetypedAll ns ns') :
    ns'.all Node.isDeclaration = ns.all Node.isDeclaration := by
  induction ns generalizing ns' with
  | nil =>
    cases h
    rfl
  | cons n rest ih =>
    cases h with
    | cons hn hrest => rw [List.all_cons,List.all_cons,hn.isDeclaration_eq,ih hrest]

theorem isProgram_checkProgram (ds : List Node) (c : Checker) :
    isProgram ((checkProgram ds).run c).1.1 = isProgram ds := by
  have h := retyped_checkProgram ds c
  rw [isProgram,isProgram,h.isEmpty_eq,h.all_isDeclaration_eq]

theorem isDeclaration_of_checkProgram (hds : isProgram ds = true)
    (hcheck : (checkProgram ds).run c = ((ds',r),c')) : ∀ d ∈ ds', d.isDeclaration = true := by
  have hkept := isProgram_checkProgram ds c
  rw [hcheck,hds,isProgram,Bool.and_eq_true] at hkept
  exact List.all_eq_true.1 hkept.2

end BxToolchain.Bx
