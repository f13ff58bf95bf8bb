import BxToolchain.Proofs.Bx.Passing

namespace BxToolchain.Bx

open List

variable {α β γ δ : Type} {c c' : Checker} {n : Node} {D E : List (String × String)}
  {a b scopes : List Scope}

def Node.openBindings : Node → List (String × String)
  | .varDecl _ inits type => type.type?.elim [] fun t => (inits.filterMap Node.name?).map (·,t)
  | .ifElse _ _ a b => a.openBindings ++ b.openBindings
  | .while' _ _ body => body.openBindings
  | _ => []

structure Scope.Extends (added : List (String × String)) (s s' : Scope) : Prop where
  exceptions : s'.exceptions = s.exceptions
  entries : s'.types.entries = s.types.entries ++ added
  nodup : (added.map Prod.fst).Nodup
  fresh : s.types.keys.Disjoint (added.map Prod.fst)

theorem Scope.Extends.trans {s s' s'' : Scope} (h : s.Extends added s') (h' : s'.Extends more s'') :
    s.Extends (added ++ more) s'' := by
  have hkeys : s'.types.keys = s.types.keys ++ added.map Prod.fst := by simp [Table.keys,h.entries]
  have hfresh := h'.fresh
  rw [hkeys,disjoint_append_left] at hfresh
  refine ⟨h'.exceptions.trans h.exceptions,by rw [h'.entries,h.entries,append_assoc],?_,?_⟩
  · rw [map_append]
    exact h.nodup.append h'.nodup hfresh.2
  · rw [map_append,disjoint_append_right]
    exact ⟨h.fresh,hfresh.1⟩

inductive Declaring (D : List (String × String)) : List Scope → List Scope → Prop where
  | none {a : List Scope} : Declaring D a a
  | some {s s' rest added} : added <+ D → Scope.Extends added s s' →
      Declaring D (s :: rest) (s' :: rest)

namespace Declaring

theorem mono (h : Declaring D a b) (hsub : D <+ E) : Declaring E a b := by
  cases h with
  | none => exact .none
  | some hadded hs => exact .some (hadded.trans hsub) hs

theorem trans (h : Declaring D a b) (h' : Declaring E b scopes) : Declaring (D ++ E) a scopes := by
  cases h with
  | none => exact h'.mono (sublist_append_right D E)
  | some hadded hs =>
    cases h' with
    | none => exact .some (hadded.trans (sublist_append_left D E)) hs
    | some hadded' hs' => exact .some (hadded.append hadded') (hs.trans hs')

theorem tail_eq (h : Declaring D a b) : b.tail = a.tail := by
  cases h with
  | none | some => rfl

theorem eq_of_nil (h : Declaring [] a b) : b = a := by
  cases h with
  | none => rfl
  | some hadded hs =>
    rename_i s s' rest added
    obtain rfl := sublist_nil.1 hadded
    obtain ⟨⟨entries⟩,exceptions⟩ := s
    obtain ⟨⟨entries'⟩,exceptions'⟩ := s'
    obtain ⟨rfl,rfl⟩ : exceptions' = exceptions ∧ entries' = entries :=
      ⟨hs.exceptions,hs.entries.trans (append_nil _)⟩
    rfl

end Declaring

def DeclaresAmong (D : List (String × String)) (x : Check (α × Except Fault γ)) : Prop :=
  ∀ c a r c', x.run c = ((a,.ok r),c') → Declaring D c.scopes c'.scopes

abbrev KeepsScopes (x : Check α) : Prop := ∀ c, (x.run c).2.scopes = c.scopes

namespace DeclaresAmong

variable {x y : Check (α × Except Fault γ)} {f : α × Except Fault γ → Check (β × Except Fault δ)}

theorem of_keeps (h : KeepsScopes x) : DeclaresAmong D x := by
  intro c a r c' hrun
  have hscopes := h c
  rw [hrun] at hscopes
  rw [hscopes]
  exact .none

theorem pure : DeclaresAmong D (Pure.pure s) := of_keeps fun _ => rfl

theorem report :
    DeclaresAmong D (Bx.report reason line >>= fun _ => Pure.pure s) := of_keeps fun _ => rfl

theorem ite [Decidable p] (hx : DeclaresAmong D x) (hy : DeclaresAmong D y) :
    DeclaresAmong D (if p then x else y) := by
  split
  · exact hx
  · exact hy

section

variable {z : Check δ} {f : δ → Check (α × Except Fault γ)}

theorem step (hz : ∀ c, Declaring D c.scopes (z.run c).2.scopes) (hf : ∀ d, DeclaresAmong E (f d)) :
    DeclaresAmong (D ++ E) (z >>= f) :=
  fun c a r c' hrun => (hz c).trans (hf _ _ a r c' hrun)

theorem after (hz : KeepsScopes z) (hf : ∀ d, DeclaresAmong D (f d)) : DeclaresAmong D (z >>= f) :=
  step (D := []) (fun c => hz c ▸ .none) hf

end

theorem bind (hx : DeclaresAmong D x) (hok : ∀ a r, DeclaresAmong E (f (a,.ok r)))
    (herror : ∀ a e, ∃ b, f (a,.error e) = Pure.pure (b,.error e) := by exact fun _ _ => ⟨_,rfl⟩) :
    DeclaresAmong (D ++ E) (x >>= f) := by
  intro c b r c' hrun
  obtain ⟨⟨a,_ | s⟩,c1,hfirst,hrest⟩ := exists_run_of_bind hrun
  · obtain ⟨b',hstop⟩ := herror a _
    rw [hstop] at hrest
    cases hrest
  · exact (hx c a s c1 hfirst).trans (hok a s c1 b r c' hrest)

theorem last (hx : DeclaresAmong D x)
    (hok : ∀ a r, ∃ s, f (a,.ok r) = Pure.pure s := by exact fun _ _ => ⟨_,rfl⟩)
    (herror : ∀ a e, ∃ b, f (a,.error e) = Pure.pure (b,.error e) := by exact fun _ _ => ⟨_,rfl⟩) :
    DeclaresAmong D (x >>= f) := by
  have hpure : ∀ a r, DeclaresAmong [] (f (a,.ok r)) := by
    intro a r
    obtain ⟨s,hs⟩ := hok a r
    rw [hs]
    exact .pure
  simpa using hx.bind hpure herror

end DeclaresAmong

theorem keepsScopes_checkExpr (n : Node) : KeepsScopes (checkExpr n) := by
  intro c
  obtain ⟨reports,hc⟩ := onlyReports_checkExpr n c
  rw [hc]
  rfl

theorem keepsScopes_checkCondition (line : Int) (n : Node) : KeepsScopes (checkCondition line n) := by
  intro c
  unfold checkCondition
  split
  · rfl
  · split <;> rfl

theorem keepsScopes_checkReturn (line : Int) (value : Node) (found : String) (raised : List String) :
    KeepsScopes (checkReturn line value found raised) := by
  intro c
  unfold checkReturn
  rw [run_get_bind]
  split
  · rfl
  · split
    · rfl
    · split <;> rfl

theorem declaring_declareVariable (name type : String) (c : Checker) :
    Declaring [(name,type)] c.scopes ((declareVariable name type).run c).2.scopes := by
  unfold declareVariable
  rw [run_get_bind]
  split
  · exact .none
  · rename_i s rest hscopes
    split
    · exact .none
    · rename_i hnew
      rw [hscopes]
      have hkey : name ∉ s.types.keys := by rwa [← Table.contains_iff_mem_keys]
      refine .some (Sublist.refl _) ?_
      rw [Scope.declare,if_neg hnew]
      exact ⟨rfl,Table.insertEntry_of_not_mem type hkey,nodup_singleton _,by simpa using hkey⟩

theorem declaring_checkInit (name : String) (value : Node) (line : Int) (type : String) (c : Checker) :
    Declaring [(name,type)] c.scopes ((checkInit name value line type).run c).2.scopes := by
  unfold checkInit
  split
  · exact .none
  · split
    · exact .none
    · rw [run_get_bind]
      split
      · exact .none
      · exact declaring_declareVariable name type c

theorem declaresAmong_checkInits (type : Option String) (inits : List Node) :
    DeclaresAmong (type.elim [] fun t => (inits.filterMap Node.name?).map (·,t)) (checkInits type inits) := by
  fun_induction checkInits type inits with
  | case1 | case2 | case4 => exact .pure
  | case3 x value line rest t htype ih =>
    subst htype
    refine .after (keepsScopes_checkExpr value) fun s => ?_
    split
    · exact .pure
    · rename_i value' r
      refine .step (D := [(x,t)]) (declaring_checkInit x value' line t) fun r => ?_
      split
      · exact .pure
      · exact ih.last

def SameOuter (c c' : Checker) : Prop := c'.scopes.tail = c.scopes.tail

instance : Std.Refl SameOuter := ⟨fun _ => rfl⟩

instance : Trans SameOuter SameOuter SameOuter := ⟨fun h h' => Eq.trans h' h⟩

theorem sameOuter_declareNames (type : Option String) (names : List String) :
    Upholds SameOuter (declareNames type names) := by
  induction names with
  | nil => exact .pure
  | cons name rest ih =>
    unfold declareNames
    split
    · exact .pure
    · rename_i t
      refine .bind (fun c => (declaring_declareVariable name t c).tail_eq) fun r => ?_
      split
      · exact .pure
      · exact ih

theorem sameOuter_declareParams (params : List Node) : Upholds SameOuter (declareParams params) := by
  fun_induction declareParams params with
  | case1 | case3 => exact .pure
  | case2 line names type rest ih =>
    refine (sameOuter_declareNames _ _).bind fun r => ?_
    split
    · exact .pure
    · exact ih

theorem scopes_inScope {params : List Node} {exceptions : List String} {start a : α} {r : List String}
    {body : Check (α × Raised)} (hbody : DeclaresAmong D body)
    (h : (inScope params exceptions start body).run c = ((a,.ok r),c')) : c'.scopes = c.scopes := by
  obtain ⟨u,c1,hopen,h⟩ := exists_run_of_bind h
  obtain rfl : c.push = c1 := congrArg Prod.snd hopen
  obtain ⟨declared,c1,hparams,h⟩ := exists_run_of_bind h
  have htail : c1.scopes.tail = c.scopes := (sameOuter_declareParams params).of_run hparams
  cases declared with
  | error e => cases h
  | ok u =>
    dsimp only at h
    rw [run_get_bind] at h
    split at h
    · rename_i inner outer rest hscopes
      obtain ⟨u,c2,hallow,h⟩ := exists_run_of_bind h
      obtain ⟨⟨b,s⟩,c3,hrun,h⟩ := exists_run_of_bind h
      cases s with
      | error e => cases h
      | ok names =>
        have hinner := (hbody _ _ _ _ hrun).tail_eq
        obtain ⟨-,rfl⟩ := Prod.mk.inj h
        obtain ⟨-,rfl⟩ := Prod.mk.inj hallow
        rw [hscopes] at htail
        exact (drop_one.trans hinner).trans htail
    · cases h

theorem declaresAmong_inScope {params : List Node} {exceptions : List String} {start : α}
    {body : Check (α × Raised)} (hbody : DeclaresAmong D body) :
    DeclaresAmong E (inScope params exceptions start body) :=
  fun _ _ _ _ h => scopes_inScope hbody h ▸ .none

theorem openBindings_of_named (h : n.name? = some name) : n.openBindings = [] := by
  cases n with
  | varDecl | ifElse | while' => cases h
  | _ => rfl

theorem declaresAmong_checkStatement_and_others :
    (∀ n, DeclaresAmong n.openBindings (checkStatement n)) ∧
    (∀ line raised ns, DeclaresAmong [] (checkCatches line raised ns)) ∧
    (∀ exceptions n, DeclaresAmong [] (checkBlock exceptions n)) ∧
    ∀ ns, DeclaresAmong (ns.flatMap Node.openBindings) (checkStatements ns) := by
  refine checkStatement.mutual_induct _ _ _ _
    ?varDecl ?block ?assign ?eval ?ifElse ?loop ?jump ?returns ?raise ?catches ?tryFault ?tryTwice
    ?tryExcept ?other ?isBlock ?noBlock ?catchNil ?catchNone ?catchIdle ?catchCons ?nil ?cons <;>
    intros <;> simp only [checkStatement,checkBlock,checkCatches,checkStatements, *]
  case varDecl => exact (declaresAmong_checkInits _ _).last
  case block ih | isBlock ih => exact (declaresAmong_inScope ih).last
  case assign =>
    refine .after (fun _ => rfl) fun _ => .ite .report (.after (keepsScopes_checkExpr _) fun s => ?_)
    split
    · exact .pure
    · unfold checkAssign
      split
      · exact .pure
      · exact .after (fun _ => rfl) fun _ => .ite .report .pure
  case eval => exact .after (keepsScopes_checkExpr _) fun _ => .pure
  case ifElse iha ihb =>
    refine .after (keepsScopes_checkExpr _) fun s => ?_
    split
    · exact .pure
    · refine .after (keepsScopes_checkCondition _ _) fun s => ?_
      split
      · exact .pure
      · exact .pure
      · exact iha.bind fun _ _ => ihb.last
  case loop ih =>
    refine .after (keepsScopes_checkExpr _) fun s => ?_
    split
    · exact .pure
    · refine .after (keepsScopes_checkCondition _ _) fun s => ?_
      split
      · exact .pure
      · exact .pure
      · exact .after (fun _ => rfl) fun _ => .ite .pure ih.last
  case returns =>
    refine .after (fun _ => rfl) fun _ => .ite .report ?_
    split
    · exact .of_keeps (keepsScopes_checkReturn _ _ _ _)
    · refine .after (keepsScopes_checkExpr _) fun s => ?_
      split
      · exact .pure
      · split
        · exact .pure
        · exact .of_keeps (keepsScopes_checkReturn _ _ _ _)
  case raise =>
    unfold checkRaise
    refine .after (fun _ => rfl) fun _ => .ite .report (.after (fun _ => rfl) fun s => ?_)
    split
    · exact .pure
    · exact .ite .report .pure
  case catches ih =>
    refine .after (fun _ => rfl) fun _ => .ite .report (.after (fun _ => rfl) fun s => ?_)
    split
    · exact .pure
    · exact (ih _).last
  case jump | tryFault | catchNil | catchNone | nil => exact .pure
  case tryTwice | catchIdle => exact .report
  case tryExcept ihblock ihcatches =>
    refine .after (fun _ => rfl) fun s => ?_
    split
    · exact .pure
    · exact (ihblock _).bind fun _ _ => (ihcatches _).last
  case other =>
    unfold unidentified
    split
    · exact .pure
    · exact .report
  case noBlock => exact declaresAmong_inScope (D := []) .pure
  case catchCons hname _ ihn ihrest =>
    rw [openBindings_of_named hname] at ihn
    exact ihn.bind fun _ _ => ihrest.last
  case cons ihn ihrest =>
    exact ihn.bind fun _ _ => ihrest.last

theorem check_restores_scopes {inner : Scope} {outer : List Scope} (hc : c.scopes = inner :: outer)
    (n n' : Node) (r : List String) (c' : Checker) :
    (∀ params exceptions, (checkBody params exceptions n).run c = ((n',.ok r),c') →
      c'.scopes = c.scopes) ∧
    (∀ exceptions, (checkBlock exceptions n).run c = ((n',.ok r),c') → c'.scopes = c.scopes) ∧
    ((checkExpr n).run c = ((n',.ok r),c') → c'.scopes = c.scopes) ∧
    ((checkStatement n).run c = ((n',.ok r),c') →
      ∃ inner' added, c'.scopes = inner' :: outer ∧ added <+ n.openBindings ∧
        inner.Extends added inner') := by
  obtain ⟨hstatement,-,hblock,hstatements⟩ := declaresAmong_checkStatement_and_others
  refine ⟨fun params exceptions h => ?_,fun exceptions h => (hblock _ n _ _ _ _ h).eq_of_nil,
    fun h => ?_,fun h => ?_⟩
  · have hbody : DeclaresAmong [] (checkBody params exceptions n) := by
      unfold checkBody
      split
      · exact (declaresAmong_inScope (hstatements _)).last
      · exact declaresAmong_inScope (D := []) .pure
    exact (hbody _ _ _ _ h).eq_of_nil
  · have hexpr := keepsScopes_checkExpr n c
    rwa [h] at hexpr
  · have hdeclaring := hstatement n _ _ _ _ h
    rw [hc] at hdeclaring
    generalize c'.scopes = scopes at hdeclaring ⊢
    cases hdeclaring with
    | none => exact ⟨inner,[],rfl,nil_sublist _,rfl,(append_nil _).symm,nodup_nil,by simp⟩
    | some hadded hs => exact ⟨_,_,rfl,hadded,hs⟩

def doubledDeclaration : Node :=
  .varDecl 1 [.varInit "x" (.number 1 "" (.int 1)) 1,.varInit "x" (.number 1 "" (.int 2)) 1] (.ty 1 "int")

theorem doubledDeclaration_scopes : ∃ n' c', ({} : Checker).scopes = [{}] ∧
    (checkStatement doubledDeclaration).run {} = ((n',.ok []),c') ∧ c'.reporter.reports.length = 1 ∧
    ∃ inner' added, c'.scopes = [inner'] ∧ added <+ doubledDeclaration.openBindings ∧
      Scope.Extends added {} inner' :=
  have hrun : (checkStatement doubledDeclaration).run {} = _ := rfl
  ⟨_,_,rfl,hrun,rfl,(check_restores_scopes rfl _ _ _ _).2.2.2 hrun⟩

end BxToolchain.Bx
