import BxToolchain.Proofs.Bx.AcceptedProgram
import BxToolchain.Proofs.Bx.RegisterUse

namespace BxToolchain.Bx

open List

variable {line : Int} {caught : List String} {n : Node}

inductive Within (m : Node) : List String → Node → Prop where
  | self : Within m [] m
  | left {caught line a op x y} : Within m caught x → Within m caught (.binary line a x y op)
  | right {caught line a op x y} : Within m caught y → Within m caught (.binary line a x y op)
  | operand {caught line a op x} : Within m caught x → Within m caught (.unary line a x op)
  | arg {caught line a name args x} :
      x ∈ args → Within m caught x → Within m caught (.call line a name args)
  | initial {caught line initLine x inits value type} :
      .varInit x value initLine ∈ inits → Within m caught value →
      Within m caught (.varDecl line inits type)
  | assigned {caught line x value} : Within m caught value → Within m caught (.assign line x value)
  | evaluated {caught line value} : Within m caught value → Within m caught (.eval line value)
  | returned {caught line value} : Within m caught value → Within m caught (.return' line value)
  | statement {caught line statements n} :
      n ∈ statements → Within m caught n → Within m caught (.block line statements)
  | ifCondition {caught line condition a b} :
      Within m caught condition → Within m caught (.ifElse line condition a b)
  | ifBranch {caught line condition a b} :
      Within m caught a → Within m caught (.ifElse line condition a b)
  | elseBranch {caught line condition a b} :
      Within m caught b → Within m caught (.ifElse line condition a b)
  | loopCondition {caught line condition body} :
      Within m caught condition → Within m caught (.while' line condition body)
  | loopBody {caught line condition body} :
      Within m caught body → Within m caught (.while' line condition body)
  | tryBlock {caught line body catches} : Within m caught body →
      Within m (catches.filterMap Node.name? ++ caught) (.tryExcept line body catches)
  | handler {caught line catchLine name block body catches} :
      .catch' catchLine name body ∈ catches → Within m caught body →
      Within m caught (.tryExcept line block catches)

section

variable {procedures : Table String Signature} {visible : List String}

theorem CheckedArgs.checked_of_mem (h : CheckedArgs procedures visible args args' types)
    (hx : x ∈ args) :
    ∃ x' t, CheckedExpr procedures visible x x' t := by
  induction args generalizing args' types with
  | nil => cases hx
  | cons e rest ih =>
    cases h with
    | cons he hrest =>
      obtain rfl | hx := mem_cons.1 hx
      · exact ⟨_,_,he⟩
      · exact ih hrest hx

theorem CheckedInits.checked_of_mem {inits inits'}
    (h : CheckedInits procedures visible inits inits' visible') {x value}
    (hx : .varInit x value line ∈ inits) :
    ∃ visible value' t, CheckedExpr procedures visible value value' t := by
  induction h with
  | nil => cases hx
  | cons x line hvalue _ _ ih =>
    obtain heq | hx := mem_cons.1 hx
    · obtain ⟨-,rfl,-⟩ := Node.varInit.inj heq
      exact ⟨_,_,_,hvalue⟩
    · exact ih hx

theorem CheckedStatements.checked_of_mem
    (h : CheckedStatements procedures visible allowed ns ns' visible') (hn : n ∈ ns) :
    ∃ visible n' visible', CheckedStatement procedures visible allowed n n' visible' := by
  induction ns generalizing visible ns' with
  | nil => cases hn
  | cons m rest ih =>
    cases h with
    | cons hm hrest =>
      obtain rfl | hn := mem_cons.1 hn
      · exact ⟨_,_,_,hm⟩
      · exact ih hrest hn

theorem CheckedCatches.checked_of_mem
    (h : CheckedCatches procedures visible allowed ns ns' visible')
    (hn : .catch' line name body ∈ ns) :
    ∃ visible body' visible', CheckedStatement procedures visible allowed body body' visible' := by
  induction ns generalizing visible ns' with
  | nil => cases hn
  | cons m rest ih =>
    cases h with
    | cons line name hbody hrest =>
      obtain heq | hn := mem_cons.1 hn
      · obtain ⟨-,-,rfl⟩ := Node.catch'.inj heq
        exact ⟨_,_,_,hbody⟩
      · exact ih hrest hn

theorem CheckedExpr.not_within_raise (h : CheckedExpr procedures visible n n' t) :
    ¬Within (.raise line e) caught n := by
  intro hwithin
  induction hwithin generalizing n' t with
  | self => cases h
  | left _ ih =>
    cases h with
    | arithmetic _ _ _ hx _ => exact ih hx
    | comparison _ _ _ hx _ => exact ih hx
    | logical _ _ _ hx _ => exact ih hx
  | right _ ih =>
    cases h with
    | arithmetic _ _ _ _ hy => exact ih hy
    | comparison _ _ _ _ hy => exact ih hy
    | logical _ _ _ _ hy => exact ih hy
  | operand _ ih =>
    cases h with
    | minus _ _ _ hx => exact ih hx
    | not _ _ hx => exact ih hx
  | arg hx _ ih =>
    cases h with
    | call _ _ _ _ hargs =>
      obtain ⟨x',t,hx⟩ := hargs.checked_of_mem hx
      exact ih hx
  | _ => cases h

theorem CheckedStatement.mem_of_within_raise
    (h : CheckedStatement procedures visible allowed n n' visible')
    (hwithin : Within (.raise line e) caught n) : e ∈ caught ∨ e ∈ allowed := by
  induction hwithin generalizing n' visible visible' allowed with
  | self =>
    cases h with
    | raise _ he => exact .inr he
  | initial hvalue hwithin _ =>
    cases h with
    | varDecl _ _ hinits =>
      obtain ⟨_,value',t,hvalue⟩ := hinits.checked_of_mem hvalue
      exact absurd hwithin hvalue.not_within_raise
  | assigned hwithin _ =>
    cases h with
    | assign _ _ hvalue _ => exact absurd hwithin hvalue.not_within_raise
  | evaluated hwithin _ =>
    cases h with
    | eval _ hvalue => exact absurd hwithin hvalue.not_within_raise
  | returned hwithin _ =>
    cases h with
    | bareReturn => cases hwithin
    | «return» _ hvalue => exact absurd hwithin hvalue.not_within_raise
  | statement hn _ ih =>
    cases h with
    | block _ hstatements =>
      obtain ⟨_,n',_,hn⟩ := hstatements.checked_of_mem hn
      exact ih hn
  | ifCondition hwithin _ =>
    cases h with
    | ifElse _ hcondition _ _ => exact absurd hwithin hcondition.not_within_raise
  | ifBranch _ ih =>
    cases h with
    | ifElse _ _ ha _ => exact ih ha
  | elseBranch _ ih =>
    cases h with
    | ifElse _ _ _ hb => exact ih hb
  | loopCondition hwithin _ =>
    cases h with
    | loop _ hcondition _ => exact absurd hwithin hcondition.not_within_raise
  | loopBody _ ih =>
    cases h with
    | loop _ _ hbody => exact ih hbody
  | tryBlock _ ih =>
    cases h with
    | tryExcept _ hbody _ =>
      rw [mem_append]
      obtain he | he := ih hbody
      · exact .inl (.inr he)
      · obtain he | he := mem_union.1 he
        · exact .inr he
        · exact .inl (.inl he)
  | handler hcatch _ ih =>
    cases h with
    | tryExcept _ _ hcatches =>
      obtain ⟨_,body',_,hbody⟩ := hcatches.checked_of_mem hcatch
      exact ih hbody
  | _ => cases h

theorem Accepted.mem_of_within_raise {ds ds' c functions}
    (h : Accepted ds ds' c functions) {procLine name block result params raises}
    (hd : .procDecl procLine name block params result raises ∈ ds) {caught}
    (hwithin : Within (.raise line e) caught block) :
    e ∈ caught ∨ e ∈ raises.filterMap Node.name? := by
  obtain ⟨sig,hsig,-,hraises⟩ := (h.collected _ _ _ _ _ _ hd).signature
  obtain ⟨d',-,_,_,hchecked⟩ := h.declarations.checked_of_mem hd
  cases hchecked with
  | procDecl _ _ _ hsig' _ hstatements =>
    cases hsig'.symm.trans hsig
    cases hwithin with
    | statement hn hwithin =>
      obtain ⟨_,n',_,hn⟩ := hstatements.checked_of_mem hn
      rw [← hraises]
      exact hn.mem_of_within_raise hwithin

end

def Checker.allowNothing (c : Checker) : Checker :=
  { c with scopes := c.scopes.map fun scope => { scope with exceptions := [] } }

theorem typeOf?_allowNothing (c : Checker) (x : String) :
    c.allowNothing.typeOf? x = c.typeOf? x := by
  unfold Checker.typeOf? Checker.allowNothing
  induction c.scopes with
  | nil => rfl
  | cons scope rest ih => simp only [map_cons,Checker.lookupIn,ih]

theorem checkProgram_raises (source : String) (r r' reporter : Reporter) (c' : Checker)
    (ds ds' : List Node) (hparse : Runs (parse source) r (some ds) r')
    (hcheck : (checkProgram ds).run { reporter } = ((ds',.ok ()),c'))
    (haccept : c'.reporter.reports = reporter.reports) :
    (∀ line name block params result raises, .procDecl line name block params result raises ∈ ds →
      (name = "main" → raises = []) ∧
      ∀ raiseLine e caught, Within (.raise raiseLine e) caught block →
        e ∈ caught ∨ e ∈ raises.filterMap Node.name?) ∧
    ∀ n c, (checkExpr n).run (Checker.allowNothing c) =
      (((checkExpr n).run c).1,((checkExpr n).run c).2.allowNothing) := by
  obtain ⟨c,haccepted⟩ := accepted_of_checkProgram (isProgram_of_parse hparse) hcheck haccept
  refine ⟨fun line name block params result raises hd => ⟨?_,?_⟩,?_⟩
  · exact (haccepted.collected _ _ _ _ _ _ hd).main
  · intro raiseLine e caught hwithin
    exact haccepted.mem_of_within_raise hd hwithin
  · intro n c
    obtain ⟨reports,hc,hnothing⟩ := observes_checkExpr_and_checkExprs.1 n c c.allowNothing
      ⟨funext (typeOf?_allowNothing c),rfl,rfl⟩
    rw [hc,hnothing]
    rfl

def passingOnSource : String :=
  "exception E;exception F;def f()raises F\x7btry\x7braise E;\x7dexcept E\x7braise F;\x7dreturn;\x7d
def main()\x7btry\x7bf();\x7dexcept F\x7b\x7dreturn;\x7d"

theorem passingOnSource_raises : ∃ ds r' ds' c',
    Runs (parse passingOnSource) {} (some ds) r' ∧
    (checkProgram ds).run {} = ((ds',.ok ()),c') ∧ c'.reporter.reports = [] ∧
    (∀ line name block params result raises, .procDecl line name block params result raises ∈ ds →
      (name = "main" → raises = []) ∧
      ∀ raiseLine e caught, Within (.raise raiseLine e) caught block →
        e ∈ caught ∨ e ∈ raises.filterMap Node.name?) := by
  have hparse := runs_parse_of_isEmpty passingOnSource (by decide +kernel)
  have hcheck := run_eq_ok (x := checkProgram (parsed passingOnSource)) (s := {}) (by decide +kernel)
  have haccept : ((checkProgram (parsed passingOnSource)).run {}).2.reporter.reports = [] :=
    List.isEmpty_iff.1 (by decide +kernel)
  exact ⟨_,_,_,_,hparse,hcheck,haccept,(checkProgram_raises _ _ _ _ _ _ _ hparse hcheck haccept).1⟩

def uncaughtProgram : List Node :=
  [.exceptionDecl 1 "E",
   .procDecl 2 "g" (.block 2 [.raise 2 "E",.return' 2 .absent]) [] .absent [.raises 2 "E"],
   .procDecl 3 "main" (.block 3 [.eval 0 (.call 3 Node.undefined "g" []),.return' 3 .absent]) []
     .absent []]

theorem uncaughtProgram_accepted : ∃ ds' c' block params result callLine type args,
    (checkProgram uncaughtProgram).run {} = ((ds',.ok ()),c') ∧ c'.reporter.reports = [] ∧
    .procDecl 3 "main" block params result [] ∈ uncaughtProgram ∧
    Within (.call callLine type "g" args) [] block ∧
    ∃ line body gResult, .procDecl line "g" body [] gResult [.raises line "E"] ∈ uncaughtProgram :=
  ⟨_,_,_,_,_,_,_,_,rfl,rfl,.tail _ (.tail _ (.head _)),
    .statement (.head _) (.evaluated .self),_,_,_,.tail _ (.head _)⟩

end BxToolchain.Bx
