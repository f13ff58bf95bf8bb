import BxToolchain.Proofs.Run
import BxToolchain.Proofs.Tac.Effects
import BxToolchain.Proofs.Tac.Execution
import BxToolchain.Tac.Parse
import Mathlib

namespace BxToolchain.Tac

open List

variable {α : Type} {P : α → Prop} {v : Datum} {temps : Temps} {w : World} {f : Frame}
  {a : Activation} {procs : Table String Procedure} {args : List Datum}

def IsWordValue (v : Datum) : Prop := ∃ n, v = .int n ∧ isWord n = true

def IsResult (v : Datum) : Prop := v = .null ∨ IsWordValue v

def HoldsWords (t : Table String Datum) : Prop := ∀ name v, t.get? name = some v → IsWordValue v

theorem HoldsWords.insert (htemps : HoldsWords temps) (hv : IsWordValue v) (name : String) :
    HoldsWords (temps.insert name v) := by
  intro other u hu
  rw [Table.get?_insert] at hu
  split at hu
  · exact Option.some.inj hu ▸ hv
  · exact htemps other u hu

def Delivers (P : α → Prop) : Except Fault α → Prop
  | .ok a => P a
  | .error e => ∀ shown low high, e ≠ .noWord shown low high

theorem Delivers.bind (hx : Delivers P x) (hg : ∀ a, P a → Delivers Q (g a)) :
    Delivers Q (x >>= g) := by
  cases x with
  | ok a => exact hg a hx
  | error e => exact hx

theorem Delivers.mono (hx : Delivers P x) (hP : ∀ a, P a → P' a) : Delivers P' x := by
  cases x with
  | ok a => exact hP a hx
  | error e => exact hx

theorem Delivers.map (hx : Delivers P x) (hg : ∀ a, P a → Q (g a)) : Delivers Q (x.map g) := by
  cases x with
  | ok a => exact hg a hx
  | error e => exact hx

theorem Delivers.ite [Decidable c] (hx : Delivers P x) (hy : Delivers P y) :
    Delivers P (if c then x else y) := by
  split
  · exact hx
  · exact hy

theorem delivers_intOf (v : Datum) : Delivers (fun _ => True) (intOf v) := by
  unfold intOf
  split
  · trivial
  · exact nofun

theorem isWord_wrap (n : Int) : isWord (wrap n) = true := by
  simp only [isWord,Bool.and_eq_true,decide_eq_true_eq]
  exact ⟨Int.emod_nonneg _ (by decide),Int.emod_lt_of_pos _ (by decide)⟩

theorem toNat_wrap_lt (n : Int) : (wrap n).toNat < 2 ^ 64 := by
  have h := isWord_wrap n
  simp only [isWord,Bool.and_eq_true,decide_eq_true_eq] at h
  omega

theorem isWord_natCast {n : Nat} (h : n < 2 ^ 64) : isWord n = true := by
  simp only [isWord,Bool.and_eq_true,decide_eq_true_eq]
  omega

theorem delivers_map_wrap (a b : Int) (g : Int → Int) :
    Delivers (fun n => isWord n = true) ((quotient a b).map fun q => wrap (g q)) := by
  have hquotient : Delivers (fun _ => True) (quotient a b) := by
    unfold quotient
    generalize 2 ^ 1024 = bound
    exact .ite nofun (.ite nofun trivial)
  exact hquotient.map fun _ _ => isWord_wrap _

theorem delivers_apply (op : BinOp) (memory : Nat) (u v : Int) :
    Delivers (fun n => isWord n = true) (op.apply memory u v) := by
  cases op with
  | add | sub | mul => exact isWord_wrap _
  | div => exact delivers_map_wrap _ _ id
  | mod => exact delivers_map_wrap _ _ _
  | and => exact isWord_natCast (Nat.and_lt_two_pow _ (toNat_wrap_lt _))
  | or => exact isWord_natCast (Nat.or_lt_two_pow (toNat_wrap_lt _) (toNat_wrap_lt _))
  | xor => exact isWord_natCast (Nat.xor_lt_two_pow (toNat_wrap_lt _) (toNat_wrap_lt _))
  | shl =>
    refine .ite nofun (.ite nofun ?_)
    change isWord (BinOp.shifted _ _) = true
    unfold BinOp.shifted
    split
    · exact isWord_wrap _
    · rfl
  | shr => exact .ite nofun (isWord_wrap _)

theorem isWord_unary (op : UnOp) (u : Int) : isWord (op.apply u) = true := by
  cases op with
  | neg | not => exact isWord_wrap _

theorem delivers_read (hw : HoldsWords w.globals) (htemps : HoldsWords temps) (name : String) :
    Delivers IsWordValue (w.read temps name) := by
  have hboth : HoldsWords (if isGlobal name then w.globals else temps) := by
    split
    · exact hw
    · exact htemps
  unfold World.read
  split
  · rename_i v hv
    exact hboth name v hv
  · exact nofun

theorem delivers_checkWord (hv : IsResult v) : Delivers (fun _ => IsWordValue v) (checkWord v) := by
  obtain rfl | ⟨n,rfl,hn⟩ := hv
  · exact nofun
  · have hrange := hn
    simp only [isWord] at hrange
    simp only [checkWord,Datum.int?,hrange,if_true]
    exact ⟨n,rfl,hn⟩

theorem World.write_eq_error (h : w.write temps name v = .error e) :
    e = .refused ∨ checkWord v = .error e ∨ e = .missingKey (Text.quote name) := by
  unfold World.write at h
  by_cases hvar : isVariable name = true
  · cases hword : checkWord v with
    | error e' => simp_all [bind,Except.bind]
    | ok u =>
      by_cases hglobal : isGlobal name = true
      · by_cases hcontains : w.globals.contains name = true
        · simp [hvar,hword,hglobal,hcontains,bind,Except.bind,pure,Except.pure] at h
        · simp_all [bind,Except.bind,throw,throwThe,MonadExceptOf.throw]
      · simp [hvar,hword,hglobal,bind,Except.bind,pure,Except.pure] at h
  · simp_all [bind,Except.bind,throw,throwThe,MonadExceptOf.throw]

theorem delivers_write (hw : HoldsWords w.globals) (htemps : HoldsWords temps) (hv : IsResult v)
    (name : String) : Delivers (fun r : World × Temps => HoldsWords r.1.globals ∧ HoldsWords r.2)
      (w.write temps name v) := by
  have hword := delivers_checkWord hv
  cases hwrite : w.write temps name v with
  | ok r =>
    obtain ⟨-,hcheck,hstored⟩ := World.write_eq_ok.1 hwrite
    rw [hcheck] at hword
    split at hstored
    · obtain ⟨-,hglobals,htemps'⟩ := hstored
      exact ⟨by rw [hglobals]; exact hw.insert hword name,htemps' ▸ htemps⟩
    · exact ⟨hstored.1 ▸ hw,hstored.2 ▸ htemps.insert hword name⟩
  | error e =>
    obtain rfl | hcheck | rfl := World.write_eq_error hwrite
    · exact nofun
    · rw [hcheck] at hword
      exact hword
    · exact nofun

structure Frame.Sound (f : Frame) : Prop where
  temps : HoldsWords f.temps
  left : HoldsWords f.left
  params : ∀ v ∈ f.params, IsResult v

def Outcome.Sound : Outcome → Prop
  | .next f => f.Sound
  | .call _ args _ f => (∀ v ∈ args, IsResult v) ∧ f.Sound
  | .done v => IsResult v

structure Fine (P : α → Prop) (r : Except Fault α × World) : Prop where
  globals : HoldsWords r.2.globals
  result : Delivers P r.1

theorem Fine.cases (h : Fine P r) :
    (∃ e w, r = (.error e,w) ∧ HoldsWords w.globals ∧ ∀ shown low high, e ≠ .noWord shown low high) ∨
      ∃ a w, r = (.ok a,w) ∧ HoldsWords w.globals ∧ P a := by
  obtain ⟨_ | a,w⟩ := r
  · exact .inl ⟨_,w,rfl,h.globals,h.result⟩
  · exact .inr ⟨a,w,rfl,h.globals,h.result⟩

theorem delivers_integerLine (onlyDecimal : Bool) (v : Datum) :
    Delivers (fun _ => True) (integerLine onlyDecimal v) := by
  have hsigned : Delivers (fun _ => True) (signedDatum v) := by
    unfold signedDatum
    split
    · trivial
    · split
      · trivial
      · exact nofun
  refine hsigned.bind fun s _ => ?_
  split
  · trivial
  · exact (delivers_intOf v).bind fun _ _ => (delivers_intOf s).bind fun _ _ => trivial

theorem delivers_storeParam (hparams : ∀ v ∈ params, IsResult v) (hv : IsResult v) (index : Int) :
    Delivers (fun params => ∀ v ∈ params, IsResult v) (storeParam params index v) := by
  refine .ite (fun u hu => ?_) nofun
  obtain hu | rfl := mem_or_eq_of_mem_set hu
  · obtain hu | hu := mem_append.1 hu
    · exact hparams u hu
    · exact .inl (eq_of_mem_replicate hu)
  · exact hv

theorem delivers_target (labels : Table String Nat) (l : String) :
    Delivers (fun _ => True) (match labels.get? l with
      | some pc => .ok pc
      | none => .error (.unknownTarget l)) := by
  cases labels.get? l <;> simp [Delivers]

theorem fine_announcing (a : Activation) (r : Except Fault Outcome × World) :
    Fine Outcome.Sound r → Fine Outcome.Sound (match r with
      | (.ok (.done v),w) => (.ok (.done v),if a.options.showProcs then
          w.print ("// " ++ a.options.indent ++ a.shown ++ " --> " ++ v.display) else w)
      | r => r) := by
  intro hr
  split
  · exact ⟨by split <;> exact hr.globals,hr.result⟩
  · exact hr

section

variable (hf : f.Sound) (hw : HoldsWords w.globals)
include hf hw

theorem fine_store (hv : IsResult v) (dest : Operand) :
    Fine Outcome.Sound (store w f dest v) := by
  have hwrite := delivers_write hw hf.temps hv dest.text
  unfold store
  split
  · rename_i h
    rw [h] at hwrite
    exact ⟨hwrite.1,hwrite.2,hf.left,hf.params⟩
  · rename_i h
    rw [h] at hwrite
    exact ⟨hw,hwrite⟩

theorem fine_printCall (a : Activation) (name : String) :
    Fine Outcome.Sound (printCall a name f w) := by
  have hnext : Frame.Sound { f with params := [] } := ⟨hf.temps,hf.left,by simp⟩
  unfold printCall
  split
  · rename_i v _
    split
    · have hline := delivers_integerLine a.options.onlyDecimal v
      split
      · exact ⟨hw,hnext⟩
      · rename_i e he
        rw [he] at hline
        exact ⟨hw,hline⟩
    · exact ⟨hw,hnext⟩
    · exact ⟨hw,nofun⟩
  · exact ⟨hw,nofun⟩

theorem fine_storing (dest : Operand) (r : Except Fault Datum) :
    Delivers IsResult r → Fine Outcome.Sound (match r with
      | .ok v => store w f dest v
      | .error e => (.error e,w)) := by
  intro hr
  cases r with
  | ok v => exact fine_store hf hw hr dest
  | error e => exact ⟨hw,hr⟩

theorem fine_perform (a : Activation) (i : Instr) : Fine Outcome.Sound (perform a i f w) := by
  have hread := fun o : Operand => delivers_read hw hf.temps o.text
  have hstore := fine_storing hf hw i.dest
  have htarget := fun o : Operand => delivers_target a.labels o.text
  have hjump : ∀ l pc, (f.jump l pc).Sound := fun l pc => ⟨hf.temps,hf.temps,hf.params⟩
  have hnumber : ∀ {n}, isWord n = true → IsResult (.int n) := fun hn => .inr ⟨_,rfl,hn⟩
  unfold perform
  dsimp only
  split
  · exact ⟨hw,hf⟩
  · exact ⟨hw,hf.temps,hf.left,hf.params⟩
  · split
    · rename_i t _
      have hleft := delivers_read hw hf.left t
      exact hstore _ (hleft.mono fun _ => .inr)
    · exact ⟨hw,by simp [Delivers]⟩
  · exact ⟨hw,(htarget _).bind fun pc _ => hjump _ _⟩
  · rename_i c _
    have htaken : ∀ v, Delivers (fun _ => True) (taken c v) := by
      intro v
      unfold taken
      split
      · trivial
      · trivial
      · exact (delivers_intOf v).map fun _ _ => trivial
    refine ⟨hw,(hread _).bind fun v _ => (htarget _).bind fun pc _ => (htaken v).bind fun b _ => ?_⟩
    cases b with
    | true => exact hjump _ _
    | false => exact hf
  · exact hstore (.ok _) (hnumber (isWord_wrap _))
  · exact hstore _ ((hread _).mono fun _ => .inr)
  · refine ⟨by split <;> exact hw,(hread _).bind fun v hv => ?_⟩
    exact (delivers_storeParam hf.params (.inr hv) _).bind fun params hparams =>
      ⟨hf.temps,hf.left,hparams⟩
  · split
    · exact fine_printCall hf hw a _
    · split
      · exact ⟨hw,by simp [Delivers]⟩
      · exact ⟨hw,hf.params,hf.temps,hf.left,by simp⟩
  · split
    · exact ⟨hw,.inl rfl⟩
    · exact ⟨hw,(hread _).bind fun v hv => .inr hv⟩
  · exact hstore _ ((hread _).bind fun u _ => (hread _).bind fun v _ => (delivers_intOf u).bind
      fun m _ => (delivers_intOf v).bind fun n _ => (delivers_apply _ _ m n).bind fun r hr =>
        hnumber hr)
  · exact hstore _ ((hread _).bind fun u _ => (delivers_intOf u).bind fun m _ =>
      hnumber (isWord_unary _ m))

theorem fine_step (a : Activation) : Fine Outcome.Sound (step a f w) := by
  have hgo := fun i (w : World) (hw : HoldsWords w.globals) => fine_announcing a _
    (fine_perform (f := { f with pc := f.pc + 1 }) ⟨hf.temps,hf.left,hf.params⟩ hw a i)
  unfold step
  dsimp only
  split
  · exact ⟨hw,.inl rfl⟩
  · rename_i i _
    have htext : Delivers (fun _ => True) i.text? := .ite (by simp [Delivers]) trivial
    split
    · split
      · exact hgo _ _ hw
      · rename_i h
        rw [h] at htext
        exact ⟨hw,htext⟩
    · exact hgo _ _ hw

theorem fine_resume (hv : IsResult v) (dest : Operand) :
    Fine Frame.Sound (resume f dest v w) := by
  unfold resume
  split
  · exact ⟨hw,hf⟩
  · rename_i name _
    have hwrite := delivers_write hw hf.temps hv name
    split
    · rename_i h
      rw [h] at hwrite
      exact ⟨hwrite.1,hwrite.2,hf.left,hf.params⟩
    · rename_i h
      rw [h] at hwrite
      exact ⟨hw,hwrite⟩

end

theorem delivers_bindParams (params : List Datum) (hw : HoldsWords w.globals)
    (htemps : HoldsWords temps) (hargs : ∀ v ∈ args, IsResult v) :
    Delivers (fun r : World × Temps => HoldsWords r.1.globals ∧ HoldsWords r.2)
      (bindParams params args w temps) := by
  fun_induction bindParams params args w temps with
  | case1 => exact ⟨hw,htemps⟩
  | case2 => exact nofun
  | case3 p ps v vs w temps w' temps' hwrite ih =>
    have h := delivers_write hw htemps (hargs v mem_cons_self) p
    rw [hwrite] at h
    exact ih h.1 h.2 fun u hu => hargs u (mem_cons_of_mem _ hu)
  | case4 p ps v vs w temps e hwrite =>
    have h := delivers_write hw htemps (hargs v mem_cons_self) p
    rw [hwrite] at h
    exact h
  | case5 => exact nofun

theorem delivers_labelsFrom (n : Nat) (t : Table String Nat) (code : List Instr) :
    Delivers (fun _ => True) (labelsFrom n t code) := by
  fun_induction labelsFrom n t code with
  | case1 => trivial
  | case2 => exact nofun
  | case3 _ _ _ _ _ _ _ ih | case4 _ _ _ _ _ ih => exact ih

theorem fine_enter (hw : HoldsWords w.globals) (hargs : ∀ v ∈ args, IsResult v) (p : Procedure)
    (options : Options) :
    Fine (fun r : Activation × Frame => r.2.Sound) (enter p options args w) := by
  have hnone : HoldsWords ({} : Temps) := nofun
  have hbind := delivers_bindParams p.params hw hnone hargs
  unfold enter
  split
  · rename_i h
    rw [h] at hbind
    exact ⟨hw,hbind⟩
  · rename_i h
    rw [h] at hbind
    have hlabels := delivers_labelsFrom 0 {} p.body
    dsimp only
    split
    · rename_i h
      rw [h] at hlabels
      exact ⟨by split <;> exact hbind.1,hlabels⟩
    · exact ⟨by split <;> exact hbind.1,hbind.2,hbind.2,by simp⟩

theorem fine_run (procs : Table String Procedure) (fuel : Nat) :
    (∀ options name args (w : World), (∀ v ∈ args, IsResult v) → HoldsWords w.globals →
      Fine IsResult (execute procs fuel options name args w)) ∧
    ∀ a (f : Frame) (w : World), f.Sound → HoldsWords w.globals →
      Fine IsResult (continueFrom procs fuel a f w) := by
  induction fuel with
  | zero =>
    have hspent (P : Datum → Prop) : Delivers P (.error .outOfSteps) := by simp [Delivers]
    exact ⟨fun _ _ _ _ _ hw => ⟨hw,hspent _⟩,fun _ _ _ _ hw => ⟨hw,hspent _⟩⟩
  | succ fuel ih =>
    refine ⟨fun options name args w hargs hw => ?_,fun a f w hf hw => ?_⟩
    · rw [execute]
      split
      · exact ⟨hw,by simp [Delivers]⟩
      · rename_i p _
        obtain ⟨e,w1,h,hw1,he⟩ | ⟨⟨a,f⟩,w1,h,hw1,hf⟩ := (fine_enter hw hargs p options).cases
        · simp only [h]
          exact ⟨hw1,he⟩
        · simp only [h]
          exact ih.2 a f w1 hf hw1
    · rw [continueFrom]
      obtain ⟨e,w1,h,hw1,he⟩ | ⟨o,w1,h,hw1,ho⟩ := (fine_step hf hw a).cases
      · simp only [h]
        exact ⟨hw1,he⟩
      · cases o with
        | next f1 =>
          simp only [h]
          exact ih.2 a f1 w1 ho hw1
        | done u =>
          simp only [h]
          exact ⟨hw1,ho⟩
        | call name args dest f1 =>
          simp only [h]
          obtain ⟨e,w2,h2,hw2,he⟩ | ⟨u,w2,h2,hw2,hu⟩ :=
            (ih.1 a.inner name args w1 ho.1 hw1).cases
          · rw [Activation.inner] at h2
            simp only [h2]
            exact ⟨hw2,he⟩
          · rw [Activation.inner] at h2
            simp only [h2]
            obtain ⟨e,w3,h3,hw3,he⟩ | ⟨f2,w3,h3,hw3,hf2⟩ := (fine_resume ho.2 hw2 hu dest).cases
            · simp only [h3]
              exact ⟨hw3,he⟩
            · simp only [h3]
              exact ih.2 a f2 w3 hf2 hw3

inductive Visits (procs : Table String Procedure) :
    Activation → Frame → World → Activation → Frame → World → Prop where
  | refl (a : Activation) (f : Frame) (w : World) : Visits procs a f w a f w
  | next {a b f f1 g w w1 w'} :
      step a f w = (.ok (.next f1),w1) → Visits procs a f1 w1 b g w' → Visits procs a f w b g w'
  | inside {a b c f f1 g h w w1 w2 w' name args dest p} :
      step a f w = (.ok (.call name args dest f1),w1) → procs.get? name = some p →
      enter p a.inner args w1 = (.ok (b,g),w2) → Visits procs b g w2 c h w' →
      Visits procs a f w c h w'
  | behind {a b f f1 f2 g w w1 w2 w3 w' name args dest u} :
      step a f w = (.ok (.call name args dest f1),w1) →
      Returns procs false a.inner name args w1 u w2 → resume f1 dest u w2 = (.ok f2,w3) →
      Visits procs a f2 w3 b g w' → Visits procs a f w b g w'

theorem Visits.sound (h : Visits procs a f w b g w') (hf : f.Sound) (hw : HoldsWords w.globals) :
    g.Sound ∧ HoldsWords w'.globals := by
  induction h with
  | refl a f w => exact ⟨hf,hw⟩
  | @next a _ f _ _ w _ _ hstep _ ih =>
    have hfine := fine_step hf hw a
    rw [hstep] at hfine
    exact ih hfine.result hfine.globals
  | @inside a _ _ f _ _ _ w _ _ _ _ _ _ p hstep _ henter _ ih =>
    have hfine := fine_step hf hw a
    rw [hstep] at hfine
    have hfine' := fine_enter hfine.globals hfine.result.1 p a.inner
    rw [henter] at hfine'
    exact ih hfine'.result hfine'.globals
  | @behind a _ f _ _ _ w _ w2 _ _ _ _ dest u hstep hreturns hresume _ ih =>
    have hfine := fine_step hf hw a
    rw [hstep] at hfine
    obtain ⟨fuel,hrun⟩ := returns_iff_execute.1 hreturns
    have hcall : Fine IsResult (.ok u,w2) :=
      hrun ▸ (fine_run procs fuel).1 _ _ _ _ hfine.result.1 hfine.globals
    have hfine' := fine_resume hfine.result.2 hcall.globals hcall.result dest
    rw [hresume] at hfine'
    exact ih hfine'.result hfine'.globals

def Reading.Sound (r : Reading) : Prop :=
  ∀ t, .token t ∈ r.pieces → t.kind = .number → isWord t.number = true

theorem Read.pieces_advance (ps : List Piece) (r : Reading) (h : (Read.advance ps r).1 = .ok ()) :
    (Read.advance ps r).2.pieces <:+ ps := by
  fun_induction Read.advance ps r with
  | case1 c line rest r ih => exact (ih h).trans (suffix_cons _ _)
  | case2 | case3 => cases h
  | case4 => exact suffix_refl _

def Reaps (P : α → Prop) (x : Read α) : Prop :=
  ∀ r a r', Runs x r a r' → r.Sound → r'.Sound ∧ P a

namespace Reaps

theorem pure {a} (h : P a) : Reaps P (Pure.pure a) := by
  intro r b r' hrun hr
  obtain ⟨rfl,rfl⟩ := runs_pure_iff.1 hrun
  exact ⟨hr,h⟩

theorem bind (hx : Reaps P x) (hg : ∀ a, P a → Reaps Q (g a)) : Reaps Q (x >>= g) := by
  intro r b r' hrun hr
  obtain ⟨a,r1,hx',hg'⟩ := hrun.of_bind
  obtain ⟨hr1,ha⟩ := hx r a r1 hx' hr
  exact hg a ha r1 b r' hg' hr1

theorem throw (e : Fault) : Reaps P (MonadExcept.throw e : Read α) :=
  fun _ _ _ hrun => absurd hrun not_runs_throw

theorem peek : Reaps (fun o => ∀ t, o = some t → t.kind = .number → isWord t.number = true)
    Read.peek := by
  intro r o r' hrun hr
  obtain ⟨_,_,hset,hmatch⟩ := (runs_get.bind_iff.1 hrun).of_bind
  obtain rfl := runs_set_iff.1 hset
  have hsuffix := Read.pieces_advance r.pieces r
  cases h : (Read.advance r.pieces r).1 with
  | error e =>
    rw [h] at hmatch
    exact absurd hmatch not_runs_throw
  | ok u =>
    have hsound : (Read.advance r.pieces r).2.Sound := fun t ht => hr t ((hsuffix h).subset ht)
    rw [h] at hmatch
    dsimp only at hmatch
    split at hmatch
    · rename_i t rest hpieces
      obtain ⟨rfl,rfl⟩ := runs_pure_iff.1 hmatch
      refine ⟨hsound,fun t' ht' => hsound t' ?_⟩
      rw [hpieces,Option.some.inj ht']
      exact mem_cons_self
    · obtain ⟨rfl,rfl⟩ := runs_pure_iff.1 hmatch
      exact ⟨hsound,nofun⟩

theorem skip : Reaps (fun _ => True) Read.skip := by
  intro r u r' hrun hr
  obtain rfl := runs_modify_iff.1 hrun
  exact ⟨fun t ht => hr t (mem_of_mem_drop ht),trivial⟩

theorem refuse : Reaps P (Read.refuse : Read α) := by
  refine bind peek fun o _ => ?_
  split
  · exact Reaps.bind (P := fun _ => True) (fun r _ _ hrun hr => by
      obtain rfl := runs_modify_iff.1 hrun
      exact ⟨hr,trivial⟩) fun _ _ => .throw _
  · exact .throw _

theorem peekKind : Reaps (fun _ => True) Read.peekKind := bind peek fun _ _ => .pure trivial

theorem expect (kind : TokenKind) :
    Reaps (fun t => kind = .number → isWord t.number = true) (Read.expect kind) := by
  refine bind peek fun o ho => ?_
  split
  · rename_i t
    split
    · rename_i hkind
      exact bind skip fun _ _ => .pure fun h => ho t rfl (hkind.trans h)
    · exact refuse
  · exact refuse

theorem argument : Reaps (fun _ => True) Read.argument := by
  refine bind peek fun o _ => ?_
  split
  · split
    · exact bind skip fun _ _ => .pure trivial
    · exact bind skip fun _ _ => .pure trivial
    · exact bind skip fun _ _ => .pure trivial
    · exact bind skip fun _ _ => .pure trivial
    · exact refuse
  · exact refuse

theorem arguments : Reaps (fun _ => True) Read.arguments := by
  refine bind peekKind fun k _ => ?_
  split
  · exact .pure trivial
  · refine bind argument fun a _ => bind peekKind fun k _ => ?_
    split
    · exact bind skip fun _ _ => bind argument fun _ _ => .pure trivial
    · exact .pure trivial

theorem operation (dest : Datum) : Reaps (fun _ => True) (Read.operation dest) := by
  refine (expect _).bind fun o _ => bind arguments fun args _ => (expect _).bind fun _ _ => ?_
  split
  · exact .pure trivial
  · exact .throw _

theorem instruction? : Reaps (fun _ => True) Read.instruction? := by
  refine bind peek fun o _ => ?_
  split
  · split
    · exact bind skip fun _ _ => (expect _).bind fun _ _ => .pure trivial
    · exact bind skip fun _ _ => (expect _).bind fun _ _ => (operation _).bind fun _ _ => .pure trivial
    · exact bind skip fun _ _ => (expect _).bind fun _ _ => (operation _).bind fun _ _ => .pure trivial
    · exact (operation _).bind fun _ _ => .pure trivial
    · exact .pure trivial
  · exact .pure trivial

theorem instructions (fuel : Nat) : Reaps (fun _ => True) (Read.instructions fuel) := by
  induction fuel with
  | zero => exact .pure trivial
  | succ fuel ih =>
    refine bind instruction? fun o _ => ?_
    split
    · exact ih.bind fun _ _ => .pure trivial
    · exact .pure trivial

theorem moreParams (fuel : Nat) : Reaps (fun _ => True) (Read.moreParams fuel) := by
  induction fuel with
  | zero => exact .pure trivial
  | succ fuel ih =>
    refine bind peekKind fun k _ => ?_
    split
    · exact bind skip fun _ _ => (expect _).bind fun _ _ => ih.bind fun _ _ => .pure trivial
    · exact .pure trivial

theorem params (fuel : Nat) : Reaps (fun _ => True) (Read.params fuel) := by
  refine bind peekKind fun k _ => ?_
  split
  · refine bind skip fun _ _ => bind peekKind fun k _ => ?_
    split
    · exact (expect _).bind fun _ _ => (moreParams fuel).bind fun _ _ => (expect _).bind fun _ _ =>
        .pure trivial
    · exact (expect _).bind fun _ _ => .pure trivial
  · exact .pure trivial

theorem program (fuel : Nat) :
    Reaps (fun p => ∀ g, .global g ∈ p → IsWordValue g.value) (Read.program fuel) := by
  induction fuel with
  | zero => exact .pure (by simp)
  | succ fuel ih =>
    refine bind peekKind fun k _ => ?_
    split
    · exact .pure (by simp)
    · refine Reaps.bind (P := fun d => ∀ g, d = .global g → IsWordValue g.value) ?_ fun d hd =>
        ih.bind fun rest hrest => .pure fun g hg => ?_
      · exact (expect _).bind fun _ _ => (expect _).bind fun _ _ => (expect _).bind fun _ _ =>
          (expect .number).bind fun n hn => (expect _).bind fun _ _ =>
            .pure fun g hg => Declaration.global.inj hg ▸ ⟨n.number,rfl,hn rfl⟩
      · obtain hg | hg := mem_cons.1 hg
        · exact hd g hg.symm
        · exact hrest g hg
    · refine Reaps.bind (P := fun d => ∀ g, d ≠ .global g) ?_ fun d hd =>
        ih.bind fun rest hrest => .pure fun g hg => ?_
      · exact (expect _).bind fun _ _ => (expect _).bind fun _ _ => (params fuel).bind fun _ _ =>
          (expect _).bind fun _ _ => (instructions fuel).bind fun _ _ => .pure nofun
      · obtain hg | hg := mem_cons.1 hg
        · exact (hd g hg.symm).elim
        · exact hrest g hg
    · exact refuse

end Reaps

theorem isWord_of_placeFrom (line pos : Nat) (lexemes : List Lexeme) (t : Token)
    (ht : .token t ∈ placeFrom line pos lexemes) (hkind : t.kind = .number) :
    isWord t.number = true := by
  fun_induction placeFrom line pos lexemes with
  | case1 => simp at ht
  | case2 _ _ _ _ _ ih | case3 _ _ _ _ ih | case4 _ _ _ _ _ ih => exact ih ht
  | case5 _ _ _ _ _ ih => exact ih (by simpa using ht)
  | case6 | case7 => simp at ht
  | case8 line pos rest kind text hlong hword after ih =>
    obtain ht | ht := mem_cons.1 ht
    · obtain rfl := Piece.token.inj ht
      simp only at hkind
      simpa [hkind,Token.number] using hword
    · exact ih ht

theorem holdsWords_globals {p : Program} (hp : ∀ g, .global g ∈ p → IsWordValue g.value)
    (ht : HoldsWords temps) : HoldsWords (p.globals temps) := by
  fun_induction Program.globals p temps with
  | case1 => exact ht
  | case2 g rest t ih =>
    exact ih (fun g hg => hp g (mem_cons_of_mem _ hg)) (ht.insert (hp g mem_cons_self) _)
  | case3 d rest t _ ih => exact ih (fun g hg => hp g (mem_cons_of_mem _ hg)) ht

theorem run_on_words {origin source output : String} {p : Program}
    (hparse : parse origin source = (.ok p,output)) (options : Options) (name : String)
    (hargs : ∀ v ∈ args, IsWordValue v) :
    (∀ fuel, Fine IsResult
      (execute (p.procedures {}) fuel options name args { globals := p.globals {} })) ∧
    ∀ q a f w, (p.procedures {}).get? name = some q →
      enter q options args { globals := p.globals {} } = (.ok (a,f),w) →
      ∀ b g w', Visits (p.procedures {}) a f w b g w' →
        HoldsWords g.temps ∧ HoldsWords g.left ∧ HoldsWords w'.globals := by
  have hrun : Runs (Read.program ((pieces source).length + 1)) { origin, pieces := pieces source } p
      ((Read.program ((pieces source).length + 1)).run { origin, pieces := pieces source }).2 :=
    Prod.ext (Prod.ext_iff.1 hparse).1 rfl
  have hglobals : HoldsWords (p.globals {}) :=
    holdsWords_globals (Reaps.program _ _ _ _ hrun (isWord_of_placeFrom 1 0 _)).2 nofun
  have hresults : ∀ v ∈ args, IsResult v := fun v hv => .inr (hargs v hv)
  refine ⟨fun fuel => (fine_run _ fuel).1 _ _ _ _ hresults hglobals,?_⟩
  intro q a f w _ henter b g w' hvisits
  have hentered := fine_enter (w := { globals := p.globals {} }) hglobals hresults q options
  rw [henter] at hentered
  obtain ⟨hg,hw'⟩ := hvisits.sound hentered.result hentered.globals
  exact ⟨hg.temps,hg.left,hw'⟩

def adding : Program :=
  [.global ⟨"@sum",.int (2 ^ 64 - 1)⟩,.procedure ⟨"@add",[.str "%n"],
    [{ opcode := .binary .add, dest := .name "@sum", arg1 := .name "@sum", arg2 := .name "%n" },
     { opcode := .ret, arg1 := .name "@sum" }]⟩]

def addingText : String :=
  "var @sum = 18446744073709551615; proc @add(%n): @sum = add @sum, %n; ret @sum;"

theorem adding_on_words : parse "add.tac" addingText = (.ok adding,"") ∧
    (execute (adding.procedures {}) 5 {} "@add" [.int 1] { globals := adding.globals {} }).1 =
      .ok (.int 0) ∧
    ∀ fuel, Fine IsResult
      (execute (adding.procedures {}) fuel {} "@add" [.int 1] { globals := adding.globals {} }) := by
  have hparse : parse "add.tac" addingText = (.ok adding,"") := by cbv
  refine ⟨hparse,by cbv,(run_on_words hparse {} "@add" ?_).1⟩
  simp only [mem_singleton,forall_eq]
  exact ⟨1,rfl,by decide⟩

end BxToolchain.Tac
