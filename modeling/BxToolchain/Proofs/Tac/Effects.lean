import BxToolchain.Tac.Execute
import BxToolchain.Proofs.Table

namespace BxToolchain.Tac

variable {o : Operand} {w w1 : World} {temps : Temps} {v : Datum} {f : Frame}

theorem Except.bind_eq_ok {β : Type} {x : Except ε α} {f : α → Except ε β} {b : β} :
    (x >>= f) = .ok b ↔ ∃ a, x = .ok a ∧ f a = .ok b := by
  cases x <;> simp [bind,Except.bind]

theorem Except.exists_of_isOk {r : Except ε α} (h : r.isOk = true) : ∃ x, r = .ok x := by
  cases r with
  | ok x => exact ⟨x,rfl⟩
  | error e => cases h

@[simp]
theorem Operand.text_name (s : String) : (Operand.name s).text = s := rfl

theorem Operand.read?_eq_some (h : o.read? = some s) : o = .name s ∧ s ≠ "" := by
  cases o with
  | name t =>
    simp only [Operand.read?] at h
    split at h
    · simp at h
    · rename_i hne
      cases h
      exact ⟨rfl,fun heq => hne (by simp [heq])⟩
  | _ => simp [Operand.read?] at h

theorem Operand.temp?_eq_some : o.temp? = some s ↔ o = .name s ∧ isTemp s = true := by
  cases o with
  | name t =>
    by_cases ht : isTemp t = true
    · simp only [Operand.temp?,ht,if_true,Option.some.injEq,Operand.name.injEq]
      exact ⟨fun h => ⟨h,h ▸ ht⟩,fun h => h.1⟩
    · simp only [Operand.temp?,ht,Operand.name.injEq]
      exact ⟨fun h => by simp at h,fun h => absurd (h.1 ▸ h.2) ht⟩
  | _ => simp [Operand.temp?]

variable {name : String}

theorem World.write_eq_ok :
    w.write temps name v = .ok (w1,temps1) ↔
      isVariable name = true ∧ checkWord v = .ok () ∧
        if isGlobal name then w.globals.contains name = true ∧
          w1 = { w with globals := w.globals.insert name v } ∧ temps1 = temps
        else w1 = w ∧ temps1 = temps.insert name v := by
  unfold World.write
  by_cases hvar : isVariable name = true
  · cases hword : checkWord v with
    | error e => simp [hvar,bind,Except.bind]
    | ok u =>
      by_cases hglobal : isGlobal name = true
      · by_cases hcontains : w.globals.contains name = true
        · simp [hvar,hglobal,hcontains,bind,Except.bind,pure,Except.pure,eq_comm]
        · simp [hvar,hglobal,hcontains,bind,Except.bind,throw,throwThe,MonadExceptOf.throw]
      · simp [hvar,hglobal,bind,Except.bind,pure,Except.pure,eq_comm]
  · simp [hvar,bind,Except.bind,throw,throwThe,MonadExceptOf.throw]

theorem World.read_global (h : isGlobal name = true) : w.read temps name = w.read temps' name := by
  simp [World.read,h]

theorem World.read_eq_ok (h : isGlobal name = false) :
    w.read temps name = .ok v ↔ temps.get? name = some v := by
  cases htemps : temps.get? name <;> simp [World.read,h,htemps]

theorem World.read_congr (h : isGlobal name = false → temps'.get? name = temps.get? name) :
    w.read temps' name = w.read temps name := by
  cases hglobal : isGlobal name with
  | true => exact read_global hglobal
  | false => simp [World.read,hglobal,h hglobal]

theorem store_eq_ok {o} :
    store w f dest v = (.ok o,w1) ↔
      ∃ temps, w.write f.temps dest.text v = .ok (w1,temps) ∧ o = .next { f with temps } := by
  unfold store
  cases w.write f.temps dest.text v with
  | error e => simp
  | ok r =>
    constructor
    · rintro ⟨⟩
      exact ⟨r.2,rfl,rfl⟩
    · rintro ⟨_,⟨⟩,rfl⟩
      rfl

theorem resume_eq_ok :
    resume f dest v w = (.ok f1,w1) ↔
      (dest.read? = none ∧ f1 = f ∧ w1 = w) ∨
      ∃ name temps, dest.read? = some name ∧ w.write f.temps name v = .ok (w1,temps) ∧
        f1 = { f with temps } := by
  cases hread : dest.read? with
  | none => simp [resume,hread,eq_comm]
  | some name =>
    cases hwrite : w.write f.temps name v with
    | error e => simp [resume,hread,hwrite]
    | ok r =>
      simp only [resume,hread,hwrite]
      constructor
      · rintro ⟨⟩
        exact .inr ⟨name,r.2,rfl,hwrite,rfl⟩
      · rintro (⟨h,-⟩ | ⟨name',temps',h,h',rfl⟩)
        · cases h
        · cases h
          cases hwrite.symm.trans h'
          rfl

def Opcode.isPlain (o : Opcode) : Bool := o ≠ .label && o ≠ .phi && !o.endsBlock

def Instr.isPrint (i : Instr) : Bool := i.opcode = .call && startsWith "@__bx_print" i.arg1.text

structure Instr.ReadsAlike (i i' : Instr) (read read' : String → Except Fault Datum) : Prop where
  opcode : i'.opcode = i.opcode
  first : if i.opcode.readsFirst then
      (i'.arg1 = .absent ↔ i.arg1 = .absent) ∧ ((i.opcode = .ret → i.arg1 ≠ .absent) →
        ∀ v, read i.arg1.text = .ok v → read' i'.arg1.text = .ok v)
    else i.opcode ≠ .jmp → i'.arg1 = i.arg1
  second : if i.opcode.readsSecond then ∀ v, read i.arg2.text = .ok v → read' i'.arg2.text = .ok v
    else i.opcode.isBranch = false → i'.arg2 = i.arg2

section

variable {a : Activation} {i : Instr} {f : Frame} {w : World}

theorem printCall_alike (hparams : f'.params = f.params) (hoptions : a'.options = a.options)
    (name : String) :
    (∃ w1, printCall a name f w = (.ok (.next { f with params := [] }),w1) ∧
      printCall a' name f' w = (.ok (.next { f' with params := [] }),w1)) ∨
    ∃ e, printCall a name f w = (.error e,w) := by
  unfold printCall
  rw [hparams,hoptions]
  split
  · split
    · cases integerLine a.options.onlyDecimal _ with
      | error e => exact .inr ⟨e,rfl⟩
      | ok line => exact .inl ⟨_,rfl,rfl⟩
    · exact .inl ⟨_,rfl,rfl⟩
    · exact .inr ⟨_,rfl⟩
  · exact .inr ⟨_,rfl⟩

attribute [local grind] perform

theorem perform_plain (hplain : i.opcode.isPlain = true) (hparams : f'.params = f.params)
    (hoptions : a'.options = a.options)
    (halike : i.ReadsAlike i' (w.read f.temps) (w.read f'.temps)) :
    (∃ v, perform a i f w = store w f i.dest v ∧ perform a' i' f' w = store w f' i'.dest v) ∨
    (∃ params w1, (i.opcode.writes = false ∨ i.isPrint = true) ∧
      perform a i f w = (.ok (.next { f with params }),w1) ∧
      perform a' i' f' w = (.ok (.next { f' with params }),w1)) ∨
    (∃ name args, perform a i f w = (.ok (.call name args i.dest { f with params := [] }),w) ∧
      perform a' i' f' w = (.ok (.call name args i'.dest { f' with params := [] }),w)) ∨
    ∃ e w1, perform a i f w = (.error e,w1) := by
  obtain ⟨hopcode,hfirst,hsecond⟩ := halike
  unfold perform
  cases ho : i.opcode with
  | label | phi | jmp | branch | ret =>
    simp [ho,Opcode.isPlain,Opcode.endsBlock,Opcode.isFinal,Opcode.isBranch] at hplain
  | nop =>
    simp only [ho] at hopcode
    simp only [hopcode]
    exact .inr (.inl ⟨f.params,w,.inl rfl,rfl,by simp [← hparams]⟩)
  | const =>
    simp only [ho,Opcode.readsFirst,Bool.false_eq_true,if_false] at hopcode hfirst
    simp only [hopcode,hfirst nofun]
    exact .inl ⟨_,rfl,rfl⟩
  | copy =>
    simp only [ho,Opcode.readsFirst] at hopcode hfirst
    simp only [hopcode]
    cases hread : w.read f.temps i.arg1.text with
    | error e => exact .inr (.inr (.inr ⟨e,w,rfl⟩))
    | ok v =>
      rw [hfirst.2 nofun v hread]
      exact .inl ⟨v,rfl,rfl⟩
  | unary op =>
    simp only [ho,Opcode.readsFirst] at hopcode hfirst
    simp only [hopcode]
    cases hread : w.read f.temps i.arg1.text with
    | error e => exact .inr (.inr (.inr ⟨e,w,rfl⟩))
    | ok v =>
      rw [hfirst.2 nofun v hread]
      simp only [bind,Except.bind,pure,Except.pure]
      cases hint : intOf v with
      | error e => exact .inr (.inr (.inr ⟨e,w,rfl⟩))
      | ok n => exact .inl ⟨_,rfl,rfl⟩
  | binary op =>
    simp only [ho,Opcode.readsFirst,Opcode.readsSecond] at hopcode hfirst hsecond
    simp only [hopcode]
    cases hread : w.read f.temps i.arg1.text with
    | error e => exact .inr (.inr (.inr ⟨e,w,rfl⟩))
    | ok u =>
      cases hread' : w.read f.temps i.arg2.text with
      | error e => exact .inr (.inr (.inr ⟨e,w,rfl⟩))
      | ok v =>
        rw [hfirst.2 nofun u hread,hsecond v hread',hoptions]
        generalize hresult : (do
          let u ← Except.ok u
          let v ← Except.ok v
          return Datum.int (← op.apply a.options.memory (← intOf u) (← intOf v)) :
            Except Fault Datum) = r
        cases r with
        | error e => exact .inr (.inr (.inr ⟨e,w,rfl⟩))
        | ok v => exact .inl ⟨v,rfl,rfl⟩
  | param =>
    simp only [ho,Opcode.readsFirst,Opcode.readsSecond,Bool.false_eq_true,if_false,if_true]
      at hopcode hfirst hsecond
    simp only [hopcode,hfirst nofun,hparams]
    cases hread : w.read f.temps i.arg2.text with
    | error e => exact .inr (.inr (.inr ⟨e,_,rfl⟩))
    | ok v =>
      rw [hsecond v hread]
      simp only [bind,Except.bind,pure,Except.pure]
      cases storeParam f.params (i.arg1.int?.getD 0) v with
      | error e => exact .inr (.inr (.inr ⟨e,_,rfl⟩))
      | ok params => exact .inr (.inl ⟨params,_,.inl rfl,rfl,rfl⟩)
  | call =>
    simp only [ho,Opcode.readsFirst,Opcode.readsSecond,Bool.false_eq_true,if_false]
      at hopcode hfirst hsecond
    simp only [hopcode,hfirst nofun,hsecond rfl,hparams]
    by_cases hprint : startsWith "@__bx_print" i.arg1.text = true
    · simp only [hprint,if_true]
      rcases printCall_alike hparams hoptions i.arg1.text with ⟨w1,h,h'⟩ | ⟨e,h⟩
      · exact .inr (.inl ⟨[],w1,.inr (by simp [Instr.isPrint,ho,hprint]),h,h'⟩)
      · exact .inr (.inr (.inr ⟨e,w,h⟩))
    · by_cases hcount : (f.params.length : Int) < i.arg2.int?.getD 0
      · simp only [hprint,hcount]
        exact .inr (.inr (.inr ⟨_,w,rfl⟩))
      · simp only [hprint,hcount]
        exact .inr (.inr (.inl ⟨_,_,rfl,rfl⟩))

theorem perform_label (ho : i.opcode = .label) :
    perform a i f w =
      (.ok (.next { f with previous := some f.current, current := i.arg1.text }),w) := by
  simp [perform,ho]

variable {o : Outcome}

theorem perform_jmp (ho : i.opcode = .jmp) :
    perform a i f w = (.ok o,w1) ↔
      ∃ pc, a.labels.get? i.arg1.text = some pc ∧ o = .next (f.jump i.arg1.text pc) ∧ w1 = w := by
  simp only [perform,ho]
  cases a.labels.get? i.arg1.text with
  | none => simp [bind,Except.bind]
  | some pc => simp [bind,Except.bind,pure,Except.pure,eq_comm]

theorem perform_branch (ho : i.opcode = .branch c) :
    perform a i f w = (.ok o,w1) ↔
      ∃ v pc b, w.read f.temps i.arg1.text = .ok v ∧ a.labels.get? i.arg2.text = some pc ∧
        taken c v = .ok b ∧ o = .next (if b then f.jump i.arg2.text pc else f) ∧ w1 = w := by
  simp only [perform,ho,bind,Except.bind,pure,Except.pure]
  cases w.read f.temps i.arg1.text with
  | error e => simp
  | ok v =>
    cases a.labels.get? i.arg2.text with
    | none => simp
    | some pc =>
      cases htaken : taken c v with
      | error e => simp [htaken]
      | ok b => cases b <;> simp [htaken,eq_comm]

theorem perform_ret (ho : i.opcode = .ret) :
    perform a i f w = (.ok o,w1) ↔
      ∃ v, (if i.arg1 = .absent then v = .null else w.read f.temps i.arg1.text = .ok v) ∧
        o = .done v ∧ w1 = w := by
  simp only [perform,ho]
  split
  · rename_i habsent
    simp [habsent,eq_comm]
  · rename_i habsent
    simp only [if_neg habsent,bind,Except.bind,pure,Except.pure]
    cases w.read f.temps i.arg1.text <;> simp [eq_comm]

theorem perform_phi (ho : i.opcode = .phi) :
    perform a i f w = (.ok o,w1) ↔
      ∃ l t v, (i.sources.find? fun e => some e.1 = f.previous) = some (l,t) ∧
        w.read f.left t = .ok v ∧ store w f i.dest v = (.ok o,w1) := by
  simp only [perform,ho]
  cases hfind : i.sources.find? fun e => some e.1 = f.previous with
  | none => simp
  | some e =>
    obtain ⟨l,t⟩ := e
    cases hread : w.read f.left t <;> simp [hread]

theorem Opcode.plain_or_control (o : Opcode) :
    o.isPlain = true ∨ o = .label ∨ o = .phi ∨ o = .jmp ∨ o = .ret ∨ ∃ c, o = .branch c := by
  cases o <;> simp [Opcode.isPlain,Opcode.endsBlock,Opcode.isFinal,Opcode.isBranch]

theorem Opcode.isFinal_of_isPlain {o : Opcode} (h : o.isPlain = true) : o.isFinal = false := by
  cases o <;> simp_all [Opcode.isPlain,Opcode.endsBlock,Opcode.isFinal,Opcode.isBranch]

end

end BxToolchain.Tac
