import BxToolchain.Proofs.X64.Simulation

namespace BxToolchain.Bx

open X64 (Line Location)
open List

variable {l x : String} {o : Operation} {line : Line} {k : Nat} {i : Instr} {v : Option Word}
  {σ : Store} {args : List Word} {s : X64.State}

def Machine.finish (code : List Instr) : Nat → Machine → Option (Option Word × Store)
  | 0, _ => none
  | fuel + 1, m =>
    match m.step code with
    | .running m' => finish code fuel m'
    | .returned v => some (v,m.store)
    | .stuck => none

namespace Operation

def label? : Operation → Option String
  | .label l => some l
  | _ => none

def target? : Operation → Option String
  | .jump l | .branch _ l => some l
  | _ => none

end Operation

namespace Instr

def label? (i : Instr) : Option String := i.operation?.bind Operation.label?

def target? (i : Instr) : Option String := i.operation?.bind Operation.target?

end Instr

def isOperandName (x : String) : Bool :=
  match x.toList with
  | [] => false
  | '@' :: rest => X64.isSymbol rest
  | _ => true

def isProcedureName (x : String) : Bool :=
  match x.toList with
  | [] => false
  | c :: rest => isLetter c && rest.all isWordPart

structure Leaf (name : String) (params : List String) (body : List Instr) : Prop where
  name : isProcedureName name = true
  few : params.length ≤ 6
  operations : ∀ i ∈ body, i.operation?.isSome = true
  names : ∀ x ∈ params ++ body.flatMap Instr.operands, isOperandName x = true
  labels : (body.filterMap Instr.label?).Nodup
  plain : ∀ l ∈ body.filterMap Instr.label?, l.toList.all X64.isSymbolPart = true
  targets : ∀ l ∈ body.filterMap Instr.target?, l ∈ body.filterMap Instr.label?

section Listing

variable (place : String → X64.Operand) (procedure : String)

theorem label?_lines (o : Operation) :
    (o.lines place procedure).filterMap Line.label? =
      o.label?.toList.map Operation.labelName := by
  cases o with
  | binary op r x y => cases op <;> rfl
  | ret source => cases source <;> rfl
  | _ => rfl

theorem target?_lines (o : Operation) :
    ∀ l ∈ (o.lines place procedure).filterMap Line.target?,
      l = Operation.exitName procedure ∨ l ∈ o.target?.toList.map Operation.labelName := by
  cases o with
  | binary op r x y => cases op <;> simp [Operation.lines,Operation.binaryLines,Line.target?]
  | ret source => cases source <;> simp [Operation.lines,Line.target?]
  | _ => simp [Operation.lines,Line.target?,Operation.target?]

theorem Instr.label?_lines (i : Instr) :
    (i.lines place procedure).filterMap Line.label? = i.label?.toList.map Operation.labelName := by
  unfold Instr.lines Instr.label?
  cases i.operation? with
  | none => rfl
  | some o => exact Bx.label?_lines place procedure o

theorem label?_bodyLines (body : List Instr) :
    (body.flatMap (Instr.lines place procedure)).filterMap Line.label? =
      (body.filterMap Instr.label?).map Operation.labelName := by
  induction body with
  | nil => rfl
  | cons i rest ih =>
    rw [flatMap_cons,filterMap_append,ih,Instr.label?_lines,← map_append]
    cases h : i.label? <;> simp [h]

theorem target?_bodyLines (body : List Instr)
    (h : l ∈ (body.flatMap (Instr.lines place procedure)).filterMap Line.target?) :
    l = Operation.exitName procedure ∨
      l ∈ (body.filterMap Instr.target?).map Operation.labelName := by
  obtain ⟨line,hline,hl⟩ := mem_filterMap.1 h
  obtain ⟨i,hi,hline⟩ := mem_flatMap.1 hline
  unfold Instr.lines at hline
  cases ho : i.operation? with
  | none =>
    rw [ho] at hline
    cases hline
  | some o =>
    rw [ho] at hline
    obtain hl | hl := target?_lines place procedure o l (mem_filterMap.2 ⟨line,hline,hl⟩)
    · exact .inl hl
    · right
      obtain ⟨t,ht,rfl⟩ := mem_map.1 hl
      refine mem_map.2 ⟨t,mem_filterMap.2 ⟨i,hi,?_⟩,rfl⟩
      rw [Instr.target?,ho]
      exact Option.mem_toList.1 ht

end Listing

section Symbols

theorem isSymbol_labelName (h : l.toList.all X64.isSymbolPart = true) :
    X64.isSymbol (Operation.labelName l).toList = true := by
  have htext : (Operation.labelName l).toList = '.' :: 'L' :: l.toList := by
    simp [Operation.labelName]
  rw [htext,X64.isSymbol,all_cons,all_cons,h]
  decide

theorem exitName_ne_labelName (x l : String) : Operation.exitName x ≠ Operation.labelName l := by
  intro h
  have hlist := congrArg String.toList h
  simp [Operation.exitName,Operation.labelName] at hlist

theorem exitName_ne_self (x : String) : Operation.exitName x ≠ x := by
  intro h
  have hlength := congrArg String.length h
  simp [Operation.exitName] at hlength

theorem wellFormed_operandAt (h : isOperandName x = true) (names : List String) :
    (operandAt names x).WellFormed := by
  unfold operandAt
  split
  · rename_i hglobal
    obtain ⟨rest,hrest⟩ := head?_eq_some_iff.1 (of_decide_eq_true hglobal)
    rw [isOperandName,hrest] at h
    rw [X64.Operand.WellFormed,String.toList_ofList,hrest]
    exact h
  · trivial

section

variable (h : isProcedureName x = true)
include h

theorem all_isSymbolPart_of_isProcedureName : x.toList.all X64.isSymbolPart = true := by
  unfold isProcedureName at h
  split at h
  · cases h
  · rename_i c rest hx
    rw [Bool.and_eq_true] at h
    rw [hx,all_cons,Bool.and_eq_true]
    constructor
    · have hc := h.1
      simp only [isLetter,Bool.or_eq_true] at hc
      simp only [X64.isSymbolPart,isWordPart,Char.isAlphanum,Bool.or_eq_true]
      tauto
    · rw [all_eq_true] at h ⊢
      intro d hd
      simp [X64.isSymbolPart,h.2 d hd]

theorem head_of_isProcedureName :
    ∃ c rest, x.toList = c :: rest ∧ c ≠ '.' ∧ c.isDigit = false := by
  unfold isProcedureName at h
  split at h
  · cases h
  · rename_i c rest hx
    refine ⟨c,rest,hx,?_,?_⟩
    · rintro rfl
      rw [show isLetter '.' = false by decide] at h
      cases h
    · rw [← Bool.not_eq_true]
      intro hdigit
      rw [isLetter_eq_false hdigit] at h
      cases h

theorem isSymbol_of_isProcedureName : X64.isSymbol x.toList = true := by
  have hall := all_isSymbolPart_of_isProcedureName h
  obtain ⟨c,rest,hx,-,hdigit⟩ := head_of_isProcedureName h
  rw [hx] at hall ⊢
  rw [X64.isSymbol,hdigit,hall]
  rfl

theorem isSymbol_exitName : X64.isSymbol (Operation.exitName x).toList = true := by
  have htext : (Operation.exitName x).toList = 'E' :: '_' :: x.toList := by
    simp [Operation.exitName]
  rw [htext,X64.isSymbol,all_cons,all_cons,all_isSymbolPart_of_isProcedureName h]
  decide

theorem labelName_ne_of_isProcedureName (l : String) : Operation.labelName l ≠ x := by
  rintro rfl
  obtain ⟨c,rest,hx,hc,-⟩ := head_of_isProcedureName h
  simp only [Operation.labelName,String.toList_append] at hx
  exact hc (List.cons.inj hx).1.symm

end

theorem wellFormed_lines {procedure} (hprocedure : isProcedureName procedure = true)
    (hplace : ∀ x ∈ o.operands, (place x).WellFormed)
    (hlabel : ∀ l ∈ o.label?.toList ++ o.target?.toList, l.toList.all X64.isSymbolPart = true) :
    ∀ line ∈ o.lines place procedure, line.WellFormed := by
  cases o with
  | binary op r x y =>
    cases op <;>
      simp_all [Operation.operands,Operation.lines,Operation.binaryLines,Line.WellFormed,
        X64.Operand.WellFormed,Operation.rax,Operation.rcx,Operation.rdx,Operation.r11]
  | label l => simpa [Operation.lines,Line.WellFormed] using isSymbol_labelName (hlabel l (by simp [Operation.label?]))
  | jump l | branch c l =>
    simpa [Operation.lines,Line.WellFormed] using isSymbol_labelName (hlabel l (by simp [Operation.label?,Operation.target?]))
  | ret source => 
    cases source <;>
    simp_all [Operation.operands,Operation.lines,Line.WellFormed,X64.Operand.WellFormed,Operation.rax,isSymbol_exitName]
  | _ => simp_all [Operation.operands,Operation.lines,Line.WellFormed,X64.Operand.WellFormed,Operation.r11]

end Symbols

def slotNames (params : List String) (body : List Instr) : List String :=
  meetAll (meetAll [] (body.flatMap Instr.operands)) params

def bodyLines (name : String) (params : List String) (body : List Instr) : List Line :=
  body.flatMap (Instr.lines (operandAt (slotNames params body)) name)

def headLines (name : String) (params : List String) (body : List Instr) : List Line :=
  entryLines name (8 * Assemble.frameSlots (meetAll [] (body.flatMap Instr.operands)).length) ++
    argumentLines (operandAt (slotNames params body)) argumentRegisters params

theorem procedureLines_eq (name : String) (params : List String) (body : List Instr) :
    procedureLines name params body =
      headLines name params body ++ bodyLines name params body ++ exitLines name := rfl

namespace Leaf

theorem mem_argumentLines {registers} (h : line ∈ argumentLines place registers params) :
    ∃ r, ∃ p ∈ params, line = .move (.register r) (place p) := by
  unfold argumentLines at h
  rw [← map_uncurry_zip_eq_zipWith] at h
  obtain ⟨⟨r,p⟩,hmem,rfl⟩ := mem_map.1 h
  exact ⟨r,p,(of_mem_zip hmem).2,rfl⟩

section

variable (name : String) (params : List String) (body : List Instr)

theorem label?_headLines : (headLines name params body).filterMap Line.label? = [name] := by
  have hargs : (argumentLines (operandAt (slotNames params body)) argumentRegisters params).filterMap
      Line.label? = [] := by
    rw [filterMap_eq_nil_iff]
    intro line hline
    obtain ⟨r,p,-,rfl⟩ := mem_argumentLines hline
    rfl
  rw [headLines,filterMap_append,hargs]
  rfl

theorem target?_headLines : (headLines name params body).filterMap Line.target? = [] := by
  rw [filterMap_eq_nil_iff]
  intro line hline
  rw [headLines,mem_append] at hline
  obtain hline | hline := hline
  · revert line
    simp [entryLines,frameLines,Line.target?]
  · obtain ⟨r,p,-,rfl⟩ := mem_argumentLines hline
    rfl

theorem filterMap_label? :
    (procedureLines name params body).filterMap Line.label? =
      name :: (body.filterMap Instr.label?).map Operation.labelName ++ [Operation.exitName name] := by
  rw [procedureLines_eq,filterMap_append,filterMap_append,label?_headLines,bodyLines,
    label?_bodyLines]
  rfl

end

variable {name : String} {params : List String} {body : List Instr} (h : Leaf name params body)
include h

theorem ne_empty (hx : x ∈ params ++ body.flatMap Instr.operands) : x ≠ "" := by
  rintro rfl
  exact absurd (h.names _ hx) (by decide)

theorem wellFormed : ∀ line ∈ procedureLines name params body, line.WellFormed := by
  have hname := isSymbol_of_isProcedureName h.name
  intro line hline
  rw [procedureLines_eq,headLines,mem_append,mem_append,mem_append] at hline
  obtain ((hline | hline) | hline) | hline := hline
  · revert line
    simp [entryLines,frameLines,Line.WellFormed,X64.Operand.WellFormed,hname]
  · obtain ⟨r,p,hp,rfl⟩ := mem_argumentLines hline
    exact ⟨trivial,wellFormed_operandAt (h.names p (mem_append_left _ hp)) _⟩
  · obtain ⟨i,hi,hline⟩ := mem_flatMap.1 hline
    obtain ⟨o,ho⟩ := Option.isSome_iff_exists.1 (h.operations i hi)
    rw [Instr.lines,ho] at hline
    refine wellFormed_lines h.name (fun x hx => ?_) (fun l hl => ?_) line hline
    · refine wellFormed_operandAt (h.names x (mem_append_right _ ?_)) _
      exact mem_flatMap.2 ⟨i,hi,by rwa [Instr.operands,ho]⟩
    · obtain hl | hl := mem_append.1 hl
      · refine h.plain l (mem_filterMap.2 ⟨i,hi,?_⟩)
        rw [Instr.label?,ho]
        exact Option.mem_toList.1 hl
      · refine h.plain l (h.targets l (mem_filterMap.2 ⟨i,hi,?_⟩))
        rw [Instr.target?,ho]
        exact Option.mem_toList.1 hl
  · revert line
    simp [exitLines,Line.WellFormed,X64.Operand.WellFormed,isSymbol_exitName h.name]

theorem nodup_labels : ((procedureLines name params body).filterMap Line.label?).Nodup := by
  rw [filterMap_label?,nodup_append]
  refine ⟨?_,nodup_singleton _,?_⟩
  · rw [nodup_cons]
    constructor
    · intro hmem
      obtain ⟨l,-,hl⟩ := mem_map.1 hmem
      exact labelName_ne_of_isProcedureName h.name l hl
    · exact h.labels.map fun _ _ => append_left_cancel
  · rintro l hl _ hexit rfl
    obtain rfl := mem_singleton.1 hexit
    obtain hl | hl := mem_cons.1 hl
    · exact exitName_ne_self name hl
    · obtain ⟨l,-,hl⟩ := mem_map.1 hl
      exact exitName_ne_labelName name l hl.symm

theorem mem_labels_of_mem_targets
    (hl : l ∈ (procedureLines name params body).filterMap Line.target?) :
    l ∈ (procedureLines name params body).filterMap Line.label? := by
  have hexit : (exitLines name).filterMap Line.target? = [] := rfl
  rw [procedureLines_eq,filterMap_append,filterMap_append,target?_headLines,hexit,
    append_nil,nil_append] at hl
  rw [filterMap_label?]
  obtain rfl | hl := target?_bodyLines _ _ body hl
  · simp
  · obtain ⟨t,ht,rfl⟩ := mem_map.1 hl
    have hlabel := mem_map_of_mem (f := Operation.labelName) (h.targets t ht)
    simp only [cons_append,mem_cons,mem_append]
    exact .inr (.inl hlabel)

theorem load?_eq :
    X64.load? ((procedureLines name params body).map Line.render) =
      some (procedureLines name params body) :=
  X64.load?_map_render h.wellFormed h.nodup_labels fun _ => h.mem_labels_of_mem_targets

end Leaf

section Control

open X64 (Reaches)

variable {name : String} {params : List String} {body : List Instr}

def linesBefore (name : String) (params : List String) (body : List Instr) (k : Nat) : List Line :=
  headLines name params body ++
    (body.take k).flatMap (Instr.lines (operandAt (slotNames params body)) name)

theorem procedureLines_split (hi : body[k]? = some i) :
    ∃ after, procedureLines name params body = linesBefore name params body k ++
      i.lines (operandAt (slotNames params body)) name ++ after := by
  obtain ⟨hk,rfl⟩ := List.getElem?_eq_some_iff.1 hi
  refine ⟨(body.drop (k + 1)).flatMap (Instr.lines (operandAt (slotNames params body)) name) ++
    exitLines name,?_⟩
  have hbody : body = body.take k ++ body[k] :: body.drop (k + 1) := by simp
  have hflat : ∀ f : Instr → List Line, body.flatMap f =
      (body.take k).flatMap f ++ (f body[k] ++ (body.drop (k + 1)).flatMap f) := by
    intro f
    conv_lhs => rw [hbody]
    rw [flatMap_append,flatMap_cons]
  rw [procedureLines_eq,bodyLines,linesBefore,hflat]
  simp only [append_assoc]

theorem linesBefore_succ (hi : body[k]? = some i) :
    linesBefore name params body (k + 1) = linesBefore name params body k ++
      i.lines (operandAt (slotNames params body)) name := by
  rw [linesBefore,take_add_one,hi]
  simp [linesBefore]

theorem getElem?_lines (hi : body[k]? = some i)
    (hlines : i.lines (operandAt (slotNames params body)) name = line :: rest) :
    (procedureLines name params body)[(linesBefore name params body k).length]? = some line := by
  obtain ⟨after,hsplit⟩ : ∃ after, procedureLines name params body = _ ++ after :=
    procedureLines_split hi
  rw [hsplit,hlines]
  simp

variable {m : Machine}

theorem exists_perform_of_step (h : m.step code = progress) (hprogress : progress ≠ .stuck) :
    ∃ i, code[m.pc]? = some i ∧ ∃ o, i.operation? = some o ∧ m.perform code o = progress := by
  unfold Machine.step at h
  split at h
  · rename_i i hi
    split at h
    · rename_i o ho
      exact ⟨i,hi,o,ho,h⟩
    · exact absurd h.symm hprogress
  · exact absurd h.symm hprogress

theorem ret_of_returned (h : m.perform code o = .returned v) :
    o = .ret none ∧ v = none ∨ ∃ x w, o = .ret (some x) ∧ m.store x = some w ∧ v = some w := by
  have hassign : ∀ r result, m.assign r result ≠ .returned v := by
    intro r result hreturned
    cases result <;> cases hreturned
  have hgoto : ∀ l, m.goto code l ≠ .returned v := by
    intro l hreturned
    unfold Machine.goto at hreturned
    split at hreturned <;> cases hreturned
  cases o with
  | nop | label | const => cases h
  | copy | binary | unary => exact absurd h (hassign _ _)
  | compare x y =>
    rw [Machine.perform] at h
    split at h <;> cases h
  | jump l => exact absurd h (hgoto l)
  | branch c l =>
    rw [Machine.perform] at h
    split at h
    · split at h
      · exact absurd h (hgoto l)
      · cases h
    · cases h
  | ret source =>
    cases source with
    | none => exact .inl ⟨rfl,(Progress.returned.inj h).symm⟩
    | some x =>
      rw [Machine.perform] at h
      split at h
      · rename_i w hw
        exact .inr ⟨x,w,rfl,hw,(Progress.returned.inj h).symm⟩
      · cases h

theorem branch_eq_running (h : m.perform code (.branch c l) = .running m') :
    ∃ u v, m.compared = some (u,v) ∧
      (c.holds u v = true ∧ m.goto code l = .running m' ∨
        c.holds u v = false ∧ m' = { store := m.store, pc := m.pc + 1 }) := by
  rw [Machine.perform] at h
  split at h
  · rename_i u v hcompared
    refine ⟨u,v,hcompared,?_⟩
    split at h
    · exact .inl ⟨‹_›,h⟩
    · exact .inr ⟨Bool.eq_false_iff.2 ‹_›,(Progress.running.inj h).symm⟩
  · cases h

theorem lines_of_operation? (f : String → X64.Operand) (name : String)
    (ho : i.operation? = some o) : i.lines f name = o.lines f name := by
  rw [Instr.lines,ho]
  rfl

theorem reaches_exit (name : String) (hs : Represents (slotNames params body) frame saved σ s) :
    ∃ pc s', Reaches (procedureLines name params body)
        (headLines name params body ++ bodyLines name params body).length s pc s' ∧
      (procedureLines name params body)[pc]? = some .ret ∧
      s'.registers .rsp = frame + 8 ∧ s'.registers .rbp = saved ∧
      s'.registers .rax = s.registers .rax ∧ s'.memory = s.memory := by
  have hsplit : procedureLines name params body =
      (headLines name params body ++ bodyLines name params body) ++
        [.label (Operation.exitName name),.move (.register .rbp) (.register .rsp),
          .pop (.register .rbp)] ++ [.ret] := by
    rw [procedureLines_eq]
    simp [exitLines]
  have hrun : s.performAll [.label (Operation.exitName name),
      .move (.register .rbp) (.register .rsp),.pop (.register .rbp)] =
      some (((s.setRegister .rsp frame).setRegister .rsp (frame + 8)).setRegister .rbp saved) := by
    rw [← hs.saved,← hs.base]
    rfl
  refine ⟨_,_,X64.reaches_performAll hsplit hrun,?_,rfl,rfl,rfl,rfl⟩
  rw [hsplit]
  simp

variable (h : Leaf name params body)
include h

theorem goto_label {m m' : Machine} (hstep : m.goto body l = .running m') (s : X64.State) :
    m' = { store := m.store, pc := m'.pc } ∧
      X64.goto (procedureLines name params body) s (Operation.labelName l) =
        .running (linesBefore name params body m'.pc).length s := by
  unfold Machine.goto at hstep
  split at hstep
  · rename_i k hk
    obtain rfl := (Progress.running.inj hstep).symm
    refine ⟨rfl,?_⟩
    obtain ⟨hlt,hlabel,-⟩ := findIdx?_eq_some_iff_getElem.1 hk
    have hlines : body[k].lines (operandAt (slotNames params body)) name =
        [.label (Operation.labelName l)] := by
      rw [Instr.lines,of_decide_eq_true hlabel]
      rfl
    rw [X64.goto,X64.labelIndex_of_getElem? h.nodup_labels
      (getElem?_lines (getElem?_eq_getElem hlt) hlines)]
  · cases hstep

theorem reaches_of_step (hs : Represents (slotNames params body) frame saved m.store s)
    (hflags : m.FlagsAgree s) (hstep : m.step body = .running m') :
    ∃ s', Reaches (procedureLines name params body) (linesBefore name params body m.pc).length s
        (linesBefore name params body m'.pc).length s' ∧
      Represents (slotNames params body) frame saved m'.store s' ∧ m'.FlagsAgree s' := by
  obtain ⟨i,hi,o,ho,hperform⟩ := exists_perform_of_step hstep (by simp)
  have hlines := lines_of_operation? (operandAt (slotNames params body)) name ho
  have hjump : ∀ {l : String}, m.goto body l = .running m' →
      X64.step (procedureLines name params body) (linesBefore name params body m.pc).length s =
        X64.goto (procedureLines name params body) s (Operation.labelName l) →
      ∃ s', Reaches (procedureLines name params body) (linesBefore name params body m.pc).length s
          (linesBefore name params body m'.pc).length s' ∧
        Represents (slotNames params body) frame saved m'.store s' ∧ m'.FlagsAgree s' := by
    intro l hgoto hline
    obtain ⟨hm',hgoto'⟩ := goto_label h hgoto s
    refine ⟨s,.single (hline.trans hgoto'),?_,?_⟩
    · rw [hm']
      exact hs
    · rw [hm']
      intro _ _ hcompared
      cases hcompared
  by_cases hisJump : (∃ l, o = .jump l) ∨ ∃ c l, o = .branch c l
  · obtain ⟨l,rfl⟩ | ⟨c,l,rfl⟩ := hisJump
    · refine hjump hperform ?_
      rw [X64.step,getElem?_lines hi hlines]
    · obtain ⟨u,v,hcompared,hbranch⟩ := branch_eq_running hperform
      have hline : X64.step (procedureLines name params body)
          (linesBefore name params body m.pc).length s =
          if c.holds u v then
            X64.goto (procedureLines name params body) s (Operation.labelName l)
          else .running ((linesBefore name params body m.pc).length + 1) s := by
        rw [X64.step,getElem?_lines hi hlines,hflags u v hcompared]
        simp only [X64.Flags.meets_ofDifference]
      obtain ⟨htaken,hgoto⟩ | ⟨htaken,rfl⟩ := hbranch
      · rw [htaken] at hline
        exact hjump hgoto hline
      · rw [htaken] at hline
        refine ⟨s,.single ?_,hs,fun _ _ hcompared => by cases hcompared⟩
        rw [hline,linesBefore_succ hi,hlines,length_append]
        rfl
  · rw [not_or] at hisJump
    obtain ⟨hpc,s',hrun,hs',hflags'⟩ := Machine.performAll_lines hs
      (fun x hx => (placed_meetAll [] (mem_flatMap.2 ⟨i,mem_of_getElem? hi,
        by rwa [Instr.operands,ho]⟩)).meetAll params) (fun l hl => hisJump.1 ⟨l,hl⟩)
      (fun c l hl => hisJump.2 ⟨c,l,hl⟩) hperform
    obtain ⟨after,hsplit⟩ := procedureLines_split hi
    rw [hlines] at hsplit
    have hreach := X64.reaches_performAll hsplit hrun
    rw [← hlines,← linesBefore_succ hi,← hpc] at hreach
    exact ⟨s',hreach,hs',hflags'⟩

theorem goto_exit (s : X64.State) :
    X64.goto (procedureLines name params body) s (Operation.exitName name) =
      .running (headLines name params body ++ bodyLines name params body).length s := by
  have hget : (procedureLines name params body)[(headLines name params body ++
      bodyLines name params body).length]? = some (.label (Operation.exitName name)) := by
    rw [procedureLines_eq]
    simp [exitLines]
  rw [X64.goto,X64.labelIndex_of_getElem? h.nodup_labels hget]

theorem reaches_of_return (hs : Represents (slotNames params body) frame saved m.store s)
    (hstep : m.step body = .returned v) :
    ∃ s', Reaches (procedureLines name params body) (linesBefore name params body m.pc).length s
        (headLines name params body ++ bodyLines name params body).length s' ∧
      Represents (slotNames params body) frame saved m.store s' ∧
      ∀ w, v = some w → s'.registers .rax = w := by
  obtain ⟨i,hi,o,ho,hperform⟩ := exists_perform_of_step hstep (by simp)
  have hlines := lines_of_operation? (operandAt (slotNames params body)) name ho
  obtain ⟨rfl,rfl⟩ | ⟨x,w,rfl,hw,rfl⟩ := ret_of_returned hperform
  · refine ⟨s,.single ?_,hs,fun w hw => by cases hw⟩
    rw [X64.step,getElem?_lines hi hlines]
    exact goto_exit h s
  · obtain ⟨after,hsplit⟩ := procedureLines_split hi
    rw [hlines,Operation.lines,Operation.rax,append_cons,append_assoc] at hsplit
    have hload : s.performAll [.move (operandAt (slotNames params body) x) (.register .rax)] =
        some (s.setRegister .rax (s.memory (locationAt frame (slotNames params body) x))) := by
      rw [performAll_cons,perform_load hs.base]
      rfl
    have hexit : (procedureLines name params body)[(linesBefore name params body m.pc ++
        [Line.move (operandAt (slotNames params body) x) (.register .rax)]).length]? =
        some (.jump (Operation.exitName name)) := by
      rw [hsplit]
      simp
    refine ⟨s.setRegister .rax (s.memory (locationAt frame (slotNames params body) x)),
      (X64.reaches_performAll hsplit hload).trans (.single ?_),hs.scratch ⟨rfl,rfl⟩,?_⟩
    · rw [X64.step,hexit]
      exact goto_exit h _
    · intro _ hv
      cases hv
      exact hs.value hw

theorem reaches_of_finish (hs : Represents (slotNames params body) frame saved m.store s)
    (hflags : m.FlagsAgree s) (hfinish : m.finish body fuel = some (v,σ)) :
    ∃ s', Reaches (procedureLines name params body) (linesBefore name params body m.pc).length s
        (headLines name params body ++ bodyLines name params body).length s' ∧
      Represents (slotNames params body) frame saved σ s' ∧
      ∀ w, v = some w → s'.registers .rax = w := by
  induction fuel generalizing m s with
  | zero => cases hfinish
  | succ fuel ih =>
    rw [Machine.finish] at hfinish
    split at hfinish
    · rename_i m' hstep
      obtain ⟨s',hreach,hs',hflags'⟩ := reaches_of_step h hs hflags hstep
      obtain ⟨s'',hreach',hs'',hvalue⟩ := ih hs' hflags' hfinish
      exact ⟨s'',hreach.trans hreach',hs'',hvalue⟩
    · rename_i w hstep
      obtain ⟨rfl,rfl⟩ := Prod.mk.inj (Option.some.inj hfinish)
      exact reaches_of_return h hs hstep
    · cases hfinish

end Control

def Store.start (globals : String → Word) (params : List String) (args : List Word) : Store :=
  (params.zip args).foldl (fun σ b => σ.set b.1 b.2) fun x =>
    if isGlobalName x then some (globals (String.ofList x.toList.tail)) else none

section Entry

open X64 (Reaches)

theorem performAll_argumentLines {registers} (hs : Represents names frame saved σ s)
    (hparams : ∀ p ∈ params, Placed names p) (hcount : args.length = params.length)
    (hregisters : params.length ≤ registers.length)
    (hargs : ∀ b ∈ registers.zip args, s.registers b.1 = b.2) :
    ∃ s', s.performAll (argumentLines (operandAt names) registers params) = some s' ∧
      Represents names frame saved ((params.zip args).foldl (fun σ b => σ.set b.1 b.2) σ) s' := by
  induction params generalizing registers args σ s with
  | nil =>
    refine ⟨s,?_,by simpa using hs⟩
    simp [argumentLines,performAll_nil]
  | cons p rest ih =>
    cases args with
    | nil => cases hcount
    | cons v args =>
      cases registers with
      | nil => cases hregisters
      | cons r registers =>
        obtain ⟨hp,hrest⟩ := forall_mem_cons.1 hparams
        rw [zip_cons_cons,forall_mem_cons] at hargs
        obtain ⟨s',hrun,hs'⟩ := ih (hs.set hp v) hrest (Nat.succ.inj hcount)
          (Nat.le_of_succ_le_succ hregisters) hargs.2
        refine ⟨s',?_,hs'⟩
        rw [argumentLines,zipWith_cons_cons,performAll_cons,perform_store hs.base,hargs.1]
        exact hrun

theorem performAll_frameLines (name : String) (size : Nat) (s : X64.State) :
    ∃ s', s.performAll (frameLines name size) = some s' ∧
      s'.registers .rbp = s.registers .rsp - 8 ∧
      s'.memory (.stack (s.registers .rsp - 8).toNat) = s.registers .rbp ∧
      (∀ g, s'.memory (.global g) = s.memory (.global g)) ∧
      ∀ r ∈ argumentRegisters, s'.registers r = s.registers r := by
  refine ⟨_,rfl,rfl,?_,fun g => rfl,?_⟩
  · exact if_pos rfl
  · intro r hr
    simp only [argumentRegisters,mem_cons,not_mem_nil,or_false] at hr
    obtain rfl | rfl | rfl | rfl | rfl | rfl := hr <;> rfl

theorem reaches_entry (h : Leaf name params body) (hcount : args.length = params.length)
    (hargs : ∀ b ∈ argumentRegisters.zip args, s.registers b.1 = b.2)
    (hglobals : ∀ g, s.memory (.global g) = globals g) :
    ∃ s', Reaches (procedureLines name params body) 2 s (linesBefore name params body 0).length s' ∧
      Represents (slotNames params body) (s.registers .rsp - 8) (s.registers .rbp)
        (Store.start globals params args) s' := by
  obtain ⟨s0,hframe,hbase,hsaved,hmemory,hregisters⟩ := performAll_frameLines name
    (8 * Assemble.frameSlots (meetAll [] (body.flatMap Instr.operands)).length) s
  have hs0 : Represents (slotNames params body) (s.registers .rsp - 8) (s.registers .rbp)
      (fun x => if isGlobalName x then some (globals (String.ofList x.toList.tail)) else none)
      s0 := by
    refine ⟨hbase,hsaved,fun x v hx => ?_,fun x hx => by simp [hx]⟩
    split at hx
    · rename_i hglobal
      refine ⟨.inl hglobal,?_⟩
      rw [locationAt,if_pos hglobal,hmemory,hglobals]
      exact Option.some.inj hx
    · cases hx
  have hkept : ∀ b ∈ argumentRegisters.zip args, s0.registers b.1 = b.2 := by
    intro b hb
    rw [hregisters b.1 (of_mem_zip hb).1]
    exact hargs b hb
  obtain ⟨s',hrun,hs'⟩ := performAll_argumentLines hs0 (fun p hp => placed_meetAll _ hp) hcount
    (show params.length ≤ argumentRegisters.length from h.few) hkept
  have hlines : s.performAll (frameLines name
      (8 * Assemble.frameSlots (meetAll [] (body.flatMap Instr.operands)).length) ++
      argumentLines (operandAt (slotNames params body)) argumentRegisters params) = some s' := by
    rw [performAll_append,hframe]
    exact hrun
  have hsplit : procedureLines name params body = [.text,.global name] ++ (frameLines name
      (8 * Assemble.frameSlots (meetAll [] (body.flatMap Instr.operands)).length) ++
      argumentLines (operandAt (slotNames params body)) argumentRegisters params) ++
      (bodyLines name params body ++ exitLines name) := by
    simp [procedureLines_eq,headLines,entryLines]
  have hreach := X64.reaches_performAll hsplit hlines
  rw [← append_assoc] at hreach
  have hbefore : linesBefore name params body 0 = headLines name params body := by
    simp [linesBefore]
  rw [hbefore]
  exact ⟨s',hreach,hs'⟩

end Entry

theorem assembleProcedure_simulates {name : String} {params : List String} {body : List Instr}
    (h : Leaf name params body) {d : Datum}
    (hd : (Item.procedure ("@" ++ name) params body).toDatum? = some d) {a : Assembly}
    (hslots : a.slots = {}) (hbody : a.body = #[]) :
    ∃ listing program, Runs (Assemble.assembleProcedure d) a ()
        { a with lines := a.lines ++ listing.toArray } ∧
      X64.load? listing = some program ∧
      ∀ {args : List Word} {globals : String → Word} {fuel : Nat} {v : Option Word} {σ : Store}
        {s : X64.State}, args.length = params.length →
        Machine.finish body fuel { store := Store.start globals params args } = some (v,σ) →
        (∀ b ∈ argumentRegisters.zip args, s.registers b.1 = b.2) →
        (∀ g, s.memory (.global g) = globals g) →
        ∃ pc fuel' s', X64.labelIndex program name = some pc ∧
          X64.run program fuel' pc s = some s' ∧
          s'.registers .rsp = s.registers .rsp ∧ s'.registers .rbp = s.registers .rbp ∧
          (∀ w, v = some w → s'.registers .rax = w) ∧
          ∀ g, σ ("@" ++ g) = some (s'.memory (.global g)) := by
  have hrun := runs_assembleProcedure a h.few
    (fun p hp => h.ne_empty (mem_append_left _ hp)) (fun i hi => ⟨h.operations i hi,fun x hx =>
      h.ne_empty (mem_append_right _ (mem_flatMap.2 ⟨i,hi,hx⟩))⟩) hd hslots hbody
  refine ⟨_,_,hrun,h.load?_eq,?_⟩
  intro args globals fuel v σ s hcount hfinish hargs hglobals
  have hpc : X64.labelIndex (procedureLines name params body) name = some 2 :=
    X64.labelIndex_of_getElem? h.nodup_labels rfl
  obtain ⟨s₁,hreach₁,hs₁⟩ := reaches_entry h hcount hargs hglobals
  obtain ⟨s₂,hreach₂,hs₂,hvalue⟩ := reaches_of_finish h hs₁
    (fun _ _ hcompared => by cases hcompared) hfinish
  obtain ⟨pc,s',hreach₃,hret,hrsp,hrbp,hrax,hmemory⟩ := reaches_exit name hs₂
  obtain ⟨fuel',hfuel⟩ := ((hreach₁.trans hreach₂).trans hreach₃).run_eq hret
  refine ⟨2,fuel',s',hpc,hfuel,?_,hrbp,?_,?_⟩
  · rw [hrsp,BitVec.sub_add_cancel]
  · intro w hw
    rw [hrax,hvalue w hw]
  · intro g
    have hglobal : isGlobalName ("@" ++ g) = true := by simp [isGlobalName]
    obtain ⟨w,hw⟩ := Option.isSome_iff_exists.1 (hs₂.globals _ hglobal)
    have hvalue := hs₂.value hw
    rw [locationAt,if_pos hglobal] at hvalue
    rw [hw,hmemory,← hvalue]
    simp

def halvingBody : List Instr :=
  [.make "const" [.int 2] (.str "%0"),.act "label" [.int 0],
   .make "div" [.str "%x",.str "%0"] (.str "%x"),.make "copy" [.str "%x"] (.str "@last"),
   .act "cmpq" [.str "%x",.str "%0"],.act "jge" [.int 0],.act "ret" [.str "%x"]]

theorem leaf_halvingBody : Leaf "halve" ["%x"] halvingBody where
  name := by decide
  few := by decide
  operations := by decide
  names := by decide
  labels := by decide
  plain := by decide
  targets := by decide

def callState : X64.State where
  registers := fun r => if r = .rdi then 9 else if r = .rsp then 4096 else 17
  memory := fun _ => 0

theorem halvingBody_simulated : ∃ d listing program,
    (Item.procedure "@halve" ["%x"] halvingBody).toDatum? = some d ∧
    Runs (Assemble.assembleProcedure d) {} () { lines := listing.toArray } ∧
    X64.load? listing = some program ∧
    ∃ pc fuel s', X64.labelIndex program "halve" = some pc ∧
      X64.run program fuel pc callState = some s' ∧ s'.registers .rsp = 4096 ∧
      s'.registers .rbp = 17 ∧ s'.registers .rax = 1 ∧ s'.memory (.global "last") = 1 := by
  obtain ⟨d,hd⟩ : ∃ d, (Item.procedure ("@" ++ "halve") ["%x"] halvingBody).toDatum? = some d :=
    ⟨_,rfl⟩
  obtain ⟨σ,hfinish,hlast⟩ : ∃ σ, Machine.finish halvingBody 40
      { store := Store.start (fun _ => 0) ["%x"] [9] } = some (some 1,σ) ∧
      σ ("@" ++ "last") = some 1 := ⟨_,rfl,rfl⟩
  obtain ⟨listing,program,hruns,hload,hsimulates⟩ :=
    assembleProcedure_simulates leaf_halvingBody hd (a := {}) rfl rfl
  obtain ⟨pc,fuel,s',hpc,hrun,hrsp,hrbp,hrax,hglobals⟩ :=
    hsimulates (s := callState) rfl hfinish (by decide) fun _ => rfl
  refine ⟨d,listing,program,hd,by simpa using hruns,hload,pc,fuel,s',hpc,hrun,hrsp,hrbp,
    hrax 1 rfl,?_⟩
  have hmemory := hglobals "last"
  rw [hlast] at hmemory
  exact (Option.some.inj hmemory).symm

end BxToolchain.Bx
