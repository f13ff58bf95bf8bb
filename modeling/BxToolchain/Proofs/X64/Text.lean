import BxToolchain.Proofs.Numeral
import BxToolchain.Proofs.X64.Processor
import Mathlib.Data.List.TakeWhile

namespace BxToolchain.X64

open List

variable {c : Char} {n : Int} {o a b : Operand}

def isSymbolPart (c : Char) : Bool := Bx.isWordPart c || c = '.'

def isSymbol : List Char → Bool
  | [] => false
  | c :: rest => !c.isDigit && (c :: rest).all isSymbolPart

def Register.all : List Register := [.rax,.rcx,.rdx,.rsi,.rdi,.rsp,.rbp,.r8,.r9,.r11]

def Register.name : Register → String
  | .rax => "rax"
  | .rcx => "rcx"
  | .rdx => "rdx"
  | .rsi => "rsi"
  | .rdi => "rdi"
  | .rsp => "rsp"
  | .rbp => "rbp"
  | .r8 => "r8"
  | .r9 => "r9"
  | .r11 => "r11"

def Register.named? (cs : List Char) : Option Register :=
  Register.all.find? fun r => r.name.toList = cs

def Operand.render : Operand → String
  | .register r => "%" ++ r.name
  | .immediate n => "$" ++ Text.decimal n
  | .slot offset => Text.decimal offset ++ "(%rbp)"
  | .symbol name => name ++ "(%rip)"

def Arithmetic.mnemonic : Arithmetic → String
  | .add => "addq"
  | .sub => "subq"
  | .and => "andq"
  | .or => "orq"
  | .xor => "xorq"

def unaryMnemonic : Tac.UnOp → String
  | .neg => "negq"
  | .not => "notq"

def Shift.mnemonic : Shift → String
  | .left => "salq"
  | .right => "sarq"

def branchMnemonic : Bx.Comparison → String
  | .less => "jl"
  | .greater => "jg"
  | .lessEq => "jle"
  | .greaterEq => "jge"
  | .equal => "jz"
  | .notEqual => "jnz"

def Line.render : Line → String
  | .text => ".text"
  | .global name => ".globl " ++ name
  | .label name => name ++ ":"
  | .move a b => "movq " ++ a.render ++ ", " ++ b.render
  | .arithmetic op a b => op.mnemonic ++ " " ++ a.render ++ ", " ++ b.render
  | .unary op b => unaryMnemonic op ++ " " ++ b.render
  | .shift op b => op.mnemonic ++ " %cl, " ++ b.render
  | .multiply a => "imulq " ++ a.render
  | .extend => "cqto"
  | .divide a => "idivq " ++ a.render
  | .compare a b => "cmpq " ++ a.render ++ ", " ++ b.render
  | .jump l => "jmp " ++ l
  | .branch c l => branchMnemonic c ++ " " ++ l
  | .push a => "pushq " ++ a.render
  | .pop b => "popq " ++ b.render
  | .ret => "retq"

def readNat? (cs : List Char) : Option Nat :=
  if cs ≠ [] ∧ cs.all Char.isDigit then some (Nat.ofDigitChars 10 cs 0) else none

def readInt? : List Char → Option Int
  | '-' :: rest => (readNat? rest).map fun n => -n
  | cs => (readNat? cs).map fun n => n

def Operand.read? (cs : List Char) : Option Operand :=
  match cs with
  | '%' :: rest => (Register.named? rest).map .register
  | '$' :: rest => (readInt? rest).map .immediate
  | cs =>
    let base := cs.takeWhile (· ≠ '(')
    let mode := cs.dropWhile (· ≠ '(')
    if mode = "(%rbp)".toList then (readInt? base).map .slot
    else if mode = "(%rip)".toList && isSymbol base then some (.symbol (String.ofList base))
    else none

def Operand.readPair? (cs : List Char) : Option (Operand × Operand) :=
  match cs.dropWhile (· ≠ ',') with
  | ',' :: ' ' :: rest => do
    return (← Operand.read? (cs.takeWhile (· ≠ ',')),← Operand.read? rest)
  | _ => none

def readSymbol? (cs : List Char) : Option String :=
  if isSymbol cs then some (String.ofList cs) else none

def readShifted? : List Char → Option Operand
  | '%' :: 'c' :: 'l' :: ',' :: ' ' :: rest => Operand.read? rest
  | _ => none

def Line.readAfter? (mnemonic : String) (cs : List Char) : Option Line :=
  match mnemonic with
  | ".text" => if cs = [] then some .text else none
  | ".globl" => (readSymbol? cs).map .global
  | "movq" => (Operand.readPair? cs).map fun p => .move p.1 p.2
  | "addq" => (Operand.readPair? cs).map fun p => .arithmetic .add p.1 p.2
  | "subq" => (Operand.readPair? cs).map fun p => .arithmetic .sub p.1 p.2
  | "andq" => (Operand.readPair? cs).map fun p => .arithmetic .and p.1 p.2
  | "orq" => (Operand.readPair? cs).map fun p => .arithmetic .or p.1 p.2
  | "xorq" => (Operand.readPair? cs).map fun p => .arithmetic .xor p.1 p.2
  | "negq" => (Operand.read? cs).map (.unary .neg)
  | "notq" => (Operand.read? cs).map (.unary .not)
  | "salq" => (readShifted? cs).map (.shift .left)
  | "sarq" => (readShifted? cs).map (.shift .right)
  | "imulq" => (Operand.read? cs).map .multiply
  | "cqto" => if cs = [] then some .extend else none
  | "idivq" => (Operand.read? cs).map .divide
  | "cmpq" => (Operand.readPair? cs).map fun p => .compare p.1 p.2
  | "jmp" => (readSymbol? cs).map .jump
  | "pushq" => (Operand.read? cs).map .push
  | "popq" => (Operand.read? cs).map .pop
  | "retq" => if cs = [] then some .ret else none
  | _ => (Bx.branchNamed? mnemonic).bind fun c => (readSymbol? cs).map (.branch c)

def Line.read? (text : String) : Option Line :=
  let word := text.toList.takeWhile (· ≠ ' ')
  let rest := (text.toList.dropWhile (· ≠ ' ')).drop 1
  if word.getLast? = some ':' then
    if rest = [] then (readSymbol? word.dropLast).map .label else none
  else readAfter? (String.ofList word) rest

def Operand.WellFormed : Operand → Prop
  | .symbol name => isSymbol name.toList = true
  | .register _ | .immediate _ | .slot _ => True

def Line.WellFormed : Line → Prop
  | .global name | .label name | .jump name | .branch _ name => isSymbol name.toList = true
  | .move a b | .arithmetic _ a b | .compare a b => a.WellFormed ∧ b.WellFormed
  | .unary _ a | .shift _ a | .multiply a | .divide a | .push a | .pop a => a.WellFormed
  | .text | .extend | .ret => True

theorem takeWhile_append_cons (ys : List Char) (hxs : ∀ x ∈ xs, p x = true) (hc : p c = false) :
    (xs ++ c :: ys).takeWhile p = xs ∧ (xs ++ c :: ys).dropWhile p = c :: ys := by
  rw [takeWhile_append_of_pos hxs,dropWhile_append_of_pos hxs]
  simp [hc]

theorem readNat?_toDigits (n : Nat) : readNat? (Nat.toDigits 10 n) = some n := by
  have hdigits : (Nat.toDigits 10 n).all Char.isDigit = true :=
    all_eq_true.2 isDigit_of_mem_toDigits
  rw [readNat?,if_pos ⟨Nat.toDigits_ne_nil,hdigits⟩,Nat.ofDigitChars_ten_toDigits]

theorem readInt?_decimal (n : Int) : readInt? (Text.decimal n).toList = some n := by
  cases n with
  | ofNat k =>
    have hread := readNat?_toDigits k
    have hhead : ∀ rest, Nat.toDigits 10 k ≠ '-' :: rest := by
      intro rest h
      have := isDigit_of_mem_toDigits _ (h ▸ mem_cons_self : '-' ∈ Nat.toDigits 10 k)
      simp at this
    rw [Text.decimal,String.toList_ofList,readInt?.eq_2 _ hhead,hread]
    rfl
  | negSucc k =>
    rw [Text.decimal,String.toList_append,String.toList_ofList]
    simp [readInt?,readNat?_toDigits,Int.negSucc_eq]

theorem mem_decimal (h : c ∈ (Text.decimal n).toList) : c.isDigit = true ∨ c = '-' := by
  cases n with
  | ofNat k => exact .inl (isDigit_of_mem_toDigits c (by simpa [Text.decimal] using h))
  | negSucc k =>
    rw [Text.decimal,String.toList_append,String.toList_ofList,mem_append] at h
    obtain h | h := h
    · exact .inr (by simpa using h)
    · exact .inl (isDigit_of_mem_toDigits c (String.toList_ofList ▸ h))

def IsPlain (c : Char) : Prop := c ∉ ['%','$','(',',',' ',':']

theorem isPlain_of_isSymbolPart (h : isSymbolPart c = true) : IsPlain c := by
  rintro hc
  simp only [mem_cons,not_mem_nil,or_false] at hc
  obtain rfl | rfl | rfl | rfl | rfl | rfl := hc <;> exact absurd h (by decide)

theorem isPlain_of_mem_decimal (h : c ∈ (Text.decimal n).toList) : IsPlain c := by
  obtain hdigit | rfl := mem_decimal h
  · refine isPlain_of_isSymbolPart ?_
    simp [isSymbolPart,Bx.isWordPart,Char.isAlphanum,hdigit]
  · simp [IsPlain]

theorem isSymbolPart_of_mem (h : isSymbol cs = true) (hc : c ∈ cs) : isSymbolPart c = true := by
  cases cs with
  | nil => cases hc
  | cons d rest => exact all_eq_true.1 (Bool.and_eq_true_iff.1 h).2 c hc

theorem decimal_ne_nil (n : Int) : (Text.decimal n).toList ≠ [] := by
  cases n with
  | ofNat k => simp [Text.decimal,Nat.toDigits_ne_nil]
  | negSucc k => simp [Text.decimal]

theorem Operand.read?_append (mode : List Char) (hne : base ≠ []) (hbase : ∀ c ∈ base, IsPlain c) :
    Operand.read? (base ++ '(' :: mode) =
      if '(' :: mode = "(%rbp)".toList then (readInt? base).map .slot
      else if '(' :: mode = "(%rip)".toList && isSymbol base then
        some (.symbol (String.ofList base))
      else none := by
  have hcut := takeWhile_append_cons (p := (· ≠ '(')) (c := '(') mode
    (fun c hc => by
      have := hbase c hc
      simp only [ne_eq,decide_not,Bool.not_eq_true',decide_eq_false_iff_not]
      rintro rfl
      exact this (by decide)) (by decide)
  obtain ⟨c,rest,rfl⟩ := exists_cons_of_ne_nil hne
  have hc := hbase c mem_cons_self
  rw [cons_append] at hcut ⊢
  rw [Operand.read?.eq_3,hcut.1,hcut.2]
  · rintro rest' h
    obtain rfl := (List.cons.inj h).1
    exact hc (by decide)
  · rintro rest' h
    obtain rfl := (List.cons.inj h).1
    exact hc (by decide)

theorem Operand.read?_render (h : o.WellFormed) : Operand.read? o.render.toList = some o := by
  cases o with
  | register r => cases r <;> decide
  | immediate n =>
    have htext : (Operand.immediate n).render.toList = '$' :: (Text.decimal n).toList := by
      simp [Operand.render]
    rw [htext,Operand.read?,readInt?_decimal]
    rfl
  | slot offset =>
    rw [Operand.render,String.toList_append]
    have hread := read?_append "%rbp)".toList (decimal_ne_nil offset)
      fun c hc => isPlain_of_mem_decimal hc
    rw [readInt?_decimal] at hread
    exact hread
  | symbol name =>
    have hne : name.toList ≠ [] := by
      rintro hname
      rw [Operand.WellFormed,hname] at h
      cases h
    rw [Operand.render,String.toList_append]
    have hread := read?_append "%rip)".toList hne
      fun c hc => isPlain_of_isSymbolPart (isSymbolPart_of_mem h hc)
    rw [Operand.WellFormed] at h
    rw [h,String.ofList_toList] at hread
    exact hread

theorem Operand.ne_comma_of_mem_render (h : o.WellFormed) (hc : c ∈ o.render.toList) : c ≠ ',' := by
  have hplain : ∀ {c}, IsPlain c → c ≠ ',' := by
    rintro _ hc rfl
    exact hc (by decide)
  rintro rfl
  cases o with
  | register r => cases r <;> exact absurd hc (by decide)
  | immediate n =>
    have htext : (Operand.immediate n).render.toList = '$' :: (Text.decimal n).toList := by
      simp [Operand.render]
    rw [htext,mem_cons] at hc
    obtain hc | hc := hc
    · cases hc
    · exact hplain (isPlain_of_mem_decimal hc) rfl
  | slot offset =>
    rw [Operand.render,String.toList_append,mem_append] at hc
    obtain hc | hc := hc
    · exact hplain (isPlain_of_mem_decimal hc) rfl
    · exact absurd hc (by decide)
  | symbol name =>
    rw [Operand.render,String.toList_append,mem_append] at hc
    obtain hc | hc := hc
    · exact hplain (isPlain_of_isSymbolPart (isSymbolPart_of_mem h hc)) rfl
    · exact absurd hc (by decide)

theorem Operand.readPair?_render (ha : a.WellFormed) (hb : b.WellFormed) :
    Operand.readPair? (a.render.toList ++ ',' :: ' ' :: b.render.toList) = some (a,b) := by
  have hcut := takeWhile_append_cons (p := (· ≠ ',')) (c := ',') (' ' :: b.render.toList)
    (fun c hc => by simpa using ne_comma_of_mem_render ha hc) (by decide)
  rw [Operand.readPair?,hcut.1,hcut.2]
  simp [read?_render ha,read?_render hb]

theorem readSymbol?_toList (h : isSymbol name.toList = true) :
    readSymbol? name.toList = some name := by
  rw [readSymbol?,if_pos h,String.ofList_toList]

def isMnemonic (s : String) : Bool := s.toList.all (· ≠ ' ') && s.toList.getLast? ≠ some ':'

theorem Line.read?_after {text mnemonic rest} {read : List Char → Option α} {f : α → Line} {a : α}
    (htext : text.toList = mnemonic.toList ++ ' ' :: rest) (hmnemonic : isMnemonic mnemonic = true)
    (hafter : ∀ cs, Line.readAfter? mnemonic cs = (read cs).map f) (hread : read rest = some a) :
    Line.read? text = some (f a) := by
  rw [isMnemonic,Bool.and_eq_true,decide_eq_true_eq] at hmnemonic
  have hcut := takeWhile_append_cons (p := (· ≠ ' ')) (c := ' ') rest
    (all_eq_true.1 hmnemonic.1) (by decide)
  rw [Line.read?,htext,hcut.1,hcut.2,if_neg hmnemonic.2,String.ofList_toList,drop_succ_cons,
    drop_zero,hafter,hread]
  rfl

theorem Line.read?_label (h : isSymbol name.toList = true) :
    Line.read? (name ++ ":") = some (.label name) := by
  have hword : ∀ c ∈ (name ++ ":").toList, decide (c ≠ ' ') = true := by
    intro c hc
    rw [String.toList_append,mem_append] at hc
    refine decide_eq_true ?_
    rintro rfl
    obtain hc | hc := hc
    · exact isPlain_of_isSymbolPart (isSymbolPart_of_mem h hc) (by decide)
    · simp at hc
  rw [Line.read?,takeWhile_eq_self_iff.2 hword,dropWhile_eq_nil_iff.2 hword]
  have hdrop : (name ++ ":").toList.dropLast = name.toList := by simp
  rw [hdrop,readSymbol?_toList h]
  simp

theorem Line.read?_one (mnemonic : String) (f : Operand → Line) (ha : a.WellFormed)
    (hmnemonic : isMnemonic mnemonic = true)
    (hafter : ∀ cs, Line.readAfter? mnemonic cs = (Operand.read? cs).map f) :
    Line.read? (mnemonic ++ " " ++ a.render) = some (f a) :=
  read?_after (by simp) hmnemonic hafter (Operand.read?_render ha)

theorem Line.read?_two (mnemonic : String) (f : Operand → Operand → Line)
    (hab : a.WellFormed ∧ b.WellFormed) (hmnemonic : isMnemonic mnemonic = true)
    (hafter : ∀ cs, Line.readAfter? mnemonic cs = (Operand.readPair? cs).map fun p => f p.1 p.2) :
    Line.read? (mnemonic ++ " " ++ a.render ++ ", " ++ b.render) = some (f a b) :=
  read?_after (f := fun p => f p.1 p.2) (by simp) hmnemonic hafter
    (Operand.readPair?_render hab.1 hab.2)

theorem Line.read?_named (mnemonic : String) (f : String → Line) {name}
    (hname : isSymbol name.toList = true) (hmnemonic : isMnemonic mnemonic = true)
    (hafter : ∀ cs, Line.readAfter? mnemonic cs = (readSymbol? cs).map f) :
    Line.read? (mnemonic ++ " " ++ name) = some (f name) :=
  read?_after (by simp) hmnemonic hafter (readSymbol?_toList hname)

theorem Line.read?_render {l} (h : l.WellFormed) : Line.read? l.render = some l := by
  cases l with
  | text => decide
  | global name => exact read?_named ".globl" .global h (by decide) fun _ => rfl
  | label name => exact read?_label h
  | move a b => exact read?_two "movq" .move h (by decide) fun _ => rfl
  | arithmetic op a b =>
    exact read?_two op.mnemonic (.arithmetic op) h (by cases op <;> decide)
      (by cases op <;> exact fun _ => rfl)
  | unary op a =>
    exact read?_one (unaryMnemonic op) (.unary op) h (by cases op <;> decide)
      (by cases op <;> exact fun _ => rfl)
  | shift op a =>
    have hread : readShifted? ("%cl, ".toList ++ a.render.toList) = some a :=
      Operand.read?_render h
    have hafter : ∀ cs, readAfter? op.mnemonic cs = (readShifted? cs).map (.shift op) := by
      cases op <;> exact fun _ => rfl
    exact read?_after (by simp [Line.render]) (by cases op <;> decide) hafter hread
  | multiply a => exact read?_one "imulq" .multiply h (by decide) fun _ => rfl
  | extend => decide
  | divide a => exact read?_one "idivq" .divide h (by decide) fun _ => rfl
  | compare a b => exact read?_two "cmpq" .compare h (by decide) fun _ => rfl
  | jump l => exact read?_named "jmp" .jump h (by decide) fun _ => rfl
  | branch c l =>
    exact read?_named (branchMnemonic c) (.branch c) h (by cases c <;> decide)
      (by cases c <;> exact fun _ => rfl)
  | push a => exact read?_one "pushq" .push h (by decide) fun _ => rfl
  | pop a => exact read?_one "popq" .pop h (by decide) fun _ => rfl
  | ret => decide

def Line.label? : Line → Option String
  | .label l => some l
  | _ => none

def Line.target? : Line → Option String
  | .jump l | .branch _ l => some l
  | _ => none

def load? (texts : List String) : Option (List Line) := do
  let program ← texts.mapM Line.read?
  let labels := program.filterMap Line.label?
  if labels.Nodup ∧ ∀ l ∈ program.filterMap Line.target?, l ∈ labels then some program else none

theorem mapM_read?_render {program : List Line} (h : ∀ l ∈ program, l.WellFormed) :
    (program.map Line.render).mapM Line.read? = some program := by
  induction program with
  | nil => rfl
  | cons l rest ih =>
    obtain ⟨hl,hrest⟩ := forall_mem_cons.1 h
    rw [map_cons,mapM_cons,Line.read?_render hl,ih hrest]
    rfl

theorem load?_map_render {program : List Line} (hwell : ∀ l ∈ program, l.WellFormed)
    (hlabels : (program.filterMap Line.label?).Nodup)
    (htargets : ∀ l ∈ program.filterMap Line.target?, l ∈ program.filterMap Line.label?) :
    load? (program.map Line.render) = some program := by
  rw [load?,mapM_read?_render hwell]
  exact if_pos ⟨hlabels,htargets⟩

theorem labelIndex_of_getElem? (hlabels : (program.filterMap Line.label?).Nodup)
    (h : program[k]? = some (.label l)) : labelIndex program l = some k := by
  unfold labelIndex
  induction program generalizing k with
  | nil => simp at h
  | cons line rest ih =>
    rw [findIdx?_cons]
    cases k with
    | zero =>
      obtain rfl : line = .label l := by simpa using h
      simp
    | succ k =>
      rw [getElem?_cons_succ] at h
      have hmem : l ∈ rest.filterMap Line.label? :=
        mem_filterMap.2 ⟨.label l,mem_of_getElem? h,rfl⟩
      have hne : line ≠ .label l := by
        rintro rfl
        exact (nodup_cons.1 hlabels).1 hmem
      have hrest : (rest.filterMap Line.label?).Nodup :=
        hlabels.sublist ((sublist_cons_self line rest).filterMap Line.label?)
      rw [ih hrest h]
      simp [hne]

end BxToolchain.X64
