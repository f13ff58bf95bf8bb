import BxToolchain.Proofs.Bx.Writing
import BxToolchain.Proofs.Numeral

namespace BxToolchain.Bx

open Parse List

variable {t : Token} {level fuel : Nat} {ws rest ws' xs : List SourceWord} {P : Node → Prop}
  {e yes n body result : Node} {p : Kind → Bool} {line line' : Int} {x : String}
  {clause : List Node}

namespace Node

mutual

def unlined : Node → Node
  | absent => absent
  | ty _ name => ty 0 name
  | param _ names type => param 0 names type.unlined
  | exceptionDecl _ name => exceptionDecl 0 name
  | procDecl _ name body params result clause =>
    procDecl 0 name body.unlined (unlinedAll params) result.unlined (unlinedAll clause)
  | raises _ name => raises 0 name
  | block _ statements => block 0 (unlinedAll statements)
  | raise _ name => raise 0 name
  | catch' _ name body => catch' 0 name body.unlined
  | tryExcept _ body catches => tryExcept 0 body.unlined (unlinedAll catches)
  | var _ type name => var 0 type name
  | number _ type value => number 0 type value
  | binary _ type a b op => binary 0 type a.unlined b.unlined op
  | unary _ type a op => unary 0 type a.unlined op
  | boolean _ type value => boolean 0 type value
  | call _ type name args => call 0 type name (unlinedAll args)
  | bareCall _ type name => bareCall 0 type name
  | varInit name value _ => varInit name value.unlined 0
  | varDecl _ inits type => varDecl 0 (unlinedAll inits) type.unlined
  | assign _ name value => assign 0 name value.unlined
  | eval _ value => eval 0 value.unlined
  | ifElse _ condition a b => ifElse 0 condition.unlined a.unlined b.unlined
  | while' _ condition body => while' 0 condition.unlined body.unlined
  | jump _ target => jump 0 target
  | return' _ value => return' 0 value.unlined
  | program _ declarations => program 0 (unlinedAll declarations)
  | decl _ => decl 0
  | statement _ => statement 0
  | expr _ type => expr 0 type

def unlinedAll : List Node → List Node
  | [] => []
  | n :: rest => n.unlined :: unlinedAll rest

end

end Node

def Alike (n n' : Node) : Prop := n'.unlined = n.unlined

def AlikeAll (ns ns' : List Node) : Prop := Node.unlinedAll ns' = Node.unlinedAll ns

def Parses {α : Type} (x : Parse α) (ws ws' : List SourceWord) (P : α → Prop) : Prop :=
  ∀ ts, ts.map Token.word = ws → ∃ a ts', x ts = .ok (a,ts') ∧ ts'.map Token.word = ws' ∧ P a

variable {kind : Kind}

section

variable {x : Parse α} {w : SourceWord} {ws ws' ws'' : List SourceWord} {P : α → Prop}
  {Q : β → Prop}

theorem parses_pure {a} (h : P a) : Parses (pure a) ws ws P :=
  fun ts hts => ⟨a,ts,rfl,hts,h⟩

theorem Parses.bind (h : Parses x ws ws' P) (h' : ∀ a, P a → Parses (f a) ws' ws'' Q) :
    Parses (x >>= f) ws ws'' Q := by
  intro ts hts
  obtain ⟨a,ts',hx,hts',ha⟩ := h ts hts
  obtain ⟨b,ts'',hf,hts'',hb⟩ := h' a ha ts' hts'
  refine ⟨b,ts'',?_,hts'',hb⟩
  change (x ts >>= fun p => f p.1 p.2) = _
  rw [hx]
  exact hf

theorem parses_peek_head (h : Parses (g (ws.head?.map Prod.fst)) ws ws' Q) :
    Parses (peek? >>= g) ws ws' Q := by
  rintro ts rfl
  have hg := h ts rfl
  rw [head?_map,Option.map_map] at hg
  exact hg

theorem parses_peek (h : Parses (g (some w.1)) (w :: ws) ws' Q) :
    Parses (peek? >>= g) (w :: ws) ws' Q := parses_peek_head h

theorem parses_taken (hx : ∀ t ts, t.word = w → ∃ a, x (t :: ts) = .ok (a,ts) ∧ P a)
    (h : ∀ a, P a → Parses (f a) ws ws' Q) : Parses (x >>= f) (w :: ws) ws' Q := by
  refine Parses.bind (fun ts hts => ?_) h
  cases ts with
  | nil => cases hts
  | cons t rest =>
    obtain ⟨hw,hrest⟩ := List.cons.inj hts
    obtain ⟨a,hx,ha⟩ := hx t rest hw
    exact ⟨a,rest,hx,hrest,ha⟩

theorem parses_next (h : ∀ t, t.word = w → Parses (f t) ws ws' Q) :
    Parses (next >>= f) (w :: ws) ws' Q :=
  parses_taken (fun t _ ht => ⟨t,rfl,ht⟩) h

theorem parses_expect (h : ∀ t, t.word = w → Parses (f t) ws ws' Q) :
    Parses (expect w.1 >>= f) (w :: ws) ws' Q :=
  parses_taken (fun t _ ht => ⟨t,if_pos (congrArg Prod.fst ht),ht⟩) h

theorem parses_accept (h : Parses (f true) ws ws' Q) : Parses (accept w.1 >>= f) (w :: ws) ws' Q :=
  parses_taken (P := (· = true)) (fun _ _ ht => ⟨true,if_pos (congrArg Prod.fst ht),rfl⟩)
    fun _ hb => hb ▸ h

def StartsNot (kind : Kind) (ws : List SourceWord) : Prop := ∀ w ∈ ws.head?, w.1 ≠ kind

theorem StartsNot.head_ne (h : StartsNot kind ws) : ws.head?.map Prod.fst ≠ some kind := by
  intro heq
  obtain ⟨w,hw,hkind⟩ := Option.map_eq_some_iff.1 heq
  exact h w hw hkind

theorem parses_accept_not (hkind : StartsNot kind ws) (h : Parses (f false) ws ws' Q) :
    Parses (accept kind >>= f) ws ws' Q := by
  have haccept : Parses (accept kind) ws ws fun b => b = false := by
    intro ts hts
    cases ts with
    | nil => exact ⟨false,[],rfl,hts,rfl⟩
    | cons t rest =>
      have hne : t.kind ≠ kind := hkind t.word (by rw [← hts]; rfl)
      exact ⟨false,t :: rest,if_neg hne,hts,rfl⟩
  exact haccept.bind fun _ hb => hb ▸ h

end

theorem text_of_word (h : t.word = (kind,text)) : t.text = text := congrArg Prod.snd h

theorem value_of_word {n} (h : t.word = numeral n) : t.value = n := by
  have htext : t.text.toList = Nat.toDigits 10 n := by
    rw [text_of_word h]
    simp [Text.decimal]
  rw [Token.value,htext,natOfDigits_toDigits]

def EndsAt (level : Nat) (ws : List SourceWord) : Prop :=
  ∀ w ∈ ws.head?, w.1 ≠ .lparen ∧ ∀ l, w.1.level? = some l → l < level ∨ l = level ∧ chains l = true

theorem EndsAt.startsNot (h : EndsAt level ws) : StartsNot .lparen ws := fun w hw => (h w hw).1

theorem parses_operators (h : ∀ w ∈ ws.head?, ∀ l, w.1.level? = some l → l < level)
    (hfuel : 0 < fuel) (hleft : P left) : Parses (operators fuel level left) ws ws P := by
  obtain ⟨fuel,rfl⟩ : ∃ f, fuel = f + 1 := Nat.exists_eq_add_one.2 hfuel
  cases ws with
  | nil =>
    intro ts hts
    cases ts with
    | nil => exact ⟨left,[],rfl,rfl,hleft⟩
    | cons t rest => cases hts
  | cons w rest =>
    rw [operators]
    refine parses_peek ?_
    rw [Option.bind_some]
    split
    · exact parses_pure hleft
    · rename_i l hl
      rw [if_pos (h w rfl l hl)]
      exact parses_pure hleft

theorem endsAt_sign (hlevel : kind.level? = none) (hkind : kind ≠ .lparen) (ws : List SourceWord) :
    EndsAt level (sign kind :: ws) := by
  rintro w ⟨⟩
  refine ⟨hkind,fun l hl => ?_⟩
  rw [show (sign kind).1 = kind from rfl,hlevel] at hl
  cases hl

theorem endsAt_operator (hl : kind.level? = some l) (ws : List SourceWord) :
    EndsAt (leftLevel l) (sign kind :: ws) := by
  rintro w ⟨⟩
  refine ⟨?_,fun l' hl' => ?_⟩
  · rintro hkind
    rw [show kind = .lparen from hkind] at hl
    cases hl
  · obtain rfl : l' = l := Option.some.inj (hl'.symm.trans hl)
    unfold leftLevel
    split
    · exact .inr ⟨rfl,by assumption⟩
    · exact .inl (Nat.lt_succ_self l')

theorem OperandWrites.length_pos (h : OperandWrites e ws) : 0 < ws.length := by
  cases h <;> simp

def Kind.startsExpr : Kind → Bool
  | .minus | .complement | .not | .ident | .number | .true' | .false' | .lparen => true
  | _ => false

def StartsWith (p : Kind → Bool) (ws : List SourceWord) : Prop := ∃ w rest, ws = w :: rest ∧ p w.1 = true

theorem StartsWith.append (h : StartsWith p ws) (ws' : List SourceWord) : StartsWith p (ws ++ ws') := by
  obtain ⟨w,rest,rfl,hw⟩ := h
  exact ⟨w,rest ++ ws',rfl,hw⟩

theorem StartsWith.head_ne (h : StartsWith p ws) (hkind : p kind = false) :
    ws.head?.map Prod.fst ≠ some kind := by
  obtain ⟨w,rest,rfl,hw⟩ := h
  intro heq
  rw [Option.some.inj heq,hkind] at hw
  cases hw

theorem OperandWrites.starts (h : OperandWrites e ws) : StartsWith Kind.startsExpr ws := by
  cases h with
  | boolean line hkind => obtain rfl | rfl := hkind <;> exact ⟨_,_,rfl,rfl⟩
  | unary line hkind _ => obtain rfl | rfl | rfl := hkind <;> exact ⟨_,_,rfl,rfl⟩
  | _ => exact ⟨_,_,rfl,rfl⟩

theorem ExprWrites.starts {level e ws} : ExprWrites level e ws → StartsWith Kind.startsExpr ws
  | .operand _ h => h.starts
  | .binary _ _ _ ha _ => ha.starts.append _

theorem stops_sign (hlevel : kind.level? = none) (ws : List SourceWord) :
    ∀ w ∈ (sign kind :: ws).head?, ∀ l, w.1.level? = some l → l < 0 := by
  rintro w ⟨⟩ l hl
  rw [show (sign kind).1 = kind from rfl,hlevel] at hl
  cases hl

mutual

theorem OperandWrites.parses {e ws rest fuel} :
    OperandWrites e ws → StartsNot .lparen rest → 4 * ws.length ≤ fuel →
      Parses (operand fuel) (ws ++ rest) rest (Alike e)
  | .var line hx, hrest, hfuel => by
    obtain _ | fuel := fuel
    · simp at hfuel
    rw [operand]
    refine parses_peek (parses_next fun t ht => ?_)
    refine parses_accept_not hrest ?_
    refine parses_pure ?_
    rw [text_of_word ht]
    rfl
  | .number line hn, hrest, hfuel => by
    obtain _ | fuel := fuel
    · simp at hfuel
    rw [operand]
    refine parses_peek (parses_next fun t ht => parses_pure ?_)
    rw [value_of_word ht]
    rfl
  | .boolean line hkind, hrest, hfuel => by
    obtain _ | fuel := fuel
    · simp at hfuel
    rw [operand]
    obtain rfl | rfl := hkind <;> refine parses_peek (parses_next fun t ht => parses_pure ?_) <;>
      rw [text_of_word ht] <;> rfl
  | .call line hx hargs, hrest, hfuel => by
    obtain _ | fuel := fuel
    · grind
    rw [operand,cons_append,cons_append,append_assoc,singleton_append]
    refine parses_peek (parses_next fun t ht => ?_)
    refine parses_accept ?_
    refine (hargs.parses (by grind)).bind fun args hargs => ?_
    refine parses_expect fun _ _ => parses_pure ?_
    rw [text_of_word ht]
    exact congrArg (Node.call 0 Node.undefined _) hargs
  | .unary line hkind he, hrest, hfuel => by
    obtain _ | fuel := fuel
    · grind
    have hoperand := he.parses hrest (show _ ≤ fuel by grind)
    rw [operand]
    obtain rfl | rfl | rfl := hkind <;>
      refine parses_peek (parses_next fun t ht => hoperand.bind fun e' he' => parses_pure ?_) <;>
      rw [text_of_word ht] <;> exact congrArg (Node.unary 0 Node.undefined · _) he'
  | .parens he, hrest, hfuel => by
    obtain _ | fuel := fuel
    · grind
    rw [operand,cons_append,append_assoc,singleton_append]
    refine parses_peek (parses_next fun _ _ => ?_)
    refine (he.parses (Nat.le_refl 0) (endsAt_sign rfl (by decide) rest) Nat.one_pos
      (fun e' fuel he' hfuel => parses_operators (stops_sign rfl rest) hfuel he')
      (by grind)).bind fun e' he' => ?_
    exact parses_expect fun _ _ => parses_pure he'

theorem ExprWrites.parses {level least n fuel e ws rest ws' P} : ExprWrites level e ws → least ≤ level → EndsAt level rest → 0 < n →
      (∀ e' fuel, Alike e e' → n ≤ fuel → Parses (operators fuel least e') rest ws' P) →
      n + 4 * ws.length ≤ fuel → Parses (expression fuel least) (ws ++ rest) ws' P
  | .operand _ h, hleast, hrest, hn, hnext, hfuel => by
    obtain _ | fuel := fuel
    · grind
    have hlength := h.length_pos
    rw [expression]
    exact (h.parses hrest.startsNot (by grind)).bind fun e' he' => hnext e' fuel he' (by grind)
  | @ExprWrites.binary line _ l kind a b wl wr hl hle ha hb, hleast, hrest, hn, hnext, hfuel => by
    rw [append_assoc,cons_append]
    have hleft : least ≤ leftLevel l := by
      unfold leftLevel
      split <;> omega
    refine ha.parses hleft (endsAt_operator hl _) (n := n + 4 * wr.length + 2) (by grind)
      (fun a' fuel ha' hfuel => ?_) (by grind)
    obtain _ | fuel := fuel
    · grind
    have hbelow : ∀ w ∈ rest.head?, ∀ l', w.1.level? = some l' → l' < l + 1 := by
      intro w hw l' hl'
      obtain hlt | ⟨rfl,-⟩ := (hrest w hw).2 l' hl' <;> omega
    have hright : EndsAt (l + 1) rest := fun w hw => ⟨(hrest w hw).1,fun l' hl' =>
      .inl (hbelow w hw l' hl')⟩
    rw [operators]
    refine parses_peek ?_
    rw [show (some (sign kind).1).bind Kind.level? = some l from hl]
    dsimp only
    rw [if_neg (by grind)]
    refine parses_next fun t ht => ?_
    refine (hb.parses (Nat.le_refl _) hright Nat.one_pos
      (fun b' fuel hb' hfuel => parses_operators hbelow hfuel hb') (by grind)).bind fun b' hb' => ?_
    refine parses_peek_head ?_
    rw [if_neg]
    · rw [text_of_word ht]
      refine hnext _ fuel ?_ (by grind)
      exact congrArg₂ (Node.binary 0 Node.undefined · · _) ha' hb'
    · intro hsame
      simp only [Bool.and_eq_true,Bool.not_eq_true',beq_iff_eq,Option.bind_eq_some_iff,
        Option.map_eq_some_iff] at hsame
      obtain ⟨hchains,_,⟨w,hw,rfl⟩,hw'⟩ := hsame
      obtain hlt | ⟨rfl,hchains'⟩ := (hrest w hw).2 l hw'
      · grind
      · rw [hchains] at hchains'
        cases hchains'

theorem ArgumentsWrite.parses {args ws rest fuel} :
    ArgumentsWrite args ws → 4 * ws.length + 2 ≤ fuel →
      Parses (arguments fuel) (ws ++ sign .rparen :: rest) (sign .rparen :: rest) (AlikeAll args)
  | .nil, hfuel => by
    obtain _ | fuel := fuel
    · grind
    rw [arguments]
    refine parses_peek ?_
    exact parses_pure rfl
  | .last he, hfuel => by
    obtain _ | fuel := fuel
    · grind
    rw [arguments]
    refine parses_peek_head ?_
    rw [if_neg ((he.starts.append _).head_ne rfl)]
    refine (he.parses (Nat.le_refl 0) (endsAt_sign rfl (by decide) rest) Nat.one_pos
      (fun e' fuel he' hfuel => parses_operators (stops_sign rfl rest) hfuel he')
      (by grind)).bind fun e' he' => ?_
    refine parses_accept_not ?_ (parses_pure (congrArg (· :: []) he'))
    rintro w ⟨⟩
    decide
  | .cons he hargs, hfuel => by
    obtain _ | fuel := fuel
    · grind
    rw [arguments,append_assoc,cons_append]
    refine parses_peek_head ?_
    rw [if_neg ((he.starts.append _).head_ne rfl)]
    refine (he.parses (Nat.le_refl 0) (endsAt_sign rfl (by decide) _) Nat.one_pos
      (fun e' fuel he' hfuel => parses_operators (stops_sign rfl _) hfuel he')
      (by grind)).bind fun e' he' => ?_
    refine parses_accept ?_
    refine (hargs.parses (by grind)).bind fun args hargs => parses_pure ?_
    exact congrArg₂ List.cons he' hargs

end

theorem ExprWrites.parses_before (h : ExprWrites 0 e ws) (hlevel : kind.level? = none)
    (hkind : kind ≠ .lparen) (hfuel : 4 * ws.length + 1 ≤ fuel) :
    Parses (expression fuel 0) (ws ++ sign kind :: rest) (sign kind :: rest) (Alike e) :=
  h.parses (Nat.le_refl 0) (endsAt_sign hlevel hkind rest) Nat.one_pos
    (fun _ _ he' hfuel => parses_operators (stops_sign hlevel rest) hfuel he') (by grind)

theorem TypeWrites.parses {type} (h : TypeWrites type w) (rest : List SourceWord) :
    Parses typeName (w :: rest) rest (Alike type) := by
  obtain ⟨line,hkind⟩ := h
  obtain rfl | rfl := hkind <;> refine parses_peek (parses_next fun t ht => parses_pure ?_) <;>
    rw [text_of_word ht] <;> rfl

theorem startsNot_sign (h : kind' ≠ kind) (ws : List SourceWord) :
    StartsNot kind (sign kind' :: ws) := by
  rintro w ⟨⟩
  exact h

theorem InitializersWrite.parses {inits} (h : InitializersWrite inits ws)
    (hfuel : 4 * ws.length ≤ fuel) :
    Parses (initializers fuel) (ws ++ sign .colon :: rest) (sign .colon :: rest)
      (AlikeAll inits) := by
  induction h generalizing fuel with
  | last line hx he =>
    obtain _ | fuel := fuel
    · grind
    rw [initializers]
    refine parses_expect fun t ht => ?_
    refine parses_expect fun _ _ => ?_
    refine (he.parses_before rfl (by decide) (by grind)).bind fun e' he' => ?_
    refine parses_accept_not (startsNot_sign (by decide) rest) ?_
    refine parses_pure ?_
    rw [text_of_word ht]
    exact congrArg (fun e => [Node.varInit _ e 0]) he'
  | cons line hx he _ ih =>
    obtain _ | fuel := fuel
    · grind
    rw [initializers,cons_append,cons_append,append_assoc,cons_append]
    refine parses_expect fun t ht => ?_
    refine parses_expect fun _ _ => ?_
    refine (he.parses_before rfl (by decide) (by grind)).bind fun e' he' => ?_
    refine parses_accept ?_
    refine (ih (by grind)).bind fun rest hrest => parses_pure ?_
    rw [text_of_word ht]
    exact congrArg₂ (fun e es => Node.varInit _ e 0 :: es) he' hrest

theorem VariablesWrite.parses (h : VariablesWrite n ws) (hfuel : 4 * ws.length ≤ fuel + 1) :
    Parses (variableDeclaration fuel) (ws ++ rest) rest (Alike n) := by
  obtain ⟨line,hinits,htype⟩ := h
  simp only [length_cons,length_append] at hfuel
  rw [cons_append,append_assoc]
  refine parses_expect fun t _ => ?_
  refine (hinits.parses (by grind)).bind fun inits hinits => ?_
  refine parses_expect fun _ _ => ?_
  refine (htype.parses _).bind fun type htype => ?_
  refine parses_expect fun _ _ => parses_pure ?_
  exact congrArg₂ (Node.varDecl 0) hinits htype

def Kind.startsStatement (kind : Kind) : Bool :=
  kind.startsExpr || [Kind.var,.lbrace,.if',.while',.break',.continue',.return',.raise,
    .try'].contains kind

def Closed (ws : List SourceWord) : Prop := StartsNot .else' ws ∧ StartsNot .except ws

theorem StartsWith.startsNot (h : StartsWith p ws) (hkind : p kind = false) :
    StartsNot kind ws := by
  obtain ⟨w,rest,rfl,hw⟩ := h
  rintro w ⟨⟩ rfl
  rw [hkind] at hw
  cases hw

theorem closed_sign (h : kind ≠ .else') (h' : kind ≠ .except) (ws : List SourceWord) :
    Closed (sign kind :: ws) := ⟨startsNot_sign h ws,startsNot_sign h' ws⟩

theorem StatementWrites.starts (h : StatementWrites n ws) : StartsWith Kind.startsStatement ws := by
  cases h with
  | declared h =>
    obtain ⟨line,-,-⟩ := h
    exact ⟨_,_,rfl,rfl⟩
  | block h =>
    obtain ⟨line,-⟩ := h
    exact ⟨_,_,rfl,rfl⟩
  | conditional h => cases h <;> exact ⟨_,_,rfl,rfl⟩
  | jump line hkind => obtain rfl | rfl := hkind <;> exact ⟨_,_,rfl,rfl⟩
  | eval line h =>
    obtain ⟨w,rest,rfl,hw⟩ := h.starts
    refine ⟨w,_,rfl,?_⟩
    rw [Kind.startsStatement,hw]
    rfl
  | _ => exact ⟨_,_,rfl,rfl⟩

theorem StatementsWrite.closed (h : StatementsWrite ns ws) (rest : List SourceWord) :
    Closed (ws ++ sign .rbrace :: rest) := by
  cases h with
  | nil => exact closed_sign (by decide) (by decide) rest
  | cons h _ =>
    rw [append_assoc]
    exact ⟨(h.starts.append _).startsNot rfl,(h.starts.append _).startsNot rfl⟩

theorem ExprWrites.second_ne {level e ws} :
    ExprWrites level e ws → ∀ w ∈ ws.tail.head?, w.1 ≠ .equal
  | .operand _ h => by
    cases h with
    | call line hx _ =>
      rintro w ⟨⟩
      decide
    | unary line _ h => exact (h.starts.startsNot rfl)
    | parens h => exact ((h.starts.append _).startsNot rfl)
    | _ => rintro w ⟨⟩
  | @ExprWrites.binary _ _ l kind _ _ wl wr hl _ ha _ => by
    have hsecond := ha.second_ne
    obtain ⟨w,rest,rfl,-⟩ := ha.starts
    cases rest with
    | nil =>
      rintro w ⟨⟩ hkind
      rw [show kind = .equal from hkind] at hl
      cases hl
    | cons w' rest => exact hsecond

theorem ExprWrites.parses_evaluation (h : ExprWrites 0 e ws) (hfuel : 4 * ws.length + 2 ≤ fuel) :
    Parses (evaluation fuel) (ws ++ sign .semicolon :: rest) rest (Alike (.eval line e)) := by
  obtain _ | fuel := fuel
  · omega
  rw [evaluation]
  refine (h.parses_before rfl (by decide) (by grind)).bind fun e' he' => ?_
  refine parses_expect fun _ _ => parses_pure ?_
  exact congrArg (Node.eval 0) he'

theorem ExprWrites.parses_statement (h : ExprWrites 0 e ws) (hfuel : 4 * ws.length + 3 ≤ fuel) :
    Parses (statement fuel) (ws ++ sign .semicolon :: rest) rest (Alike (.eval line e)) := by
  obtain _ | fuel := fuel
  · omega
  have hevaluation : Parses (evaluation fuel) (ws ++ sign .semicolon :: rest) rest
      (Alike (.eval line e)) := h.parses_evaluation (by grind)
  have hsecond := h.second_ne
  obtain ⟨⟨kind,text⟩,others,rfl,hkind⟩ := h.starts
  rw [statement]
  refine parses_peek ?_
  cases kind <;> first | exact hevaluation | cases hkind
  -- A word and a sign of assignment would start another statement.
  intro ts hts
  cases ts with
  | nil => cases hts
  | cons t ts =>
    cases ts with
    | nil => exact hevaluation [t] hts
    | cons t' ts =>
      have hne : t'.kind ≠ .equal := by
        obtain ⟨-,hts⟩ := List.cons.inj hts
        cases others with
        | nil =>
          obtain ⟨ht',-⟩ := List.cons.inj hts
          rw [show t'.kind = .semicolon from congrArg Prod.fst ht']
          decide
        | cons w others =>
          obtain ⟨ht',-⟩ := List.cons.inj hts
          rw [show t'.kind = w.1 from congrArg Prod.fst ht']
          exact hsecond w rfl
      obtain ⟨kind',text',line',pos'⟩ := t'
      cases kind' <;> first | exact absurd rfl hne | exact hevaluation _ hts

theorem parses_assignment (h : ExprWrites 0 value ws) (hfuel : 4 * ws.length + 2 ≤ fuel) :
    Parses (statement fuel) ((.ident,x) :: sign .equal :: (ws ++ sign .semicolon :: rest)) rest
      (Alike (.assign line x value)) := by
  obtain _ | fuel := fuel
  · omega
  rw [statement]
  refine parses_peek ?_
  intro ts hts
  obtain ⟨t,ts',rfl,ht,hts'⟩ := map_eq_cons_iff.1 hts
  obtain ⟨⟨kind,text,line',pos⟩,ts,rfl,hsign,hvalues⟩ := map_eq_cons_iff.1 hts'
  obtain rfl : kind = .equal := congrArg Prod.fst hsign
  have hvalue : Parses (do
      let value ← expression fuel 0
      let _ ← expect .semicolon
      return Node.assign t.line t.text value) (ws ++ sign .semicolon :: rest) rest
      (Alike (.assign line x value)) := by
    refine (h.parses_before rfl (by decide) (by grind)).bind fun value' hvalue' => ?_
    refine parses_expect fun _ _ => parses_pure ?_
    rw [text_of_word ht]
    exact congrArg (Node.assign 0 x) hvalue'
  exact hvalue ts hvalues

variable {condition : Node}

theorem alike_ifElse (hcondition : Alike condition condition') (hyes : Alike yes yes')
    (hno : Alike no no') :
    Alike (.ifElse line condition yes no) (.ifElse line' condition' yes' no') := by
  rw [Alike,Node.unlined,hcondition,hyes,hno,Node.unlined]

theorem parses_conditional {after} (he : ExprWrites 0 condition ws)
    (hyes : Parses (block fuel) (ws' ++ after) after (Alike yes))
    (hafter : ∀ (line : Int) (condition' yes' : Node), Alike condition condition' → Alike yes yes' →
      Parses (do
        if ← accept .else' then
          if (← peek?) = some .if' then
            return .ifElse line condition' yes' (← conditional fuel)
          return .ifElse line condition' yes' (← block fuel)
        return .ifElse line condition' yes' (.block line [])) after rest P)
    (hfuel : 4 * ws.length + 1 ≤ fuel) :
    Parses (conditional (fuel + 1))
      (sign .if' :: sign .lparen :: (ws ++ sign .rparen :: (ws' ++ after))) rest P := by
  rw [conditional]
  refine parses_expect fun t _ => ?_
  refine parses_expect fun _ _ => ?_
  refine (he.parses_before rfl (by decide) hfuel).bind fun condition' hcondition => ?_
  refine parses_expect fun _ _ => ?_
  exact hyes.bind fun yes' hyes' => hafter t.line condition' yes' hcondition hyes'

mutual

theorem BlockWrites.parses {n ws rest fuel} :
    BlockWrites n ws → 4 * ws.length ≤ fuel + 1 → Parses (block fuel) (ws ++ rest) rest (Alike n)
  | .block line h, hfuel => by
    obtain _ | fuel := fuel
    · grind
    rw [block,cons_append,append_assoc,singleton_append]
    refine parses_expect fun t _ => ?_
    refine (h.parses (by grind)).bind fun ns hns => parses_pure ?_
    exact congrArg (Node.block 0) hns

theorem StatementsWrite.parses {ns ws rest fuel} :
    StatementsWrite ns ws → 4 * ws.length + 1 ≤ fuel →
      Parses (statements fuel) (ws ++ sign .rbrace :: rest) rest (AlikeAll ns)
  | .nil, hfuel => by
    obtain _ | fuel := fuel
    · grind
    rw [statements]
    refine parses_accept ?_
    exact parses_pure rfl
  | .cons h hs, hfuel => by
    obtain ⟨w,others,hws,-⟩ := h.starts
    have hlength := congrArg List.length hws
    simp only [length_append,length_cons] at hfuel hlength
    obtain _ | fuel := fuel
    · grind
    rw [statements,append_assoc]
    refine parses_accept_not ((h.starts.append _).startsNot rfl) ?_
    refine (h.parses (hs.closed rest) (by grind)).bind fun n hn => ?_
    refine (hs.parses (by grind)).bind fun ns hns => parses_pure ?_
    exact congrArg₂ List.cons hn hns

theorem StatementWrites.parses {n ws rest fuel} :
    StatementWrites n ws → Closed rest → 4 * ws.length ≤ fuel →
      Parses (statement fuel) (ws ++ rest) rest (Alike n)
  | .declared h, _, hfuel => by
    obtain _ | fuel := fuel
    · cases h
      grind
    have hparses : Parses (variableDeclaration fuel) (_ ++ rest) rest _ := h.parses (by grind)
    rw [statement]
    cases h
    exact parses_peek hparses
  | .block h, _, hfuel => by
    obtain _ | fuel := fuel
    · cases h
      grind
    have hparses : Parses (block fuel) (_ ++ rest) rest _ := h.parses (by grind)
    rw [statement]
    cases h
    exact parses_peek hparses
  | .conditional h, hrest, hfuel => by
    obtain _ | fuel := fuel
    · cases h <;> grind
    have hparses : Parses (conditional fuel) (_ ++ rest) rest _ := h.parses hrest.1 (by grind)
    rw [statement]
    cases h <;> exact parses_peek hparses
  | .loop line he h, _, hfuel => by
    obtain _ | fuel := fuel
    · grind
    rw [statement,cons_append,cons_append,append_assoc,cons_append]
    refine parses_peek (parses_next fun t _ => ?_)
    refine parses_expect fun _ _ => ?_
    refine (he.parses_before rfl (by decide) (by grind)).bind fun e' he' => ?_
    refine parses_expect fun _ _ => ?_
    refine (h.parses (by grind)).bind fun body hbody => parses_pure ?_
    exact congrArg₂ (Node.while' 0) he' hbody
  | .jump line hkind, _, hfuel => by
    obtain _ | fuel := fuel
    · simp at hfuel
    rw [statement]
    obtain rfl | rfl := hkind <;>
      refine parses_peek (parses_next fun t ht => parses_expect fun _ _ => parses_pure ?_) <;>
      rw [text_of_word ht] <;> rfl
  | .returnNothing line, _, hfuel => by
    obtain _ | fuel := fuel
    · simp at hfuel
    rw [statement]
    refine parses_peek (parses_next fun t _ => ?_)
    refine parses_accept ?_
    exact parses_pure rfl
  | .returnValue line he, _, hfuel => by
    obtain _ | fuel := fuel
    · grind
    rw [statement,cons_append,append_assoc,singleton_append]
    refine parses_peek (parses_next fun t _ => ?_)
    refine parses_accept_not ((he.starts.append _).startsNot rfl) ?_
    refine (he.parses_before rfl (by decide) (by grind)).bind fun e' he' => ?_
    refine parses_expect fun _ _ => parses_pure ?_
    exact congrArg (Node.return' 0) he'
  | .raise line hx, _, hfuel => by
    obtain _ | fuel := fuel
    · simp at hfuel
    rw [statement]
    refine parses_peek (parses_next fun t _ => ?_)
    refine parses_expect fun t' ht' => ?_
    refine parses_expect fun _ _ => parses_pure ?_
    rw [text_of_word ht']
    rfl
  | .tryExcept line h hs, hrest, hfuel => by
    obtain _ | fuel := fuel
    · grind
    rw [statement,cons_append,append_assoc]
    refine parses_peek (parses_next fun t _ => ?_)
    refine (h.parses (by grind)).bind fun body hbody => ?_
    refine (hs.parses hrest.2 (by grind)).bind fun ns hns => parses_pure ?_
    exact congrArg₂ (Node.tryExcept 0) hbody hns
  | .assign line hx he, _, hfuel => by
    rw [cons_append,cons_append,append_assoc,singleton_append]
    exact parses_assignment he (by grind)
  | .eval line he, _, hfuel => by
    rw [append_assoc,singleton_append]
    exact he.parses_statement (by grind)

theorem ConditionalWrites.parses {n ws rest fuel} :
    ConditionalWrites n ws → StartsNot .else' rest → 4 * ws.length ≤ fuel + 1 →
      Parses (conditional fuel) (ws ++ rest) rest (Alike n)
  | .noElse line line' he h, hrest, hfuel => by
    obtain _ | fuel := fuel
    · grind
    rw [cons_append,cons_append,append_assoc,cons_append]
    refine parses_conditional he (h.parses (by grind)) (fun _ _ _ hcondition hyes => ?_) (by grind)
    refine parses_accept_not hrest ?_
    exact parses_pure (alike_ifElse hcondition hyes rfl)
  | .elseBlock line he h h', _, hfuel => by
    obtain _ | fuel := fuel
    · grind
    have hblock : Parses (block fuel) (_ ++ rest) rest _ := h'.parses (by grind)
    simp only [cons_append,append_assoc]
    refine parses_conditional he (h.parses (by grind)) (fun _ _ _ hcondition hyes => ?_) (by grind)
    refine parses_accept ?_
    cases h'
    exact parses_peek (hblock.bind fun no hno => parses_pure (alike_ifElse hcondition hyes hno))
  | .elseIf line he h h', hrest, hfuel => by
    obtain _ | fuel := fuel
    · grind
    have hbranch : Parses (conditional fuel) (_ ++ rest) rest _ := h'.parses hrest (by grind)
    simp only [cons_append,append_assoc]
    refine parses_conditional he (h.parses (by grind)) (fun _ _ _ hcondition hyes => ?_) (by grind)
    refine parses_accept ?_
    cases h' <;>
      exact parses_peek (hbranch.bind fun no hno => parses_pure (alike_ifElse hcondition hyes hno))

theorem CatchesWrite.parses {ns ws rest fuel} :
    CatchesWrite ns ws → StartsNot .except rest → 4 * ws.length + 1 ≤ fuel →
      Parses (catches fuel) (ws ++ rest) rest (AlikeAll ns)
  | .nil, hrest, hfuel => by
    obtain _ | fuel := fuel
    · grind
    rw [catches,nil_append]
    refine parses_peek_head ?_
    rw [if_neg hrest.head_ne]
    exact parses_pure rfl
  | .cons line hx h hs, hrest, hfuel => by
    obtain _ | fuel := fuel
    · grind
    rw [catches,cons_append,cons_append,append_assoc]
    refine parses_peek ?_
    refine parses_next fun t _ => ?_
    refine parses_expect fun t' ht' => ?_
    refine (h.parses (by grind)).bind fun body hbody => ?_
    refine (hs.parses hrest (by grind)).bind fun ns hns => parses_pure ?_
    rw [text_of_word ht']
    exact congrArg₂ (fun b bs => Node.catch' 0 _ b :: bs) hbody hns

end

variable {names : List String}

theorem NamesWrite.parses (h : NamesWrite names ws) (hfuel : 4 * ws.length ≤ fuel) :
    Parses (identifiers fuel) (ws ++ sign .colon :: rest) (sign .colon :: rest)
      fun names' => names' = names := by
  induction h generalizing fuel with
  | last hx =>
    obtain _ | fuel := fuel
    · simp at hfuel
    rw [identifiers]
    refine parses_expect fun t ht => ?_
    refine parses_accept_not (startsNot_sign (by decide) rest) ?_
    refine parses_pure ?_
    rw [text_of_word ht]
  | cons hx _ ih =>
    obtain _ | fuel := fuel
    · grind
    rw [identifiers]
    refine parses_expect fun t ht => ?_
    refine parses_accept ?_
    refine (ih (by grind)).bind ?_
    rintro _ rfl
    refine parses_pure ?_
    rw [text_of_word ht]

theorem NamesWrite.starts (h : NamesWrite names ws) : StartsWith (· == .ident) ws := by
  cases h <;> exact ⟨_,_,rfl,rfl⟩

variable {params : List Node}

theorem ParamsWrite.parses (h : ParamsWrite params ws) (hfuel : 4 * ws.length + 1 ≤ fuel) :
    Parses (parameters fuel) (ws ++ sign .rparen :: rest) (sign .rparen :: rest)
      (AlikeAll params) := by
  induction h generalizing fuel with
  | nil =>
    obtain _ | fuel := fuel
    · grind
    rw [parameters]
    refine parses_peek ?_
    exact parses_pure rfl
  | last line hnames htype =>
    obtain _ | fuel := fuel
    · grind
    rw [parameters,append_assoc]
    refine parses_peek_head ?_
    rw [if_neg ((hnames.starts.append _).head_ne rfl)]
    refine (hnames.parses (by grind)).bind ?_
    rintro _ rfl
    refine parses_expect fun _ _ => ?_
    refine (htype.parses _).bind fun type htype => ?_
    refine parses_accept_not (startsNot_sign (by decide) rest) ?_
    exact parses_pure (congrArg (fun type => [Node.param 0 _ type]) htype)
  | cons line hnames htype _ ih =>
    obtain _ | fuel := fuel
    · grind
    rw [parameters,append_assoc]
    refine parses_peek_head ?_
    rw [if_neg ((hnames.starts.append _).head_ne rfl)]
    refine (hnames.parses (by grind)).bind ?_
    rintro _ rfl
    refine parses_expect fun _ _ => ?_
    refine (htype.parses _).bind fun type htype => ?_
    refine parses_accept ?_
    refine (ih (by grind)).bind fun others hothers => parses_pure ?_
    exact congrArg₂ (fun type others => Node.param 0 _ type :: others) htype hothers

theorem RaisesWrite.parses (h : RaisesWrite clause ws) (hfuel : 4 * ws.length + 1 ≤ fuel) :
    Parses (raisesNames fuel) (ws ++ sign .lbrace :: rest) (sign .lbrace :: rest)
      (AlikeAll clause) := by
  induction h generalizing fuel with
  | nil =>
    obtain _ | fuel := fuel
    · grind
    rw [raisesNames]
    refine parses_peek ?_
    exact parses_pure rfl
  | last line hx =>
    obtain _ | fuel := fuel
    · grind
    rw [raisesNames]
    refine parses_peek ?_
    refine parses_expect fun t ht => ?_
    refine parses_accept_not (startsNot_sign (by decide) rest) ?_
    refine parses_pure ?_
    rw [text_of_word ht]
    rfl
  | cons line hx _ ih =>
    obtain _ | fuel := fuel
    · grind
    rw [raisesNames]
    refine parses_peek ?_
    refine parses_expect fun t ht => ?_
    refine parses_accept ?_
    refine (ih (by grind)).bind fun others hothers => parses_pure ?_
    rw [text_of_word ht]
    exact congrArg (fun others => Node.raises 0 _ :: others) hothers

theorem BlockWrites.starts (h : BlockWrites n ws) : ∃ rest, ws = sign .lbrace :: rest := by
  obtain ⟨line,-⟩ := h
  exact ⟨_,rfl⟩

theorem ClauseWrites.startsNot_colon (h : ClauseWrites clause xs) (hbody : BlockWrites body ws)
    (rest : List SourceWord) : StartsNot .colon (xs ++ (ws ++ rest)) := by
  obtain ⟨others,rfl⟩ := hbody.starts
  cases h with
  | none | raises => exact startsNot_sign (by decide) _

theorem alike_procDecl (hbody : Alike body body') (hparams : AlikeAll params params')
    (hresult : Alike result result') (hclause : AlikeAll clause clause') :
    Alike (.procDecl line x body params result clause)
      (.procDecl line' x body' params' result' clause') := by
  rw [Alike,Node.unlined,hbody,hparams,hresult,hclause,Node.unlined]

theorem parses_procedure (hclause : ClauseWrites clause xs) (hbody : BlockWrites body ws)
    (hfuel : 4 * (xs.length + ws.length) ≤ fuel)
    (hnode : ∀ body' clause', Alike body body' → AlikeAll clause clause' →
      Alike n (.procDecl line x body' params result clause')) :
    Parses (do
      let clause ← if ← accept .raises then raisesNames fuel else pure []
      let body ← block fuel
      return .procDecl line x body params result clause) (xs ++ (ws ++ rest)) rest (Alike n) := by
  obtain ⟨others,hws⟩ := hbody.starts
  have hblock : Parses (block fuel) (ws ++ rest) rest (Alike body) := hbody.parses (by grind)
  rw [hws] at hblock
  rw [hws,cons_append]
  cases hclause with
  | none =>
    refine parses_accept_not (startsNot_sign (by decide) _) ?_
    exact hblock.bind fun body' hbody' => parses_pure (hnode body' [] hbody' rfl)
  | raises hraises =>
    rw [hws] at hfuel
    refine parses_accept ?_
    refine (hraises.parses (by grind)).bind fun clause' hclause' => ?_
    exact hblock.bind fun body' hbody' => parses_pure (hnode body' clause' hbody' hclause')

theorem DeclarationWrites.length_pos (h : DeclarationWrites n ws) : 0 < ws.length := by
  cases h with
  | declared h =>
    obtain ⟨line,-,-⟩ := h
    exact Nat.succ_pos _
  | _ => exact Nat.succ_pos _

theorem DeclarationWrites.parses (h : DeclarationWrites n ws) (hfuel : 4 * ws.length ≤ fuel) :
    Parses (declaration fuel) (ws ++ rest) rest (Alike n) := by
  cases h with
  | declared h =>
    have hparses : Parses (variableDeclaration fuel) (ws ++ rest) rest _ := h.parses (by grind)
    cases h
    exact parses_peek hparses
  | exception line hx =>
    refine parses_peek (parses_next fun t _ => ?_)
    refine parses_expect fun t' ht' => ?_
    refine parses_expect fun _ _ => parses_pure ?_
    rw [text_of_word ht']
    rfl
  | procedure line hx hparams hresult hclause hbody =>
    simp only [cons_append,append_assoc]
    refine parses_peek ?_
    refine parses_expect fun t _ => ?_
    refine parses_expect fun t' ht' => ?_
    refine parses_expect fun _ _ => ?_
    refine (hparams.parses (by grind)).bind fun params' hparams' => ?_
    refine parses_expect fun _ _ => ?_
    rw [text_of_word ht']
    cases hresult with
    | none =>
      have hcolon := hclause.startsNot_colon hbody rest
      refine parses_accept_not hcolon ?_
      exact parses_procedure hclause hbody (by grind) fun body' clause' hbody' hclause' =>
        alike_procDecl hbody' hparams' rfl hclause'
    | type htype =>
      refine parses_accept ?_
      refine (htype.parses _).bind fun result' hresult' => ?_
      exact parses_procedure hclause hbody (by grind) fun body' clause' hbody' hclause' =>
        alike_procDecl hbody' hparams' hresult' hclause'

theorem parses_get {g : List Token → Parse α} {P : α → Prop}
    (h : ∀ ts, ts.map Token.word = ws → Parses (g ts) ws ws' P) : Parses (get >>= g) ws ws' P :=
  fun ts hts => h ts hts ts hts

theorem ProgramWrites.length_pos {p} (h : ProgramWrites p ws) : 0 < ws.length := by
  cases h with
  | last h => exact h.length_pos
  | cons h _ =>
    rw [length_append]
    exact Nat.add_pos_left h.length_pos _

theorem ProgramWrites.parses {p : List Node} (h : ProgramWrites p ws)
    (hfuel : 4 * ws.length + 1 ≤ fuel) : Parses (declarations fuel) ws [] (AlikeAll p) := by
  induction h generalizing fuel with
  | @last n ws h =>
    obtain _ | fuel := fuel
    · grind
    rw [declarations,← append_nil ws]
    refine (h.parses (by grind)).bind fun n' hn' => parses_get fun ts hts => ?_
    rw [map_eq_nil_iff.1 hts]
    exact parses_pure (congrArg (· :: []) hn')
  | @cons n others ws ws' h hrest ih =>
    have hpos := h.length_pos
    rw [length_append] at hfuel
    obtain _ | fuel := fuel
    · grind
    rw [declarations]
    refine (h.parses (by grind)).bind fun n' hn' => parses_get fun ts hts => ?_
    have hne : ts ≠ [] := by
      rintro rfl
      have hlength := hrest.length_pos
      rw [← hts] at hlength
      cases hlength
    rw [isEmpty_eq_false_iff.2 hne]
    refine (ih (by grind)).bind fun others' hothers' => parses_pure ?_
    exact congrArg₂ List.cons hn' hothers'

end BxToolchain.Bx
