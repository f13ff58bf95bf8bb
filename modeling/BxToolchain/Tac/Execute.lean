import BxToolchain.Tac.Program

namespace BxToolchain.Tac

abbrev Temps := Table String Datum

structure World where
  globals : Table String Datum := {}
  output : String := ""

structure Options where
  showProcs : Bool := false
  showInstrs : Bool := false
  onlyDecimal : Bool := true
  depth : Int := 0
  memory : Nat := 2 ^ 38

def Options.ofDatum (d : Datum) : Except Fault Options := do
  let depth ←
    match (d.field? "depth").getD (.int 0) |>.int? with
    | some n => pure n
    | none => throw .wrongKind
  return { showProcs := d.flagPart "show_proc" false
           showInstrs := d.flagPart "show_instr" false
           onlyDecimal := d.flagPart "only_decimal" true
           depth }

def Options.indent (o : Options) : String :=
  String.ofList (List.replicate (2 * o.depth.toNat) ' ')

def World.print (w : World) (line : String) : World := { w with output := w.output ++ line ++ "\n" }

def World.read (w : World) (temps : Temps) (name : String) : Except Fault Datum :=
  match (if isGlobal name then w.globals else temps).get? name with
  | some v => .ok v
  | none => .error (.missingKey (Text.quote name))

def checkWord (v : Datum) : Except Fault Unit :=
  let refusal (n : Int) : Except Fault Unit :=
    .error (.noWord v.display (-(2 ^ 63) ≤ n) (n < 2 ^ 63))
  match v with
  | .real m e => refusal (Datum.truncate m e)
  | v =>
    match v.int? with
    | some n => if 0 ≤ n && n < 2 ^ 64 then .ok () else refusal n
    | none => .error .wrongKind

def World.write (w : World) (temps : Temps) (name : String) (v : Datum) :
    Except Fault (World × Temps) := do
  if !isVariable name then throw .refused
  checkWord v
  if isGlobal name then
    if w.globals.contains name then return ({ w with globals := w.globals.insert name v },temps)
    throw (.missingKey (Text.quote name))
  return (w,temps.insert name v)

structure Frame where
  temps : Temps := {}
  left : Temps := {}
  previous : Option String := none
  current : String
  pc : Nat := 0
  params : List Datum := []

structure Activation where
  name : String
  code : Array Instr
  labels : Table String Nat
  options : Options
  shown : String

inductive Outcome where
  | next (f : Frame)
  | call (name : String) (args : List Datum) (dest : Operand) (f : Frame)
  | done (v : Datum)

def afterLabels : List Instr → Nat → Nat
  | i :: rest, n => if i.isLabel then afterLabels rest (n + 1) else n
  | [], n => n

def labelsFrom : Nat → Table String Nat → List Instr → Except Fault (Table String Nat)
  | _, t, [] => .ok t
  | n, t, i :: rest =>
    if i.isLabel then
      let l := i.arg1.text
      if t.contains l then .error (.repeatedLabel l)
      else labelsFrom (n + 1) (t.insert l (afterLabels rest (n + 1))) rest
    else labelsFrom (n + 1) t rest

def padLeft (width : Nat) (fill : Char) (s : List Char) : List Char :=
  List.replicate (width - s.length) fill ++ s

def spaced (width : Nat) (n : Int) : String :=
  String.ofList (padLeft width ' '
    ((if n < 0 then '-' else ' ') :: Nat.toDigits 10 n.natAbs))

def zeroed (base width : Nat) (n : Int) : String :=
  let digits := Nat.toDigits base n.natAbs
  String.ofList (if n < 0 then '-' :: padLeft (width - 1) '0' digits else padLeft width '0' digits)

def signedDatum : Datum → Except Fault Datum
  | .bool b => .ok (.bool b)
  | v =>
    match v.int? with
    | some n => .ok (.int (signed n))
    | none => .error .wrongKind

def intOf (v : Datum) : Except Fault Int :=
  match v.int? with
  | some n => .ok n
  | none => .error .wrongKind

def taken (c : Cond) (v : Datum) : Except Fault Bool :=
  match c with
  | .zero => .ok (v.same (.int 0))
  | .nonzero => .ok (!v.same (.int 0))
  | c => (intOf v).map c.holds

def convert (name : String) (v : Datum) : Except Fault Datum :=
  match name with
  | "twoc" => (intOf v).map fun n => .int (wrap n)
  | _ => signedDatum v

def applyNamed (memory : Nat) (name : String) (args : List Datum) : Except Fault Datum :=
  match (Opcode.ofName? name), args with
  | some (.binary op), [u,v] => do return .int (← op.apply memory (← intOf u) (← intOf v))
  | some (.unary op), [u] => do return .int (op.apply (← intOf u))
  | some (.branch c), [u] => (taken c u).map .bool
  | some (.binary _), _ | some (.unary _), _ | some (.branch _), _ => .error .wrongKind
  | _, args =>
    if name == "twoc" || name == "untwoc" then
      match args with
      | [u] => convert name u
      | _ => .error .wrongKind
    else .error (.missingKey (Text.quote name))

def integerLine (onlyDecimal : Bool) (v : Datum) : Except Fault String := do
  let s ← signedDatum v
  if onlyDecimal then return s.display
  let n ← intOf v
  return spaced 20 (← intOf s) ++ "  0x" ++ zeroed 16 16 n ++ "  0b" ++ zeroed 2 64 n

def storeParam (params : List Datum) (index : Int) (v : Datum) : Except Fault (List Datum) :=
  let params := params ++ List.replicate (index - params.length).toNat .null
  let i := if index < 1 then index - 1 + params.length else index - 1
  if 0 ≤ i && i < params.length then .ok (params.set i.toNat v) else .error .outOfRange

namespace Frame

def jump (f : Frame) (l : String) (pc : Nat) : Frame :=
  { f with previous := some f.current, current := l, left := f.temps, pc }

end Frame

def store (w : World) (f : Frame) (dest : Operand) (v : Datum) : Except Fault Outcome × World :=
  match w.write f.temps dest.text v with
  | .ok (w,temps) => (.ok (.next { f with temps }),w)
  | .error e => (.error e,w)

def printCall (a : Activation) (name : String) (f : Frame) (w : World) :
    Except Fault Outcome × World :=
  match f.params with
  | [v] =>
    match name with
    | "@__bx_print_int" =>
      match integerLine a.options.onlyDecimal v with
      | .ok line => (.ok (.next { f with params := [] }),w.print line)
      | .error e => (.error e,w)
    | "@__bx_print_bool" =>
      (.ok (.next { f with params := [] }),w.print (if v.same (.int 0) then "false" else "true"))
    | _ => (.error (.unknownPrint name),w)
  | params => (.error (.wrongPrintCount params.length),w)

def perform (a : Activation) (i : Instr) (f : Frame) (w : World) : Except Fault Outcome × World :=
  let read (o : Operand) := w.read f.temps o.text
  let target (o : Operand) : Except Fault Nat :=
    match a.labels.get? o.text with
    | some pc => .ok pc
    | none => .error (.unknownTarget o.text)
  let keep (r : Except Fault Outcome) : Except Fault Outcome × World := (r,w)
  let storing (r : Except Fault Datum) : Except Fault Outcome × World :=
    match r with
    | .ok v => store w f i.dest v
    | .error e => (.error e,w)
  match i.opcode with
  | .nop => keep (.ok (.next f))
  | .label => keep (.ok (.next { f with previous := some f.current, current := i.arg1.text }))
  | .phi =>
    match i.sources.find? fun e => some e.1 = f.previous with
    | some (_,t) => storing (w.read f.left t)
    | none => keep (.error (.unresolvedPhi (f.previous.getD "None") (i.sources.map Prod.fst)))
  | .jmp => keep do return .next (f.jump i.arg1.text (← target i.arg1))
  | .branch c =>
    keep do
      let v ← read i.arg1
      let pc ← target i.arg2
      return .next (if ← taken c v then f.jump i.arg2.text pc else f)
  | .const => storing (.ok (.int (wrap (i.arg1.int?.getD 0))))
  | .copy => storing (read i.arg1)
  | .param =>
    let index := i.arg1.int?.getD 0
    let w' :=
      if index < 1 then
        w.print ("Bad argument to param: expecting int >= 1, got " ++ i.arg1.text)
      else w
    (do return .next { f with params := ← storeParam f.params index (← read i.arg2) },w')
  | .call =>
    let name := i.arg1.text
    if startsWith "@__bx_print" name then printCall a name f w
    else if (f.params.length : Int) < i.arg2.int?.getD 0 then
      keep (.error (.tooFewArguments name i.arg2.text f.params.length))
    else keep (.ok (.call name f.params i.dest { f with params := [] }))
  | .ret =>
    match i.arg1 with
    | .absent => keep (.ok (.done .null))
    | o => keep do return .done (← read o)
  | .binary op =>
    storing do
      let u ← read i.arg1
      let v ← read i.arg2
      return .int (← op.apply a.options.memory (← intOf u) (← intOf v))
  | .unary op => storing do return .int (op.apply (← intOf (← read i.arg1)))

def step (a : Activation) (f : Frame) (w : World) : Except Fault Outcome × World :=
  let note := "// " ++ a.options.indent
  match a.code[f.pc]? with
  | none => (.ok (.done .null),w.print (note ++ a.shown ++ " --> NONE"))
  | some i =>
    let go (w : World) : Except Fault Outcome × World :=
      match perform a i { f with pc := f.pc + 1 } w with
      | (.ok (.done v),w) =>
        (.ok (.done v),
          if a.options.showProcs then w.print (note ++ a.shown ++ " --> " ++ v.display) else w)
      | r => r
    if a.options.showInstrs then
      match i.text? with
      | .ok text => go (w.print (note ++ "[" ++ spaced 4 (f.pc + 2) ++ "] " ++ text))
      | .error e => (.error e,w)
    else go w

def bindParams : List Datum → List Datum → World → Temps → Except Fault (World × Temps)
  | [], _, w, temps => .ok (w,temps)
  | _ :: _, [], _, _ => .error .outOfRange
  | .str p :: ps, v :: vs, w, temps =>
    match w.write temps p v with
    | .ok (w,temps) => bindParams ps vs w temps
    | .error e => .error e
  | _ :: _, _ :: _, _, _ => .error .refused

def showCall (name : String) (temps : Temps) : String :=
  name ++ "(" ++ String.intercalate "," (temps.entries.map fun e => e.1 ++ "=" ++ e.2.display) ++ ")"

def enter (p : Procedure) (options : Options) (args : List Datum) (w : World) :
    Except Fault (Activation × Frame) × World :=
  match bindParams p.params args w {} with
  | .error e => (.error e,w)
  | .ok (w,temps) =>
    let shown := showCall p.name temps
    let w := if options.showProcs then w.print ("// " ++ options.indent ++ "entering " ++ shown) else w
    match labelsFrom 0 {} p.body with
    | .error e => (.error e,w)
    | .ok labels =>
      (.ok ({ name := p.name, code := p.body.toArray, labels, options, shown },
        { temps, left := temps, current := p.name }),w)

def resume (f : Frame) (dest : Operand) (v : Datum) (w : World) : Except Fault Frame × World :=
  match dest.read? with
  | none => (.ok f,w)
  | some name =>
    match w.write f.temps name v with
    | .ok (w,temps) => (.ok { f with temps },w)
    | .error e => (.error e,w)

mutual

def execute (procs : Table String Procedure) : Nat → Options → String → List Datum → World →
    Except Fault Datum × World
  | 0, _, _, _, w => (.error .outOfSteps,w)
  | fuel + 1, options, name, args, w =>
    match procs.get? name with
    | none => (.error (.missingKey (Text.quote name)),w)
    | some p =>
      match enter p options args w with
      | (.error e,w) => (.error e,w)
      | (.ok (a,f),w) => continueFrom procs fuel a f w

def continueFrom (procs : Table String Procedure) : Nat → Activation → Frame → World →
    Except Fault Datum × World
  | 0, _, _, w => (.error .outOfSteps,w)
  | fuel + 1, a, f, w =>
    match step a f w with
    | (.error e,w) => (.error e,w)
    | (.ok (.done v),w) => (.ok v,w)
    | (.ok (.next f),w) => continueFrom procs fuel a f w
    | (.ok (.call name args dest f),w) =>
      match execute procs fuel { a.options with depth := a.options.depth + 1 } name args w with
      | (.error e,w) => (.error e,w)
      | (.ok v,w) =>
        match resume f dest v w with
        | (.error e,w) => (.error e,w)
        | (.ok f,w) => continueFrom procs fuel a f w

end

def stepLimit : Nat := 10 ^ 15

def Program.execute (p : Program) (options : Options) (name : String) (args : List Datum) :
    Except Fault Datum × World :=
  Tac.execute (p.procedures {}) stepLimit options name args { globals := p.globals {} }

def Program.declares (name : String) (p : Program) : Bool :=
  p.any fun d =>
    match d with
    | .global g => g.name == name
    | _ => false

def Program.withGlobals (values : Table String Datum) : Program → Program
  | [] => []
  | .global g :: rest =>
    let value := if Program.declares g.name rest then g.value else (values.get? g.name).getD g.value
    .global { g with value } :: Program.withGlobals values rest
  | d :: rest => d :: Program.withGlobals values rest

end BxToolchain.Tac
