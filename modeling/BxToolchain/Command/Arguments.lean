namespace BxToolchain.Command

inductive Exit where
  | help
  | usage
  deriving DecidableEq, Repr

def Exit.code : Exit → Int
  | help => 0
  | usage => 2

structure Arguments where
  files : List String := []
  verbosity : Nat := 0
  switches : List String := []
  deriving DecidableEq, Repr

structure Format where
  switches : List String := []
  oneFile : Bool := false

inductive Argument where
  | text (s : String)
  | dashes
  | help
  | louder (times : Nat)
  | switch (name : String)
  | overfull
  | unknown
  deriving DecidableEq, Repr

def letters : List Char → List Argument
  | [] => []
  | 'v' :: rest => .louder 1 :: letters rest
  | 'h' :: rest => .help :: letters rest
  | _ => [.unknown]

def isDigits (cs : List Char) : Bool := !cs.isEmpty && cs.all Char.isDigit

def isNegativeNumber (cs : List Char) : Bool :=
  match cs with
  | '-' :: rest =>
    isDigits rest ||
      (match rest.dropWhile Char.isDigit with
        | '.' :: fraction => isDigits fraction
        | _ => false)
  | _ => false

def longOption (f : Format) (s : String) : Except Exit (List Argument) :=
  let cs := s.toList
  let name := cs.takeWhile (· ≠ '=')
  let hasValue := name.length < cs.length
  let options := "--help" :: f.switches
  let exact := String.ofList name
  let found :=
    if options.contains exact then [exact]
    else options.filter fun o => name.isPrefixOf o.toList
  match found with
  | [] => .ok [if s.contains ' ' then .text s else .unknown]
  | [o] =>
    .ok [if hasValue then .overfull else if o == "--help" then .help else .switch o]
  | _ => .error .usage

def classify (f : Format) (s : String) : Except Exit (List Argument) :=
  match s.toList with
  | '-' :: '-' :: _ => longOption f s
  | '-' :: 'v' :: '=' :: _ | '-' :: 'h' :: '=' :: _ => .ok [.overfull]
  | '-' :: 'v' :: rest => .ok (.louder 1 :: letters rest)
  | '-' :: 'h' :: rest => .ok (.help :: letters rest)
  | '-' :: c :: rest =>
    .ok [if isNegativeNumber ('-' :: c :: rest) || s.contains ' ' then .text s else .unknown]
  | _ => .ok [.text s]

def classifyAll (f : Format) : List String → Except Exit (List Argument)
  | [] => .ok []
  | "--" :: rest => .ok (.dashes :: rest.map .text)
  | s :: rest => do return (← classify f s) ++ (← classifyAll f rest)

structure Progress where
  result : Arguments := {}
  filled : Bool := false
  inFiles : Bool := false
  extra : Bool := false

def take (f : Format) (p : Progress) : Argument → Except Exit Progress
  | .text s =>
    if p.filled && (f.oneFile || !p.inFiles) then .ok { p with extra := true }
    else
      .ok { p with
        result := { p.result with files := p.result.files ++ [s] }, filled := true, inFiles := true }
  | .dashes => .ok { p with extra := p.extra || (p.filled && !p.inFiles) }
  | .help => .error .help
  | .louder n =>
    .ok { p with
      result := { p.result with verbosity := p.result.verbosity + n }, inFiles := false }
  | .switch name =>
    .ok { p with
      result := { p.result with switches := p.result.switches ++ [name] }, inFiles := false }
  | .overfull => .error .usage
  | .unknown => .ok { p with extra := true, inFiles := false }

def parseArguments (f : Format) (args : List String) : Except Exit Arguments := do
  let p ← (← classifyAll f args).foldlM (take f) {}
  if p.extra || (f.oneFile && !p.filled) then throw .usage
  return p.result

end BxToolchain.Command
