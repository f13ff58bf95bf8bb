import BxToolchain.Grammar.Machine

namespace BxToolchain.Grammar

structure TokenList where
  rest : List Token
  line : Int := 1
  pos : Int := 0

def TokenList.source : Source TokenList where
  next := do
    let s ← get
    match s.rest with
    | [] => return none
    | t :: rest =>
      set ({ rest, line := t.line.getD s.line, pos := t.pos } : TokenList)
      return some t
  line := TokenList.line
  pos := TokenList.pos

end BxToolchain.Grammar
