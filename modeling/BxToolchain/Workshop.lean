import BxToolchain.Fault

namespace BxToolchain

structure Workshop where
  log : Array String := #[]
  listing : Array String := #[]
  failed : Bool := false

abbrev Work := Run Workshop

namespace Work

def warn (s : String) : Work Unit := modify fun w => { w with log := w.log.push ("WARNING: " ++ s) }

def complain (s : String) : Work Unit :=
  modify fun w => { w with log := w.log.push ("ERROR: " ++ s), failed := true }

def list (s : String) : Work Unit := modify fun w => { w with listing := w.listing.push s }

def checkpoint (cause : Fault) : Work Unit := do
  if (← get).failed then throw cause

end Work

end BxToolchain
