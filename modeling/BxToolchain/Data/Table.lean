namespace BxToolchain

structure Table (α β : Type) where
  entries : List (α × β) := []
  deriving Repr, DecidableEq

namespace Table

variable {α β γ : Type} [BEq α]

def keys (t : Table α β) : List α := t.entries.map Prod.fst

def values (t : Table α β) : List β := t.entries.map Prod.snd

def get? (t : Table α β) (k : α) : Option β := t.entries.lookup k

def contains (t : Table α β) (k : α) : Bool := (t.get? k).isSome

def insertEntry (k : α) (v : β) : List (α × β) → List (α × β)
  | [] => [(k,v)]
  | e :: rest => if e.1 == k then (e.1,v) :: rest else e :: insertEntry k v rest

def insert (t : Table α β) (k : α) (v : β) : Table α β := ⟨insertEntry k v t.entries⟩

def erase (t : Table α β) (k : α) : Table α β := ⟨t.entries.filter fun e => !(e.1 == k)⟩

def isEmpty (t : Table α β) : Bool := t.entries.isEmpty

def ofList (bindings : List (α × β)) : Table α β :=
  bindings.foldl (fun t e => t.insert e.1 e.2) {}

def mapValues (f : β → γ) (t : Table α β) : Table α γ := ⟨t.entries.map fun e => (e.1,f e.2)⟩

end Table

end BxToolchain
