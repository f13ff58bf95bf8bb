namespace BxToolchain.Names

def insert (x : String) : List String → List String
  | [] => [x]
  | y :: rest => if x < y then x :: y :: rest else if x = y then y :: rest else y :: insert x rest

def ofList (xs : List String) : List String := xs.foldl (fun acc x => insert x acc) []

theorem mem_insert {x y : String} {xs : List String} : y ∈ insert x xs ↔ y = x ∨ y ∈ xs := by
  induction xs with
  | nil => simp [insert]
  | cons z rest ih =>
    rw [insert]
    split
    · simp
    · split
      · rename_i h
        simp [h]
      · simp [ih,or_left_comm]

theorem mem_foldl_insert {y : String} {xs acc : List String} :
    y ∈ xs.foldl (fun acc x => insert x acc) acc ↔ y ∈ xs ∨ y ∈ acc := by
  induction xs generalizing acc with
  | nil => simp
  | cons x rest ih => simp [ih,mem_insert,or_assoc,or_left_comm]

theorem mem_ofList {y : String} {xs : List String} : y ∈ ofList xs ↔ y ∈ xs := by
  simp [ofList,mem_foldl_insert]

end BxToolchain.Names
