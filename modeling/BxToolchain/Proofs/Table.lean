import BxToolchain.Data.Table
import Mathlib.Data.List.Nodup

namespace BxToolchain.Table

open List

variable {α β : Type} [BEq α] [LawfulBEq α]

theorem lookup_insertEntry (k k' : α) (v : β) (entries : List (α × β)) :
    (insertEntry k v entries).lookup k' = if k' == k then some v else entries.lookup k' := by
  induction entries with
  | nil => simp only [insertEntry,lookup_cons,lookup_nil]; split <;> simp_all
  | cons e rest ih =>
    obtain ⟨a,b⟩ := e
    simp only [insertEntry]
    by_cases ha : a = k
    · subst ha
      simp only [beq_self_eq_true,if_true,lookup_cons]
      split <;> simp_all
    · simp only [beq_iff_eq,ha,if_false,lookup_cons]
      split
      · rename_i hk
        have hne : k' ≠ k := by rintro rfl; exact ha (beq_iff_eq.1 hk).symm
        simp [hne]
      · rw [ih]

@[simp]
theorem get?_insert (t : Table α β) (k k' : α) (v : β) :
    (t.insert k v).get? k' = if k' == k then some v else t.get? k' :=
  lookup_insertEntry k k' v t.entries

theorem get?_insert_self (t : Table α β) (k : α) (v : β) : (t.insert k v).get? k = some v := by
  simp

variable {k : α}

theorem get?_insert_of_ne (t : Table α β) (v : β) (h : k' ≠ k) :
    (t.insert k v).get? k' = t.get? k' := by
  simp [h]

omit [LawfulBEq α] in
@[simp]
theorem get?_empty (k : α) : ({} : Table α β).get? k = none := rfl

omit [LawfulBEq α] in
theorem contains_iff (t : Table α β) (k : α) : t.contains k = true ↔ ∃ v, t.get? k = some v := by
  simp [contains,Option.isSome_iff_exists]

theorem contains_insert (t : Table α β) (k k' : α) (v : β) :
    (t.insert k v).contains k' = (k' == k || t.contains k') := by
  simp only [contains,get?_insert]
  by_cases h : k' = k <;> simp [h]

theorem contains_foldl_insert (bindings : List (α × β)) (t : Table α β) (k : α) :
    (bindings.foldl (fun t e => t.insert e.1 e.2) t).contains k = true ↔
      k ∈ bindings.map Prod.fst ∨ t.contains k = true := by
  induction bindings generalizing t with
  | nil => simp
  | cons e rest ih =>
    rw [foldl_cons,ih,contains_insert,map_cons,mem_cons]
    by_cases h : k = e.1 <;> simp [h]

theorem isSome_get?_ofList (bindings : List (α × β)) (k : α) :
    ((ofList bindings).get? k).isSome ↔ k ∈ bindings.map Prod.fst := by
  exact (contains_foldl_insert bindings {} k).trans (by simp [contains])

theorem get?_ofList_map [BEq γ] [LawfulBEq γ] {f : α → γ} (hf : ∀ a b, f a = f b → a = b)
    (bindings : List (α × β)) (k : α) :
    (ofList (bindings.map fun e => (f e.1,e.2))).get? (f k) = (ofList bindings).get? k := by
  have hfold : ∀ (bindings : List (α × β)) (t : Table α β) (u : Table γ β),
      (∀ k, u.get? (f k) = t.get? k) → ∀ k,
      ((bindings.map fun e => (f e.1,e.2)).foldl (fun t e => t.insert e.1 e.2) u).get? (f k) =
        (bindings.foldl (fun t e => t.insert e.1 e.2) t).get? k := by
    intro bindings
    induction bindings with
    | nil => exact fun t u h => h
    | cons e rest ih =>
      intro t u h k
      refine ih _ _ (fun k => ?_) k
      by_cases hk : k = e.1
      · simp [hk]
      · have hfk : f k ≠ f e.1 := fun heq => hk (hf _ _ heq)
        simp [hk,hfk,h]
  exact hfold bindings {} {} (fun _ => rfl) k

omit [LawfulBEq α] in
theorem get?_mapValues (f : β → γ) (t : Table α β) (k : α) :
    (t.mapValues f).get? k = (t.get? k).map f := by
  obtain ⟨entries⟩ := t
  simp only [mapValues,get?]
  induction entries with
  | nil => rfl
  | cons e rest ih =>
    obtain ⟨a,b⟩ := e
    simp only [map_cons,lookup_cons]
    split
    · rfl
    · exact ih

variable {t : Table α β} {v : β}

theorem mem_of_get? (h : t.get? k = some v) : (k,v) ∈ t.entries := by
  obtain ⟨before,after,heq,-⟩ := lookup_eq_some_iff.1 h
  simp [heq]

theorem get?_of_mem (hnodup : t.keys.Nodup) (h : (k,v) ∈ t.entries) : t.get? k = some v := by
  obtain ⟨entries⟩ := t
  simp only [keys,get?] at hnodup h ⊢
  induction entries with
  | nil => simp at h
  | cons e rest ih =>
    obtain ⟨a,b⟩ := e
    rw [map_cons,nodup_cons] at hnodup
    simp only [lookup_cons]
    rcases mem_cons.1 h with heq | hmem
    · cases heq
      simp
    · have hne : k ≠ a := by
        rintro rfl
        exact hnodup.1 (mem_map.2 ⟨(k,v),hmem,rfl⟩)
      rw [beq_eq_false_iff_ne.2 hne]
      exact ih hnodup.2 hmem

theorem contains_iff_mem_keys (t : Table α β) (k : α) : t.contains k = true ↔ k ∈ t.keys := by
  obtain ⟨entries⟩ := t
  simp only [contains,get?,keys]
  induction entries with
  | nil => simp
  | cons e rest ih =>
    obtain ⟨a,b⟩ := e
    simp only [lookup_cons,map_cons,mem_cons]
    by_cases h : k = a
    · simp [h]
    · simp [beq_eq_false_iff_ne.2 h,h,ih]

variable {entries : List (α × β)}

theorem insertEntry_of_not_mem (v : β) (h : k ∉ entries.map Prod.fst) :
    insertEntry k v entries = entries ++ [(k,v)] := by
  induction entries with
  | nil => rfl
  | cons e rest ih =>
    simp only [map_cons,mem_cons,not_or] at h
    have hne : ¬e.1 = k := fun heq => h.1 heq.symm
    simp [insertEntry,hne,ih h.2]

theorem map_fst_insertEntry (v : β) (h : k ∈ entries.map Prod.fst) :
    (insertEntry k v entries).map Prod.fst = entries.map Prod.fst := by
  induction entries with
  | nil => simp at h
  | cons e rest ih =>
    by_cases he : e.1 = k
    · simp [insertEntry,he]
    · have hrest : k ∈ rest.map Prod.fst := (mem_cons.1 h).resolve_left fun heq => he heq.symm
      simp [insertEntry,he,ih hrest]

theorem nodup_keys_insert (h : t.keys.Nodup) (k : α) (v : β) : (t.insert k v).keys.Nodup := by
  unfold keys insert at *
  by_cases hk : k ∈ t.entries.map Prod.fst
  · rwa [map_fst_insertEntry v hk]
  · rw [insertEntry_of_not_mem v hk,map_append,nodup_append]
    refine ⟨h,by simp,?_⟩
    rintro a ha b hb rfl
    have heq : a = k := mem_singleton.1 hb
    exact hk (heq ▸ ha)

theorem nodup_keys_ofList (bindings : List (α × β)) : (ofList bindings).keys.Nodup := by
  have hfold : ∀ (bindings : List (α × β)) (t : Table α β), t.keys.Nodup →
      (bindings.foldl (fun t e => t.insert e.1 e.2) t).keys.Nodup := by
    intro bindings
    induction bindings with
    | nil => exact fun t h => h
    | cons e rest ih => exact fun t h => ih _ (nodup_keys_insert h e.1 e.2)
  exact hfold bindings {} .nil

omit [BEq α] [LawfulBEq α] in
theorem keys_mapValues (f : β → γ) (t : Table α β) : (t.mapValues f).keys = t.keys := by
  simp [keys,mapValues,Function.comp_def]

variable {e : α × β}

theorem mem_insertEntry (h : e ∈ insertEntry k v entries) : e = (k,v) ∨ e ∈ entries := by
  induction entries with
  | nil => simpa [insertEntry] using h
  | cons e' rest ih =>
    rw [insertEntry] at h
    split at h
    · rename_i heq
      rw [eq_of_beq heq] at h
      rcases mem_cons.1 h with h | h
      · exact .inl h
      · exact .inr (by simp [h])
    · rcases mem_cons.1 h with rfl | h
      · exact .inr (by simp)
      · exact (ih h).imp_right fun hrest => by simp [hrest]

variable {bindings : List (α × β)}

theorem mem_of_mem_ofList (h : e ∈ (ofList bindings).entries) : e ∈ bindings := by
  have hfold : ∀ (bindings : List (α × β)) (t : Table α β),
      e ∈ (bindings.foldl (fun t e => t.insert e.1 e.2) t).entries → e ∈ t.entries ∨ e ∈ bindings := by
    intro bindings
    induction bindings with
    | nil => exact fun t h => .inl h
    | cons e' rest ih =>
      intro t h
      rcases ih _ h with h | h
      · rcases mem_insertEntry h with rfl | h
        · exact .inr (by simp)
        · exact .inl h
      · exact .inr (by simp [h])
  rcases hfold bindings {} h with h | h
  · cases h
  · exact h

theorem entries_ofList (h : (bindings.map Prod.fst).Nodup) :
    (ofList bindings).entries = bindings := by
  have hfold : ∀ (bindings : List (α × β)) (t : Table α β),
      ((t.entries ++ bindings).map Prod.fst).Nodup →
      (bindings.foldl (fun t e => t.insert e.1 e.2) t).entries = t.entries ++ bindings := by
    intro bindings
    induction bindings with
    | nil => simp
    | cons e rest ih =>
      intro t hnodup
      have hfresh : e.1 ∉ t.entries.map Prod.fst := by
        rw [map_append,nodup_append] at hnodup
        exact fun hmem => hnodup.2.2 _ hmem e.1 (by simp) rfl
      have hinsert : (t.insert e.1 e.2).entries = t.entries ++ [e] :=
        insertEntry_of_not_mem e.2 hfresh
      rw [foldl_cons,ih _ (by rw [hinsert]; simpa using hnodup),hinsert]
      simp
  exact hfold bindings {} h

theorem get?_filter (p : α → Bool) (t : Table α β) (k : α) :
    (⟨t.entries.filter fun e => p e.1⟩ : Table α β).get? k = if p k then t.get? k else none := by
  obtain ⟨entries⟩ := t
  simp only [get?]
  induction entries with
  | nil => simp
  | cons e rest ih =>
    obtain ⟨a,v⟩ := e
    by_cases hk : k = a
    · subst hk
      cases ha : p k with
      | false => rw [filter_cons_of_neg (by simp [ha]),ih,ha,if_neg nofun,if_neg nofun]
      | true => rw [filter_cons_of_pos (by simpa using ha),lookup_cons_self,
          lookup_cons_self,if_pos rfl]
    · rw [lookup_cons,beq_false_of_ne hk,filter_cons]
      cases p a <;> simp [ih,lookup_cons,beq_false_of_ne hk]

@[simp]
theorem get?_erase (t : Table α β) (k k' : α) :
    (t.erase k).get? k' = if k' == k then none else t.get? k' := by
  rw [erase,get?_filter fun a => !(a == k)]
  by_cases h : k' = k <;> simp [h]

theorem contains_erase (t : Table α β) (k k' : α) :
    (t.erase k).contains k' = (!(k' == k) && t.contains k') := by
  by_cases h : k' = k <;> simp [contains,h]

end BxToolchain.Table
