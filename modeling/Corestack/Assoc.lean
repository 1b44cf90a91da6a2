import Mathlib.Data.List.Sigma

/-! # Association lists that are edited in place

A key that is there keeps its place and gets the new value; a new key goes to the front.
On lists without a key twice this is updating a function, and so is erasing.
-/

namespace Corestack.Assoc

variable {κ ν : Type*} [DecidableEq κ]

/-- Replace the value of a key, or add the key at the front. -/
def put (k : κ) (v : ν) (l : List (Σ _ : κ, ν)) : List (Σ _ : κ, ν) :=
  if (l.dlookup k).isSome then l.kreplace k v else ⟨k, v⟩ :: l

variable {k k' : κ} {v : ν} {l : List (Σ _ : κ, ν)}

theorem dlookup_cons (k k' : κ) (v : ν) (l : List (Σ _ : κ, ν)) :
    List.dlookup k (⟨k', v⟩ :: l) = if k = k' then some v else l.dlookup k := by
  split
  · rename_i h
    subst h
    exact @List.dlookup_cons_eq κ (fun _ => ν) _ l k v
  · rename_i h
    exact @List.dlookup_cons_ne κ (fun _ => ν) _ l k ⟨k', v⟩ h

theorem kreplace_cons (k k' : κ) (v v' : ν) (l : List (Σ _ : κ, ν)) :
    List.kreplace k v (⟨k', v'⟩ :: l) =
      if k = k' then ⟨k, v⟩ :: l else ⟨k', v'⟩ :: l.kreplace k v := by
  unfold List.kreplace
  split
  · rename_i h
    exact List.lookmap_cons_some _ _ (if_pos h)
  · rename_i h
    exact List.lookmap_cons_none _ _ (if_neg h)

theorem dlookup_kreplace (hk : k ∈ l.keys) : (l.kreplace k v).dlookup k = some v := by
  induction l with
  | nil => exact absurd hk List.not_mem_nil
  | cons x l ih =>
    obtain ⟨k', v'⟩ := x
    rw [kreplace_cons]
    split
    · rw [dlookup_cons, if_pos rfl]
    · rename_i h
      rw [dlookup_cons, if_neg h]
      exact ih (by simpa [h] using hk)

theorem dlookup_kreplace_ne (hne : k' ≠ k) : (l.kreplace k v).dlookup k' = l.dlookup k' := by
  induction l with
  | nil => rfl
  | cons x l ih =>
    obtain ⟨j, v'⟩ := x
    rw [kreplace_cons]
    split
    · rename_i h
      subst h
      rw [dlookup_cons, dlookup_cons, if_neg hne, if_neg hne]
    · rw [dlookup_cons, dlookup_cons, ih]

/-- A value that was put is looked up, and nothing else has changed. -/
theorem dlookup_put (k k' : κ) (v : ν) (l : List (Σ _ : κ, ν)) :
    (put k v l).dlookup k' = Function.update (fun j => l.dlookup j) k (some v) k' := by
  unfold put
  by_cases h : k' = k
  · subst h
    rw [Function.update_self]
    split
    · rename_i hk
      exact dlookup_kreplace (List.dlookup_isSome.mp hk)
    · rw [dlookup_cons, if_pos rfl]
  · rw [Function.update_of_ne h]
    split
    · exact dlookup_kreplace_ne h
    · rw [dlookup_cons, if_neg h]

theorem nodupKeys_put (hl : l.NodupKeys) (k : κ) (v : ν) : (put k v l).NodupKeys := by
  unfold put
  split
  · exact (List.kreplace_nodupKeys k v).mpr hl
  · rename_i hk
    exact List.nodupKeys_cons.mpr ⟨fun h => hk (List.dlookup_isSome.mpr h), hl⟩

/-- A key that was erased is not found, and nothing else has changed. -/
theorem dlookup_kerase_eq_update (hl : l.NodupKeys) (k k' : κ) :
    (l.kerase k).dlookup k' = Function.update (fun j => l.dlookup j) k none k' := by
  by_cases h : k' = k
  · subst h
    rw [Function.update_self, List.dlookup_kerase _ hl]
  · rw [Function.update_of_ne h, List.dlookup_kerase_ne h]

end Corestack.Assoc
