import Mathlib.Data.List.Destutter
import Mathlib.Order.Basic

/-! # Dropping repeats in place

A loop over an array keeps an entry if it differs from the last one that was kept, and
moves it next to that one. Of a sorted array this leaves each entry once, in order.
-/

namespace Corestack.Repeats

variable {α : Type*}

/-- The loop from `i` on, when the last entry that was kept is at `unique`. -/
def dropFrom [DecidableEq α] (a : List α) (unique i : Nat) : List α × Nat :=
  if h : i < a.length then
    if a[i]? ≠ a[unique]? then dropFrom (a.set (unique + 1) a[i]) (unique + 1) (i + 1)
    else dropFrom a unique (i + 1)
  else (a, unique)
termination_by a.length - i
decreasing_by
  · rw [List.length_set]
    omega
  · omega

/-- What is kept. -/
def dropRepeats [DecidableEq α] (a : List α) : List α :=
  (dropFrom a 0 1).1.take ((dropFrom a 0 1).2 + 1)

/-- Behind the entries that were kept there may be others, up to those that are still to come. -/
theorem dropFrom_eq [DecidableEq α] (kept gap rest : List α) (x : α) :
    (dropFrom (kept ++ x :: (gap ++ rest)) kept.length (kept.length + 1 + gap.length)).1.take
        ((dropFrom (kept ++ x :: (gap ++ rest)) kept.length
          (kept.length + 1 + gap.length)).2 + 1) =
      kept ++ rest.destutter' (· ≠ ·) x := by
  induction rest generalizing kept gap x with
  | nil =>
    rw [dropFrom, dif_neg (by simp; omega), List.destutter'_nil, List.append_nil,
      ← List.singleton_append, ← List.append_assoc]
    exact List.take_left' (by simp)
  | cons y rest ih =>
    have hlt : kept.length + 1 + gap.length < (kept ++ x :: (gap ++ y :: rest)).length := by
      simp
      omega
    have hy : (kept ++ x :: (gap ++ y :: rest))[kept.length + 1 + gap.length]? = some y := by
      have hpre : (kept ++ x :: gap).length = kept.length + 1 + gap.length := by
        simp
        omega
      rw [← List.cons_append, ← List.append_assoc, ← hpre,
        List.getElem?_append_right (Nat.le_refl _), Nat.sub_self]
      rfl
    have hx : (kept ++ x :: (gap ++ y :: rest))[kept.length]? = some x := by simp
    have hget : (kept ++ x :: (gap ++ y :: rest))[kept.length + 1 + gap.length] = y :=
      Option.some.inj ((List.getElem?_eq_getElem hlt).symm.trans hy)
    rw [dropFrom, dif_pos hlt, hy, hx, hget]
    by_cases hxy : x = y
    · subst hxy
      have hnext := ih kept (gap ++ [x]) x
      rw [List.append_assoc, List.singleton_append, List.length_append, List.length_singleton,
        ← Nat.add_assoc] at hnext
      rw [if_neg (by simp), List.destutter'_cons_neg _ (by simp)]
      exact hnext
    · -- the entry is moved to the place behind the last one, where the gap moves on
      obtain ⟨g, gap', hgap⟩ : ∃ g gap', gap ++ [y] = g :: gap' :=
        List.exists_cons_of_ne_nil (by simp)
      have hset : (kept ++ x :: (gap ++ y :: rest)).set (kept.length + 1) y =
          (kept ++ [x]) ++ y :: (gap' ++ rest) := by
        rw [← List.singleton_append (x := y), ← List.append_assoc gap, hgap,
          ← List.singleton_append (x := x), ← List.append_assoc,
          List.set_append_right _ _ (by simp)]
        simp
      have hlen : gap'.length = gap.length := by
        have h := congrArg List.length hgap
        simpa using h.symm
      have hnext := ih (kept ++ [x]) gap' y
      rw [List.length_append, List.length_singleton, hlen] at hnext
      rw [if_pos (by simpa using Ne.symm hxy), hset, List.destutter'_cons_pos _ hxy,
        show kept.length + 1 + gap.length + 1 = kept.length + 1 + 1 + gap.length by omega, hnext,
        List.append_assoc, List.singleton_append]

theorem dropRepeats_eq [DecidableEq α] (a : List α) : dropRepeats a = a.destutter (· ≠ ·) := by
  cases a with
  | nil =>
    rw [dropRepeats, dropFrom, dif_neg (by simp)]
    rfl
  | cons x rest => exact dropFrom_eq [] [] rest x

variable [DecidableEq α] [PartialOrder α] {a : List α}

/-- Of a sorted array each entry is kept once, and they are in order. -/
theorem dropRepeats_sorted (h : a.Pairwise (· ≤ ·)) :
    (dropRepeats a).Pairwise (· < ·) ∧ ∀ x, x ∈ dropRepeats a ↔ x ∈ a := by
  rw [dropRepeats_eq, h.destutter_eq_dedup]
  constructor
  · have hle := h.sublist (List.dedup_sublist a)
    exact (hle.and (List.nodup_dedup a)).imp fun hxy => lt_of_le_of_ne hxy.1 hxy.2
  · exact fun x => List.mem_dedup

end Corestack.Repeats
