import Mathlib.Algebra.Group.Nat.Defs
import Mathlib.Data.List.Basic
import Mathlib.Order.Basic

/-! # A stream between two ends

A stream carries items in order. Each call at either end moves some of the items
that it is asked to move; how many is up to the stream, and no item is a failure.
-/

namespace Corestack.Socket

variable {α : Type*}

/-- The receiving end. `input` is what still arrives before the stream ends, and `pace` bounds
what the next calls give. -/
structure Reader (α : Type*) where
  input : List α
  pace : Nat → Nat

/-- The sending end. `output` is what the stream has taken, and `pace` bounds what the next calls
take. -/
structure Writer (α : Type*) where
  output : List α
  pace : Nat → Nat

/-- No call fails as long as there is something to move. -/
def Steady (pace : Nat → Nat) : Prop := ∀ k, 0 < pace k

theorem Steady.tail {pace : Nat → Nat} (h : Steady pace) : Steady fun k => pace (k + 1) :=
  fun k => h (k + 1)

/-- Ask for at most `chunk` items. Nothing comes when the stream has ended, or on a failure. -/
def Reader.recv (s : Reader α) (chunk : Nat) : Reader α × List α :=
  (⟨s.input.drop (min (s.pace 0) chunk), fun k => s.pace (k + 1)⟩,
    s.input.take (min (s.pace 0) chunk))

/-- Offer items, of which the stream takes some. -/
def Writer.send (s : Writer α) (items : List α) : Writer α × Nat :=
  (⟨s.output ++ items.take (min (s.pace 0) items.length), fun k => s.pace (k + 1)⟩,
    min (s.pace 0) items.length)

variable {s s' : Reader α} {chunk : Nat} {items : List α}

theorem Reader.recv_eq (h : s.recv chunk = (s', items)) :
    items ++ s'.input = s.input ∧ items.length ≤ chunk := by
  obtain ⟨rfl, rfl⟩ := Prod.mk.inj h
  constructor
  · exact List.take_append_drop _ _
  · rw [List.length_take]
    omega

theorem Reader.recv_pace (h : s.recv chunk = (s', items)) : s'.pace = fun k => s.pace (k + 1) := by
  obtain ⟨rfl, -⟩ := Prod.mk.inj h
  rfl

/-- A steady stream gives something until it ends. -/
theorem Reader.recv_ne_nil (h : s.recv chunk = (s', items)) (hp : Steady s.pace) (hc : 0 < chunk)
    (hs : s.input ≠ []) : items ≠ [] := by
  obtain ⟨-, rfl⟩ := Prod.mk.inj h
  have hpos := List.length_pos_iff.mpr hs
  have hpace := hp 0
  apply List.ne_nil_of_length_pos
  rw [List.length_take]
  omega

theorem Writer.send_eq {s s' : Writer α} {n : Nat} (h : s.send items = (s', n)) :
    s'.output = s.output ++ items.take n ∧ (s'.pace = fun k => s.pace (k + 1)) ∧
      n ≤ items.length := by
  obtain ⟨rfl, rfl⟩ := Prod.mk.inj h
  exact ⟨rfl, rfl, Nat.min_le_right _ _⟩

/-- A steady stream takes something. -/
theorem Writer.send_pos {s s' : Writer α} {n : Nat} (h : s.send items = (s', n))
    (hp : Steady s.pace) (hi : items ≠ []) : 0 < n := by
  obtain ⟨-, rfl⟩ := Prod.mk.inj h
  exact Nat.lt_min.mpr ⟨hp 0, List.length_pos_iff.mpr hi⟩

end Corestack.Socket
