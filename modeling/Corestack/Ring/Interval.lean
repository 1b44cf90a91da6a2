import Mathlib.Algebra.Group.Nat.Defs
import Mathlib.Data.Nat.Log
import Corestack.Ring.Arc

/-! # Doubling intervals of a ring

The half-open intervals between places of a ring. Seen from one place, the
intervals between the distances 1, 2, 4 and so on share out all the others.
-/

namespace Corestack.Ring

variable {α : Type*} [LinearOrder α] {n m a b c d k : Nat}

/-- The places from `s` on and before `e`. All of the ring if the two are equal. -/
def InInterval (s e k : α) : Prop := if s < e then s ≤ k ∧ k < e else s ≤ k ∨ k < e

instance (s e k : α) : Decidable (InInterval s e k) :=
  inferInstanceAs (Decidable (if s < e then s ≤ k ∧ k < e else s ≤ k ∨ k < e))

theorem clockwise_eq (hc : c < n) (hk : k < n) :
    clockwise n c k = if c ≤ k then k - c else k + n - c := by
  split_ifs with h
  · exact clockwise_of_le h hk
  · exact clockwise_of_lt (not_le.mp h) hc

/-- The places between two distances from a place are those at a distance between the two. -/
theorem inInterval_iff_clockwise (hc : c < n) (hk : k < n) (hab : a < b) (hb : b ≤ n) :
    InInterval ((c + a) % n) ((c + b) % n) k ↔ a ≤ clockwise n c k ∧ clockwise n c k < b := by
  rw [clockwise_eq hc hk, add_mod_of_le hc (hab.le.trans hb), add_mod_of_le hc hb, InInterval]
  split_ifs <;> omega

/-- A number but 0 lies between two powers of 2 that follow each other. -/
theorem existsUnique_pow_le (h0 : d ≠ 0) (hd : d < 2 ^ m) :
    ∃! i, i < m ∧ 2 ^ i ≤ d ∧ d < 2 ^ (i + 1) := by
  refine ⟨Nat.log 2 d, ⟨?_, ?_, ?_⟩, ?_⟩
  · exact Nat.log_lt_of_lt_pow h0 hd
  · exact Nat.pow_log_le_self 2 h0
  · exact Nat.lt_pow_succ_log_self (by decide) d
  · rintro i ⟨-, hle, hlt⟩
    exact (Nat.log_eq_of_pow_le_of_lt_pow hle hlt).symm

/-- All places but one lie in exactly one interval of those that double in length from it. -/
theorem existsUnique_inInterval (hc : c < 2 ^ m) (hk : k < 2 ^ m) (hne : k ≠ c) :
    ∃! i, i < m ∧ InInterval ((c + 2 ^ i) % 2 ^ m) ((c + 2 ^ (i + 1)) % 2 ^ m) k := by
  have hd0 : clockwise (2 ^ m) c k ≠ 0 := by
    rw [clockwise_eq hc hk]
    split_ifs <;> omega
  have hd : clockwise (2 ^ m) c k < 2 ^ m := by
    rw [clockwise_eq hc hk]
    split_ifs <;> omega
  have hiff : ∀ i, i < m → (InInterval ((c + 2 ^ i) % 2 ^ m) ((c + 2 ^ (i + 1)) % 2 ^ m) k ↔
      2 ^ i ≤ clockwise (2 ^ m) c k ∧ clockwise (2 ^ m) c k < 2 ^ (i + 1)) := by
    intro i hi
    apply inInterval_iff_clockwise hc hk
    · exact Nat.pow_lt_pow_right (by decide) (Nat.lt_succ_self i)
    · exact Nat.pow_le_pow_right (by decide) hi
  obtain ⟨i, ⟨hi, hin⟩, huniq⟩ := existsUnique_pow_le hd0 hd
  refine ⟨i, ⟨hi, (hiff i hi).mpr hin⟩, ?_⟩
  rintro j ⟨hj, hjn⟩
  exact huniq j ⟨hj, (hiff j hj).mp hjn⟩

/-- The place from which they are seen lies in none of them. -/
theorem not_inInterval_self {i : Nat} (hc : c < 2 ^ m) (hi : i < m) :
    ¬ InInterval ((c + 2 ^ i) % 2 ^ m) ((c + 2 ^ (i + 1)) % 2 ^ m) c := by
  rw [inInterval_iff_clockwise hc hc (Nat.pow_lt_pow_right (by decide) (Nat.lt_succ_self i))
    (Nat.pow_le_pow_right (by decide) hi), clockwise_of_le le_rfl hc]
  rintro ⟨hle, -⟩
  have := Nat.two_pow_pos i
  omega

end Corestack.Ring
