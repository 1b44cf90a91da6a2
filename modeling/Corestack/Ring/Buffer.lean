import Corestack.Ring.Arc

/-! # Ring buffers

The slots of a ring buffer, counted back from the one that is written next.
-/

namespace Corestack.Ring

variable {n head d d' : Nat}

/-- The slot `d` places before the head of a ring of `n` slots. -/
def back (n head d : Nat) : Nat := (head + (n - d)) % n

theorem back_eq (hh : head < n) (d : Nat) :
    back n head d = if head + (n - d) < n then head + (n - d) else head + (n - d) - n :=
  add_mod_of_le hh (Nat.sub_le n d)

theorem back_lt (hh : head < n) (d : Nat) : back n head d < n :=
  Nat.mod_lt _ (Nat.zero_lt_of_lt hh)

theorem back_zero (hh : head < n) : back n head 0 = head := by
  rw [back_eq hh]
  split_ifs <;> omega

theorem back_inj (hh : head < n) (hd : d < n) (hd' : d' < n) (h : back n head d = back n head d') :
    d = d' := by
  rw [back_eq hh, back_eq hh] at h
  split_ifs at h <;> omega

/-- The slot that is written next is at both ends. -/
theorem back_eq_head_iff (hh : head < n) (hd : d ≤ n) :
    back n head d = head ↔ d = 0 ∨ d = n := by
  rw [back_eq hh]
  split_ifs <;> omega

/-- One slot further back. -/
theorem back_succ (hh : head < n) (hd : d < n) :
    (back n head d + (n - 1)) % n = back n head (d + 1) := by
  rw [add_mod_of_le (back_lt hh d) (Nat.sub_le n 1), back_eq hh, back_eq hh]
  split_ifs <;> omega

/-- One slot forward. -/
theorem back_add_one (hh : head < n) (hd : d < n) :
    (back n head (d + 1) + 1) % n = back n head d := by
  rw [add_mod_of_le (back_lt hh _) (by omega), back_eq hh, back_eq hh]
  split_ifs <;> omega

/-- When the head has gone on, all slots are one further back. -/
theorem back_next (hh : head < n) (hd : d < n) :
    back n ((head + 1) % n) (d + 1) = back n head d := by
  have hnext : (head + 1) % n = if head + 1 < n then head + 1 else head + 1 - n :=
    add_mod_of_le hh (by omega)
  rw [back_eq (Nat.mod_lt _ (Nat.zero_lt_of_lt hh)), back_eq hh, hnext]
  split_ifs <;> omega

end Corestack.Ring
