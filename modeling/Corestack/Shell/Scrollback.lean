import Mathlib.Data.List.Basic

/-! # Scrolling back

The latest values that were entered and a cursor among them, which stays between
the oldest of them and the place past the newest.
-/

namespace Corestack.Shell

/-- The newest value comes first; the cursor says how many of them it is back. -/
structure Scrollback (α : Type*) (cap : Nat) where
  lines : List α
  cursor : Nat
  length_le : lines.length ≤ cap
  cursor_le : cursor ≤ lines.length

namespace Scrollback

variable {α : Type*} {cap : Nat}

def empty : Scrollback α cap := ⟨[], 0, Nat.zero_le _, Nat.le_refl _⟩

/-- A new value. The oldest is given up for it if there are too many; the cursor goes past it. -/
def push (s : Scrollback α cap) (x : α) : Scrollback α cap where
  lines := (x :: s.lines).take cap
  cursor := 0
  length_le := List.length_take_le _ _
  cursor_le := Nat.zero_le _

/-- The next older value, if there is one. -/
def older (s : Scrollback α cap) : Scrollback α cap × Option α :=
  if h : s.cursor < s.lines.length then
    ({ s with cursor := s.cursor + 1, cursor_le := h }, some s.lines[s.cursor])
  else (s, none)

/-- The next newer value, and `blank` past the newest. -/
def newer (s : Scrollback α cap) (blank : α) : Scrollback α cap × Option α :=
  if s.cursor = 0 then (s, none)
  else
    ({ s with cursor := s.cursor - 1, cursor_le := Nat.le_trans (Nat.sub_le _ _) s.cursor_le },
      if s.cursor = 1 then some blank else s.lines[s.cursor - 2]?)

variable {s : Scrollback α cap} {x blank : α}

theorem length_push : (s.push x).lines.length = min cap (s.lines.length + 1) := by
  simp [push]

theorem getElem?_push_zero (hc : 0 < cap) : (s.push x).lines[0]? = some x := by
  simp [push, hc]

theorem getElem?_push_succ {d : Nat} (hd : d + 1 < cap) :
    (s.push x).lines[d + 1]? = s.lines[d]? := by
  rw [push, List.getElem?_take_of_lt hd, List.getElem?_cons_succ]

theorem older_of_lt (h : s.cursor < s.lines.length) :
    s.older = ({ s with cursor := s.cursor + 1, cursor_le := h }, s.lines[s.cursor]?) := by
  rw [older, dif_pos h, List.getElem?_eq_getElem h]

theorem older_of_eq (h : s.cursor = s.lines.length) : s.older = (s, none) := by
  rw [older, dif_neg (Nat.not_lt.mpr (Nat.le_of_eq h.symm))]

end Scrollback

end Corestack.Shell
