import Mathlib.Data.List.TakeWhile

/-! # An array and accesses within it

Copying a part of an array to another place, writing and reading; an access that is not
within the array has no result. The lemmas follow parts of the array that are side by side.
-/

namespace Corestack

/-- An array of the given size. -/
structure Memory (α : Type*) (cap : Nat) where
  cells : List α
  length_eq : cells.length = cap

namespace Memory

variable {α : Type*} {cap : Nat}

/-- `memmove`: the two parts may overlap. -/
def move (m : Memory α cap) (dst src n : Nat) : Option (Memory α cap) :=
  if h : dst + n ≤ cap ∧ src + n ≤ cap then
    some ⟨m.cells.take dst ++ ((m.cells.drop src).take n ++ m.cells.drop (dst + n)), by
      have hlen := m.length_eq
      simp only [List.length_append, List.length_take, List.length_drop]
      omega⟩
  else none

def write (m : Memory α cap) (dst : Nat) (s : List α) : Option (Memory α cap) :=
  if h : dst + s.length ≤ cap then
    some ⟨m.cells.take dst ++ (s ++ m.cells.drop (dst + s.length)), by
      have hlen := m.length_eq
      simp only [List.length_append, List.length_take, List.length_drop]
      omega⟩
  else none

def read (m : Memory α cap) (i : Nat) : Option α := m.cells[i]?

/-- The first place from `i` on where `p` does not hold, at most so many steps away. -/
def scanRight (m : Memory α cap) (p : α → Bool) : Nat → Nat → Option Nat
  | 0, i => some i
  | n + 1, i => (m.read i).bind fun c => if p c then m.scanRight p n (i + 1) else some i

/-- The place behind the first one left of `i` where `p` does not hold. -/
def scanLeft (m : Memory α cap) (p : α → Bool) : Nat → Option Nat
  | 0 => some 0
  | i + 1 => (m.read i).bind fun c => if p c then m.scanLeft p i else some (i + 1)

variable {m : Memory α cap} {a b r s t x : List α} {p : α → Bool}

/-- What is written takes the place of as much. -/
theorem write_eq (hm : m.cells = a ++ (t ++ r)) (hs : s.length = t.length) :
    ∃ m', m.write a.length s = some m' ∧ m'.cells = a ++ (s ++ r) := by
  have hlen := m.length_eq
  rw [hm, List.length_append, List.length_append] at hlen
  have hfit : a.length + s.length ≤ cap := by omega
  refine ⟨_, dif_pos hfit, ?_⟩
  dsimp only
  rw [hm, List.take_left, hs, ← List.append_assoc a t r, ← List.length_append, List.drop_left]

/-- A part of the array grows by what is written behind it. -/
theorem write_behind (hm : m.cells = a ++ r) (hlen : a.length < cap) (c : α) :
    ∃ m' r', m.write a.length [c] = some m' ∧ m'.cells = a ++ c :: r' := by
  have hcap := m.length_eq
  cases r with
  | nil =>
    rw [hm, List.append_nil] at hcap
    omega
  | cons d r =>
    obtain ⟨m', hw, hcells⟩ := write_eq (t := [d]) hm (s := [c]) rfl
    exact ⟨m', r, hw, hcells⟩

/-- A part is moved to the left over what is between. -/
theorem move_left (hm : m.cells = a ++ (x ++ (b ++ r))) :
    ∃ m' r', m.move a.length (a.length + x.length) b.length = some m' ∧
      m'.cells = a ++ (b ++ r') := by
  have hlen := m.length_eq
  rw [hm] at hlen
  simp only [List.length_append] at hlen
  have hfit : a.length + b.length ≤ cap ∧ a.length + x.length + b.length ≤ cap := by omega
  refine ⟨_, m.cells.drop (a.length + b.length), dif_pos hfit, ?_⟩
  dsimp only
  rw [hm, List.take_left, ← List.append_assoc a x, ← List.length_append, List.drop_left,
    List.take_left]

/-- A part is moved to the right if there is room. -/
theorem move_right (hm : m.cells = a ++ (b ++ r)) {k : Nat} (hk : k ≤ r.length) :
    ∃ m' g r', m.move (a.length + k) a.length b.length = some m' ∧
      m'.cells = a ++ (g ++ (b ++ r')) ∧ g.length = k := by
  have hlen := m.length_eq
  rw [hm] at hlen
  simp only [List.length_append] at hlen
  have hfit : a.length + k + b.length ≤ cap ∧ a.length + b.length ≤ cap := by omega
  refine ⟨_, (b ++ r).take k, m.cells.drop (a.length + k + b.length), dif_pos hfit, ?_, ?_⟩
  · dsimp only
    rw [hm, List.take_length_add_append, List.drop_left, List.take_left, List.append_assoc]
  · rw [List.length_take, List.length_append]
    omega

theorem read_eq {c : α} (hm : m.cells = a ++ c :: r) : m.read a.length = some c := by
  rw [read, hm, List.getElem?_append_right (Nat.le_refl _), Nat.sub_self]
  rfl

theorem scanRight_eq (hm : m.cells = a ++ (b ++ r)) :
    m.scanRight p b.length a.length = some (a.length + (b.takeWhile p).length) := by
  induction b generalizing a with
  | nil => rfl
  | cons c b ih =>
    have hread : m.read a.length = some c := read_eq hm
    rw [List.length_cons, scanRight, hread, Option.bind_some]
    by_cases hc : p c = true
    · have hnext := ih (a := a ++ [c]) (by rw [hm]; simp)
      rw [List.length_append, List.length_singleton] at hnext
      rw [if_pos hc, hnext, List.takeWhile_cons_of_pos hc, List.length_cons]
      congr 1
      omega
    · rw [if_neg hc, List.takeWhile_cons_of_neg hc, List.length_nil, Nat.add_zero]

theorem scanLeft_eq (hm : m.cells = a.reverse ++ r) :
    m.scanLeft p a.length = some (a.dropWhile p).length := by
  induction a generalizing r with
  | nil => rfl
  | cons c a ih =>
    have hcons : m.cells = a.reverse ++ c :: r := by rw [hm]; simp
    have hread : m.read a.length = some c := by
      rw [← List.length_reverse]
      exact read_eq hcons
    rw [List.length_cons, scanLeft, hread, Option.bind_some]
    by_cases hc : p c = true
    · rw [if_pos hc, ih hcons, List.dropWhile_cons_of_pos hc]
    · rw [if_neg hc, List.dropWhile_cons_of_neg hc, List.length_cons]

end Memory

end Corestack
