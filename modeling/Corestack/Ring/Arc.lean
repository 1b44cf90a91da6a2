import Mathlib.Data.Set.Finite.Basic
import Mathlib.Data.Int.Init
import Mathlib.Order.Preorder.Finite
import Mathlib.Tactic.Push

/-! # Arcs of a ring

A linear order whose end is followed by its start. The next element of a set from
a place on, and the arc of places for which it is the next, meet in one rule. On
the residues below `n` the next element is the nearest one clockwise.
-/

namespace Corestack.Ring

variable {α : Type*} [LinearOrder α] {S : Set α} {p q k m m' : α}

/-- The arc from `p` on up to `q`, without `p`. All of the ring if the two are equal. -/
def InArc (p q k : α) : Prop := if p < q then p < k ∧ k ≤ q else p < k ∨ k ≤ q

instance (p q k : α) : Decidable (InArc p q k) :=
  inferInstanceAs (Decidable (if p < q then p < k ∧ k ≤ q else p < k ∨ k ≤ q))

/-- The first element of `S` from `k` on, going round. -/
def IsNext (S : Set α) (k m : α) : Prop :=
  m ∈ S ∧ (k ≤ m ∧ (∀ s ∈ S, k ≤ s → m ≤ s) ∨ (∀ s ∈ S, s < k) ∧ ∀ s ∈ S, m ≤ s)

/-- The last element of `S` before `q`, going round. -/
def IsPrev (S : Set α) (q p : α) : Prop :=
  p ∈ S ∧ (p < q ∧ (∀ s ∈ S, s < q → s ≤ p) ∨ (∀ s ∈ S, q ≤ s) ∧ ∀ s ∈ S, s ≤ p)

theorem inArc_self (q k : α) : InArc q q k := by
  rw [InArc, if_neg (lt_irrefl q)]
  exact lt_or_ge q k

theorem IsNext.unique (h : IsNext S k m) (h' : IsNext S k m') : m = m' := by
  obtain ⟨hm, ⟨hk, hle⟩ | ⟨hlt, hle⟩⟩ := h <;> obtain ⟨hm', ⟨hk', hle'⟩ | ⟨hlt', hle'⟩⟩ := h'
  · exact le_antisymm (hle m' hm' hk') (hle' m hm hk)
  · exact absurd hk (not_le.mpr (hlt' m hm))
  · exact absurd hk' (not_le.mpr (hlt m' hm'))
  · exact le_antisymm (hle m' hm') (hle' m hm)

/-- An element is the next one for the places on the arc that ends in it. -/
theorem isNext_iff_inArc (hq : q ∈ S) (hp : IsPrev S q p) : IsNext S k q ↔ InArc p q k := by
  obtain ⟨hpS, ⟨hlt, hmax⟩ | ⟨hmin, hmax⟩⟩ := hp
  · rw [InArc, if_pos hlt]
    constructor
    · rintro ⟨-, ⟨hk, hle⟩ | ⟨-, hle⟩⟩
      · exact ⟨not_le.mp fun hkp => absurd (hle p hpS hkp) (not_le.mpr hlt), hk⟩
      · exact absurd (hle p hpS) (not_le.mpr hlt)
    · rintro ⟨hpk, hk⟩
      refine ⟨hq, Or.inl ⟨hk, fun s hs hks => not_lt.mp fun hsq => ?_⟩⟩
      exact absurd (hks.trans (hmax s hs hsq)) (not_le.mpr hpk)
  · rw [InArc, if_neg (not_lt.mpr (hmin p hpS))]
    constructor
    · rintro ⟨-, ⟨hk, -⟩ | ⟨hlt, -⟩⟩
      · exact Or.inr hk
      · exact Or.inl (hlt p hpS)
    · rintro (hpk | hk)
      · exact ⟨hq, Or.inr ⟨fun s hs => (hmax s hs).trans_lt hpk, hmin⟩⟩
      · exact ⟨hq, Or.inl ⟨hk, fun s hs _ => hmin s hs⟩⟩

theorem exists_isPrev (hS : S.Finite) (hq : q ∈ S) : ∃ p, IsPrev S q p := by
  rcases (S ∩ {s | s < q}).eq_empty_or_nonempty with hnone | hsome
  · obtain ⟨p, hp⟩ := hS.exists_maximal ⟨q, hq⟩
    refine ⟨p, hp.prop, Or.inr ⟨fun s hs => not_lt.mp fun hlt => ?_, fun s hs => ?_⟩⟩
    · exact Set.notMem_empty s (hnone ▸ ⟨hs, hlt⟩)
    · exact not_lt.mp fun hlt => absurd (hp.le_of_ge hs hlt.le) (not_le.mpr hlt)
  · obtain ⟨p, hp⟩ := (hS.inter_of_left _).exists_maximal hsome
    refine ⟨p, hp.prop.1, Or.inl ⟨hp.prop.2, fun s hs hlt => ?_⟩⟩
    exact not_lt.mp fun hps => absurd (hp.le_of_ge ⟨hs, hlt⟩ hps.le) (not_le.mpr hps)

/-- The only element of a ring owns all of it. -/
theorem isPrev_singleton (q : α) : IsPrev {q} q q :=
  ⟨rfl, Or.inr ⟨fun _ hs => (Set.mem_singleton_iff.mp hs).ge,
    fun _ hs => (Set.mem_singleton_iff.mp hs).le⟩⟩

/-! ## Distances -/

/-- The steps clockwise from `a` to `b` on a ring of `n` places. -/
def clockwise (n a b : Nat) : Nat := (((b : Int) - a) % n).toNat

variable {n a b : Nat}

/-- A place and one that is at most once around further. -/
theorem add_mod_of_le (ha : a < n) (hb : b ≤ n) :
    (a + b) % n = if a + b < n then a + b else a + b - n := by
  split_ifs with h
  · exact Nat.mod_eq_of_lt h
  · rw [Nat.mod_eq_sub_mod (by omega), Nat.mod_eq_of_lt (by omega)]

theorem clockwise_of_le (h : a ≤ b) (hb : b < n) : clockwise n a b = b - a := by
  unfold clockwise
  rw [Int.emod_eq_of_lt (by omega) (by omega)]
  omega

theorem clockwise_of_lt (h : b < a) (ha : a < n) : clockwise n a b = b + n - a := by
  unfold clockwise
  rw [← Int.add_emod_right, Int.emod_eq_of_lt (by omega) (by omega)]
  omega

/-- The next element is the nearest one. -/
theorem isNext_iff_clockwise {S : Set Nat} {k m : Nat} (hS : ∀ s ∈ S, s < n) (hk : k < n)
    (hm : m ∈ S) : IsNext S k m ↔ ∀ s ∈ S, clockwise n k m ≤ clockwise n k s := by
  constructor
  · rintro ⟨-, ⟨hkm, hle⟩ | ⟨hlt, hle⟩⟩ s hs
    · rw [clockwise_of_le hkm (hS m hm)]
      rcases le_or_gt k s with hks | hsk
      · rw [clockwise_of_le hks (hS s hs)]
        have := hle s hs hks
        omega
      · rw [clockwise_of_lt hsk hk]
        have := hS m hm
        omega
    · rw [clockwise_of_lt (hlt m hm) hk, clockwise_of_lt (hlt s hs) hk]
      have := hle s hs
      omega
  · intro h
    refine ⟨hm, ?_⟩
    rcases le_or_gt k m with hkm | hmk
    · refine Or.inl ⟨hkm, fun s hs hks => ?_⟩
      have hle := h s hs
      rw [clockwise_of_le hkm (hS m hm), clockwise_of_le hks (hS s hs)] at hle
      omega
    · -- an element from `k` on would be nearer than one before it
      have hbefore : ∀ s ∈ S, s < k := by
        intro s hs
        by_contra hks
        have hle := h s hs
        rw [clockwise_of_lt hmk hk, clockwise_of_le (not_lt.mp hks) (hS s hs)] at hle
        have := hS s hs
        omega
      refine Or.inr ⟨hbefore, fun s hs => ?_⟩
      have hle := h s hs
      rw [clockwise_of_lt hmk hk, clockwise_of_lt (hbefore s hs) hk] at hle
      omega

end Corestack.Ring
