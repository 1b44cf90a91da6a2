import Mathlib.Data.Set.Finite.List
import Corestack.Ring.Arc

/-! # The successor of a key

`chord.c` looks for the owner of a key in the list of all peers. The peer that it
finds is the nearest one clockwise, so the keys of the ring are shared out among
the ids of the peers.
-/

namespace Corestack.Chord

open Corestack.Ring

structure ChordPeer where
  id : UInt8
  deriving DecidableEq, Repr

/-- The loop of `find_successor_linear`: the first peer whose id is not below the key. -/
def firstAtLeast (key : UInt8) : List ChordPeer → Option ChordPeer
  | [] => none
  | p :: ps => if p.id ≥ key then some p else firstAtLeast key ps

/-- `none` is the read of `peers[0]` in an empty array. -/
def findSuccessorLinear (key : UInt8) (peers : List ChordPeer) : Option ChordPeer :=
  match firstAtLeast key peers with
  | some p => some p
  -- wrap around
  | none => peers.head?

/-- What callers pass: peers with ids below `2 ^ mBits`, in ascending order. -/
structure Peers (mBits : Nat) where
  peers : List ChordPeer
  ne_nil : peers ≠ []
  sorted : peers.Pairwise fun p q => p.id.toNat ≤ q.id.toNat
  id_lt : ∀ p ∈ peers, p.id.toNat < 2 ^ mBits

namespace Peers

variable {mBits : Nat} (R : Peers mBits) {key : UInt8} {p q : ChordPeer}

/-- The ids on the ring. -/
def ids : Set Nat := {i | ∃ p ∈ R.peers, p.id.toNat = i}

/-- The key lies on the arc between the predecessor of a peer and the peer. -/
def Owns (q : ChordPeer) (key : UInt8) : Prop :=
  ∃ p ∈ R.peers, IsPrev R.ids q.id.toNat p.id.toNat ∧ InArc p.id.toNat q.id.toNat key.toNat

end Peers

/-! ## The search -/

variable {key : UInt8} {peers : List ChordPeer} {p : ChordPeer}

theorem firstAtLeast_some (hs : peers.Pairwise fun p q => p.id.toNat ≤ q.id.toNat)
    (h : firstAtLeast key peers = some p) : p ∈ peers ∧ key.toNat ≤ p.id.toNat ∧
      ∀ q ∈ peers, key.toNat ≤ q.id.toNat → p.id.toNat ≤ q.id.toNat := by
  induction peers with
  | nil => cases h
  | cons x peers ih =>
    obtain ⟨hx, hs'⟩ := List.pairwise_cons.mp hs
    unfold firstAtLeast at h
    split_ifs at h with hk
    · obtain rfl := Option.some.inj h
      refine ⟨List.mem_cons_self, UInt8.le_iff_toNat_le.mp hk, ?_⟩
      rintro q (_ | ⟨_, hq⟩) _
      · exact le_rfl
      · exact hx q hq
    · obtain ⟨hp, hkp, hle⟩ := ih hs' h
      refine ⟨List.mem_cons_of_mem _ hp, hkp, ?_⟩
      rintro q (_ | ⟨_, hq⟩) hkq
      · exact absurd (UInt8.le_iff_toNat_le.mpr hkq) hk
      · exact hle q hq hkq

theorem firstAtLeast_none (h : firstAtLeast key peers = none) :
    ∀ q ∈ peers, q.id.toNat < key.toNat := by
  induction peers with
  | nil => simp
  | cons x peers ih =>
    unfold firstAtLeast at h
    split_ifs at h with hk
    rintro q (_ | ⟨_, hq⟩)
    · exact not_le.mp fun hle => hk (UInt8.le_iff_toNat_le.mpr hle)
    · exact ih h q hq

namespace Peers

variable {mBits : Nat} (R : Peers mBits)

theorem mem_ids {R : Peers mBits} {p : ChordPeer} (h : p ∈ R.peers) : p.id.toNat ∈ R.ids :=
  ⟨p, h, rfl⟩

theorem ids_lt {i : Nat} (h : i ∈ R.ids) : i < 2 ^ mBits := by
  obtain ⟨p, hp, rfl⟩ := h
  exact R.id_lt p hp

theorem ids_finite : R.ids.Finite := by
  apply (List.finite_toSet (R.peers.map fun p => p.id.toNat)).subset
  rintro _ ⟨p, hp, rfl⟩
  exact List.mem_map.mpr ⟨p, hp, rfl⟩

/-- The search gives the next peer on the ring. -/
theorem findSuccessorLinear_isNext (key : UInt8) :
    ∃ p ∈ R.peers, findSuccessorLinear key R.peers = some p ∧
      IsNext R.ids key.toNat p.id.toNat := by
  unfold findSuccessorLinear
  rcases h : firstAtLeast key R.peers with _ | p
  · obtain ⟨x, xs, hx⟩ := List.exists_cons_of_ne_nil R.ne_nil
    have hlt := firstAtLeast_none h
    have hmin : ∀ q ∈ R.peers, x.id.toNat ≤ q.id.toNat := by
      have hs := R.sorted
      rw [hx] at hs ⊢
      rintro q (_ | ⟨_, hq⟩)
      · exact le_rfl
      · exact (List.pairwise_cons.mp hs).1 q hq
    have hxm : x ∈ R.peers := by
      rw [hx]
      exact List.mem_cons_self
    refine ⟨x, hxm, by rw [hx]; rfl, mem_ids hxm, Or.inr ⟨?_, ?_⟩⟩
    · rintro _ ⟨q, hq, rfl⟩
      exact hlt q hq
    · rintro _ ⟨q, hq, rfl⟩
      exact hmin q hq
  · obtain ⟨hp, hkp, hle⟩ := firstAtLeast_some R.sorted h
    refine ⟨p, hp, rfl, mem_ids hp, Or.inl ⟨hkp, ?_⟩⟩
    rintro _ ⟨q, hq, rfl⟩ hkq
    exact hle q hq hkq

/-- A peer owns a key exactly if it is the next one. -/
theorem owns_iff {q : ChordPeer} (hq : q ∈ R.peers) (key : UInt8) :
    R.Owns q key ↔ IsNext R.ids key.toNat q.id.toNat := by
  constructor
  · rintro ⟨p, -, hp, harc⟩
    exact (isNext_iff_inArc (mem_ids hq) hp).mpr harc
  · intro h
    obtain ⟨i, hi⟩ := exists_isPrev R.ids_finite (mem_ids hq)
    obtain ⟨p, hp, rfl⟩ := hi.1
    exact ⟨p, hp, hi, (isNext_iff_inArc (mem_ids hq) hi).mp h⟩

/-- The owner of a key is the nearest peer clockwise, and the only one: the keys are shared out
among the arcs that end in the ids. -/
theorem ownership (key : UInt8) (hkey : key.toNat < 2 ^ mBits) :
    (∃ p ∈ R.peers, findSuccessorLinear key R.peers = some p ∧
      (∀ q ∈ R.peers, clockwise (2 ^ mBits) key.toNat p.id.toNat ≤
        clockwise (2 ^ mBits) key.toNat q.id.toNat) ∧
      ∀ q ∈ R.peers, (∃ p' ∈ R.peers, IsPrev R.ids q.id.toNat p'.id.toNat) ∧
        (R.Owns q key ↔ q.id = p.id)) ∧
    (∃! id, ∃ q ∈ R.peers, q.id = id ∧ R.Owns q key) ∧
    ∀ q, R.peers = [q] → IsPrev R.ids q.id.toNat q.id.toNat ∧ R.Owns q key := by
  obtain ⟨p, hp, hfind, hnext⟩ := R.findSuccessorLinear_isNext key
  have howns : ∀ q ∈ R.peers, R.Owns q key ↔ q.id = p.id := by
    intro q hq
    rw [R.owns_iff hq]
    constructor
    · intro h
      exact UInt8.toNat_inj.mp (h.unique hnext)
    · intro h
      rw [h]
      exact hnext
  have hown : R.Owns p key := (howns p hp).mpr rfl
  refine ⟨⟨p, hp, hfind, fun q hq => ?_, fun q hq => ⟨?_, howns q hq⟩⟩, ⟨p.id, ?_, ?_⟩, ?_⟩
  · exact (isNext_iff_clockwise (fun s hs => R.ids_lt hs) hkey (mem_ids hp)).mp hnext _ (mem_ids hq)
  · obtain ⟨i, hi⟩ := exists_isPrev R.ids_finite (mem_ids hq)
    obtain ⟨p', hp', rfl⟩ := hi.1
    exact ⟨p', hp', hi⟩
  · exact ⟨p, hp, rfl, hown⟩
  · rintro _ ⟨q, hq, rfl, ho⟩
    exact (howns q hq).mp ho
  · intro q hq
    have hids : R.ids = {q.id.toNat} := by
      ext i
      simp [ids, hq, eq_comm]
    have hprev : IsPrev R.ids q.id.toNat q.id.toNat := by
      rw [hids]
      exact isPrev_singleton _
    have hqm : q ∈ R.peers := by
      rw [hq]
      exact List.mem_singleton_self q
    exact ⟨hprev, q, hqm, hprev, inArc_self _ _⟩

/-- The ring of the peers 0, 1, 3 and 6 with ids of three bits. -/
def four : Peers 3 where
  peers := [⟨0⟩, ⟨1⟩, ⟨3⟩, ⟨6⟩]
  ne_nil := by decide
  sorted := by decide
  id_lt := by decide

/-- Key 5 belongs to peer 6. -/
theorem ownership_four :
    findSuccessorLinear 5 four.peers = some ⟨6⟩ ∧
    (∃ p ∈ four.peers, findSuccessorLinear 5 four.peers = some p ∧
      (∀ q ∈ four.peers, clockwise (2 ^ 3) 5 p.id.toNat ≤ clockwise (2 ^ 3) 5 q.id.toNat) ∧
      ∀ q ∈ four.peers, (∃ p' ∈ four.peers, IsPrev four.ids q.id.toNat p'.id.toNat) ∧
        (four.Owns q 5 ↔ q.id = p.id)) ∧
    ∃! id, ∃ q ∈ four.peers, q.id = id ∧ four.Owns q 5 := by
  obtain ⟨hp, hid, -⟩ := four.ownership 5 (by decide)
  exact ⟨by decide, hp, hid⟩

end Peers

end Corestack.Chord
