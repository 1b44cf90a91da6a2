import Mathlib.Logic.Function.Basic
import Corestack.Chord.Successor
import Corestack.Ring.Interval

/-! # Finger tables

The fingers of a node are intervals that double in length from the node on. They
share out the keys of the other places, and each knows the next peer from its start.
-/

namespace Corestack.Chord

open Corestack.Ring

structure FingerEntry where
  start : UInt8
  end_ : UInt8
  successor : ChordPeer

structure ChordNode where
  id : UInt8
  predecessor : ChordPeer
  successor : ChordPeer
  fingers : Nat → FingerEntry

/-- Fingers are counted from 1; 255 is the answer to any other. -/
def fingerStart (mBits : Nat) (nodeId finger : UInt8) : UInt8 :=
  if finger.toNat < 1 ∨ finger.toNat > mBits then 255
  else .ofNat ((nodeId.toNat + 2 ^ (finger.toNat - 1)) % 2 ^ mBits)

def fingerIntervalEnd (mBits : Nat) (nodeId finger : UInt8) : UInt8 :=
  if finger.toNat < 1 ∨ finger.toNat > mBits then 255
  else .ofNat ((nodeId.toNat + 2 ^ finger.toNat) % 2 ^ mBits)

/-- One turn of the loop of `calculate_fingertable_known_nodes`, which comes with some peer. -/
def calculateFinger (mBits : Nat) (peers : List ChordPeer) (node : ChordNode) (i : Nat) :
    ChordNode :=
  let start := fingerStart mBits node.id (.ofNat (i + 1))
  let entry := ⟨start, fingerIntervalEnd mBits node.id (.ofNat (i + 1)),
    (findSuccessorLinear start peers).getD (node.fingers i).successor⟩
  { node with fingers := Function.update node.fingers i entry }

def calculateFingertableKnownNodes (mBits : Nat) (node : ChordNode) (peers : List ChordPeer) :
    ChordNode :=
  if peers = [] then node
  else (List.range mBits).foldl (calculateFinger mBits peers) node

/-! ## The loop -/

variable {mBits i k : Nat} {node : ChordNode} {peers : List ChordPeer}

/-- The entry of finger `i + 1`. -/
structure IsFinger (mBits : Nat) (nodeId : UInt8) (peers : List ChordPeer) (i : Nat)
    (entry : FingerEntry) : Prop where
  start : entry.start = fingerStart mBits nodeId (.ofNat (i + 1))
  end_ : entry.end_ = fingerIntervalEnd mBits nodeId (.ofNat (i + 1))
  successor : ∀ p, findSuccessorLinear entry.start peers = some p → entry.successor = p

/-- After `k` turns the first `k` fingers are there. -/
theorem foldl_calculateFinger (mBits : Nat) (node : ChordNode) (peers : List ChordPeer) (k : Nat) :
    ((List.range k).foldl (calculateFinger mBits peers) node).id = node.id ∧
      ∀ i < k, IsFinger mBits node.id peers i
        (((List.range k).foldl (calculateFinger mBits peers) node).fingers i) := by
  induction k with
  | zero => exact ⟨rfl, fun i hi => absurd hi (Nat.not_lt_zero i)⟩
  | succ k ih =>
    obtain ⟨hid, hfin⟩ := ih
    rw [List.range_succ, List.foldl_append, List.foldl_cons, List.foldl_nil]
    constructor
    · exact hid
    · intro i hi
      rcases Nat.lt_succ_iff_lt_or_eq.mp hi with hlt | rfl
      · have hother : (calculateFinger mBits peers
            ((List.range k).foldl (calculateFinger mBits peers) node) k).fingers i =
            ((List.range k).foldl (calculateFinger mBits peers) node).fingers i :=
          Function.update_of_ne hlt.ne _ _
        rw [hother]
        exact hfin i hlt
      · rw [← hid]
        constructor
        · simp [calculateFinger]
        · simp [calculateFinger]
        · intro p hp
          simp only [calculateFinger, Function.update_self] at hp ⊢
          rw [hp, Option.getD_some]

theorem toNat_finger (hm : mBits ≤ 8) (hi : i < mBits) : (UInt8.ofNat (i + 1)).toNat = i + 1 := by
  rw [UInt8.toNat_ofNat', Nat.mod_eq_of_lt (by omega)]

/-- A place of the ring fits its type. -/
theorem toNat_ofNat_mod (hm : mBits ≤ 8) (n : Nat) :
    (UInt8.ofNat (n % 2 ^ mBits)).toNat = n % 2 ^ mBits := by
  have hlt := Nat.mod_lt n (Nat.two_pow_pos mBits)
  have hle : 2 ^ mBits ≤ 2 ^ 8 := Nat.pow_le_pow_right (by decide) hm
  rw [UInt8.toNat_ofNat', Nat.mod_eq_of_lt (hlt.trans_le hle)]

theorem toNat_fingerStart (hm : mBits ≤ 8) (hi : i < mBits) (nodeId : UInt8) :
    (fingerStart mBits nodeId (.ofNat (i + 1))).toNat = (nodeId.toNat + 2 ^ i) % 2 ^ mBits := by
  have hf := toNat_finger hm hi
  rw [fingerStart, if_neg (by omega), toNat_ofNat_mod hm, hf, Nat.add_sub_cancel]

theorem toNat_fingerIntervalEnd (hm : mBits ≤ 8) (hi : i < mBits) (nodeId : UInt8) :
    (fingerIntervalEnd mBits nodeId (.ofNat (i + 1))).toNat =
      (nodeId.toNat + 2 ^ (i + 1)) % 2 ^ mBits := by
  have hf := toNat_finger hm hi
  rw [fingerIntervalEnd, if_neg (by omega), toNat_ofNat_mod hm, hf]

/-! ## The table -/

/-- What a finger table should be: every key but the own id lies in one finger, the fingers follow
each other around the ring, and each knows the nearest peer from its start. -/
structure CoversRing (mBits : Nat) (peers : List ChordPeer) (node : ChordNode) : Prop where
  covers : ∀ key < 2 ^ mBits, key ≠ node.id.toNat → ∃! i, i < mBits ∧
    InInterval (node.fingers i).start.toNat (node.fingers i).end_.toNat key
  not_self : ∀ i < mBits,
    ¬ InInterval (node.fingers i).start.toNat (node.fingers i).end_.toNat node.id.toNat
  adjacent : ∀ i, i + 1 < mBits → (node.fingers i).end_ = (node.fingers (i + 1)).start
  last : (node.fingers (mBits - 1)).end_ = node.id
  successor_mem : ∀ i < mBits, (node.fingers i).successor ∈ peers
  nearest : ∀ i < mBits, ∀ q ∈ peers,
    clockwise (2 ^ mBits) (node.fingers i).start.toNat (node.fingers i).successor.id.toNat ≤
      clockwise (2 ^ mBits) (node.fingers i).start.toNat q.id.toNat

namespace Peers

/-- The finger table covers the ring, whichever the node and the peers are. -/
theorem fingertable_covers (R : Peers mBits) (node : ChordNode) (h1 : 1 ≤ mBits) (h8 : mBits ≤ 8)
    (hid : node.id.toNat < 2 ^ mBits) :
    (calculateFingertableKnownNodes mBits node R.peers).id = node.id ∧
      CoversRing mBits R.peers (calculateFingertableKnownNodes mBits node R.peers) := by
  have htable : calculateFingertableKnownNodes mBits node R.peers =
      (List.range mBits).foldl (calculateFinger mBits R.peers) node := if_neg R.ne_nil
  obtain ⟨hsame, hfin⟩ := foldl_calculateFinger mBits node R.peers mBits
  rw [← htable] at hsame hfin
  set table := calculateFingertableKnownNodes mBits node R.peers
  have hstart : ∀ i < mBits, (table.fingers i).start.toNat =
      (node.id.toNat + 2 ^ i) % 2 ^ mBits := by
    intro i hi
    rw [(hfin i hi).start, toNat_fingerStart h8 hi]
  have hend : ∀ i < mBits, (table.fingers i).end_.toNat =
      (node.id.toNat + 2 ^ (i + 1)) % 2 ^ mBits := by
    intro i hi
    rw [(hfin i hi).end_, toNat_fingerIntervalEnd h8 hi]
  have hsucc : ∀ i < mBits, (table.fingers i).successor ∈ R.peers ∧
      IsNext R.ids (table.fingers i).start.toNat (table.fingers i).successor.id.toNat := by
    intro i hi
    obtain ⟨p, hp, hfind, hnext⟩ := R.findSuccessorLinear_isNext (table.fingers i).start
    rw [(hfin i hi).successor p hfind]
    exact ⟨hp, hnext⟩
  refine ⟨hsame, ?_⟩
  constructor
  · intro key hkey hne
    rw [hsame] at hne
    obtain ⟨i, ⟨hi, hin⟩, huniq⟩ := existsUnique_inInterval hid hkey hne
    refine ⟨i, ⟨hi, ?_⟩, ?_⟩
    · rw [hstart i hi, hend i hi]
      exact hin
    · rintro j ⟨hj, hjn⟩
      rw [hstart j hj, hend j hj] at hjn
      exact huniq j ⟨hj, hjn⟩
  · intro i hi
    rw [hstart i hi, hend i hi, hsame]
    exact not_inInterval_self hid hi
  · intro i hi
    apply UInt8.toNat_inj.mp
    rw [hend i (Nat.lt_of_succ_lt hi), hstart (i + 1) hi]
  · apply UInt8.toNat_inj.mp
    rw [hend (mBits - 1) (by omega), hsame, Nat.sub_add_cancel h1, Nat.add_mod_right,
      Nat.mod_eq_of_lt hid]
  · exact fun i hi => (hsucc i hi).1
  · intro i hi q hq
    obtain ⟨hmem, hnext⟩ := hsucc i hi
    have hlt : (table.fingers i).start.toNat < 2 ^ mBits := by
      rw [hstart i hi]
      exact Nat.mod_lt _ (Nat.two_pow_pos mBits)
    exact (isNext_iff_clockwise (fun s hs => R.ids_lt hs) hlt (mem_ids hmem)).mp hnext _
      (mem_ids hq)

/-- Node 6 before its table is calculated. -/
def nodeSix : ChordNode := ⟨6, ⟨3⟩, ⟨0⟩, fun _ => ⟨0, 0, ⟨0⟩⟩⟩

theorem fingertable_covers_six :
    CoversRing 3 four.peers (calculateFingertableKnownNodes 3 nodeSix four.peers) :=
  (four.fingertable_covers nodeSix (by decide) (by decide) (by decide)).2

example : (calculateFingertableKnownNodes 3 nodeSix four.peers).fingers 2 = ⟨2, 6, ⟨3⟩⟩ := rfl

end Peers

/-! ## A node that knows its successor only -/

/-- One turn of the loop of `calculate_fingertable`. -/
def calculateOwnFinger (mBits : Nat) (node : ChordNode) (i : Nat) : ChordNode :=
  let entry := ⟨fingerStart mBits node.id (.ofNat (i + 1)),
    fingerIntervalEnd mBits node.id (.ofNat (i + 1)), node.successor⟩
  { node with fingers := Function.update node.fingers i entry }

def calculateFingertable (mBits : Nat) (node : ChordNode) : ChordNode :=
  (List.range mBits).foldl (calculateOwnFinger mBits) node

theorem findSuccessorLinear_singleton (key : UInt8) (p : ChordPeer) :
    findSuccessorLinear key [p] = some p := by
  unfold findSuccessorLinear firstAtLeast
  split_ifs
  · rfl
  · rfl

/-- It is the table of a ring in which that is the only peer. -/
theorem calculateFingertable_eq (mBits : Nat) (node : ChordNode) :
    calculateFingertable mBits node =
      calculateFingertableKnownNodes mBits node [node.successor] := by
  have hturn : ∀ n : ChordNode, n.successor = node.successor → ∀ i,
      calculateOwnFinger mBits n i = calculateFinger mBits [node.successor] n i := by
    intro n hn i
    simp only [calculateOwnFinger, calculateFinger, findSuccessorLinear_singleton, hn,
      Option.getD_some]
  have hloop : ∀ (l : List Nat) (n : ChordNode), n.successor = node.successor →
      l.foldl (calculateOwnFinger mBits) n =
        l.foldl (calculateFinger mBits [node.successor]) n := by
    intro l
    induction l with
    | nil => exact fun _ _ => rfl
    | cons i l ih =>
      intro n hn
      rw [List.foldl_cons, List.foldl_cons, ← hturn n hn i]
      exact ih _ hn
  rw [calculateFingertable, calculateFingertableKnownNodes, if_neg (List.cons_ne_nil _ _)]
  exact hloop _ node rfl

end Corestack.Chord
