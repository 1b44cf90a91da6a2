import Mathlib.Logic.Function.Iterate
import Corestack.Raft.Advancing

/-! # Where a leader stands with a peer

What a leader knows of a peer's log is a cursor, which an exchange of a request
and its answer moves on or takes back. The moves lead to the end of the log if
and only if no batch on the way is a single entry.
-/

namespace Corestack.Raft

open Consensus

/-! ## The moves of a cursor -/

/-- `prev` entries come before `next_index`, the logs agree on the first `shared` of them, and
`matched` is `match_index`. -/
@[ext] structure Cursor where
  prev : Nat
  shared : Nat
  matched : Nat
  deriving DecidableEq, Repr

/-- What an exchange does to a leader with `k` entries. A match is only noted when at least two
entries have been sent. -/
def Cursor.step (k : Nat) (c : Cursor) : Cursor :=
  if c.shared < c.prev then { c with prev := c.prev - 1 }
  else if c.prev + 2 ≤ k then
    let m := min (c.prev + raftAppendBatch) k
    ⟨m, m, m⟩
  else c

/-- The entries that are missing will be sent in batches of which none is a single entry, and if
none is missing that has been noted. -/
def Cursor.Good (k : Nat) (c : Cursor) : Prop :=
  (k - c.shared) % raftAppendBatch ≠ 1 ∧ (c.shared = k → c.matched = k)

instance (k : Nat) (c : Cursor) : Decidable (c.Good k) :=
  inferInstanceAs (Decidable (_ ∧ _))

/-- The logs agree on no more entries than the cursor has before it. -/
structure Cursor.Bounded (k : Nat) (c : Cursor) : Prop where
  shared_le : c.shared ≤ c.prev
  prev_le : c.prev ≤ k

variable {k : Nat} {c : Cursor}

theorem Cursor.Bounded.step (h : c.Bounded k) : (c.step k).Bounded k := by
  obtain ⟨h₁, h₂⟩ := h
  unfold Cursor.step
  dsimp only
  split_ifs
  · exact ⟨by dsimp only; omega, by dsimp only; omega⟩
  · exact ⟨le_rfl, min_le_right _ _⟩
  · exact ⟨h₁, h₂⟩

/-- An exchange makes no cursor good. -/
theorem Cursor.Bounded.good_of_step (h : c.Bounded k) (hg : (c.step k).Good k) : c.Good k := by
  obtain ⟨h₁, h₂⟩ := h
  unfold Cursor.step at hg
  dsimp only at hg
  split_ifs at hg with hs hp
  · exact hg
  · obtain ⟨hm, -⟩ := hg
    simp only [Cursor.Good, raftAppendBatch] at hm ⊢
    omega
  · exact hg

theorem Cursor.Bounded.good_of_iterate (h : c.Bounded k) {n : Nat}
    (hg : ((Cursor.step k)^[n] c).Good k) : c.Good k := by
  induction n generalizing c with
  | zero => exact hg
  | succ n ih =>
    apply h.good_of_step
    exact ih h.step hg

/-- Refused requests lead back to the entries that the logs share. -/
theorem Cursor.iterate_walk (h : c.shared ≤ c.prev) :
    (Cursor.step k)^[c.prev - c.shared] c = { c with prev := c.shared } := by
  obtain ⟨d, hd⟩ := Nat.exists_eq_add_of_le h
  induction d generalizing c with
  | zero => rw [hd]; simp; ext <;> simp [hd]
  | succ d ih =>
    have hs : c.step k = { c with prev := c.prev - 1 } := if_pos (by omega)
    rw [hd, Nat.add_sub_cancel_left, Function.iterate_succ_apply, hs]
    have := ih (c := { c with prev := c.prev - 1 }) (by dsimp only; omega) (by dsimp only; omega)
    dsimp only at this
    rwa [show c.prev - 1 - c.shared = d by omega] at this

/-- From there accepted requests lead to the end of the log. -/
theorem Cursor.Good.iterate_climb (h : c.Good k) (hp : c.prev = c.shared) (hk : c.shared ≤ k) :
    ∃ n ≤ (k - c.shared + 63) / raftAppendBatch, (Cursor.step k)^[n] c = ⟨k, k, k⟩ := by
  obtain ⟨d, hd⟩ := Nat.exists_eq_add_of_le hk
  induction d using Nat.strong_induction_on generalizing c with
  | h d ih =>
    obtain ⟨hm, hz⟩ := h
    simp only [raftAppendBatch] at hm ⊢
    rcases Nat.eq_zero_or_pos d with rfl | hpos
    · have hc : c.shared = k := hd.symm
      refine ⟨0, Nat.zero_le _, ?_⟩
      ext
      · exact hp.trans hc
      · exact hc
      · exact hz hc
    · have hs : c.step k = ⟨min (c.prev + 64) k, min (c.prev + 64) k, min (c.prev + 64) k⟩ := by
        unfold Cursor.step
        rw [if_neg (by omega), if_pos (by omega)]
        rfl
      obtain ⟨n, hn, he⟩ := ih (k - (c.step k).shared) (by rw [hs]; dsimp only; omega)
        (c := c.step k) (by rw [hs]; simp only [Cursor.Good, raftAppendBatch]; omega) (by rw [hs])
        (by rw [hs]; exact min_le_right _ _) (by rw [hs]; dsimp only; omega)
      rw [hs] at hn
      simp only [raftAppendBatch] at hn
      exact ⟨n + 1, by omega, he⟩

/-- A leader catches up with a peer if and only if the cursor is good. -/
theorem Cursor.Bounded.iterate_iff (h : c.Bounded k) :
    (∃ n ≤ k + k / raftAppendBatch + 2, (Cursor.step k)^[n] c = ⟨k, k, k⟩) ↔ c.Good k := by
  constructor
  · rintro ⟨n, -, hn⟩
    apply h.good_of_iterate (n := n)
    rw [hn]
    simp [Cursor.Good]
  · intro hg
    obtain ⟨h₁, h₂⟩ := h
    obtain ⟨n, hn, he⟩ := Cursor.Good.iterate_climb (c := { c with prev := c.shared }) hg rfl
      (h₁.trans h₂)
    refine ⟨n + (c.prev - c.shared), ?_, ?_⟩
    · simp only [raftAppendBatch] at hn ⊢
      omega
    · rw [Function.iterate_add_apply, Cursor.iterate_walk h₁, he]

variable {cfg : Config} {g : cfg.History} {a p : cfg.Node} {r r' r₁ r₁' : RaftNode} {i n : Nat}

/-! ## The answer of a peer -/

instance (r r' : RaftNode) (n : Nat) : Decidable (SharesPrefix r r' n) :=
  inferInstanceAs (Decidable (_ ∧ _ ∧ _))

theorem SharesPrefix.zero (r r' : RaftNode) : SharesPrefix r r' 0 :=
  ⟨Nat.zero_le _, Nat.zero_le _, fun _ h => absurd h (Nat.not_lt_zero _)⟩

theorem SharesPrefix.mono {m : Nat} (h : SharesPrefix r r' n) (hm : m ≤ n) : SharesPrefix r r' m :=
  ⟨hm.trans h.1, hm.trans h.2.1, fun i hi => h.2.2 i (hi.trans_le hm)⟩

theorem sharesPrefix_iff : SharesPrefix r r' n ↔
    n ≤ r.pstate.logLen ∧ r.pstate.entries.take n <+: r'.pstate.entries := by
  constructor
  · rintro ⟨hn, hn', he⟩
    refine ⟨hn, List.prefix_iff_getElem?.mpr fun j hj => ?_⟩
    have hj' : j < n := (List.length_take_le _ _).trans_lt' hj
    rw [PersistentState.getElem?_entries _ (hj'.trans_le hn'), List.getElem_take,
      PersistentState.getElem_entries, he j hj']
  · rintro ⟨hn, hp⟩
    have h := sharesPrefix_of_isPrefix (List.take_prefix n r.pstate.entries) hp
    rwa [List.length_take, PersistentState.length_entries, min_eq_left hn] at h

theorem SharesPrefix.congr (h : r₁.pstate.entries = r.pstate.entries)
    (h' : r₁'.pstate.entries = r'.pstate.entries) :
    SharesPrefix r₁ r₁' n ↔ SharesPrefix r r' n := by
  rw [sharesPrefix_iff, sharesPrefix_iff, h, h', ← PersistentState.length_entries, h,
    PersistentState.length_entries]

/-- Where a leader stands with `peers[peer_idx]`. -/
def cursor (r r' : RaftNode) (peerIdx : Nat) : Cursor where
  prev := (r.lstate.nextIndex peerIdx).toNat - 1
  shared := Nat.findGreatest (SharesPrefix r r') ((r.lstate.nextIndex peerIdx).toNat - 1)
  matched := (r.lstate.matchIndex peerIdx).toNat

/-- What a leader makes of an answer of its term. -/
theorem handleAppendEntriesResponse_eq {resp : AppendEntriesResponse} (clk : Clock)
    (hl : r.state = .leader) (ht : resp.term = r.pstate.currentTerm)
    (hpe : r.peers = cfg.peerIds a) (hi : (cfg.peers a)[i]? = some p) :
    handleAppendEntriesResponse clk r resp (cfg.id p) =
      if resp.success then
        advanceCommitIndexLocked
          (if r.lstate.nextIndex i < resp.matchIndex then recordMatch r i resp.matchIndex else r)
      else if r.lstate.nextIndex i > 1 then stepBack r i
      else r := by
  have hpa : p ≠ a := cfg.mem_peers.mp (List.mem_of_getElem? hi)
  obtain ⟨j, hj⟩ := cfg.exists_findPeerIdx hpe hpa
  obtain rfl : j = i := cfg.peers_inj (cfg.findPeerIdx_eq hpe hj) hi
  unfold handleAppendEntriesResponse
  rw [if_neg (not_not.mpr hl), if_neg (by simp [ht]), if_neg (by simp [ht]), hj]

theorem entryCount_eq (k prev : Nat) :
    entryCount k (prev + 1) = min raftAppendBatch (k - prev) := by
  unfold entryCount raftAppendBatch
  dsimp only
  split_ifs <;> omega

/-- A peer that shares what precedes the entries does not refuse them. -/
theorem not_refuses {req : AppendEntriesRequest} (h : NodeRel g a r)
    (hi : (cfg.peers a)[i]? = some p) (hr : raftAppendEntries r i = some req)
    (hs : SharesPrefix r r' req.prevLogIndex.toNat) : ¬ Refuses r' req := by
  obtain ⟨-, -, -, -, hle, -, hlast⟩ := raftAppendEntries_spec h hi hr
  rintro (hlt | ⟨hpos, hne⟩)
  · exact hlt.not_ge hs.2.1
  · have hpos' : 0 < req.prevLogIndex.toNat := by simpa using UInt64.lt_iff_toNat_lt.mp hpos
    have hat := toNat_sub_one hpos'
    refine hne ?_
    rw [hat, ← hs.2.2 _ (Nat.sub_lt hpos' Nat.one_pos)]
    apply hlast
    rw [List.getLast?_take, if_neg hpos'.ne', PersistentState.getElem?_entries _ (by omega)]
    rfl

theorem findGreatest_sharesPrefix_congr (h : r₁.pstate.entries = r.pstate.entries)
    (h' : r₁'.pstate.entries = r'.pstate.entries) (n : Nat) :
    Nat.findGreatest (SharesPrefix r₁ r₁') n = Nat.findGreatest (SharesPrefix r r') n :=
  le_antisymm (Nat.findGreatest_mono_left (fun _ => (SharesPrefix.congr h h').mp) n)
    (Nat.findGreatest_mono_left (fun _ => (SharesPrefix.congr h h').mpr) n)

/-- A refused request takes the cursor one place back. -/
theorem Refused.cursor {req : AppendEntriesRequest} (h : NodeRel g a r)
    (hi : (cfg.peers a)[i]? = some p) (hr : raftAppendEntries r i = some req)
    (hrej : Refused r' req r₁') :
    r.lstate.nextIndex i > 1 ∧
      cursor (stepBack r i) r₁' i = (cursor r r' i).step r.pstate.logLen := by
  obtain ⟨hl, -, -, hprev, -, -, -⟩ := raftAppendEntries_spec h hi hr
  have hpos := (h.leader hl).next_pos hi
  have hnot : ¬ SharesPrefix r r' req.prevLogIndex.toNat := fun hs =>
    not_refuses h hi hr hs hrej.refuses
  obtain ⟨d, hd⟩ : ∃ d, req.prevLogIndex.toNat = d + 1 :=
    Nat.exists_eq_succ_of_ne_zero fun h0 => hnot (h0 ▸ SharesPrefix.zero r r')
  rw [hd] at hprev hnot
  have hnext : (r.lstate.nextIndex i).toNat = d + 2 := by omega
  have hback : ((stepBack r i).lstate.nextIndex i).toNat - 1 = d := by
    simp only [stepBack, Function.update_self, toNat_sub_one hpos]
    omega
  refine ⟨?_, ?_⟩
  · rw [gt_iff_lt, UInt64.lt_iff_toNat_lt, hnext]
    simp
  have hshared : (Raft.cursor r r' i).shared = Nat.findGreatest (SharesPrefix r r') d := by
    rw [← Nat.findGreatest_of_not hnot, hprev]
    rfl
  have hlt : (Raft.cursor r r' i).shared < (Raft.cursor r r' i).prev := by
    rw [hshared]
    exact (Nat.lt_succ_of_le (Nat.findGreatest_le d)).trans_eq hprev
  rw [Cursor.step, if_pos hlt]
  ext
  · simp only [Raft.cursor, hback]
    omega
  · rw [hshared]
    simp only [Raft.cursor, hback]
    exact findGreatest_sharesPrefix_congr rfl hrej.entries d
  · rfl

/-- What a peer shares with the leader when it has accepted the leader's request. -/
theorem Accepted.sharesPrefix {req : AppendEntriesRequest} {l : List LogEntry}
    (hv : Valid LogEntry.term g) (h : NodeRel g a r) (hi : (cfg.peers a)[i]? = some p)
    (hr : raftAppendEntries r i = some req) (ha : Accepted g r' req l r₁') :
    SharesPrefix r r' req.prevLogIndex.toNat ∧
      SharesPrefix r r₁' (req.prevLogIndex.toNat + req.log.length) := by
  obtain ⟨hl, ht, -, -, -, -, -⟩ := raftAppendEntries_spec h hi hr
  have hpre : l ++ req.log <+: r.pstate.entries := by
    rw [(h.leader hl).entries_eq hv h.toMatches, ← ht]
    exact ha.isPrefix
  rw [← ha.length, ← List.length_append]
  exact ⟨sharesPrefix_of_isPrefix ((List.prefix_append _ _).trans hpre) ha.prior,
    sharesPrefix_of_isPrefix hpre (ha.entries ▸ prefix_graft _ _)⟩

/-- An accepted request takes the cursor past its entries, if there are at least two. -/
theorem Accepted.cursor {req : AppendEntriesRequest} {l : List LogEntry}
    (hv : Valid LogEntry.term g) (h : NodeRel g a r) (hi : (cfg.peers a)[i]? = some p)
    (hr : raftAppendEntries r i = some req) (ha : Accepted g r' req l r₁')
    {m : UInt64} (hm : m = req.prevLogIndex + .ofNat req.log.length) :
    cursor (if r.lstate.nextIndex i < m then recordMatch r i m else r) r₁' i =
      (cursor r r' i).step r.pstate.logLen := by
  obtain ⟨hl, -, -, hprev, hle, hlog, -⟩ := raftAppendEntries_spec h hi hr
  have hpos := (h.leader hl).next_pos hi
  have hcap := h.inSync.logLen_le
  obtain ⟨hs, hs'⟩ := ha.sharesPrefix hv h hi hr
  have hnext : (r.lstate.nextIndex i).toNat = req.prevLogIndex.toNat + 1 := by omega
  have hcount : req.log.length =
      min raftAppendBatch (r.pstate.logLen - req.prevLogIndex.toNat) := by
    rw [hlog, hnext, entryCount_eq, List.length_take, List.length_drop,
      PersistentState.length_entries, min_assoc, min_self]
  have hmn : m.toNat = req.prevLogIndex.toNat + req.log.length := by
    rw [hm, toNat_add_ofNat (by omega)]
  generalize req.prevLogIndex.toNat = d at *
  have hcur : Raft.cursor r r' i = ⟨d, d, (r.lstate.matchIndex i).toNat⟩ := by
    unfold Raft.cursor
    rw [← hprev, Nat.findGreatest_eq hs]
  rw [hcur, Cursor.step, if_neg (lt_irrefl d)]
  dsimp only
  by_cases htwo : d + 2 ≤ r.pstate.logLen
  · have hlen : d + req.log.length = min (d + raftAppendBatch) r.pstate.logLen := by omega
    have hlt : r.lstate.nextIndex i < m := by
      rw [UInt64.lt_iff_toNat_lt, hnext, hmn, hlen]
      simp only [raftAppendBatch]
      omega
    have hrec : ((recordMatch r i m).lstate.nextIndex i).toNat - 1 = d + req.log.length := by
      simp only [recordMatch, Function.update_self]
      rw [toNat_add_one (by omega), hmn, Nat.add_sub_cancel]
    rw [if_pos hlt, if_pos htwo, ← hlen]
    ext
    · exact hrec
    · simp only [Raft.cursor, hrec]
      exact Nat.findGreatest_eq hs'
    · simpa only [Raft.cursor, recordMatch, Function.update_self] using hmn
  · have hlt : ¬ r.lstate.nextIndex i < m := by
      rw [UInt64.lt_iff_toNat_lt, hnext, hmn]
      omega
    rw [if_neg hlt, if_neg htwo]
    unfold Raft.cursor
    rw [← hprev, Nat.findGreatest_eq (hs'.mono (Nat.le_add_right _ _))]

/-- An exchange takes the cursor one step on. -/
theorem exchange_cursor {req : AppendEntriesRequest} {resp : AppendEntriesResponse}
    {clk clk' : Clock} (hv : Valid LogEntry.term g) (hg : GoodLogs g) (h : NodeRel g a r)
    (h' : NodeRel g p r') (hi : (cfg.peers a)[i]? = some p)
    (hr : raftAppendEntries r i = some req) (ht : r'.pstate.currentTerm ≤ r.pstate.currentTerm)
    (hx : handleAppendEntriesRequest clk r' req = (r₁', resp))
    (hy : handleAppendEntriesResponse clk' r resp (cfg.id p) = r₁) :
    r₁.state = .leader ∧ r₁.pstate = r.pstate ∧
      r₁'.pstate.currentTerm = r.pstate.currentTerm ∧
      cursor r₁ r₁' i = (cursor r r' i).step r.pstate.logLen := by
  obtain ⟨hl, hterm, -⟩ := raftAppendEntries_spec h hi hr
  have hp := raftAppendEntries_rel hv h hi hr
  have hcases := handleAppendEntriesRequest_cases clk hv hg h' hp
  rw [hx] at hcases
  subst hy
  rcases hcases with ⟨hlt, -⟩ | ⟨hrej, hresp⟩ | ⟨l, hacc, hresp⟩
  · exact absurd hlt (not_lt.mpr (hterm ▸ ht))
  · obtain ⟨hgt, hc⟩ := hrej.cursor h hi hr
    dsimp only at hresp
    rw [handleAppendEntriesResponse_eq clk' hl (hresp ▸ hterm) h.peers hi, hresp,
      if_neg (by simp), if_pos hgt]
    exact ⟨hl, rfl, hrej.currentTerm.trans hterm, hc⟩
  · dsimp only at hresp
    have hc := hacc.cursor hv h hi hr rfl
    rw [handleAppendEntriesResponse_eq clk' hl (hresp ▸ hterm) h.peers hi, hresp, if_pos rfl]
    dsimp only
    obtain ⟨n, hn⟩ := advanceCommitIndexLocked_eq (if r.lstate.nextIndex i <
      req.prevLogIndex + .ofNat req.log.length then
        recordMatch r i (req.prevLogIndex + .ofNat req.log.length) else r)
    rw [hn]
    refine ⟨?_, ?_, hacc.currentTerm.trans hterm, ?_⟩
    · split_ifs
      · exact hl
      · exact hl
    · split_ifs
      · rfl
      · rfl
    · rw [← hc]
      split_ifs
      · rfl
      · rfl

end Corestack.Raft
