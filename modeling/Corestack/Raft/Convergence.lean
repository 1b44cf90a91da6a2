import Corestack.Raft.Cursor

/-! # How a leader catches up with a peer

A leader repeats the same exchange with one peer: it sends what comes next, the
peer answers, and the leader moves on or steps back. Once enough peers have its
log and it knows of them, the log is committed.
-/

namespace Corestack.Raft

open Consensus

variable {cfg : Config} {s f : Cluster cfg} {g : cfg.History} {a p : cfg.Node} {r r' : RaftNode}
  {t : UInt64} {i : Nat}

/-! ## Exchanges in a cluster -/

/-- A round with one peer, and the clocks of the two calls that may read one. -/
structure Exchange where
  peerIdx : Nat
  peerClk : Clock
  leaderClk : Clock

namespace Cluster

/-- `raft_append_entries`, `HandleAppendEntriesRequest` on the peer and
`HandleAppendEntriesResponse` on node `a`, without loss. -/
def exchange (s : Cluster cfg) (a : cfg.Node) (e : Exchange) : Cluster cfg :=
  ((s.step (.appendEntries a e.peerIdx)).step (.deliver s.net.length e.peerClk)).step
    (.deliver (s.net.length + 1) e.leaderClk)

def exchanges (s : Cluster cfg) (a : cfg.Node) (es : List Exchange) : Cluster cfg :=
  es.foldl (·.exchange a ·) s

end Cluster

theorem raftAppendEntries_of_leader (h : NodeRel g a r) (hl : r.state = .leader)
    (hi : (cfg.peers a)[i]? = some p) : ∃ req, raftAppendEntries r i = some req := by
  have hlt : i < r.peers.length := by
    rw [h.peers, Config.peerIds, List.length_map]
    exact (List.getElem?_eq_some_iff.mp hi).1
  exact ⟨_, if_neg (by simp [hl, hlt])⟩

theorem Cluster.TermsBelow.update (h : s.TermsBelow) (hr : r.pstate.currentTerm.toNat < 2 ^ 64 - 1)
    (a : cfg.Node) (out : List (Packet cfg)) : (s.update a r out).TermsBelow := by
  intro b
  rw [Cluster.update_node]
  split_ifs
  · exact hr
  · exact h b

theorem Cluster.Reaches.step (h : s.Reaches f) (e : Event cfg) (ht : (f.step e).TermsBelow) :
    s.Reaches (f.step e) := .tail h ⟨e, rfl, ht⟩

/-- What an exchange with a peer `p` of no later term does to a leader `a` of term `t`. -/
structure Exchanged (s : Cluster cfg) (a p : cfg.Node) (t : UInt64) (i : Nat) (f : Cluster cfg) :
    Prop where
  reaches : s.Reaches f
  leads : f.Leads a t
  pstate : (f.node a).pstate = (s.node a).pstate
  peer : (f.node p).pstate.currentTerm = t
  other : ∀ b, b ≠ a → b ≠ p → f.node b = s.node b
  cursor : cursor (f.node a) (f.node p) i =
    (cursor (s.node a) (s.node p) i).step (s.node a).pstate.logLen

theorem Simulates.exchange (h : Simulates s g) (hl : s.Leads a t) {e : Exchange}
    (hi : (cfg.peers a)[e.peerIdx]? = some p) (hp : (s.node p).pstate.currentTerm ≤ t) :
    Exchanged s a p t e.peerIdx (s.exchange a e) := by
  obtain ⟨hl, rfl⟩ := hl
  have hpa : p ≠ a := cfg.mem_peers.mp (List.mem_of_getElem? hi)
  obtain ⟨req, hreq⟩ := raftAppendEntries_of_leader (h.node a) hl hi
  rcases hx : handleAppendEntriesRequest e.peerClk (s.node p) req with ⟨r₁', resp⟩
  obtain ⟨hl₁, hps, hterm, hcur⟩ := exchange_cursor h.valid h.logs (h.node a) (h.node p) hi hreq hp
    hx (rfl : handleAppendEntriesResponse e.leaderClk (s.node a) resp (cfg.id p) = _)
  set r₁ := handleAppendEntriesResponse e.leaderClk (s.node a) resp (cfg.id p) with hr₁
  -- the states in between
  have h₁ : s.step (.appendEntries a e.peerIdx) =
      s.update a (s.node a) [⟨a, p, .appendEntries req⟩] := by
    simp only [Cluster.step, hreq, hi]
  have h₂ : (s.update a (s.node a) [⟨a, p, .appendEntries req⟩]).step
        (.deliver s.net.length e.peerClk) =
      (s.update a (s.node a) [⟨a, p, .appendEntries req⟩]).update p r₁'
        [⟨p, a, .appendEntriesResponse resp⟩] := by
    simp [Cluster.step, Cluster.update, Packet.receive, hx]
  have h₃ : ((s.update a (s.node a) [⟨a, p, .appendEntries req⟩]).update p r₁'
        [⟨p, a, .appendEntriesResponse resp⟩]).step (.deliver (s.net.length + 1) e.leaderClk) =
      ((s.update a (s.node a) [⟨a, p, .appendEntries req⟩]).update p r₁'
        [⟨p, a, .appendEntriesResponse resp⟩]).update a r₁ [] := by
    simp [Cluster.step, Cluster.update, Packet.receive, hpa.symm, hr₁]
  have hf : s.exchange a e = ((s.update a (s.node a) [⟨a, p, .appendEntries req⟩]).update p r₁'
        [⟨p, a, .appendEntriesResponse resp⟩]).update a r₁ [] := by
    rw [Cluster.exchange, h₁, h₂, h₃]
  have hb₁ := h.below.update (h.below a) a [⟨a, p, .appendEntries req⟩]
  have hb₂ := hb₁.update (hterm ▸ h.below a) p [⟨p, a, .appendEntriesResponse resp⟩]
  have hb₃ := hb₂.update (hps ▸ h.below a) a []
  have hfa : (s.exchange a e).node a = r₁ := by
    rw [hf, Cluster.update_node, if_pos rfl]
  have hfp : (s.exchange a e).node p = r₁' := by
    rw [hf, Cluster.update_node, if_neg hpa, Cluster.update_node, if_pos rfl]
  have hreach : s.Reaches (s.exchange a e) := by
    refine ((Cluster.Reaches.step .refl _ ?_).step _ ?_).step _ ?_
    · rwa [h₁]
    · rwa [h₁, h₂]
    · rwa [h₁, h₂, h₃]
  refine ⟨hreach, ?_, ?_, ?_, fun b hba hbp => ?_, ?_⟩
  · exact ⟨hfa ▸ hl₁, by rw [hfa, hps]⟩
  · rw [hfa, hps]
  · rw [hfp, hterm]
  · rw [hf, Cluster.update_node, if_neg hba, Cluster.update_node, if_neg hbp, Cluster.update_node,
      if_neg hba]
  · rw [hfa, hfp, hcur]

/-- Exchanges of a leader with peers that are in no later term. -/
theorem Simulates.exchanges (h : Simulates s g) (hl : s.Leads a t) {es : List Exchange}
    (hes : ∀ e ∈ es, ∃ p, (cfg.peers a)[e.peerIdx]? = some p ∧ (s.node p).pstate.currentTerm ≤ t) :
    s.Reaches (s.exchanges a es) ∧ (s.exchanges a es).Leads a t ∧
      ((s.exchanges a es).node a).pstate = (s.node a).pstate := by
  induction es generalizing s g with
  | nil => exact ⟨.refl, hl, rfl⟩
  | cons e es ih =>
    obtain ⟨p, hi, hp⟩ := hes e List.mem_cons_self
    have hx := h.exchange hl hi hp
    obtain ⟨g', hg', -⟩ := h.reaches hx.reaches
    obtain ⟨hr, hl', hps⟩ := ih hg' hx.leads fun e' he' => by
      obtain ⟨q, hj, hq⟩ := hes e' (List.mem_cons_of_mem _ he')
      refine ⟨q, hj, ?_⟩
      rcases eq_or_ne q p with rfl | hqp
      · exact hx.peer.le
      · rwa [hx.other q (cfg.mem_peers.mp (List.mem_of_getElem? hj)) hqp]
    exact ⟨hx.reaches.trans hr, hl', hps.trans hx.pstate⟩

/-- Exchanges with one peer are steps of its cursor. -/
theorem Simulates.exchanges_cursor (h : Simulates s g) (hl : s.Leads a t)
    (hi : (cfg.peers a)[i]? = some p) (hp : (s.node p).pstate.currentTerm ≤ t) {es : List Exchange}
    (hes : ∀ e ∈ es, e.peerIdx = i) :
    cursor ((s.exchanges a es).node a) ((s.exchanges a es).node p) i =
      (Cursor.step (s.node a).pstate.logLen)^[es.length] (cursor (s.node a) (s.node p) i) := by
  induction es generalizing s g with
  | nil => rfl
  | cons e es ih =>
    obtain rfl := hes e List.mem_cons_self
    have hx := h.exchange hl hi hp
    obtain ⟨g', hg', -⟩ := h.reaches hx.reaches
    have hrest := ih hg' hx.leads hx.peer.le fun e' he' => hes e' (List.mem_cons_of_mem _ he')
    rw [hx.pstate, hx.cursor] at hrest
    exact hrest

/-! ## Convergence -/

/-- The peer has the log of the leader, which knows it. -/
structure Replicated (r r' : RaftNode) (peerIdx : Nat) : Prop where
  log : SharesPrefix r r' r.pstate.logLen
  matchIndex : (r.lstate.matchIndex peerIdx).toNat = r.pstate.logLen
  nextIndex : (r.lstate.nextIndex peerIdx).toNat = r.pstate.logLen + 1

theorem replicated_iff (h : NodeRel g a r) (hl : r.state = .leader)
    (hi : (cfg.peers a)[i]? = some p) :
    Replicated r r' i ↔ cursor r r' i = ⟨r.pstate.logLen, r.pstate.logLen, r.pstate.logLen⟩ := by
  have hpos := (h.leader hl).next_pos hi
  constructor
  · rintro ⟨hs, hm, hn⟩
    ext
    · simp only [cursor, hn, Nat.add_sub_cancel]
    · simp only [cursor, hn, Nat.add_sub_cancel]
      exact Nat.findGreatest_eq hs
    · exact hm
  · intro hc
    have hprev := congrArg Cursor.prev hc
    have hshared := congrArg Cursor.shared hc
    dsimp only [cursor] at hprev hshared
    rw [hprev] at hshared
    refine ⟨?_, congrArg Cursor.matched hc, by omega⟩
    have hspec := Nat.findGreatest_spec (P := SharesPrefix r r') (Nat.zero_le r.pstate.logLen)
      (SharesPrefix.zero r r')
    rwa [hshared] at hspec

theorem cursor_bounded (h : NodeRel g a r) (hl : r.state = .leader)
    (hi : (cfg.peers a)[i]? = some p) (r' : RaftNode) :
    (cursor r r' i).Bounded r.pstate.logLen := by
  have hle := (h.leader hl).next_le hi
  exact ⟨Nat.findGreatest_le _, by dsimp only [cursor]; omega⟩

/-- A run may go on through what is reached from its last state. -/
theorem Run.extend {past : List (Cluster cfg)} (h : Cluster.Run (s :: past)) (hr : s.Reaches f) :
    ∃ past', Cluster.Run (f :: past') := by
  induction hr with
  | refl => exact ⟨past, h⟩
  | tail _ he ih =>
    obtain ⟨e, rfl, ht⟩ := he
    obtain ⟨past', h'⟩ := ih
    exact ⟨_, .step e h' ht⟩

/-- What enough nodes hold of a leader, it counts. -/
theorem majority_le_countReplicas {Q : Finset cfg.Node} (hp : r.peers = cfg.peerIds a) {m : UInt64}
    (hQ : majority (cfg.n + 1) ≤ Q.card)
    (hq : ∀ q ∈ Q, q = a ∨ ∃ j, (cfg.peers a)[j]? = some q ∧ m ≤ r.lstate.matchIndex j) :
    majority (r.peers.length + 1) ≤ countReplicas r m := by
  have hlen : r.peers.length = (cfg.peers a).length := by rw [hp]; simp [Config.peerIds]
  obtain ⟨R, hR, hr⟩ := cfg.exists_quorum a fun j => decide (r.lstate.matchIndex j ≥ m)
  have hsub : Q ⊆ R := by
    intro q hm
    refine (hr q).mpr ((hq q hm).imp_right ?_)
    rintro ⟨j, hj, hle⟩
    exact ⟨j, hj, decide_eq_true hle⟩
  rw [countReplicas, hlen, ← hR, cfg.length_peers]
  exact hQ.trans (Finset.card_le_card hsub)

/-- A leader that knows of enough copies of its log, whose last entry is of its own term, has
committed all of it. -/
theorem Run.commitIndex_eq {past : List (Cluster cfg)} (h : Cluster.Run (s :: past))
    (hl : s.Leads a t) (hlast : raftLastLogTerm (s.node a) = t) {Q : Finset cfg.Node}
    (hQ : majority (cfg.n + 1) ≤ Q.card)
    (hq : ∀ q ∈ Q, q = a ∨ ∃ j, (cfg.peers a)[j]? = some q ∧
      Replicated (s.node a) (s.node q) j) :
    (s.node a).vstate.commitIndex.toNat = (s.node a).pstate.logLen := by
  obtain ⟨g, hg⟩ := Run.simulates h
  obtain ⟨hl, ht⟩ := hl
  have hnode := hg.node a
  have hcap := hnode.inSync.logLen_le
  refine le_antisymm ((hnode.leader hl).commit_le hg.valid hnode) ?_
  rcases Nat.eq_zero_or_pos (s.node a).pstate.logLen with h0 | hpos
  · omega
  have hlt := Run.advanced h a hl ((s.node a).pstate.logLen - 1) (by omega)
    (by rw [ht, ← hlast, raftLastLogTerm, if_neg hpos.ne']) ?_
  · omega
  rw [Nat.sub_add_cancel hpos]
  refine majority_le_countReplicas hnode.peers hQ fun q hm => (hq q hm).imp_right ?_
  rintro ⟨j, hj, hrep⟩
  refine ⟨j, hj, ?_⟩
  rw [UInt64.le_iff_toNat_le, hrep.matchIndex, toNat_ofNat hcap]

/-- The exchanges with one peer at the given times. -/
def rounds (i : Nat) (clk : Nat → Clock × Clock) (n : Nat) : List Exchange :=
  (List.range n).map fun j => ⟨i, (clk j).1, (clk j).2⟩

/-- Exchanges with a peer bring it the leader's log, and the leader the knowledge of it, if and only
if the cursor is good. When that has been done for enough peers, the log is committed. -/
theorem replication_converges_iff {past : List (Cluster cfg)} (h : Cluster.Run (s :: past))
    (hl : s.Leads a t) (hi : (cfg.peers a)[i]? = some p) (hp : (s.node p).pstate.currentTerm ≤ t)
    (clk : Nat → Clock × Clock) :
    ((∃ n ≤ (s.node a).pstate.logLen + (s.node a).pstate.logLen / raftAppendBatch + 2,
        Replicated ((s.exchanges a (rounds i clk n)).node a)
          ((s.exchanges a (rounds i clk n)).node p) i) ↔
      (cursor (s.node a) (s.node p) i).Good (s.node a).pstate.logLen) ∧
    ∀ es : List Exchange,
      (∀ e ∈ es, ∃ q, (cfg.peers a)[e.peerIdx]? = some q ∧ (s.node q).pstate.currentTerm ≤ t) →
      raftLastLogTerm (s.node a) = t → ∀ Q : Finset cfg.Node, majority (cfg.n + 1) ≤ Q.card →
      (∀ q ∈ Q, q = a ∨ ∃ j, (cfg.peers a)[j]? = some q ∧
        Replicated ((s.exchanges a es).node a) ((s.exchanges a es).node q) j) →
      ((s.exchanges a es).node a).vstate.commitIndex.toNat = (s.node a).pstate.logLen := by
  obtain ⟨g, hg⟩ := Run.simulates h
  constructor
  · rw [← (cursor_bounded (hg.node a) hl.1 hi (s.node p)).iterate_iff]
    refine exists_congr fun n => and_congr_right fun _ => ?_
    have hes : ∀ e ∈ rounds i clk n, e.peerIdx = i := fun e he => by
      obtain ⟨j, -, rfl⟩ := List.mem_map.mp he
      rfl
    have hlen : (rounds i clk n).length = n := by simp [rounds]
    obtain ⟨hr, hl', hps⟩ := hg.exchanges hl fun e he => ⟨p, (hes e he).symm ▸ hi, hp⟩
    obtain ⟨g', hg', -⟩ := hg.reaches hr
    rw [replicated_iff (hg'.node a) hl'.1 hi, hg.exchanges_cursor hl hi hp hes, hlen, hps]
  · intro es hes hlast Q hQ hq
    obtain ⟨hr, hl', hps⟩ := hg.exchanges hl hes
    obtain ⟨past', h'⟩ := Run.extend h hr
    rw [← hps]
    refine Run.commitIndex_eq h' hl' ?_ hQ hq
    rw [raftLastLogTerm, hps]
    exact hlast

namespace Cluster

/-- Clocks of exchanges at time `1000`. -/
def atThousand (_ : Nat) : Clock × Clock := (⟨1000, 0⟩, ⟨1000, 0⟩)

end Cluster

/-- Node 0 brings node 1 both its entries, and has then committed them. -/
theorem replication_converges_iff_trio :
    (∃ n ≤ 4, Replicated
      (((Cluster.after Cluster.atZero Cluster.commandedTwice).exchanges 0
        (rounds 0 Cluster.atThousand n)).node 0)
      (((Cluster.after Cluster.atZero Cluster.commandedTwice).exchanges 0
        (rounds 0 Cluster.atThousand n)).node 1) 0) ∧
    (((Cluster.after Cluster.atZero Cluster.commandedTwice).exchanges 0
      (rounds 0 Cluster.atThousand 1)).node 0).vstate.commitIndex.toNat = 2 := by
  have h := replication_converges_iff (p := 1)
    (Cluster.run_states Cluster.atZero Cluster.commandedTwice (by decide +kernel))
    (a := 0) (t := 1) (by decide +kernel) (i := 0) (by decide +kernel) (by decide +kernel)
    Cluster.atThousand
  refine ⟨h.1.mpr (by decide +kernel), ?_⟩
  refine h.2 (rounds 0 Cluster.atThousand 1) ?_ (by decide +kernel) {0, 1} (by decide) ?_
  · intro e he
    obtain rfl := List.mem_singleton.mp he
    exact ⟨1, by decide +kernel, by decide +kernel⟩
  · intro q hq
    rcases Finset.mem_insert.mp hq with rfl | hq
    · exact Or.inl rfl
    · obtain rfl := Finset.mem_singleton.mp hq
      exact Or.inr ⟨0, by decide +kernel, by decide +kernel, by decide +kernel, by decide +kernel⟩

/-- The confirmation of a single entry is never noted. -/
theorem single_entry_not_replicated :
    Cluster.Run (Cluster.states Cluster.atZero Cluster.commanded) ∧
      (Cluster.after Cluster.atZero Cluster.commanded).Leads 0 1 ∧
      (Config.trio.peers 0)[0]? = some 1 ∧
      ((Cluster.after Cluster.atZero Cluster.commanded).node 1).pstate.currentTerm ≤ 1 ∧
      ((Cluster.after Cluster.atZero Cluster.commanded).node 0).pstate.logLen = 1 ∧
      ¬ ∃ n ≤ 1 + 1 / raftAppendBatch + 2, Replicated
        (((Cluster.after Cluster.atZero Cluster.commanded).exchanges 0
          (rounds 0 Cluster.atThousand n)).node 0)
        (((Cluster.after Cluster.atZero Cluster.commanded).exchanges 0
          (rounds 0 Cluster.atThousand n)).node 1) 0 := by
  refine ⟨Cluster.run_states _ _ (by decide +kernel), by decide +kernel, by decide +kernel,
    by decide +kernel, by decide +kernel, ?_⟩
  rintro ⟨n, hn, hrep⟩
  have hstuck : ∀ n ≤ 3, (((Cluster.after Cluster.atZero Cluster.commanded).exchanges 0
      (rounds 0 Cluster.atThousand n)).node 0).lstate.matchIndex 0 = 0 ∧
      (((Cluster.after Cluster.atZero Cluster.commanded).exchanges 0
        (rounds 0 Cluster.atThousand n)).node 0).pstate.logLen = 1 := by decide +kernel
  obtain ⟨hm, hk⟩ := hstuck n hn
  have hmatch := hrep.matchIndex
  rw [hm, hk] at hmatch
  exact absurd hmatch (by decide)

end Corestack.Raft
