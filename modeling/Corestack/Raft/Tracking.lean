import Corestack.Raft.Durability
import Corestack.Runs

/-! # What a leader knows of its peers

A leader should have in `match_index` the best confirmation that it has seen from
a peer. It compares a confirmation with `next_index` instead, so this holds as
long as the two comparisons come out alike.
-/

namespace Corestack.Raft

variable {r r' : RaftNode} {op : NodeOp} {i : Nat}

/-! ## Operations of a leader -/

theorem updateTermLocked_not_leader (clk : Clock) {newTerm : UInt64}
    (h : r.pstate.currentTerm < newTerm) :
    (updateTermLocked clk r newTerm).1.state ≠ .leader := by
  unfold updateTermLocked persistStateLocked
  rw [if_neg h.not_ge]
  rcases (enterTerm r newTerm).logFile.write _ with ⟨f, _ | _⟩
  · simp
  · rcases enterTerm_steppedDown r newTerm with hs | hs <;>
      simp [raftResetElectionTimer, raftClearLeaderState, raftClearCandidateState, hs]

/-- An operation on the log leaves the role of the node, or the node fails. -/
def SameRole (r r' : RaftNode) : Prop := r'.state = r.state ∨ r'.state = .failed

theorem SameRole.refl (r : RaftNode) : SameRole r r := Or.inl rfl

theorem SameRole.trans {r'' : RaftNode} (h : SameRole r r') (h' : SameRole r' r'') :
    SameRole r r'' := by
  rcases h' with he | he
  · exact h.imp he.trans he.trans
  · exact Or.inr he

theorem pushEntry_sameRole (r : RaftNode) (e : LogEntry) : SameRole r (pushEntry r e).1 := by
  unfold pushEntry persistLogEntryLocked
  split_ifs
  · exact .refl r
  · rcases r.logFile.write _ with ⟨f, _ | _⟩
    · exact Or.inr rfl
    · exact Or.inl rfl

theorem storeEntry_sameRole (r : RaftNode) (e : LogEntry) (pos : Nat) :
    SameRole r (storeEntry r e pos).1 := by
  unfold storeEntry persistTruncateLocked
  split_ifs
  · rcases r.logFile.write _ with ⟨f, _ | _⟩
    · exact Or.inr rfl
    · exact pushEntry_sameRole { r with logFile := f, pstate := r.pstate.truncate pos } e
  · exact pushEntry_sameRole r e

theorem storeEntries_sameRole (prev : UInt64) (r : RaftNode) (i : Nat) (es : List LogEntry) :
    SameRole r (storeEntries prev r i es).1 := by
  induction es generalizing r i with
  | nil => exact .refl r
  | cons e es ih =>
    unfold storeEntries
    split_ifs
    · exact .refl r
    · dsimp only
      split_ifs
      · exact ih r (i + 1)
      · have hs := storeEntry_sameRole r e (e.index - 1).toNat
        rcases hst : storeEntry r e (e.index - 1).toNat with ⟨r', _ | _⟩
        · rw [hst] at hs
          exact hs
        · rw [hst] at hs
          exact hs.trans (ih r' (i + 1))

theorem acceptAppendEntries_sameRole (r : RaftNode) (req : AppendEntriesRequest) :
    SameRole r (acceptAppendEntries r req).1 := by
  unfold acceptAppendEntries
  dsimp only
  split_ifs
  · exact .refl r
  · exact .refl r
  · have hs := storeEntries_sameRole req.prevLogIndex r 0 req.log
    rcases hst : storeEntries req.prevLogIndex r 0 req.log with ⟨r', _ | _⟩
    · rw [hst] at hs
      exact hs
    · obtain ⟨n, hn⟩ := learnCommit_eq r' req.leaderCommit
      rw [hst] at hs
      dsimp only
      rw [hn]
      exact hs

/-- A leader that remains one has not followed another. -/
theorem handleAppendEntriesRequest_of_leader (clk : Clock) {req : AppendEntriesRequest}
    (h : (handleAppendEntriesRequest clk r req).1.state = .leader) :
    (handleAppendEntriesRequest clk r req).1 = r := by
  have hfollow : ∀ r₁, (acceptAppendEntries (followLeader clk r₁ req.leaderId) req).1.state ≠
      .leader := by
    intro r₁ hs
    have hr := acceptAppendEntries_sameRole (followLeader clk r₁ req.leaderId) req
    have hf : (followLeader clk r₁ req.leaderId).state ≠ .leader := by
      simp only [followLeader, raftResetElectionTimer]
      split_ifs with hne
      · simp
      · simp [not_not.mp hne]
    rcases hr with hr | hr
    · exact hf (hr.symm.trans hs)
    · simp [hr] at hs
  unfold handleAppendEntriesRequest at h ⊢
  dsimp only at h ⊢
  split_ifs at h ⊢ with hlt hgt
  · rfl
  · rcases hu : updateTermLocked clk r req.term with ⟨r₁, _ | _⟩
    · rw [hu] at h
      have hn := updateTermLocked_not_leader clk hgt
      rw [hu] at hn
      exact absurd h hn
    · rw [hu] at h
      exact absurd h (hfollow r₁)
  · exact absurd h (hfollow r)

theorem startNode_not_leader (clk : Clock) (f : LogFile) (id : UInt64) (peers : List UInt64) :
    (startNode clk f id peers).state ≠ .leader := by
  have hrestore : (restorePstate (blankNode clk f id)).1.state = .follower := by
    unfold restorePstate
    split <;> rfl
  unfold startNode initialiseRaftSm
  rcases hr : restorePstate (blankNode clk f id) with ⟨r, _ | _⟩
  · have hs : r.state = .follower := by rw [hr] at hrestore; exact hrestore
    simp [hs]
  · have hs : r.state = .follower := by rw [hr] at hrestore; exact hrestore
    simp [createLogFile, hs]

/-- A leader that remains one keeps what it knows of its peers, unless a peer answers. -/
theorem NodeOp.perform_lstate (hl : r.state = .leader) (hl' : (op.perform r).1.state = .leader)
    (hop : ∀ clk resp peer, op ≠ .appendEntriesResponse clk resp peer) :
    (op.perform r).1.lstate = r.lstate := by
  cases op with
  | timeout clk outCap => simp [perform, raftTimeout, hl]
  | requestVoteRequest clk req =>
    simp only [perform, handleRequestVoteRequest] at hl' ⊢
    split_ifs at hl' ⊢ with ht
    · have hn := updateTermLocked_not_leader clk ht
      rcases answerRequestVote_cases clk (updateTermLocked clk r req.term).1 req
        ⟨r.pstate.currentTerm, false⟩ with he | hne
      · exact absurd (he ▸ hl') hn
      · exact absurd hl' hne
    · rcases answerRequestVote_cases clk r req ⟨r.pstate.currentTerm, false⟩ with he | hne
      · rw [he]
      · exact absurd hl' hne
  | requestVoteResponse clk resp peer =>
    simp only [perform, handleRequestVoteResponse] at hl' ⊢
    split_ifs at hl' ⊢ with ht hc
    · exact absurd hl' (updateTermLocked_not_leader clk ht)
    · rfl
    · exact absurd hl (by push Not at hc; simp [hc.1])
  | appendEntriesRequest clk req =>
    have he := handleAppendEntriesRequest_of_leader clk hl'
    exact congrArg RaftNode.lstate he
  | appendEntriesResponse clk resp peer => exact absurd rfl (hop clk resp peer)
  | leaderSendCommand command =>
    simp only [perform, raftLeaderSendCommand, persistLogEntryLocked]
    split_ifs
    · rfl
    · rfl
    · rcases r.logFile.write _ with ⟨f, _ | _⟩
      · rfl
      · dsimp only
        split_ifs <;> rfl
  | restart clk peers => exact absurd hl' (startNode_not_leader clk r.logFile r.id peers)

/-! ## Confirmations -/

/-- What the operation confirms for `peers[peer_idx]`: the index of a successful answer of the
term from that peer. -/
def NodeOp.confirmed (r : RaftNode) (peerIdx : Nat) : NodeOp → UInt64
  | appendEntriesResponse _ resp peer =>
    if resp.success ∧ resp.term = r.pstate.currentTerm ∧ findPeerIdx r peer = some peerIdx then
      resp.matchIndex
    else 0
  | _ => 0

/-- The greatest index confirmed for `peers[peer_idx]` in a run. -/
def bestMatch (peerIdx : Nat) : RaftNode → List (List Bool × NodeOp) → UInt64
  | _, [] => 0
  | r, op :: ops => max (op.2.confirmed r peerIdx) (bestMatch peerIdx (runNode r [op]) ops)

/-- A successful answer finds `next_index` and `match_index` of its peer on the same side of the
index that it confirms. -/
def NodeOp.InOrder (r : RaftNode) : NodeOp → Prop
  | appendEntriesResponse _ resp peer =>
    resp.success = true → resp.term = r.pstate.currentTerm → ∀ i, findPeerIdx r peer = some i →
      if r.lstate.nextIndex i < resp.matchIndex then r.lstate.matchIndex i ≤ resp.matchIndex
      else resp.matchIndex ≤ r.lstate.matchIndex i
  | _ => True

/-- A node that has just become a leader, and its heartbeat clock. -/
def newLeader (r : RaftNode) (latestHeartbeatMs : Int) : RaftNode :=
  { raftInitLeaderState r with latestHeartbeatMs := latestHeartbeatMs }

theorem runNode_concat (r : RaftNode) (ops : List (List Bool × NodeOp))
    (op : List Bool × NodeOp) :
    runNode r (ops ++ [op]) = (op.2.perform ((runNode r ops).withFaults op.1)).1 := by
  simp [runNode]

theorem bestMatch_concat (r : RaftNode) (ops : List (List Bool × NodeOp))
    (op : List Bool × NodeOp) :
    bestMatch i r (ops ++ [op]) =
      max (bestMatch i r ops) (op.2.confirmed (runNode r ops) i) := by
  induction ops generalizing r with
  | nil => simp [bestMatch, runNode]
  | cons op' ops ih =>
    have hrun : runNode (runNode r [op']) ops = runNode r (op' :: ops) := rfl
    rw [List.cons_append, bestMatch, bestMatch, ih, hrun, max_assoc]

theorem bestMatch_le (r : RaftNode) {pre ops : List (List Bool × NodeOp)} (h : pre <+: ops) :
    bestMatch i r pre ≤ bestMatch i r ops := by
  obtain ⟨l, rfl⟩ := h
  induction l generalizing pre with
  | nil => simp
  | cons op l ih =>
    have hle := @ih (pre ++ [op])
    rw [bestMatch_concat, List.append_assoc, List.singleton_append] at hle
    exact (le_max_left _ _).trans hle

theorem advanceCommitIndexLocked_lstate (r : RaftNode) :
    (advanceCommitIndexLocked r).lstate = r.lstate := by
  obtain ⟨m, hm⟩ := advanceCommitIndexLocked_eq r
  rw [hm]

/-- An answer of the term from a known peer. -/
theorem handleAppendEntriesResponse_matchIndex {resp : AppendEntriesResponse} {peer : UInt64}
    {j : Nat} (clk : Clock) (hl : r.state = .leader) (ht : resp.term = r.pstate.currentTerm)
    (hj : findPeerIdx r peer = some j) (i : Nat) :
    (handleAppendEntriesResponse clk r resp peer).lstate.matchIndex i =
      if resp.success ∧ r.lstate.nextIndex j < resp.matchIndex ∧ i = j then resp.matchIndex
      else r.lstate.matchIndex i := by
  unfold handleAppendEntriesResponse
  rw [if_neg (not_not.mpr hl), if_neg (by simp [ht]), if_neg (by simp [ht]), hj]
  dsimp only
  split_ifs with hs hn hi hi hi hi <;>
    simp_all [advanceCommitIndexLocked_lstate, recordMatch, stepBack]

theorem handleAppendEntriesResponse_matchIndex_iff {resp : AppendEntriesResponse} {peer : UInt64}
    (clk : Clock) (hl : r.state = .leader)
    (hl' : (handleAppendEntriesResponse clk r resp peer).state = .leader) :
    (∀ i, (handleAppendEntriesResponse clk r resp peer).lstate.matchIndex i =
      max (r.lstate.matchIndex i)
        ((NodeOp.appendEntriesResponse clk resp peer).confirmed r i)) ↔
      (NodeOp.appendEntriesResponse clk resp peer).InOrder r := by
  by_cases ht : resp.term = r.pstate.currentTerm
  · rcases hj : findPeerIdx r peer with _ | j
    · refine iff_of_true (fun i => ?_) fun _ _ i hi => absurd (hj.symm.trans hi) (by simp)
      have hr : handleAppendEntriesResponse clk r resp peer = r := by
        unfold handleAppendEntriesResponse
        rw [if_neg (not_not.mpr hl), if_neg (by simp [ht]), if_neg (by simp [ht]), hj]
      simp [hr, NodeOp.confirmed, hj]
    · constructor
      · rintro h hs - i hi
        obtain rfl : j = i := Option.some.inj (hj.symm.trans hi)
        have hm := h j
        rw [handleAppendEntriesResponse_matchIndex clk hl ht hj] at hm
        simp only [NodeOp.confirmed, hs, ht, hj, and_self, if_true, true_and, and_true] at hm
        split_ifs at hm ⊢
        · rw [hm]
          exact le_max_left _ _
        · rw [hm]
          exact le_max_right _ _
      · intro h i
        rw [handleAppendEntriesResponse_matchIndex clk hl ht hj]
        by_cases hs : resp.success = true
        · by_cases hi : i = j
          · subst hi
            have hm := h hs ht i hj
            simp only [NodeOp.confirmed, hs, ht, hj, and_self, if_true, true_and, and_true]
            split_ifs at hm ⊢
            · exact (max_eq_right hm).symm
            · exact (max_eq_left hm).symm
          · have hne : j ≠ i := Ne.symm hi
            simp [NodeOp.confirmed, hj, hi, hne]
        · simp [NodeOp.confirmed, hs]
  · refine iff_of_true (fun i => ?_) fun _ h => absurd h ht
    have hr : (handleAppendEntriesResponse clk r resp peer) = r := by
      unfold handleAppendEntriesResponse at hl' ⊢
      rw [if_neg (not_not.mpr hl)] at hl' ⊢
      rcases lt_or_gt_of_ne ht with hlt | hgt
      · exact if_pos hlt
      · rw [if_neg (not_lt.mpr hgt.le), if_pos hgt] at hl'
        exact absurd hl' (updateTermLocked_not_leader clk hgt)
    simp [hr, NodeOp.confirmed, ht]

/-- One operation of a leader keeps `match_index` the best confirmation exactly if it is in
order. -/
theorem NodeOp.perform_matchIndex_iff (op : NodeOp) (hl : r.state = .leader)
    (hl' : (op.perform r).1.state = .leader) :
    (∀ i, (op.perform r).1.lstate.matchIndex i =
      max (r.lstate.matchIndex i) (op.confirmed r i)) ↔ op.InOrder r := by
  have hzero : ∀ n : UInt64, max n 0 = n := fun n => max_eq_left UInt64.zero_le
  have hother : (∀ clk resp peer, op ≠ .appendEntriesResponse clk resp peer) →
      ∀ i, (op.perform r).1.lstate.matchIndex i = max (r.lstate.matchIndex i) 0 := by
    intro hop i
    rw [perform_lstate hl hl' hop, hzero]
  cases op with
  | appendEntriesResponse clk resp peer =>
    exact handleAppendEntriesResponse_matchIndex_iff clk hl hl'
  | timeout clk outCap => exact iff_of_true (hother (by simp)) trivial
  | requestVoteRequest clk req => exact iff_of_true (hother (by simp)) trivial
  | requestVoteResponse clk resp peer => exact iff_of_true (hother (by simp)) trivial
  | appendEntriesRequest clk req => exact iff_of_true (hother (by simp)) trivial
  | leaderSendCommand command => exact iff_of_true (hother (by simp)) trivial
  | restart clk peers => exact iff_of_true (hother (by simp)) trivial

/-- Over a leadership `match_index` is the best confirmation seen from each peer, and never
decreases, if and only if every answer is in order. -/
theorem best_match_iff (r : RaftNode) (ms : Int) (ops : List (List Bool × NodeOp))
    (hl : ∀ pre, pre <+: ops → (runNode (newLeader r ms) pre).state = .leader) :
    (∀ pre, pre <+: ops →
      (∀ i, (runNode (newLeader r ms) pre).lstate.matchIndex i =
        bestMatch i (newLeader r ms) pre) ∧
      ∀ pre', pre' <+: pre → ∀ i, (runNode (newLeader r ms) pre').lstate.matchIndex i ≤
        (runNode (newLeader r ms) pre).lstate.matchIndex i) ↔
    ∀ pre op, pre ++ [op] <+: ops →
      op.2.InOrder ((runNode (newLeader r ms) pre).withFaults op.1) := by
  have hstep : ∀ pre op, pre ++ [op] <+: ops →
      ((∀ i, (runNode (newLeader r ms) (pre ++ [op])).lstate.matchIndex i =
        max ((runNode (newLeader r ms) pre).lstate.matchIndex i)
          (op.2.confirmed (runNode (newLeader r ms) pre) i)) ↔
        op.2.InOrder ((runNode (newLeader r ms) pre).withFaults op.1)) := by
    intro pre op h
    have hpre := hl pre ((List.prefix_append _ _).trans h)
    have hop := hl _ h
    rw [runNode_concat] at hop ⊢
    exact NodeOp.perform_matchIndex_iff op.2 hpre hop
  have hbest : (∀ pre, pre <+: ops → ∀ i, (runNode (newLeader r ms) pre).lstate.matchIndex i =
      bestMatch i (newLeader r ms) pre) ↔ ∀ pre op, pre ++ [op] <+: ops →
        op.2.InOrder ((runNode (newLeader r ms) pre).withFaults op.1) := by
    apply Runs.forall_prefix_iff (I := fun pre => ∀ i,
      (runNode (newLeader r ms) pre).lstate.matchIndex i = bestMatch i (newLeader r ms) pre)
    · intro i
      rfl
    · intro pre op hp hi ho i
      rw [(hstep pre op hp).mpr ho i, hi i, bestMatch_concat]
    · exact fun pre hp hi => hi
    · intro pre op hp hi hi'
      apply (hstep pre op hp).mp
      intro i
      rw [hi' i, hi i, bestMatch_concat]
  rw [← hbest]
  constructor
  · exact fun h pre hp => (h pre hp).1
  · intro h pre hp
    constructor
    · exact h pre hp
    · intro pre' hp' i
      rw [h pre hp, h pre' (hp'.trans hp)]
      exact bestMatch_le _ hp'

/-- Node 0 in term 1, for which it stands with an empty log. -/
def standing : RaftNode := runNode (freshNode ⟨0, 0⟩ 0 [1, 2]) [([], .timeout ⟨1000, 0⟩ 8)]

/-- Two commands that node 1 confirms at once. -/
def confirmedTogether : List (List Bool × NodeOp) :=
  [([], .leaderSendCommand ⟨0, 0, 0, 1⟩), ([], .leaderSendCommand ⟨0, 0, 0, 2⟩),
    ([], .appendEntriesResponse ⟨1000, 0⟩ ⟨1, true, 2⟩ 1)]

theorem best_match_iff_together :
    (∀ pre, pre <+: confirmedTogether →
      (∀ i, (runNode (newLeader standing 0) pre).lstate.matchIndex i =
        bestMatch i (newLeader standing 0) pre) ∧
      ∀ pre', pre' <+: pre → ∀ i, (runNode (newLeader standing 0) pre').lstate.matchIndex i ≤
        (runNode (newLeader standing 0) pre).lstate.matchIndex i) ↔
    ∀ pre op, pre ++ [op] <+: confirmedTogether →
      op.2.InOrder ((runNode (newLeader standing 0) pre).withFaults op.1) := by
  have hall : ∀ pre ∈ confirmedTogether.inits,
      (runNode (newLeader standing 0) pre).state = .leader := by decide +kernel
  exact best_match_iff _ _ _ fun pre hp => hall pre ((List.mem_inits _ _).mpr hp)

/-- One command that node 1 confirms: the leader does not note it. -/
theorem single_match_missed :
    ¬ ∀ (r : RaftNode) (ms : Int) (ops : List (List Bool × NodeOp)),
      (∀ pre, pre <+: ops → (runNode (newLeader r ms) pre).state = .leader) →
      ∀ pre, pre <+: ops →
        (∀ i, (runNode (newLeader r ms) pre).lstate.matchIndex i =
          bestMatch i (newLeader r ms) pre) ∧
        ∀ pre', pre' <+: pre → ∀ i, (runNode (newLeader r ms) pre').lstate.matchIndex i ≤
          (runNode (newLeader r ms) pre).lstate.matchIndex i := by
  intro h
  let ops : List (List Bool × NodeOp) := [([], .leaderSendCommand ⟨0, 0, 0, 1⟩),
    ([], .appendEntriesResponse ⟨1000, 0⟩ ⟨1, true, 1⟩ 1)]
  have hall : ∀ pre ∈ ops.inits, (runNode (newLeader standing 0) pre).state = .leader := by
    decide +kernel
  have hm := (h standing 0 ops (fun pre hp => hall pre ((List.mem_inits _ _).mpr hp)) ops
    List.prefix_rfl).1 0
  revert hm
  decide +kernel

end Corestack.Raft
