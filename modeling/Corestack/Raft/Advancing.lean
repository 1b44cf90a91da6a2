import Corestack.Raft.Safety

/-! # How far a leader commits

A leader that knows of enough confirmations of an entry of its own term has
committed it: the commit position is never behind the counts.
-/

namespace Corestack.Raft

open Consensus

variable {cfg : Config} {s : Cluster cfg} {g : cfg.History} {a b : cfg.Node} {r r' : RaftNode}
  {past : List (Cluster cfg)}

/-- Every entry of a leader's term that enough nodes hold, as far as it knows, is committed. -/
def Advanced (r : RaftNode) : Prop :=
  r.state = .leader → ∀ n < r.pstate.logLen, (r.pstate.log n).term = r.pstate.currentTerm →
    majority (r.peers.length + 1) ≤ countReplicas r (.ofNat (n + 1)) →
    n < r.vstate.commitIndex.toNat

theorem Advanced.of_ne (h : r.state ≠ .leader) : Advanced r := fun hl => absurd hl h

/-! ## Counting confirmations -/

/-- The loop goes down from the last entry and stops at the first that enough nodes hold. -/
theorem lt_advanceFrom (r : RaftNode) {n m : Nat} (hn : n ≤ raftLogCap) (hm : m < n)
    (ht : (r.pstate.log m).term = r.pstate.currentTerm)
    (hc : majority (r.peers.length + 1) ≤ countReplicas r (.ofNat (m + 1))) :
    m < (advanceFrom r n).vstate.commitIndex.toNat := by
  induction n with
  | zero => exact absurd hm (Nat.not_lt_zero m)
  | succ n ih =>
    unfold advanceFrom
    rcases Nat.lt_succ_iff_lt_or_eq.mp hm with hlt | rfl
    · have hrec := ih (by omega) hlt
      split_ifs
      · exact hrec
      · dsimp only
        rw [toNat_ofNat hn]
        omega
      · exact hrec
      · omega
    · rw [if_neg (not_not.mpr ht), if_pos hc]
      split_ifs
      · dsimp only
        rw [toNat_ofNat hn]
        omega
      · omega

theorem advanceCommitIndexLocked_advanced (h : r.pstate.logLen ≤ raftLogCap) :
    Advanced (advanceCommitIndexLocked r) := by
  obtain ⟨c, hc⟩ := advanceCommitIndexLocked_eq r
  intro hl n hn ht hm
  rw [hc] at hl hn ht hm
  unfold advanceCommitIndexLocked
  rw [if_neg (not_not.mpr hl), toNat_raftLastLogIndex h]
  exact lt_advanceFrom r h hn ht hm

/-- Nobody is known to hold an entry. -/
theorem countReplicas_eq_one {n : UInt64}
    (h : ∀ i < r.peers.length, r.lstate.matchIndex i < n) : countReplicas r n = 1 := by
  have hz : (List.range r.peers.length).countP (fun peer => r.lstate.matchIndex peer ≥ n) = 0 := by
    rw [List.countP_eq_zero]
    intro i hi
    simpa using h i (List.mem_range.mp hi)
  rw [countReplicas, hz]

/-! ## The steps of a node -/

/-- A request for a vote leaves a leader as it is, or makes it none. -/
theorem handleRequestVoteRequest_cases (hv : Valid LogEntry.term g) (h : NodeRel g a r)
    (clk : Clock) (req : RequestVoteRequest) : (handleRequestVoteRequest clk r req).1 = r ∨
      (handleRequestVoteRequest clk r req).1.state ≠ .leader := by
  unfold handleRequestVoteRequest
  by_cases ht : req.term > r.pstate.currentTerm
  · obtain ⟨r₁, hu, hf, -⟩ := updateTermLocked_moves clk hv h ht
    rw [if_pos ht, hu]
    right
    rcases answerRequestVote_cases clk r₁ req ⟨r.pstate.currentTerm, false⟩ with he | hne
    · rw [he]
      simp [hf]
    · exact hne
  · rw [if_neg ht]
    exact answerRequestVote_cases clk r req _

/-- A new leader of several nodes has counted no confirmations, and needs some. -/
theorem Advanced.of_elected (hp : r.peers ≠ []) (hcap : r.pstate.logLen ≤ raftLogCap)
    (hm : ∀ i < r.peers.length, r.lstate.matchIndex i = 0) : Advanced r := by
  intro _ n hn _ hc
  have hpos := List.length_pos_iff.mpr hp
  rw [countReplicas_eq_one fun i hi => ?_] at hc
  · unfold majority at hc
    omega
  · rw [hm i hi, UInt64.lt_iff_toNat_lt, toNat_ofNat (hn.trans_le hcap)]
    exact Nat.succ_pos n

theorem handleRequestVoteResponse_advanced {resp : RequestVoteResponse}
    (hv : Valid LogEntry.term g) (h : NodeRel g a r) (ha : Advanced r) (clk : Clock) :
    Advanced (handleRequestVoteResponse clk r resp (cfg.id b)) := by
  unfold handleRequestVoteResponse
  by_cases ht : resp.term > r.pstate.currentTerm
  · obtain ⟨r₁, hu, hf, -⟩ := updateTermLocked_moves clk hv h ht
    rw [if_pos ht, hu]
    exact .of_ne (by simp [hf])
  rw [if_neg ht]
  split_ifs with hs
  · exact ha
  push Not at hs
  rcases hi : findPeerIdx r (cfg.id b) with _ | i
  · exact ha
  have hib := List.mem_of_getElem? (cfg.findPeerIdx_eq h.peers hi)
  have hp : r.peers ≠ [] := by
    rw [h.peers]
    exact List.ne_nil_of_mem (List.mem_map_of_mem hib)
  dsimp only
  split_ifs
  · exact ha
  · exact .of_elected hp h.inSync.logLen_le fun _ _ => rfl
  · exact .of_ne (by simp [recordVote, hs.1])

/-- A single node that elects itself has no entry of its new term. -/
theorem raftTimeout_advanced (hv : Valid LogEntry.term g) (h : NodeRel g a r) (ha : Advanced r)
    (hb : r.pstate.currentTerm.toNat < 2 ^ 64 - 1) (clk : Clock) (outCap : Nat) :
    Advanced (raftTimeout clk r outCap).1 := by
  unfold raftTimeout
  split_ifs
  · exact ha
  · exact ha
  unfold persistStateLocked
  rcases (becomeCandidate r).logFile.write _ with ⟨f, _ | _⟩
  · exact .of_ne (by simp [becomeCandidate])
  dsimp only
  unfold startElection
  dsimp only
  split_ifs
  · intro _ n hn ht
    have hterm : ∀ e ∈ r.pstate.entries, e.term ≤ r.pstate.currentTerm := by
      rw [← h.log, ← h.cur]
      exact hv.log_term
    have hn' : n < r.pstate.logLen := hn
    have ht' : (r.pstate.log n).term = r.pstate.currentTerm + 1 := ht
    have hle := hterm _ (List.mem_of_getElem? (r.pstate.getElem?_entries hn'))
    rw [ht', UInt64.le_iff_toNat_le, UInt64.toNat_add, UInt64.toNat_one] at hle
    omega
  · exact .of_ne (by simp [raftResetElectionTimer, raftInitCandidateState, becomeCandidate])

theorem handleAppendEntriesResponse_advanced {resp : AppendEntriesResponse}
    (hv : Valid LogEntry.term g) (h : NodeRel g a r) (ha : Advanced r) (clk : Clock)
    (peer : UInt64) :
    Advanced (handleAppendEntriesResponse clk r resp peer) := by
  have hcap := h.inSync.logLen_le
  unfold handleAppendEntriesResponse
  by_cases hl : r.state ≠ .leader
  · rw [if_pos hl]
    exact ha
  by_cases hlt : r.pstate.currentTerm > resp.term
  · rw [if_neg hl, if_pos hlt]
    exact ha
  by_cases hgt : r.pstate.currentTerm < resp.term
  · obtain ⟨r₁, hu, hf, -⟩ := updateTermLocked_moves clk hv h hgt
    rw [if_neg hl, if_neg hlt, if_pos hgt, hu]
    exact .of_ne (by simp [hf])
  rw [if_neg hl, if_neg hlt, if_neg hgt]
  cases findPeerIdx r peer with
  | none => exact ha
  | some i =>
    dsimp only
    split_ifs
    · exact advanceCommitIndexLocked_advanced hcap
    · exact advanceCommitIndexLocked_advanced hcap
    · exact ha
    · exact ha

theorem raftLeaderSendCommand_advanced (hv : Valid LogEntry.term g) (h : NodeRel g a r)
    (ha : Advanced r) (command : ClientCommand) :
    Advanced (raftLeaderSendCommand r command).1 := by
  unfold raftLeaderSendCommand
  by_cases hl : r.state ≠ .leader
  · rw [if_pos hl]
    exact ha
  by_cases hc : r.pstate.logLen ≥ raftLogCap
  · rw [if_neg hl, if_pos hc]
    exact ha
  rw [if_neg hl, if_neg hc]
  rw [not_not] at hl
  dsimp only
  have hidx := toNat_raftLastLogIndex_add_one (not_le.mp hc).le
  set e : LogEntry := ⟨raftLastLogIndex r + 1, r.pstate.currentTerm, command⟩ with he
  unfold persistLogEntryLocked
  rcases r.logFile.write (entryLine e) with ⟨f, _ | _⟩
  · exact .of_ne (by simp)
  have hpush : ∀ n < r.pstate.logLen, (r.pstate.push e).log n = r.pstate.log n := fun n hn =>
    Function.update_of_ne hn.ne _ _
  dsimp only
  split_ifs with hm
  · -- a single node has committed all
    intro _ n hn _ _
    dsimp only
    rw [hidx]
    exact hn
  · intro _ n hn ht hcount
    rcases Nat.lt_succ_iff_lt_or_eq.mp hn with hlt | rfl
    · refine ha hl n hlt ?_ hcount
      rw [← hpush n hlt]
      exact ht
    · -- nobody has the new entry
      have hone : countReplicas r (.ofNat (r.pstate.logLen + 1)) = 1 := by
        apply countReplicas_eq_one
        intro i hi
        have hi' : i < (cfg.peers a).length := by simpa [h.peers, Config.peerIds] using hi
        have hle := (h.leader hl).matchIndex_le hv h (List.getElem?_eq_getElem hi')
        rw [UInt64.lt_iff_toNat_lt, toNat_ofNat (not_le.mp hc)]
        omega
      have hone' : majority (r.peers.length + 1) ≤ 1 := hcount.trans_eq hone
      unfold majority at hone' hm
      omega

theorem Packet.receive_advanced {p : Packet cfg} (clk : Clock) (hv : Valid LogEntry.term g)
    (hg : GoodLogs g) (h : NodeRel g p.dst r) (hp : PacketRel g p) (ha : Advanced r) :
    Advanced (p.receive clk r).1 := by
  obtain ⟨c, a, body⟩ := p
  cases body with
  | requestVote req =>
    change Advanced (handleRequestVoteRequest clk r req).1
    rcases handleRequestVoteRequest_cases hv h clk req with he | hne
    · rw [he]
      exact ha
    · exact .of_ne hne
  | requestVoteResponse resp => exact handleRequestVoteResponse_advanced hv h ha clk
  | appendEntries req =>
    change Advanced (handleAppendEntriesRequest clk r req).1
    rcases handleAppendEntriesRequest_cases clk hv hg h hp with
      ⟨-, he⟩ | ⟨hr, -⟩ | ⟨l, hacc, -⟩
    · rw [he]
      exact ha
    · exact .of_ne (by simp [hr.state])
    · exact .of_ne (by simp [hacc.state])
  | appendEntriesResponse resp => exact handleAppendEntriesResponse_advanced hv h ha clk _

theorem Cluster.update_node (s : Cluster cfg) (a b : cfg.Node) (r : RaftNode)
    (out : List (Packet cfg)) :
    (s.update a r out).node b = if b = a then r else s.node b := by
  simp [Cluster.update, Function.update_apply]

/-- Every step keeps the commit positions up to the counts. -/
theorem Simulates.advanced_step (h : Simulates s g) (ha : ∀ b, Advanced (s.node b)) (e : Event cfg)
    (b : cfg.Node) : Advanced ((s.step e).node b) := by
  have hv := h.valid
  have hupdate : ∀ a r out, Advanced r → Advanced ((s.update a r out).node b) := by
    intro a r out hr
    rw [Cluster.update_node]
    split_ifs
    · exact hr
    · exact ha b
  cases e with
  | timeout a clk outCap =>
    exact hupdate _ _ _ (raftTimeout_advanced hv (h.node a) (ha a) (h.below a) clk outCap)
  | heartbeat a =>
    cases hr : heartbeatTick (s.node a) with
    | none => simpa only [Cluster.step, hr] using ha b
    | some req => simpa only [Cluster.step, hr] using hupdate _ _ _ (ha a)
  | appendEntries a i =>
    cases hr : raftAppendEntries (s.node a) i with
    | none => simpa only [Cluster.step, hr] using ha b
    | some req =>
      cases hi : (cfg.peers a)[i]? with
      | none => simpa only [Cluster.step, hr, hi] using ha b
      | some c => simpa only [Cluster.step, hr, hi] using hupdate _ _ _ (ha a)
  | deliver k clk =>
    cases hk : s.net[k]? with
    | none => simpa only [Cluster.step, hk] using ha b
    | some p =>
      have hp := h.net p (List.mem_of_getElem? hk)
      have := p.receive_advanced clk hv h.logs (h.node p.dst) hp (ha p.dst)
      simpa only [Cluster.step, hk] using hupdate _ _ _ this
  | sendCommand a command =>
    exact hupdate _ _ _ (raftLeaderSendCommand_advanced hv (h.node a) (ha a) command)
  | commitEntry a outCap =>
    obtain ⟨n, -, -, he⟩ := raftCommitEntry_eq (s.node a) outCap
    have hr : Advanced (raftCommitEntry (s.node a) outCap).1 := by
      rw [he]
      exact ha a
    exact hupdate a _ [] hr
  | restart a clk =>
    refine hupdate a _ [] (.of_ne ?_)
    obtain ⟨p, hp, -⟩ := startNode_eq (h.node a).inSync clk (cfg.id a) (cfg.peerIds a)
    simp [hp, blankNode, raftResetElectionTimer]

theorem Run.advanced (h : Cluster.Run (s :: past)) (b : cfg.Node) : Advanced (s.node b) := by
  generalize htr : s :: past = tr at h
  induction h generalizing s past b with
  | init clk =>
    obtain ⟨rfl, -⟩ := List.cons.inj htr
    obtain ⟨g, hg⟩ := Run.simulates (.init clk)
    intro hl
    simp [Cluster.init, freshNode, startNode, initialiseRaftSm, restorePstate, blankNode,
      raftResetElectionTimer, createLogFile] at hl
  | step e hr _ ih =>
    obtain ⟨rfl, rfl⟩ := List.cons.inj htr
    obtain ⟨g, hg⟩ := Run.simulates hr
    exact hg.advanced_step (fun b => ih b rfl) e b

end Corestack.Raft
