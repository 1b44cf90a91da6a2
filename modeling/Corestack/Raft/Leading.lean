import Corestack.Raft.Appending

/-! # The moves of a leader

A leader counts confirmations, commits, appends commands and sends requests out
of its own log. A restart and the delivery of entries do not show in the history.
-/

namespace Corestack.Raft

open Consensus

variable {cfg : Config} {g : cfg.History} {a b c : cfg.Node} {r r' : RaftNode} {clk : Clock}

/-! ## Committing -/

/-- A leader's log is the log of its term. -/
theorem LeaderRel.entries_eq (hv : Valid LogEntry.term g) (h : Matches g a r)
    (hl : LeaderRel g a r) : r.pstate.entries = g.leaderLog r.pstate.currentTerm :=
  h.log.symm.trans (hv.leader_log hl.won h.cur)

/-- A leader has what has been committed. -/
theorem LeaderRel.commit_le (hv : Valid LogEntry.term g) (h : NodeRel g a r)
    (hl : LeaderRel g a r) : r.vstate.commitIndex.toNat ≤ r.pstate.logLen := by
  rcases h.commit with h0 | ⟨u, hu, p, hp, hle⟩
  · simp [h0]
  · have hpre := hv.committed_prefix hp hu (by simp [hl.won])
    rw [← hl.entries_eq hv h.toMatches] at hpre
    have := hpre.length_le
    rw [PersistentState.length_entries] at this
    omega

theorem LeaderRel.matchIndex_le {i : Nat} (hl : LeaderRel g a r) (hv : Valid LogEntry.term g)
    (h : NodeRel g a r) (hi : (cfg.peers a)[i]? = some b) :
    (r.lstate.matchIndex i).toNat ≤ r.pstate.logLen := by
  have hle := (hl.acked hi).trans (hv.acked_le b _)
  rwa [← hl.entries_eq hv h.toMatches, PersistentState.length_entries] at hle

/-- Enough confirmations of an entry of the leader's term commit the log up to it. -/
theorem LeaderRel.committed (hv : Valid LogEntry.term g) (h : Matches g a r)
    (hl : LeaderRel g a r) {n : Nat} (hn : n < r.pstate.logLen)
    (ht : (r.pstate.log n).term = r.pstate.currentTerm)
    (hm : countReplicas r (.ofNat (n + 1)) ≥ majority (r.peers.length + 1)) :
    Committed LogEntry.term g r.pstate.currentTerm (r.pstate.entries.take (n + 1)) where
  last := by
    refine ⟨r.pstate.log n, ?_, ht⟩
    rw [Option.mem_def, List.getLast?_take, if_neg (Nat.succ_ne_zero n), Nat.add_sub_cancel,
      r.pstate.getElem?_entries hn]
    rfl
  isPrefix := by
    rw [← hl.entries_eq hv h]
    exact List.take_prefix _ _
  majority := by
    have hlen : r.peers.length = (cfg.peers a).length := by rw [h.peers]; simp [Config.peerIds]
    have hcap := h.inSync.logLen_le
    have hnat : (UInt64.ofNat (n + 1)).toNat = n + 1 := toNat_ofNat (hn.trans_le hcap)
    have hle : (r.pstate.entries.take (n + 1)).length = n + 1 := by simp; omega
    obtain ⟨Q, hQ, hq⟩ :=
      cfg.exists_quorum a fun i => decide (r.lstate.matchIndex i ≥ .ofNat (n + 1))
    refine ⟨Q, Config.isMajority (a := a) (by rw [hQ, ← hlen]; exact hm), fun q hqQ => ?_⟩
    rw [hle]
    rcases (hq q).mp hqQ with rfl | ⟨i, hi, hmi⟩
    · rw [hv.leader_acked hl.won, ← hl.entries_eq hv h, PersistentState.length_entries]
      exact hn
    · have := UInt64.le_iff_toNat_le.mp (of_decide_eq_true hmi)
      rw [hnat] at this
      exact this.trans (hl.acked hi)

theorem advanceFrom_cases (r : RaftNode) (n : Nat) :
    advanceFrom r n = r ∨ ∃ m < n, r.vstate.commitIndex.toNat < m + 1 ∧
      (r.pstate.log m).term = r.pstate.currentTerm ∧
      countReplicas r (.ofNat (m + 1)) ≥ majority (r.peers.length + 1) ∧
      advanceFrom r n =
        { r with vstate := { r.vstate with commitIndex := .ofNat (m + 1) } } := by
  induction n with
  | zero => exact Or.inl rfl
  | succ n ih =>
    have hrec : ∀ {x}, x = advanceFrom r n → x = r ∨ ∃ m < n + 1,
        r.vstate.commitIndex.toNat < m + 1 ∧
        (r.pstate.log m).term = r.pstate.currentTerm ∧
        countReplicas r (.ofNat (m + 1)) ≥ majority (r.peers.length + 1) ∧
        x = { r with vstate := { r.vstate with commitIndex := .ofNat (m + 1) } } := by
      rintro x rfl
      exact ih.imp_right fun ⟨m, hm, h⟩ => ⟨m, hm.trans (Nat.lt_succ_self n), h⟩
    unfold advanceFrom
    split_ifs with hc ht hm
    · exact hrec rfl
    · exact Or.inr ⟨n, Nat.lt_succ_self n, hc, not_not.mp ht, hm, rfl⟩
    · exact hrec rfl
    · exact Or.inl rfl

/-- A leader raises its commit position only to what is committed. -/
theorem advanceCommitIndexLocked_moves (hv : Valid LogEntry.term g) (h : NodeRel g a r)
    (hl : r.state = .leader) :
    Moves a g r g (advanceCommitIndexLocked r) ∧ Keeps g r (advanceCommitIndexLocked r) := by
  have hcap := h.inSync.logLen_le
  unfold advanceCommitIndexLocked
  rw [if_neg (not_not.mpr hl)]
  rcases advanceFrom_cases r (raftLastLogIndex r).toNat with he | ⟨m, hm, hc, ht, hcount, he⟩
  · rw [he]
    exact ⟨.refl hv h, .refl g r⟩
  rw [toNat_raftLastLogIndex hcap] at hm
  have hcom := (h.leader hl).committed hv h.toMatches hm ht hcount
  have hnat : (UInt64.ofNat (m + 1)).toNat = m + 1 := toNat_ofNat (hm.trans_le hcap)
  rw [he]
  refine ⟨.same hv ?_ fun hs => ⟨hs, rfl⟩, ⟨List.prefix_rfl, Or.inr ?_⟩⟩
  · exact {
      toMatches := h.toMatches.congr rfl rfl rfl rfl
      not_failed := h.not_failed
      candidate := fun hs => absurd (hl.symm.trans hs) (by simp)
      leader := fun _ => ⟨(h.leader hl).won, (h.leader hl).acked, (h.leader hl).next_pos,
        (h.leader hl).next_le⟩
      commit := Or.inr ⟨_, le_rfl, _, hcom, by rw [hnat]; simp; omega⟩ }
  · refine ⟨.ofNat (m + 1), rfl, ?_, hl, ?_, ?_⟩
    · rw [UInt64.lt_iff_toNat_lt, hnat]; exact hc
    · rw [hnat]; exact hm
    · rw [hnat]; exact hcom

/-! ## Replies -/

/-- What a confirmed place adds to the counts of a leader. -/
theorem recordMatch_rel {i : Nat} {m : UInt64} (hv : Valid LogEntry.term g) (h : NodeRel g a r)
    (hl : r.state = .leader) (hib : (cfg.peers a)[i]? = some b)
    (hm : m.toNat ≤ g.acked b r.pstate.currentTerm) : NodeRel g a (recordMatch r i m) := by
  have hlead := h.leader hl
  have hlen : m.toNat ≤ r.pstate.logLen := by
    have := hm.trans (hv.acked_le b _)
    rwa [← hlead.entries_eq hv h.toMatches, PersistentState.length_entries] at this
  have hcap := h.inSync.logLen_le
  have hnext : (m + 1).toNat = m.toNat + 1 := toNat_add_one (hlen.trans hcap)
  exact {
    toMatches := h.toMatches.congr rfl rfl rfl rfl
    not_failed := h.not_failed
    candidate := fun hs => absurd (hl.symm.trans hs) (by simp)
    leader := fun _ => {
      won := hlead.won
      acked := fun {j d} hj => by
        rcases eq_or_ne j i with rfl | hij
        · obtain rfl : d = b := Option.some.inj (hj.symm.trans hib)
          simpa [recordMatch] using hm
        · simpa [recordMatch, hij] using hlead.acked hj
      next_pos := fun {j d} hj => by
        rcases eq_or_ne j i with rfl | hij
        · simp [recordMatch, hnext, -UInt64.toNat_add]
        · simpa [recordMatch, hij] using hlead.next_pos hj
      next_le := fun {j d} hj => by
        rcases eq_or_ne j i with rfl | hij
        · simpa [recordMatch, hnext, -UInt64.toNat_add] using hlen
        · simpa [recordMatch, hij] using hlead.next_le hj }
    commit := h.commit }

theorem stepBack_rel {i : Nat} (h : NodeRel g a r) (hl : r.state = .leader)
    (hi : r.lstate.nextIndex i > 1) : NodeRel g a (stepBack r i) := by
  have hlead := h.leader hl
  have hpos : 1 < (r.lstate.nextIndex i).toNat := by simpa using UInt64.lt_iff_toNat_lt.mp hi
  have hnext := toNat_sub_one (Nat.zero_lt_of_lt hpos)
  exact {
    toMatches := h.toMatches.congr rfl rfl rfl rfl
    not_failed := h.not_failed
    candidate := fun hs => absurd (hl.symm.trans hs) (by simp)
    leader := fun _ => {
      won := hlead.won
      acked := fun hj => hlead.acked hj
      next_pos := fun {j d} hj => by
        rcases eq_or_ne j i with rfl | hij
        · simp [stepBack, hnext]; omega
        · simpa [stepBack, hij] using hlead.next_pos hj
      next_le := fun {j d} hj => by
        rcases eq_or_ne j i with rfl | hij
        · have := hlead.next_le hj
          simp [stepBack, hnext]; omega
        · simpa [stepBack, hij] using hlead.next_le hj }
    commit := h.commit }

/-- The reply to a request, at the node that sent it. -/
theorem handleAppendEntriesResponse_moves (clk : Clock) {resp : AppendEntriesResponse}
    (hv : Valid LogEntry.term g) (h : NodeRel g a r)
    (hp : PacketRel g ⟨b, a, .appendEntriesResponse resp⟩) :
    ∃ g', Moves a g r g' (handleAppendEntriesResponse clk r resp (cfg.id b)) ∧
      Keeps g' r (handleAppendEntriesResponse clk r resp (cfg.id b)) := by
  have hself : ∃ g', Moves a g r g' r ∧ Keeps g' r r := ⟨g, .refl hv h, .refl g r⟩
  unfold handleAppendEntriesResponse
  by_cases hl : r.state ≠ .leader
  · rw [if_pos hl]; exact hself
  rw [if_neg hl]
  rw [not_not] at hl
  rcases lt_trichotomy resp.term r.pstate.currentTerm with hlt | heq | hgt
  · rw [if_pos hlt]; exact hself
  · rw [if_neg (by simp [heq]), if_neg (by simp [heq])]
    rcases hi : findPeerIdx r (cfg.id b) with _ | i
    · exact hself
    have hib : (cfg.peers a)[i]? = some b := cfg.findPeerIdx_eq h.peers hi
    dsimp only
    split_ifs with hs hn hn
    · have hn := recordMatch_rel hv h hl hib (heq ▸ hp hs)
      obtain ⟨hm, hk⟩ := advanceCommitIndexLocked_moves hv hn hl
      exact ⟨g, ⟨hm.valid, hm.ext, hm.node, hm.logs, hm.frozen, hm.no_return⟩,
        ⟨hk.entries, hk.vstate⟩⟩
    · exact ⟨g, advanceCommitIndexLocked_moves hv h hl⟩
    · exact ⟨g, .same hv (stepBack_rel h hl hn) fun hs => ⟨hs, rfl⟩,
        ⟨List.prefix_rfl, Or.inl rfl⟩⟩
    · exact hself
  · rw [if_neg hgt.not_gt, if_pos hgt]
    obtain ⟨r', hr', -, hps, hvs, hm⟩ := updateTermLocked_moves clk hv h hgt
    rw [hr']
    exact ⟨_, hm, .of_steppedDown hps hvs _⟩

/-! ## Commands -/

/-- A leader with the entry of a command written and appended. -/
theorem push_moves (hv : Valid LogEntry.term g) (h : NodeRel g a r) (hl : r.state = .leader)
    {e : LogEntry} {f : LogFile} (he : e.term = r.pstate.currentTerm)
    (hs : f.Holds r.pstate.currentTerm r.pstate.votedFor (r.pstate.entries ++ [e]))
    (hn : f.NoFaults) :
    Moves a g r (g.append a r.pstate.currentTerm e)
      { r with logFile := f, pstate := r.pstate.push e } := by
  have hlead := h.leader hl
  have hx : Extends a g (g.append a r.pstate.currentTerm e) := .append hv hlead.won h.cur
  have hent : ({ r with logFile := f, pstate := r.pstate.push e } : RaftNode).pstate.entries =
      r.pstate.entries ++ [e] := r.pstate.entries_push e
  exact {
    valid := hv.append hlead.won h.cur he
    ext := hx
    node := {
      id := h.id
      peers := h.peers
      noFaults := hn
      inSync := by unfold InSync Kept; rw [hent]; exact hs
      cur := h.cur
      log := by rw [hent]; simp [h.log]
      votedFor := h.votedFor
      not_failed := h.not_failed
      candidate := fun hs => absurd (hl.symm.trans hs) (by simp)
      leader := fun _ => {
        won := hlead.won
        acked := fun hi => (hlead.acked hi).trans (hx.acked _ _)
        next_pos := hlead.next_pos
        next_le := fun hi => (hlead.next_le hi).trans (Nat.le_succ _) }
      commit := h.commit.mono hx le_rfl le_rfl }
    logs := fun t => by
      rw [hent]
      rcases eq_or_ne t r.pstate.currentTerm with rfl | ht
      · right; simp [h.log]
      · left; simp [ht]
    frozen := fun {t} _ hnot => by
      rcases eq_or_ne t r.pstate.currentTerm with rfl | ht
      · exact absurd ⟨hl, rfl, hl, rfl⟩ hnot
      · simp [ht]
    no_return := fun _ _ => ⟨hl, rfl⟩ }

/-- A single node commits what it appends. -/
theorem push_committed {e : LogEntry} (hv : Valid LogEntry.term g)
    (h : NodeRel g a { r with pstate := r.pstate.push e }) (hl : r.state = .leader)
    (he : e.term = r.pstate.currentTerm) (hm : majority (r.peers.length + 1) = 1) :
    Committed LogEntry.term g r.pstate.currentTerm
      ((r.pstate.push e).entries.take (r.pstate.logLen + 1)) :=
  (h.leader hl).committed hv h.toMatches (Nat.lt_succ_self _)
    (by simpa [PersistentState.push] using he)
    (by
      change _ ≥ majority (r.peers.length + 1)
      rw [hm]
      exact Nat.le_add_right _ _)

theorem raftLeaderSendCommand_moves (hv : Valid LogEntry.term g) (h : NodeRel g a r)
    (command : ClientCommand) :
    ∃ g', Moves a g r g' (raftLeaderSendCommand r command).1 ∧
      Keeps g' r (raftLeaderSendCommand r command).1 := by
  have hself : ∃ g', Moves a g r g' r ∧ Keeps g' r r := ⟨g, .refl hv h, .refl g r⟩
  unfold raftLeaderSendCommand
  by_cases hl : r.state ≠ .leader
  · rw [if_pos hl]; exact hself
  by_cases hc : r.pstate.logLen ≥ raftLogCap
  · rw [if_neg hl, if_pos hc]; exact hself
  rw [if_neg hl, if_neg hc]
  rw [not_not] at hl
  dsimp only
  have hidx := toNat_raftLastLogIndex_add_one (not_le.mp hc).le
  set e : LogEntry := ⟨raftLastLogIndex r + 1, r.pstate.currentTerm, command⟩ with he
  rcases persistLogEntry_spec (e := e) h.inSync hidx (not_le.mp hc) with
    ⟨f, hw, hs, hn⟩ | ⟨f, -, -, hn⟩
  swap
  · exact absurd h.noFaults hn
  rw [hw]
  dsimp only
  have hm := push_moves hv h hl (e := e) rfl hs (hn h.noFaults)
  have hpre : r.pstate.entries <+: (r.pstate.push e).entries := by
    rw [PersistentState.entries_push]; exact List.prefix_append _ _
  split_ifs with hmaj
  · have hnode := hm.node
    have hcom := push_committed (r := { r with logFile := f }) hm.valid hnode hl rfl hmaj
    have hlt : r.vstate.commitIndex < e.index := by
      rw [UInt64.lt_iff_toNat_lt, hidx]
      exact Nat.lt_succ_of_le ((h.leader hl).commit_le hv h)
    have hlead := hnode.leader hl
    refine ⟨_, ⟨hm.valid, hm.ext, ?_, hm.logs, hm.frozen, hm.no_return⟩,
      ⟨hpre, Or.inr ⟨e.index, rfl, hlt, hl, hidx.le, hidx.symm ▸ hcom⟩⟩⟩
    exact {
      toMatches := hnode.toMatches.congr rfl rfl rfl rfl
      not_failed := hnode.not_failed
      candidate := fun hs => absurd (hl.symm.trans hs) (by simp)
      leader := fun _ => ⟨hlead.won, hlead.acked, hlead.next_pos, hlead.next_le⟩
      commit := Or.inr ⟨_, le_rfl, _, hcom, by
        rw [hidx, List.length_take, PersistentState.length_entries]
        exact le_min le_rfl le_rfl⟩ }
  · exact ⟨_, hm, ⟨hpre, Or.inl rfl⟩⟩

/-! ## Sending -/

/-- A heartbeat says nothing about the receiver's log. -/
theorem heartbeatTick_rel {req : AppendEntriesRequest} (h : NodeRel g a r) (hb : b ≠ a)
    (hr : heartbeatTick r = some req) : PacketRel g ⟨a, b, .appendEntries req⟩ := by
  unfold heartbeatTick at hr
  split_ifs at hr with hs
  push Not at hs
  obtain rfl := Option.some.inj hr
  exact ⟨hb.symm, (h.leader hs.2).won, h.commit, [], List.nil_prefix, rfl, by simp⟩

theorem PersistentState.map_log_add (p : PersistentState) {k n : Nat} (h : k + n ≤ p.logLen) :
    (List.range n).map (fun i => p.log (k + i)) = (p.entries.drop k).take n := by
  apply List.ext_getElem
  · simp; omega
  · intro i h₁ h₂
    simp [PersistentState.entries]

theorem entryCount_add_le (logLen : Nat) {nextIdx : Nat} (hpos : 0 < nextIdx)
    (h : nextIdx ≤ logLen + 1) : nextIdx - 1 + entryCount logLen nextIdx ≤ logLen := by
  unfold entryCount
  dsimp only
  split_ifs <;> omega

/-- What a leader sends continues a prefix of its own log. -/
theorem raftAppendEntries_spec {req : AppendEntriesRequest} {i : Nat} (h : NodeRel g a r)
    (hib : (cfg.peers a)[i]? = some b) (hr : raftAppendEntries r i = some req) :
    r.state = .leader ∧ req.term = r.pstate.currentTerm ∧
      req.leaderCommit = r.vstate.commitIndex ∧
      req.prevLogIndex.toNat = (r.lstate.nextIndex i).toNat - 1 ∧
      req.prevLogIndex.toNat ≤ r.pstate.logLen ∧
      req.log = (r.pstate.entries.drop req.prevLogIndex.toNat).take
        (entryCount r.pstate.logLen (r.lstate.nextIndex i).toNat) ∧
      ∀ e ∈ (r.pstate.entries.take req.prevLogIndex.toNat).getLast?,
        e.term = req.prevLogTerm := by
  unfold raftAppendEntries at hr
  split_ifs at hr with hs
  push Not at hs
  obtain rfl := Option.some.inj hr
  have hpos := (h.leader hs.1).next_pos hib
  have hle := (h.leader hs.1).next_le hib
  have hprev := toNat_sub_one hpos
  refine ⟨hs.1, rfl, rfl, hprev, by dsimp only; omega, ?_, ?_⟩
  · dsimp only
    rw [hprev]
    exact PersistentState.map_log_add _ (entryCount_add_le _ hpos hle)
  · intro e he
    dsimp only at he ⊢
    rw [List.getLast?_take] at he
    split_ifs at he with h0
    · simp at he
    · rw [PersistentState.getElem?_entries _ (by omega)] at he
      obtain rfl := Option.some.inj he
      have hgt : r.lstate.nextIndex i - 1 > 0 := by
        rw [gt_iff_lt, UInt64.lt_iff_toNat_lt]
        exact Nat.pos_of_ne_zero h0
      rw [if_pos hgt, toNat_sub_one (Nat.pos_of_ne_zero h0)]

theorem raftAppendEntries_rel {req : AppendEntriesRequest} {i : Nat}
    (hv : Valid LogEntry.term g) (h : NodeRel g a r) (hib : (cfg.peers a)[i]? = some b)
    (hr : raftAppendEntries r i = some req) : PacketRel g ⟨a, b, .appendEntries req⟩ := by
  obtain ⟨hl, ht, hc, -, hle, hlog, hlast⟩ := raftAppendEntries_spec h hib hr
  have hlead := h.leader hl
  have hne : a ≠ b := (cfg.mem_peers.mp (List.mem_of_getElem? hib)).symm
  refine ⟨hne, ht ▸ hlead.won, ?_, r.pstate.entries.take req.prevLogIndex.toNat, ?_, ?_, hlast⟩
  · rw [ht, hc]; exact h.commit
  · rw [ht, hlog, ← List.take_add, ← hlead.entries_eq hv h.toMatches]
    exact List.take_prefix _ _
  · simpa using hle

/-! ## Restarting and delivering -/

theorem startNode_moves (clk : Clock) (hv : Valid LogEntry.term g) (h : NodeRel g a r) :
    Moves a g r g (startNode clk r.logFile (cfg.id a) (cfg.peerIds a)) ∧
      (startNode clk r.logFile (cfg.id a) (cfg.peerIds a)).pstate.entries = r.pstate.entries ∧
      (startNode clk r.logFile (cfg.id a) (cfg.peerIds a)).vstate = ⟨0, 0⟩ := by
  obtain ⟨p, hp, ht, hvf, hl⟩ := startNode_eq h.inSync clk (cfg.id a) (cfg.peerIds a)
  rw [hp]
  refine ⟨.same hv ?_ (by simp [blankNode, raftResetElectionTimer]), hl, rfl⟩
  exact {
    id := rfl
    peers := rfl
    noFaults := ⟨rfl, h.noFaults.2⟩
    inSync := by
      unfold InSync Kept
      simp only [ht, hvf, hl]
      exact LogFile.Holds.opened h.inSync
    cur := h.cur.trans ht.symm
    log := h.log.trans hl.symm
    votedFor := by
      simp only [ht, hvf]
      exact h.votedFor
    not_failed := by simp [blankNode, raftResetElectionTimer]
    candidate := by simp [blankNode, raftResetElectionTimer]
    leader := by simp [blankNode, raftResetElectionTimer]
    commit := Or.inl rfl }

/-- The delivered entries are those of the log between the old and the new `lastApplied`. -/
theorem raftCommitEntry_eq (r : RaftNode) (outCap : Nat) :
    ∃ n : UInt64, r.vstate.lastApplied ≤ n ∧
      (n ≤ r.vstate.commitIndex ∨ n = r.vstate.lastApplied) ∧
      raftCommitEntry r outCap = ({ r with vstate := { r.vstate with lastApplied := n } },
        (List.range (n.toNat - r.vstate.lastApplied.toNat)).map fun i =>
          r.pstate.log (r.vstate.lastApplied.toNat + i)) := by
  induction outCap generalizing r with
  | zero => exact ⟨r.vstate.lastApplied, le_rfl, Or.inr rfl, by simp [raftCommitEntry]⟩
  | succ k ih =>
    unfold raftCommitEntry
    split_ifs with hlt
    · have hadd : (r.vstate.lastApplied + 1).toNat = r.vstate.lastApplied.toNat + 1 := by
        rw [UInt64.toNat_add, UInt64.toNat_one]
        have h₁ := UInt64.lt_iff_toNat_lt.mp hlt
        have h₂ := r.vstate.commitIndex.toNat_lt
        omega
      obtain ⟨n, hle, hor, he⟩ :=
        ih { r with vstate := { r.vstate with lastApplied := r.vstate.lastApplied + 1 } }
      dsimp only at hle hor he ⊢
      have hle' := UInt64.le_iff_toNat_le.mp hle
      rw [hadd] at hle'
      refine ⟨n, by rw [UInt64.le_iff_toNat_le]; omega, Or.inl ?_, ?_⟩
      · rcases hor with h | rfl
        · exact h
        · rw [UInt64.le_iff_toNat_le, hadd]
          exact UInt64.lt_iff_toNat_lt.mp hlt
      · rw [he]
        have hsub : n.toNat - r.vstate.lastApplied.toNat =
            n.toNat - (r.vstate.lastApplied.toNat + 1) + 1 := by omega
        rw [hsub, List.range_succ_eq_map, hadd]
        simp [Function.comp_def, Nat.add_assoc, Nat.add_comm 1]
    · exact ⟨r.vstate.lastApplied, le_rfl, Or.inr rfl, by simp⟩

theorem raftCommitEntry_moves (hv : Valid LogEntry.term g) (h : NodeRel g a r) (outCap : Nat) :
    Moves a g r g (raftCommitEntry r outCap).1 := by
  obtain ⟨n, -, -, he⟩ := raftCommitEntry_eq r outCap
  rw [he]
  refine .same hv ?_ fun hs => ⟨hs, rfl⟩
  exact {
    toMatches := h.toMatches.congr rfl rfl rfl rfl
    not_failed := h.not_failed
    candidate := fun hs => ⟨(h.candidate hs).electionTerm, (h.candidate hs).cand,
      (h.candidate hs).not_won, (h.candidate hs).granted⟩
    leader := fun hs => ⟨(h.leader hs).won, (h.leader hs).acked, (h.leader hs).next_pos,
      (h.leader hs).next_le⟩
    commit := h.commit }

end Corestack.Raft
