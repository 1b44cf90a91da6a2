import Corestack.Raft.Storing
import Corestack.Raft.Voting

/-! # The moves of a follower

A follower that accepts a request grafts the entries of the request on its log,
confirms them and may learn a commit position.
-/

namespace Corestack.Raft

open Consensus

variable {cfg : Config} {g : cfg.History} {a b c : cfg.Node} {r r' : RaftNode} {clk : Clock}

/-! ## Requests -/

/-- The node has stored the entries of a request behind those that precede them in the log of
the term. -/
structure Accepts (g : cfg.History) (r : RaftNode) (req : AppendEntriesRequest)
    (l : List LogEntry) (r' : RaftNode) : Prop where
  isPrefix : l ++ req.log <+: g.leaderLog req.term
  length : l.length = req.prevLogIndex.toNat
  last : ∀ e ∈ l.getLast?, e.term = req.prevLogTerm
  prior : l <+: r.pstate.entries
  entries : r'.pstate.entries = graft r.pstate.entries (l ++ req.log)
  logOnly : LogOnly r r'
  inSync : InSync r'

/-- The log does not have what precedes the entries of the request. -/
def Refuses (r : RaftNode) (req : AppendEntriesRequest) : Prop :=
  req.prevLogIndex.toNat > r.pstate.logLen ∨
    req.prevLogIndex > 0 ∧
      (r.pstate.log (req.prevLogIndex - 1).toNat).term ≠ req.prevLogTerm

/-- A request is refused and changes nothing, or the loop runs on the log of the term. -/
theorem acceptAppendEntries_loop {req : AppendEntriesRequest} (hv : Valid LogEntry.term g)
    (hg : GoodLogs g) (h : Matches g a r) (hp : PacketRel g ⟨c, a, .appendEntries req⟩) :
    (Refuses r req ∧ acceptAppendEntries r req = (r, ⟨r.pstate.currentTerm, false, 0⟩)) ∨
    ∃ l, StoreLoop req.prevLogIndex (g.leaderLog req.term) l req.log 0 r ∧
      (∀ e ∈ l.getLast?, e.term = req.prevLogTerm) ∧
      acceptAppendEntries r req =
        match storeEntries req.prevLogIndex r 0 req.log with
        | (r', false) => (r', ⟨r.pstate.currentTerm, false, 0⟩)
        | (r', true) => (learnCommit r' req.leaderCommit,
            ⟨r.pstate.currentTerm, true, req.prevLogIndex + .ofNat req.log.length⟩) := by
  obtain ⟨-, -, -, l, hl, hlen, hlast⟩ := hp
  unfold acceptAppendEntries
  dsimp only
  split_ifs with hprev hterm
  · exact Or.inl ⟨Or.inl hprev, rfl⟩
  · exact Or.inl ⟨Or.inr hterm, rfl⟩
  have hm := NodeRel.matching hv h req.term
  have hle : l.length ≤ r.pstate.logLen := by omega
  refine Or.inr ⟨l, ⟨⟨_, _, h.inSync⟩, h.noFaults, hm, (hg _).1, (hg _).2, ?_, hl, hlen⟩, hlast,
    rfl⟩
  rcases List.eq_nil_or_concat' l with rfl | ⟨q, e, rfl⟩
  · exact List.nil_prefix
  · -- the check on the previous entry is the check on the last entry of `l`
    simp only [List.length_append, List.length_singleton] at hlen hle
    have hpos : req.prevLogIndex > 0 := by
      rw [gt_iff_lt, UInt64.lt_iff_toNat_lt]; simp; omega
    have hat : (req.prevLogIndex - 1).toNat = q.length := by
      rw [toNat_sub_one (by omega), ← hlen, Nat.add_sub_cancel]
    have hte : (r.pstate.log q.length).term = e.term := by
      rw [hlast e (by simp), ← hat]
      by_contra hne
      exact hterm ⟨hpos, hne⟩
    have hqe : q ++ [e] <+: g.leaderLog req.term := (List.prefix_append _ _).trans hl
    have htake := r.pstate.take_pred_append (Nat.succ_pos q.length) hle
    rw [Nat.succ_sub_one] at htake
    have hpre := htake ▸ List.take_prefix (q.length + 1) r.pstate.entries
    rw [← hm _ _ _ _ hpre hqe (by simp; omega) hte]
    exact hpre

/-- A request is refused and changes nothing, or stored in full. -/
theorem acceptAppendEntries_cases {req : AppendEntriesRequest} (hv : Valid LogEntry.term g)
    (hg : GoodLogs g) (h : Matches g a r) (hp : PacketRel g ⟨c, a, .appendEntries req⟩) :
    (Refuses r req ∧ acceptAppendEntries r req = (r, ⟨r.pstate.currentTerm, false, 0⟩)) ∨
    ∃ l r', Accepts g r req l r' ∧ acceptAppendEntries r req =
      (learnCommit r' req.leaderCommit,
        ⟨r.pstate.currentTerm, true, req.prevLogIndex + .ofNat req.log.length⟩) := by
  rcases acceptAppendEntries_loop hv hg h hp with he | ⟨l, hloop, hlast, he⟩
  · exact Or.inl he
  obtain ⟨hok, hentries⟩ := hloop.graft
  have hi : req.prevLogIndex.toNat + 0 ≤ r.pstate.logLen := by
    rw [← hloop.length]; simpa using hloop.prior.length_le
  obtain ⟨hk, hlo⟩ := storeEntries_spec req.log h.inSync hi
  rw [he]
  rcases hs : storeEntries req.prevLogIndex r 0 req.log with ⟨r', ok⟩
  rw [hs] at hok hentries hk hlo
  obtain rfl : ok = true := hok
  refine Or.inr ⟨l, r', ⟨hloop.isPrefix, hloop.length, hlast, hloop.prior, hentries, hlo, ?_⟩, rfl⟩
  unfold InSync
  rw [hlo.currentTerm, hlo.votedFor]
  exact hk

theorem learnCommit_le (r : RaftNode) (leaderCommit : UInt64) :
    ∃ n, learnCommit r leaderCommit = { r with vstate := { r.vstate with commitIndex := n } } ∧
      (n ≤ leaderCommit ∨ n = r.vstate.commitIndex) := by
  unfold learnCommit
  dsimp only
  split_ifs with h hlt
  · exact ⟨_, rfl, Or.inl le_rfl⟩
  · exact ⟨_, rfl, Or.inl (not_lt.mp hlt)⟩
  · exact ⟨_, rfl, Or.inr rfl⟩

/-- A follower that answers a request of its term. -/
theorem acceptAppendEntries_moves {req : AppendEntriesRequest} (hv : Valid LogEntry.term g)
    (hg : GoodLogs g) (h : NodeRel g a r) (hf : r.state = .follower)
    (hp : PacketRel g ⟨c, a, .appendEntries req⟩) (ht : req.term = r.pstate.currentTerm) :
    ∃ g', Moves a g r g' (acceptAppendEntries r req).1 ∧
      (∀ t, g'.leaderLog t = g.leaderLog t) ∧
      PacketRel g' ⟨a, c, .appendEntriesResponse (acceptAppendEntries r req).2⟩ := by
  rcases acceptAppendEntries_cases hv hg h.toMatches hp with ⟨-, he⟩ | ⟨l, r', ha, he⟩
  · rw [he]
    exact ⟨g, .refl hv h, fun _ => rfl, by simp [PacketRel]⟩
  obtain ⟨hne, hlead, hcommit, -⟩ := hp
  obtain ⟨n, hn, hnle⟩ := learnCommit_le r' req.leaderCommit
  rw [he, hn]
  rw [ht] at hlead
  have hpre : l ++ req.log <+: g.leaderLog r.pstate.currentTerm := ht ▸ ha.isPrefix
  have hx : Extends a g (g.store a r.pstate.currentTerm (l ++ req.log)) := .store _
  have hl := ha.logOnly
  have hfol : r'.state = .follower := (hl.noFaults h.noFaults).2.trans hf
  have hb : CommitBound g r.pstate.currentTerm n := by
    rcases hnle with hle | rfl
    · exact (ht ▸ hcommit).mono (.refl a g) le_rfl hle
    · rw [hl.vstate]; exact h.commit
  refine ⟨g.store a r.pstate.currentTerm (l ++ req.log), ?_, fun _ => rfl, fun _ => ?_⟩
  · exact {
      valid := hv.store hlead hne h.cur hpre
      ext := hx
      node := {
        id := hl.id.trans h.id
        peers := hl.peers.trans h.peers
        noFaults := (hl.noFaults h.noFaults).1
        inSync := ha.inSync
        cur := h.cur.trans hl.currentTerm.symm
        log := by simp [h.log, ha.entries]
        votedFor := by
          simp only [History.store_vote, hl.currentTerm, hl.votedFor]
          exact h.votedFor
        not_failed := by simp [hfol]
        candidate := by simp [hfol]
        leader := by simp [hfol]
        commit := by
          simp only [hl.currentTerm]
          exact hb.mono hx le_rfl le_rfl }
      logs := fun _ => Or.inl rfl
      frozen := fun _ _ => rfl
      no_return := by simp [hfol] }
  · -- the confirmed place is the end of the stored prefix
    have hlen := (hpre.length_le).trans (hg _).2
    rw [List.length_append, ha.length] at hlen
    simp only [History.store_acked, put_self, List.length_append, ha.length]
    refine le_max_of_le_right (le_of_eq ?_)
    exact toNat_add_ofNat hlen

theorem followLeader_moves (clk : Clock) (hv : Valid LogEntry.term g) (h : NodeRel g a r)
    (id : UInt64) :
    (followLeader clk r id).state = .follower ∧ Moves a g r g (followLeader clk r id) := by
  have hf : (followLeader clk r id).state = .follower := by
    simp [followLeader, raftResetElectionTimer, h.not_failed]
  refine ⟨hf, .same hv ?_ (by simp [hf])⟩
  exact {
    toMatches := h.toMatches.congr rfl rfl rfl rfl
    not_failed := by simp [hf]
    candidate := by simp [hf]
    leader := by simp [hf]
    commit := h.commit }

/-- The receiver `r'` of an accepted request: it follows in the term of the request, has stored
the entries, and may have learned a commit position. -/
structure Accepted (g : cfg.History) (r : RaftNode) (req : AppendEntriesRequest)
    (l : List LogEntry) (r' : RaftNode) : Prop where
  term_le : r.pstate.currentTerm ≤ req.term
  currentTerm : r'.pstate.currentTerm = req.term
  isPrefix : l ++ req.log <+: g.leaderLog req.term
  length : l.length = req.prevLogIndex.toNat
  last : ∀ e ∈ l.getLast?, e.term = req.prevLogTerm
  prior : l <+: r.pstate.entries
  entries : r'.pstate.entries = graft r.pstate.entries (l ++ req.log)
  lastApplied : r'.vstate.lastApplied = r.vstate.lastApplied
  commit : r'.vstate.commitIndex = r.vstate.commitIndex ∨
    r.vstate.commitIndex < req.leaderCommit ∧
      r'.vstate.commitIndex.toNat = min req.leaderCommit.toNat r'.pstate.logLen
  state : r'.state = .follower

theorem learnCommit_commitIndex (leaderCommit : UInt64) (h : r.pstate.logLen ≤ raftLogCap) :
    (learnCommit r leaderCommit).vstate.commitIndex = r.vstate.commitIndex ∨
      r.vstate.commitIndex < leaderCommit ∧
        (learnCommit r leaderCommit).vstate.commitIndex.toNat =
          min leaderCommit.toNat r.pstate.logLen := by
  have hlast := toNat_raftLastLogIndex h
  unfold learnCommit
  dsimp only
  split_ifs with hc hlt
  · refine Or.inr ⟨hc, ?_⟩
    rw [UInt64.lt_iff_toNat_lt, hlast] at hlt
    exact (min_eq_left hlt.le).symm
  · refine Or.inr ⟨hc, ?_⟩
    rw [UInt64.lt_iff_toNat_lt, hlast, not_lt] at hlt
    rw [min_eq_right hlt]
    exact hlast
  · exact Or.inl rfl

theorem Accepts.accepted {req : AppendEntriesRequest} {l : List LogEntry} {r₀ : RaftNode}
    (h : NodeRel g a r) (hf : r.state = .follower) (ht : req.term = r.pstate.currentTerm)
    (ha : Accepts g r req l r') (hle : r₀.pstate.currentTerm ≤ req.term)
    (he : r.pstate.entries = r₀.pstate.entries) (hvs : r.vstate = r₀.vstate) :
    Accepted g r₀ req l (learnCommit r' req.leaderCommit) := by
  obtain ⟨n, hn, -⟩ := learnCommit_le r' req.leaderCommit
  have hcom := learnCommit_commitIndex req.leaderCommit ha.inSync.logLen_le
  rw [ha.logOnly.vstate, hvs] at hcom
  rw [hn] at hcom ⊢
  exact {
    term_le := hle
    currentTerm := ha.logOnly.currentTerm.trans ht.symm
    isPrefix := ha.isPrefix
    length := ha.length
    last := ha.last
    prior := he ▸ ha.prior
    entries := he ▸ ha.entries
    lastApplied := by simp only [ha.logOnly.vstate, hvs]
    commit := hcom
    state := (ha.logOnly.noFaults h.noFaults).2.trans hf }

/-- The receiver `r'` of a refused request follows in its term and keeps its log and positions. -/
structure Refused (r : RaftNode) (req : AppendEntriesRequest) (r' : RaftNode) : Prop where
  term_le : r.pstate.currentTerm ≤ req.term
  refuses : Refuses r req
  currentTerm : r'.pstate.currentTerm = req.term
  entries : r'.pstate.entries = r.pstate.entries
  vstate : r'.vstate = r.vstate
  state : r'.state = .follower

/-- A request is ignored as an old one, refused or accepted. -/
theorem handleAppendEntriesRequest_cases (clk : Clock) {req : AppendEntriesRequest}
    (hv : Valid LogEntry.term g) (hg : GoodLogs g) (h : NodeRel g a r)
    (hp : PacketRel g ⟨c, a, .appendEntries req⟩) :
    (req.term < r.pstate.currentTerm ∧ (handleAppendEntriesRequest clk r req).1 = r) ∨
    (Refused r req (handleAppendEntriesRequest clk r req).1 ∧
      (handleAppendEntriesRequest clk r req).2 = ⟨req.term, false, 0⟩) ∨
    ∃ l, Accepted g r req l (handleAppendEntriesRequest clk r req).1 ∧
      (handleAppendEntriesRequest clk r req).2 =
        ⟨req.term, true, req.prevLogIndex + .ofNat req.log.length⟩ := by
  unfold handleAppendEntriesRequest
  dsimp only
  rcases lt_trichotomy req.term r.pstate.currentTerm with hlt | heq | hgt
  · rw [if_pos hlt]
    exact Or.inl ⟨hlt, rfl⟩
  · rw [if_neg (by simp [heq]), if_neg (by simp [heq])]
    obtain ⟨hf, hm⟩ := followLeader_moves clk hv h req.leaderId
    right
    rcases acceptAppendEntries_cases hv hg hm.node.toMatches hp with ⟨hr, he⟩ | ⟨l, r', ha, he⟩
    · rw [he, heq]
      exact Or.inl ⟨⟨heq.ge, hr, heq.symm, rfl, rfl, hf⟩, rfl⟩
    · rw [he, heq]
      exact Or.inr ⟨l, ha.accepted hm.node hf heq heq.ge rfl rfl, rfl⟩
  · rw [if_neg hgt.not_gt, if_pos hgt]
    obtain ⟨r₁, hu, -, hps, hvs, hm₁⟩ := updateTermLocked_moves clk hv h hgt
    rw [hu]
    obtain ⟨hf, hm⟩ := followLeader_moves clk hm₁.valid hm₁.node req.leaderId
    have hps' : (followLeader clk r₁ req.leaderId).pstate =
        { r.pstate with currentTerm := req.term, votedFor := raftNone } := hps
    have hcur : req.term = (followLeader clk r₁ req.leaderId).pstate.currentTerm := by rw [hps']
    have hent : (followLeader clk r₁ req.leaderId).pstate.entries = r.pstate.entries := by
      rw [hps']; rfl
    dsimp only
    right
    rcases acceptAppendEntries_cases hm₁.valid (fun t => hg t) hm.node.toMatches
      (hp.mono hm₁.ext) with ⟨hr, he⟩ | ⟨l, r', ha, he⟩
    · unfold Refuses at hr
      rw [hps'] at hr
      rw [he, ← hcur]
      exact Or.inl ⟨⟨hgt.le, hr, hcur.symm, hent, hvs, hf⟩, rfl⟩
    · rw [he, ← hcur]
      have := ha.accepted hm.node hf hcur hgt.le hent hvs
      exact Or.inr ⟨l, ⟨this.1, this.2, this.3, this.4, this.5, this.6, this.7, this.8, this.9,
        this.10⟩, rfl⟩

/-- A request is answered with a confirmation that the history has, or with a refusal. -/
theorem handleAppendEntriesRequest_moves (clk : Clock) {req : AppendEntriesRequest}
    (hv : Valid LogEntry.term g) (hg : GoodLogs g) (h : NodeRel g a r)
    (hp : PacketRel g ⟨c, a, .appendEntries req⟩) :
    ∃ g', Moves a g r g' (handleAppendEntriesRequest clk r req).1 ∧
      PacketRel g' ⟨a, c, .appendEntriesResponse (handleAppendEntriesRequest clk r req).2⟩ := by
  unfold handleAppendEntriesRequest
  dsimp only
  rcases lt_trichotomy req.term r.pstate.currentTerm with hlt | heq | hgt
  · rw [if_pos hlt]
    exact ⟨g, .refl hv h, by simp [PacketRel]⟩
  · rw [if_neg (by simp [heq]), if_neg (by simp [heq])]
    obtain ⟨hf, hm⟩ := followLeader_moves clk hv h req.leaderId
    obtain ⟨g', hm', -, hp'⟩ := acceptAppendEntries_moves hv hg hm.node hf hp heq
    exact ⟨g', hm.trans (by simp [hf]) hm' fun _ => rfl, hp'⟩
  · rw [if_neg hgt.not_gt, if_pos hgt]
    obtain ⟨r₁, hu, hf₁, hps, -, hm₁⟩ := updateTermLocked_moves clk hv h hgt
    rw [hu]
    obtain ⟨hf, hm⟩ := followLeader_moves clk hm₁.valid hm₁.node req.leaderId
    have hcur : req.term = (followLeader clk r₁ req.leaderId).pstate.currentTerm := by
      simp [followLeader, raftResetElectionTimer, hps]
    obtain ⟨g', hm', -, hp'⟩ := acceptAppendEntries_moves hm₁.valid (fun t => hg t) hm.node hf
      (hp.mono hm₁.ext) hcur
    have hm₂ := hm₁.trans (by simp [hf₁]) hm fun _ => rfl
    exact ⟨g', hm₂.trans (by simp [hf]) hm' fun _ => rfl, hp'⟩

/-! ## What an answer writes -/

/-- Entries that the node shares with the log of the term are not cut off. -/
theorem acceptAppendEntries_writes {req : AppendEntriesRequest} {n : Nat}
    (hv : Valid LogEntry.term g) (hg : GoodLogs g) (h : Matches g a r)
    (hp : PacketRel g ⟨c, a, .appendEntries req⟩) (hn : n ≤ r.pstate.logLen)
    (hl : r.pstate.entries.take n <+: g.leaderLog req.term) :
    ∃ cs, Writes r (acceptAppendEntries r req).1 cs ∧
      ∀ k, LogRecord.truncate k ∈ cs → n < k.toNat := by
  rcases acceptAppendEntries_loop hv hg h hp with ⟨-, he⟩ | ⟨l, hloop, -, he⟩
  · rw [he]
    exact ⟨[], .refl r, by simp⟩
  · obtain ⟨cs, hcs, hk⟩ := hloop.writes hn hl
    refine ⟨cs, ?_, hk⟩
    rw [he]
    rcases hs : storeEntries req.prevLogIndex r 0 req.log with ⟨r', _ | _⟩
    · rw [hs] at hcs
      exact hcs
    · rw [hs] at hcs
      obtain ⟨m, hm⟩ := learnCommit_eq r' req.leaderCommit
      dsimp only
      rw [hm]
      exact hcs

theorem updateTermLocked_writes (clk : Clock) (r : RaftNode) (newTerm : UInt64) :
    ∃ cs, Writes r (updateTermLocked clk r newTerm).1 cs ∧ ∀ k, LogRecord.truncate k ∉ cs := by
  unfold updateTermLocked
  split_ifs
  · exact ⟨[], .refl r, by simp⟩
  · unfold persistStateLocked
    rcases LogFile.write_cases (enterTerm r newTerm).logFile (stateLine
      (enterTerm r newTerm).pstate.currentTerm (enterTerm r newTerm).pstate.votedFor) with
      ⟨f, hw, hf, -⟩ | ⟨f, hw, hf, -⟩
    · rw [hw]
      refine ⟨[.state newTerm raftNone], ?_, by simp⟩
      simpa [Writes, LogRecord.line, raftResetElectionTimer, raftClearLeaderState,
        raftClearCandidateState, enterTerm] using hf
    · rw [hw]
      refine ⟨[], ?_, by simp⟩
      simp [Writes, hf, enterTerm]

theorem handleAppendEntriesRequest_writes (clk : Clock) {req : AppendEntriesRequest} {n : Nat}
    (hv : Valid LogEntry.term g) (hg : GoodLogs g) (h : NodeRel g a r)
    (hp : PacketRel g ⟨c, a, .appendEntries req⟩) (hn : n ≤ r.pstate.logLen)
    (hl : r.pstate.currentTerm ≤ req.term → r.pstate.entries.take n <+: g.leaderLog req.term) :
    ∃ cs, Writes r (handleAppendEntriesRequest clk r req).1 cs ∧
      ∀ k, LogRecord.truncate k ∈ cs → n < k.toNat := by
  unfold handleAppendEntriesRequest
  dsimp only
  rcases lt_trichotomy req.term r.pstate.currentTerm with hlt | heq | hgt
  · rw [if_pos hlt]
    exact ⟨[], .refl r, by simp⟩
  · rw [if_neg (by simp [heq]), if_neg (by simp [heq])]
    have hm := (followLeader_moves clk hv h req.leaderId).2
    exact acceptAppendEntries_writes hv hg hm.node.toMatches hp hn (hl heq.ge)
  · rw [if_neg hgt.not_gt, if_pos hgt]
    obtain ⟨cs, hcs, hk⟩ := updateTermLocked_writes clk r req.term
    obtain ⟨r₁, hu, -, hps, -, hm₁⟩ := updateTermLocked_moves clk hv h hgt
    rw [hu] at hcs ⊢
    have hm := (followLeader_moves clk hm₁.valid hm₁.node req.leaderId).2
    have hent : (followLeader clk r₁ req.leaderId).pstate.entries = r.pstate.entries := by
      simp only [followLeader, raftResetElectionTimer, hps]
      rfl
    obtain ⟨cs', hcs', hk'⟩ := acceptAppendEntries_writes hm₁.valid (fun t => hg t)
      hm.node.toMatches (hp.mono hm₁.ext)
      (by rw [← PersistentState.length_entries, hent, PersistentState.length_entries]; exact hn)
      (hent ▸ hl hgt.le)
    refine ⟨cs ++ cs', hcs.trans hcs', fun k hmem => ?_⟩
    rcases List.mem_append.mp hmem with hmem | hmem
    · exact absurd hmem (hk k)
    · exact hk' k hmem

end Corestack.Raft
