import Corestack.Consensus.Safety
import Corestack.Raft.Cluster

/-! # Nodes and histories

A cluster is related to the history of what its nodes have done: the roles, the
votes and the logs of the nodes, and every packet that is still in the network,
are backed by it.
-/

namespace Corestack.Raft

open Consensus

variable {cfg : Config}

/-- What the nodes of a group have done. -/
abbrev Config.History (cfg : Config) := Consensus.History cfg.Node UInt64 LogEntry

/-- Some prefix committed in a term up to `t` has at least `n` entries. -/
def CommitBound (g : cfg.History) (t n : UInt64) : Prop :=
  n = 0 ∨ ∃ u ≤ t, ∃ p, Committed LogEntry.term g u p ∧ n.toNat ≤ p.length

/-- The part of a node that lasts. -/
structure Matches (g : cfg.History) (a : cfg.Node) (r : RaftNode) : Prop where
  id : r.id = cfg.id a
  peers : r.peers = cfg.peerIds a
  noFaults : r.logFile.NoFaults
  inSync : InSync r
  cur : g.cur a = r.pstate.currentTerm
  log : g.log a = r.pstate.entries
  votedFor : r.pstate.votedFor = (g.vote a r.pstate.currentTerm).elim raftNone cfg.id

/-- A candidate has stood with its present log, and the votes it counts were cast. -/
structure CandidateRel (g : cfg.History) (a : cfg.Node) (r : RaftNode) : Prop where
  electionTerm : r.cstate.electionTerm = r.pstate.currentTerm
  cand : g.cand a r.pstate.currentTerm = some r.pstate.entries
  not_won : g.leader r.pstate.currentTerm ≠ some a
  granted : ∀ {i b}, (cfg.peers a)[i]? = some b → r.cstate.votesGranted i = true →
    g.vote b r.pstate.currentTerm = some a

/-- A leader has won its term, and the matches it counts were confirmed. -/
structure LeaderRel (g : cfg.History) (a : cfg.Node) (r : RaftNode) : Prop where
  won : g.leader r.pstate.currentTerm = some a
  acked : ∀ {i b}, (cfg.peers a)[i]? = some b →
    (r.lstate.matchIndex i).toNat ≤ g.acked b r.pstate.currentTerm
  next_pos : ∀ {i b}, (cfg.peers a)[i]? = some b → 0 < (r.lstate.nextIndex i).toNat
  next_le : ∀ {i b}, (cfg.peers a)[i]? = some b →
    (r.lstate.nextIndex i).toNat ≤ r.pstate.logLen + 1

structure NodeRel (g : cfg.History) (a : cfg.Node) (r : RaftNode) : Prop extends
    Matches g a r where
  not_failed : r.state ≠ .failed
  candidate : r.state = .candidate → CandidateRel g a r
  leader : r.state = .leader → LeaderRel g a r
  commit : CommitBound g r.pstate.currentTerm r.vstate.commitIndex

/-- What a packet says is backed by the history. -/
def PacketRel (g : cfg.History) (p : Packet cfg) : Prop :=
  match p.body with
  | .requestVote req =>
    req.candidateId = cfg.id p.src ∧ ∃ l, g.cand p.src req.term = some l ∧
      l.length ≤ raftLogCap ∧ req.lastLogIndex = .ofNat l.length ∧
      req.lastLogTerm = l.getLast?.elim 0 LogEntry.term
  | .requestVoteResponse resp =>
    resp.voteGranted = true → ∃ t, resp.term ≤ t ∧ g.vote p.src t = some p.dst
  | .appendEntries req =>
    p.src ≠ p.dst ∧ g.leader req.term = some p.src ∧ CommitBound g req.term req.leaderCommit ∧
      ∃ l, l ++ req.log <+: g.leaderLog req.term ∧ l.length = req.prevLogIndex.toNat ∧
        ∀ e ∈ l.getLast?, e.term = req.prevLogTerm
  | .appendEntriesResponse resp =>
    resp.success = true → resp.matchIndex.toNat ≤ g.acked p.src resp.term

/-- The logs of the terms are such as a file can hold. -/
def GoodLogs (g : cfg.History) : Prop :=
  ∀ t, Dense (g.leaderLog t) ∧ (g.leaderLog t).length ≤ raftLogCap

/-- A cluster is in a state that the history accounts for. -/
structure Simulates (s : Cluster cfg) (g : cfg.History) : Prop where
  below : s.TermsBelow
  valid : Valid LogEntry.term g
  logs : GoodLogs g
  node : ∀ a, NodeRel g a (s.node a)
  net : ∀ p ∈ s.net, PacketRel g p

/-! ## The growth of the history -/

variable {g g' : cfg.History} {a b : cfg.Node} {r r' : RaftNode}

theorem CommitBound.mono {t t' n n' : UInt64} (hx : Extends a g g') (ht : t ≤ t') (hn : n' ≤ n)
    (h : CommitBound g t n) : CommitBound g' t' n' := by
  rw [UInt64.le_iff_toNat_le] at hn
  rcases h with rfl | ⟨u, hu, p, hp, hle⟩
  · refine Or.inl (UInt64.toNat_inj.mp ?_)
    simpa using hn
  · exact Or.inr ⟨u, hu.trans ht, p, hp.mono hx, hn.trans hle⟩

theorem Matches.congr (h : Matches g a r) (hid : r'.id = r.id) (hp : r'.peers = r.peers)
    (hf : r'.logFile = r.logFile) (hps : r'.pstate = r.pstate) : Matches g a r' where
  id := hid.trans h.id
  peers := hp.trans h.peers
  noFaults := hf ▸ h.noFaults
  inSync := by
    unfold InSync Kept
    rw [hf, hps]
    exact h.inSync
  cur := by rw [hps]; exact h.cur
  log := by rw [hps]; exact h.log
  votedFor := by rw [hps]; exact h.votedFor

theorem NodeRel.mono (hx : Extends a g g') (hb : b ≠ a) (h : NodeRel g b r) : NodeRel g' b r where
  id := h.id
  peers := h.peers
  noFaults := h.noFaults
  inSync := h.inSync
  cur := (hx.cur_other hb).trans h.cur
  log := (hx.log_other hb).trans h.log
  votedFor := by rw [hx.vote_other hb]; exact h.votedFor
  not_failed := h.not_failed
  candidate hc := {
    electionTerm := (h.candidate hc).electionTerm
    cand := hx.cand (h.candidate hc).cand
    not_won := fun hw => (hx.leader_new hw).elim (h.candidate hc).not_won hb
    granted := fun hi hg => hx.vote ((h.candidate hc).granted hi hg) }
  leader hl := {
    won := hx.leader (h.leader hl).won
    acked := fun hi => ((h.leader hl).acked hi).trans (hx.acked _ _)
    next_pos := (h.leader hl).next_pos
    next_le := (h.leader hl).next_le }
  commit := h.commit.mono hx le_rfl le_rfl

theorem PacketRel.mono {p : Packet cfg} (hx : Extends a g g') (h : PacketRel g p) :
    PacketRel g' p := by
  unfold PacketRel at *
  cases hb : p.body with
  | requestVote req =>
    simp only [hb] at h ⊢
    obtain ⟨hid, l, hl, hs⟩ := h
    exact ⟨hid, l, hx.cand hl, hs⟩
  | requestVoteResponse resp =>
    simp only [hb] at h ⊢
    intro hg
    obtain ⟨t, ht, hv⟩ := h hg
    exact ⟨t, ht, hx.vote hv⟩
  | appendEntries req =>
    simp only [hb] at h ⊢
    obtain ⟨hne, hl, hc, l, hp, hs⟩ := h
    exact ⟨hne, hx.leader hl, hc.mono hx le_rfl le_rfl, l, hp.trans (hx.leaderLog _), hs⟩
  | appendEntriesResponse resp =>
    simp only [hb] at h ⊢
    exact fun hs => (h hs).trans (hx.acked _ _)

/-- One node has moved on, and the history with it. -/
structure Moves (a : cfg.Node) (g : cfg.History) (r : RaftNode) (g' : cfg.History)
    (r' : RaftNode) : Prop where
  valid : Valid LogEntry.term g'
  ext : Extends a g g'
  node : NodeRel g' a r'
  logs : ∀ t, g'.leaderLog t = g.leaderLog t ∨ g'.leaderLog t = r'.pstate.entries
  /-- The log of a term grows only while its winner leads. -/
  frozen : ∀ {t}, g.leader t ≠ none →
    ¬ (r.state = .leader ∧ r.pstate.currentTerm = t ∧
      r'.state = .leader ∧ r'.pstate.currentTerm = t) → g'.leaderLog t = g.leaderLog t
  /-- A winner that has ceased to lead does not lead its term again. -/
  no_return : r'.state = .leader → g.leader r'.pstate.currentTerm = some a →
    r.state = .leader ∧ r.pstate.currentTerm = r'.pstate.currentTerm

/-- No entry is lost, and the commit position is the old one or one that the node has just found
committed as a leader. -/
structure Keeps (g' : cfg.History) (r r' : RaftNode) : Prop where
  entries : r.pstate.entries <+: r'.pstate.entries
  vstate : r'.vstate = r.vstate ∨
    ∃ n : UInt64, r'.vstate = { r.vstate with commitIndex := n } ∧ r.vstate.commitIndex < n ∧
      r'.state = .leader ∧ n.toNat ≤ r'.pstate.logLen ∧
      Committed LogEntry.term g' r'.pstate.currentTerm (r'.pstate.entries.take n.toNat)

theorem Moves.same (hv : Valid LogEntry.term g) (hn : NodeRel g a r')
    (hl : r'.state = .leader → r.state = .leader ∧
      r.pstate.currentTerm = r'.pstate.currentTerm) : Moves a g r g r' where
  valid := hv
  ext := .refl a g
  node := hn
  logs _ := Or.inl rfl
  frozen _ _ := rfl
  no_return hs _ := hl hs

theorem Moves.refl (hv : Valid LogEntry.term g) (hn : NodeRel g a r) : Moves a g r g r :=
  .same hv hn fun hl => ⟨hl, rfl⟩

theorem Keeps.refl (g : cfg.History) (r : RaftNode) : Keeps g r r :=
  ⟨List.prefix_rfl, Or.inl rfl⟩

/-- Two moves in a row, if the node does not lead in between. -/
theorem Moves.trans {g'' : cfg.History} {r'' : RaftNode} (h : Moves a g r g' r')
    (hl : r'.state ≠ .leader) (h' : Moves a g' r' g'' r'')
    (hlogs : ∀ t, g'.leaderLog t = g.leaderLog t) : Moves a g r g'' r'' where
  valid := h'.valid
  ext := h.ext.trans h'.ext
  node := h'.node
  logs t := (h'.logs t).imp_left (·.trans (hlogs t))
  frozen {t} hn _ := by
    refine (h'.frozen ?_ fun hs => hl hs.1).trans (hlogs t)
    obtain ⟨c, hc⟩ := Option.ne_none_iff_exists'.mp hn
    simp [h.ext.leader hc]
  no_return hs hw := absurd (h'.no_return hs (h.ext.leader hw)).1 hl

theorem Keeps.trans {g'' : cfg.History} {r'' : RaftNode} (he : r'.pstate.entries = r.pstate.entries)
    (hv : r'.vstate = r.vstate) (h : Keeps g'' r' r'') : Keeps g'' r r'' :=
  ⟨he ▸ h.entries, hv ▸ h.vstate⟩

end Corestack.Raft
