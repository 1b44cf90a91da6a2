import Corestack.Raft.Safety
import Corestack.Raft.Tracking

/-! # Leaders and those who follow them

A leader only adds to its log. A node follows nobody or a node that has led its term,
so the nodes of one term do not follow different leaders.
-/

namespace Corestack.Raft

open Consensus

variable {cfg : Config} {s u : Cluster cfg} {g g' : cfg.History} {a b c : cfg.Node}
  {r r' : RaftNode} {t : UInt64} {tr later past : List (Cluster cfg)}

/-- As long as a node leads a term, nothing is taken away from its log. -/
theorem leader_append_only (h : Cluster.Run (later ++ s :: past)) (hu : u ∈ later ++ [s])
    (hl : s.Leads a t) (hl' : u.Leads b t) :
    b = a ∧ (s.node a).pstate.entries <+: (u.node b).pstate.entries := by
  obtain ⟨g, hg⟩ := Run.simulates (Run.tail h)
  obtain ⟨g', hg', hgrow⟩ := hg.reaches (Run.reaches h hu)
  obtain ⟨hwon, hlog⟩ := hg.leads hl
  obtain ⟨hwon', hlog'⟩ := hg'.leads hl'
  constructor
  · exact Option.some.inj (hwon'.symm.trans (hgrow.leader hwon))
  · rw [hlog, hlog']
    exact Grows.leaderLog hgrow t

/-- Node 0 has taken a command. -/
theorem leader_append_only_trio :
    ((Cluster.after Cluster.atZero Cluster.elected).node 0).pstate.entries <+:
      ((Cluster.after Cluster.atZero Cluster.commanded).node 0).pstate.entries := by
  have hrun : Cluster.Run ([Cluster.after Cluster.atZero Cluster.commanded] ++
      Cluster.after Cluster.atZero Cluster.elected ::
        Cluster.states Cluster.atZero Cluster.elected.tail) :=
    Cluster.run_states Cluster.atZero Cluster.commanded (by decide +kernel)
  exact (leader_append_only (t := 1) hrun List.mem_cons_self (by decide +kernel)
    (by decide +kernel)).2

/-! ## What a node takes for its leader -/

/-- What a call does to the leader that a node names, unless it is a request of a leader. -/
inductive Renamed (r r' : RaftNode) : Prop
  | none (h : r'.leaderId = raftNone)
  | same (h : r'.leaderId = r.leaderId) (ht : r'.pstate.currentTerm = r.pstate.currentTerm)
  | self (h : r'.leaderId = r'.id) (hs : r'.state = .leader)

theorem Renamed.refl (r : RaftNode) : Renamed r r := .same rfl rfl

theorem updateTermLocked_renamed (clk : Clock) (r : RaftNode) (newTerm : UInt64) :
    Renamed r (updateTermLocked clk r newTerm).1 := by
  unfold updateTermLocked persistStateLocked
  split_ifs
  · exact .refl r
  · rcases (enterTerm r newTerm).logFile.write _ with ⟨f, _ | _⟩
    · exact .none rfl
    · exact .none rfl

theorem answerRequestVote_renamed (clk : Clock) (r : RaftNode) (req : RequestVoteRequest)
    (resp : RequestVoteResponse) :
    (answerRequestVote clk r req resp).1.leaderId = r.leaderId ∧
      (answerRequestVote clk r req resp).1.pstate.currentTerm = r.pstate.currentTerm := by
  unfold answerRequestVote persistStateLocked
  split_ifs
  · exact ⟨rfl, rfl⟩
  · exact ⟨rfl, rfl⟩
  · rcases (voteFor r req.candidateId).logFile.write _ with ⟨f, _ | _⟩
    · exact ⟨rfl, rfl⟩
    · exact ⟨rfl, rfl⟩
  · exact ⟨rfl, rfl⟩

theorem handleRequestVoteRequest_renamed (clk : Clock) (r : RaftNode) (req : RequestVoteRequest) :
    Renamed r (handleRequestVoteRequest clk r req).1 := by
  unfold handleRequestVoteRequest
  split_ifs with ht
  · obtain ⟨hid, hterm⟩ := answerRequestVote_renamed clk (updateTermLocked clk r req.term).1 req
      ⟨r.pstate.currentTerm, false⟩
    rcases updateTermLocked_renamed clk r req.term with h | ⟨h, hcur⟩ | ⟨h, hs⟩
    · exact .none (hid.trans h)
    · exact .same (hid.trans h) (hterm.trans hcur)
    · exact absurd hs (updateTermLocked_not_leader clk ht)
  · obtain ⟨hid, hterm⟩ := answerRequestVote_renamed clk r req ⟨r.pstate.currentTerm, false⟩
    exact .same hid hterm

theorem raftTimeout_renamed (clk : Clock) (r : RaftNode) (outCap : Nat) :
    Renamed r (raftTimeout clk r outCap).1 := by
  unfold raftTimeout persistStateLocked startElection
  split_ifs
  · exact .refl r
  · exact .refl r
  · rcases (becomeCandidate r).logFile.write _ with ⟨f, _ | _⟩
    · exact .none rfl
    · dsimp only
      split_ifs
      · exact .self rfl rfl
      · exact .none rfl

theorem handleRequestVoteResponse_renamed (clk : Clock) (r : RaftNode) (resp : RequestVoteResponse)
    (peer : UInt64) : Renamed r (handleRequestVoteResponse clk r resp peer) := by
  unfold handleRequestVoteResponse
  split_ifs
  · exact updateTermLocked_renamed clk r resp.term
  · exact .refl r
  · rcases findPeerIdx r peer with _ | i
    · exact .refl r
    · dsimp only
      split_ifs
      · exact .refl r
      · exact .self rfl rfl
      · exact .same rfl rfl

theorem handleAppendEntriesResponse_renamed (clk : Clock) (r : RaftNode)
    (resp : AppendEntriesResponse) (peer : UInt64) :
    Renamed r (handleAppendEntriesResponse clk r resp peer) := by
  have hadvance : ∀ r₁, (advanceCommitIndexLocked r₁).leaderId = r₁.leaderId ∧
      (advanceCommitIndexLocked r₁).pstate = r₁.pstate := by
    intro r₁
    obtain ⟨m, hm⟩ := advanceCommitIndexLocked_eq r₁
    rw [hm]
    exact ⟨rfl, rfl⟩
  unfold handleAppendEntriesResponse
  rcases findPeerIdx r peer with _ | i
  · dsimp only
    split_ifs
    · exact .refl r
    · exact .refl r
    · exact updateTermLocked_renamed clk r resp.term
    · exact .refl r
  · dsimp only
    split_ifs
    · exact .refl r
    · exact .refl r
    · exact updateTermLocked_renamed clk r resp.term
    · obtain ⟨hid, hps⟩ := hadvance (recordMatch r i resp.matchIndex)
      exact .same hid (congrArg _ hps)
    · obtain ⟨hid, hps⟩ := hadvance r
      exact .same hid (congrArg _ hps)
    · exact .same rfl rfl
    · exact .refl r

theorem raftLeaderSendCommand_renamed (r : RaftNode) (command : ClientCommand) :
    Renamed r (raftLeaderSendCommand r command).1 := by
  unfold raftLeaderSendCommand persistLogEntryLocked
  split_ifs
  · exact .refl r
  · exact .refl r
  · rcases hw : r.logFile.write (entryLine ⟨raftLastLogIndex r + 1, r.pstate.currentTerm,
      command⟩) with ⟨f, _ | _⟩
    · simp only [hw]
      exact .same rfl rfl
    · simp only [hw]
      split_ifs
      · exact .same rfl rfl
      · exact .same rfl rfl

/-! ## Requests of leaders -/

/-- The same term, and the same leader in it. -/
def SameLeader (r r' : RaftNode) : Prop :=
  r'.leaderId = r.leaderId ∧ r'.pstate.currentTerm = r.pstate.currentTerm

theorem SameLeader.refl (r : RaftNode) : SameLeader r r := ⟨rfl, rfl⟩

theorem SameLeader.trans {r'' : RaftNode} (h : SameLeader r r') (h' : SameLeader r' r'') :
    SameLeader r r'' := ⟨h'.1.trans h.1, h'.2.trans h.2⟩

theorem pushEntry_sameLeader (r : RaftNode) (e : LogEntry) : SameLeader r (pushEntry r e).1 := by
  unfold pushEntry persistLogEntryLocked
  split_ifs
  · exact .refl r
  · rcases r.logFile.write _ with ⟨f, _ | _⟩
    · exact ⟨rfl, rfl⟩
    · exact ⟨rfl, rfl⟩

theorem storeEntry_sameLeader (r : RaftNode) (e : LogEntry) (pos : Nat) :
    SameLeader r (storeEntry r e pos).1 := by
  unfold storeEntry persistTruncateLocked
  split_ifs
  · rcases r.logFile.write _ with ⟨f, _ | _⟩
    · exact ⟨rfl, rfl⟩
    · exact pushEntry_sameLeader { r with logFile := f, pstate := r.pstate.truncate pos } e
  · exact pushEntry_sameLeader r e

theorem storeEntries_sameLeader (prev : UInt64) (r : RaftNode) (i : Nat) (es : List LogEntry) :
    SameLeader r (storeEntries prev r i es).1 := by
  induction es generalizing r i with
  | nil => exact .refl r
  | cons e es ih =>
    unfold storeEntries
    split_ifs
    · exact .refl r
    · dsimp only
      split_ifs
      · exact ih r (i + 1)
      · have hs := storeEntry_sameLeader r e (e.index - 1).toNat
        rcases hst : storeEntry r e (e.index - 1).toNat with ⟨r', _ | _⟩
        · rw [hst] at hs
          exact hs
        · rw [hst] at hs
          exact hs.trans (ih r' (i + 1))

theorem acceptAppendEntries_sameLeader (r : RaftNode) (req : AppendEntriesRequest) :
    SameLeader r (acceptAppendEntries r req).1 := by
  unfold acceptAppendEntries
  dsimp only
  split_ifs
  · exact .refl r
  · exact .refl r
  · have hs := storeEntries_sameLeader req.prevLogIndex r 0 req.log
    rcases hst : storeEntries req.prevLogIndex r 0 req.log with ⟨r', _ | _⟩
    · rw [hst] at hs
      exact hs
    · obtain ⟨n, hn⟩ := learnCommit_eq r' req.leaderCommit
      rw [hst] at hs
      dsimp only
      rw [hn]
      exact hs

/-- A node that takes a request of a leader names that leader. -/
theorem handleAppendEntriesRequest_renamed (clk : Clock) (r : RaftNode)
    (req : AppendEntriesRequest) :
    Renamed r (handleAppendEntriesRequest clk r req).1 ∨
      (handleAppendEntriesRequest clk r req).1.leaderId = req.leaderId ∧
        (handleAppendEntriesRequest clk r req).1.pstate.currentTerm = req.term := by
  have hfollow : ∀ r₁, r₁.pstate.currentTerm = req.term →
      (acceptAppendEntries (followLeader clk r₁ req.leaderId) req).1.leaderId = req.leaderId ∧
        (acceptAppendEntries (followLeader clk r₁ req.leaderId) req).1.pstate.currentTerm =
          req.term := by
    intro r₁ ht
    obtain ⟨hid, hterm⟩ := acceptAppendEntries_sameLeader (followLeader clk r₁ req.leaderId) req
    exact ⟨hid, hterm.trans ht⟩
  unfold handleAppendEntriesRequest
  dsimp only
  split_ifs with hlt hgt
  · exact Or.inl (.refl r)
  · have hu := updateTermLocked_renamed clk r req.term
    have hterm : (updateTermLocked clk r req.term).1.pstate.currentTerm = req.term := by
      unfold updateTermLocked persistStateLocked
      rw [if_neg (not_le.mpr hgt)]
      rcases (enterTerm r req.term).logFile.write _ with ⟨f, _ | _⟩
      · rfl
      · rfl
    rcases hupdate : updateTermLocked clk r req.term with ⟨r₁, _ | _⟩
    · rw [hupdate] at hu
      exact Or.inl hu
    · rw [hupdate] at hterm
      exact Or.inr (hfollow r₁ hterm)
  · exact Or.inr (hfollow r (le_antisymm (not_lt.mp hlt) (not_lt.mp hgt)))

/-! ## Runs -/

/-- Node `c` with the given id has led the term in one of the states. -/
def HasLed (tr : List (Cluster cfg)) (id t : UInt64) : Prop :=
  ∃ c, cfg.id c = id ∧ ∃ x ∈ tr, x.Leads c t

theorem HasLed.mono {id : UInt64} (h : HasLed tr id t) : HasLed (s :: tr) id t := by
  obtain ⟨c, hc, x, hx, hl⟩ := h
  exact ⟨c, hc, x, List.mem_cons_of_mem _ hx, hl⟩

/-- Every node names a leader of its term, if any, and the requests of leaders are theirs. -/
structure Followed (tr : List (Cluster cfg)) (s : Cluster cfg) : Prop where
  node : ∀ b, (s.node b).leaderId = raftNone ∨
    HasLed tr (s.node b).leaderId (s.node b).pstate.currentTerm
  net : ∀ p ∈ s.net, ∀ req, p.body = .appendEntries req → HasLed tr req.leaderId req.term

theorem Followed.update {out : List (Packet cfg)} (h : Followed tr s) (hu : Simulates u g)
    (hn : u.node = Function.update s.node a r) (hnet : u.net = s.net ++ out)
    (hr : Renamed (s.node a) r ∨ HasLed tr r.leaderId r.pstate.currentTerm)
    (hout : ∀ p ∈ out, ∀ req, p.body = .appendEntries req → HasLed tr req.leaderId req.term) :
    Followed (u :: tr) u := by
  have hself : u.node a = r := by rw [hn, Function.update_self]
  constructor
  · intro b
    by_cases hb : b = a
    · rw [hb, hself]
      rcases hr with (hnone | ⟨hid, hterm⟩ | ⟨hid, hstate⟩) | hled
      · exact Or.inl hnone
      · rw [hid, hterm]
        exact (h.node a).imp_right HasLed.mono
      · refine Or.inr ⟨a, ?_, u, List.mem_cons_self, ?_⟩
        · rw [hid, ← hself]
          exact (hu.node a).id.symm
        · rw [Cluster.Leads, hself]
          exact ⟨hstate, rfl⟩
      · exact Or.inr hled.mono
    · rw [hn, Function.update_of_ne hb]
      exact (h.node b).imp_right HasLed.mono
  · intro p hp req hbody
    rw [hnet] at hp
    rcases List.mem_append.mp hp with hp | hp
    · exact (h.net p hp req hbody).mono
    · exact (hout p hp req hbody).mono

theorem Followed.same (h : Followed tr s) (hu : u = s) : Followed (u :: tr) u := by
  subst hu
  exact ⟨fun b => (h.node b).imp_right HasLed.mono, fun p hp req hb => (h.net p hp req hb).mono⟩

/-- One step keeps it, whatever is delivered. -/
theorem Followed.step (h : Followed tr s) (hs : s ∈ tr) (hg : Simulates s g) (e : Event cfg)
    (ht : (s.step e).TermsBelow) : Followed (s.step e :: tr) (s.step e) := by
  obtain ⟨_, g', hst⟩ := hg.step e ht
  have hu := hst.sim
  cases e with
  | timeout a clk outCap =>
    refine h.update hu rfl rfl (Or.inl (raftTimeout_renamed clk (s.node a) outCap)) ?_
    rintro p hp req hbody
    obtain ⟨b, x, -, rfl⟩ := mem_addressed hp
    cases hbody
  | heartbeat a =>
    rcases hr : heartbeatTick (s.node a) with _ | req
    · exact h.same (by simp [Cluster.step, hr])
    · refine h.update hu (a := a) (r := s.node a) (by simp [Cluster.step, hr, Cluster.update])
        (by simp [Cluster.step, hr]; rfl) (Or.inl (.refl _)) ?_
      intro p hp req' hbody
      obtain ⟨b, -, rfl⟩ := List.mem_map.mp hp
      obtain rfl := RaftMessage.appendEntries.inj hbody
      unfold heartbeatTick at hr
      split_ifs at hr with hlead
      push Not at hlead
      obtain rfl := Option.some.inj hr
      exact ⟨a, (hg.node a).id.symm, s, hs, hlead.2, rfl⟩
  | appendEntries a i =>
    rcases hr : raftAppendEntries (s.node a) i with _ | req
    · exact h.same (by simp [Cluster.step, hr])
    rcases hi : (cfg.peers a)[i]? with _ | b
    · exact h.same (by simp [Cluster.step, hr, hi])
    refine h.update hu (a := a) (r := s.node a) (by simp [Cluster.step, hr, hi, Cluster.update])
      (by simp [Cluster.step, hr, hi]; rfl) (Or.inl (.refl _)) ?_
    intro p hp req' hbody
    obtain rfl := List.mem_singleton.mp hp
    obtain rfl := RaftMessage.appendEntries.inj hbody
    unfold raftAppendEntries at hr
    split_ifs at hr with hlead
    push Not at hlead
    obtain rfl := Option.some.inj hr
    exact ⟨a, (hg.node a).id.symm, s, hs, hlead.1, rfl⟩
  | deliver k clk =>
    rcases hk : s.net[k]? with _ | p
    · exact h.same (by simp [Cluster.step, hk])
    have hmem := List.mem_of_getElem? hk
    refine h.update hu (a := p.dst) (r := (p.receive clk (s.node p.dst)).1)
      (by simp [Cluster.step, hk]; rfl) (by simp [Cluster.step, hk]; rfl) ?_ ?_
    · obtain ⟨c, b, body⟩ := p
      cases body with
      | requestVote req => exact Or.inl (handleRequestVoteRequest_renamed clk (s.node b) req)
      | requestVoteResponse resp =>
        exact Or.inl (handleRequestVoteResponse_renamed clk (s.node b) resp (cfg.id c))
      | appendEntries req =>
        refine (handleAppendEntriesRequest_renamed clk (s.node b) req).imp_right ?_
        rintro ⟨hid, hterm⟩
        have hled := h.net _ hmem req rfl
        rwa [← hid, ← hterm] at hled
      | appendEntriesResponse resp =>
        exact Or.inl (handleAppendEntriesResponse_renamed clk (s.node b) resp (cfg.id c))
    · intro q hq req hbody
      obtain ⟨m, hm, rfl⟩ := List.mem_map.mp hq
      obtain ⟨c, b, body⟩ := p
      cases body <;> simp [Packet.receive] at hm
      · subst hm
        cases hbody
      · subst hm
        cases hbody
  | sendCommand a command =>
    exact h.update hu rfl rfl (Or.inl (raftLeaderSendCommand_renamed (s.node a) command)) (by simp)
  | commitEntry a outCap =>
    obtain ⟨n, -, -, he⟩ := raftCommitEntry_eq (s.node a) outCap
    refine h.update hu rfl rfl (Or.inl ?_) (by simp)
    rw [he]
    exact .same rfl rfl
  | restart a clk =>
    obtain ⟨p, hp, -⟩ := startNode_eq (hg.node a).inSync clk (cfg.id a) (cfg.peerIds a)
    refine h.update hu rfl rfl (Or.inl ?_) (by simp)
    rw [hp]
    exact .none rfl

theorem Run.followed (h : Cluster.Run (s :: past)) : Followed (s :: past) s := by
  generalize htr : s :: past = tr at h
  induction h generalizing s past with
  | init clk =>
    obtain ⟨rfl, -⟩ := List.cons.inj htr
    constructor
    · exact fun b => Or.inl rfl
    · intro p hp
      exact absurd hp List.not_mem_nil
  | @step x rest e h ht ih =>
    obtain ⟨rfl, rfl⟩ := List.cons.inj htr
    obtain ⟨g, hg⟩ := Run.simulates h
    exact (ih rfl).step List.mem_cons_self hg e ht

/-- The leader that a node names has led the term of the node, and whatever nodes name one at
whatever times, in the same term it is the same. -/
theorem leader_known (h : Cluster.Run tr) (hs : s ∈ tr) (ha : (s.node a).leaderId ≠ raftNone) :
    HasLed tr (s.node a).leaderId (s.node a).pstate.currentTerm ∧
      ∀ u ∈ tr, ∀ b, (u.node b).leaderId ≠ raftNone →
        (u.node b).pstate.currentTerm = (s.node a).pstate.currentTerm →
        (u.node b).leaderId = (s.node a).leaderId := by
  have hled : ∀ x ∈ tr, ∀ b, (x.node b).leaderId ≠ raftNone →
      HasLed tr (x.node b).leaderId (x.node b).pstate.currentTerm := by
    intro x hx b hb
    obtain ⟨l, l', rfl⟩ := List.append_of_mem hx
    obtain ⟨c, hc, y, hy, hl⟩ := ((Run.followed (Run.tail h)).node b).resolve_left hb
    exact ⟨c, hc, y, List.mem_append_right _ hy, hl⟩
  refine ⟨hled s hs a ha, fun u hu b hb hterm => ?_⟩
  obtain ⟨c, hc, x, hx, hl⟩ := hled s hs a ha
  obtain ⟨d, hd, y, hy, hl'⟩ := hled u hu b hb
  rw [hterm] at hl'
  rw [← hc, ← hd, election_safety h hx hy hl hl']

/-- Node 1 follows node 0. -/
theorem leader_known_trio : HasLed (Cluster.states Cluster.atZero Cluster.agreed)
    ((Cluster.after Cluster.atZero Cluster.agreed).node 1).leaderId
    ((Cluster.after Cluster.atZero Cluster.agreed).node 1).pstate.currentTerm :=
  (leader_known (Cluster.run_states Cluster.atZero Cluster.agreed (by decide +kernel))
    (Cluster.after_mem_states Cluster.atZero Cluster.agreed []) (by decide +kernel)).1

end Corestack.Raft
