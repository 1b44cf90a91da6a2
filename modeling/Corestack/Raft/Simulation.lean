import Corestack.Raft.Leading

/-! # Runs and histories

Every step of a cluster is a growth of its history through one node, so every run
has a sequence of histories that grow with it.
-/

namespace Corestack.Raft

open Consensus

variable {cfg : Config} {s s' : Cluster cfg} {g g' : cfg.History} {a b : cfg.Node} {r r' : RaftNode}

/-- Nothing has happened yet. -/
def Config.noHistory (cfg : Config) : cfg.History where
  cur _ := 0
  log _ := []
  vote _ _ := none
  voteLog _ _ := none
  cand _ _ := none
  leader _ := none
  initLog _ := []
  leaderLog _ := []
  acked _ _ := 0

theorem Config.noHistory_fresh (cfg : Config) : Fresh cfg.noHistory where
  log _ := rfl
  vote _ _ := rfl
  voteLog _ _ := rfl
  cand _ _ := rfl
  leader _ := rfl
  leaderLog _ := rfl
  acked _ _ := rfl

theorem simulates_init (clk : cfg.Node → Clock) : Simulates (Cluster.init clk) cfg.noHistory where
  below _ := by simp [Cluster.init, freshNode, startNode, initialiseRaftSm, restorePstate,
    blankNode, raftResetElectionTimer, createLogFile]
  valid := cfg.noHistory_fresh.valid
  logs _ := ⟨.nil, Nat.zero_le _⟩
  node a := {
    id := rfl
    peers := rfl
    noFaults := ⟨rfl, rfl⟩
    inSync := (freshNode_inSync _ _ _).1
    cur := rfl
    log := rfl
    votedFor := rfl
    not_failed := by simp [Cluster.init, freshNode, startNode, initialiseRaftSm, restorePstate,
      blankNode, raftResetElectionTimer, createLogFile]
    candidate := by simp [Cluster.init, freshNode, startNode, initialiseRaftSm, restorePstate,
      blankNode, raftResetElectionTimer, createLogFile]
    leader := by simp [Cluster.init, freshNode, startNode, initialiseRaftSm, restorePstate,
      blankNode, raftResetElectionTimer, createLogFile]
    commit := Or.inl rfl }
  net p hp := by simp [Cluster.init] at hp

/-- One node moves on and sends what the history has. -/
theorem Simulates.update {out : List (Packet cfg)} (h : Simulates s g)
    (hm : Moves a g (s.node a) g' r') (hout : ∀ p ∈ out, PacketRel g' p)
    (ht : (s.update a r' out).TermsBelow) : Simulates (s.update a r' out) g' where
  below := ht
  valid := hm.valid
  logs t := by
    rcases hm.logs t with hl | hl
    · rw [hl]; exact h.logs t
    · rw [hl]
      exact ⟨LogFile.Holds.dense hm.node.inSync, LogFile.Holds.length_le hm.node.inSync⟩
  node b := by
    rcases eq_or_ne b a with rfl | hb
    · simpa [Cluster.update] using hm.node
    · simpa [Cluster.update, hb] using (h.node b).mono hm.ext hb
  net p hp := by
    rcases List.mem_append.mp hp with hp | hp
    · exact (h.net p hp).mono hm.ext
    · exact hout p hp

/-- The kinds of steps. -/
inductive StepKind (s : Cluster cfg) (e : Event cfg) (a : cfg.Node) (g' : cfg.History)
    (r r' : RaftNode) : Prop
  | keeps (hd : (s.step e).delivered = s.delivered) (hk : Keeps g' r r')
  | restart (clk : Clock) (he : e = .restart a clk)
  | commitEntry (outCap : Nat) (he : e = .commitEntry a outCap)
  | appendEntries (k : Nat) (clk : Clock) (c : cfg.Node) (req : AppendEntriesRequest)
      (he : e = .deliver k clk) (hk : s.net[k]? = some ⟨c, a, .appendEntries req⟩)

/-- What one step does: node `a` moves, and unless it restarts, delivers entries or answers a
request of a leader, it keeps its log and its commit position or finds more committed. -/
structure Stepped (s : Cluster cfg) (e : Event cfg) (a : cfg.Node) (g g' : cfg.History) : Prop where
  sim : Simulates (s.step e) g'
  moves : Moves a g (s.node a) g' ((s.step e).node a)
  other : ∀ b, b ≠ a → (s.step e).node b = s.node b
  kind : StepKind s e a g' (s.node a) ((s.step e).node a)

theorem Stepped.of_eq {e : Event cfg} (h : Simulates s g) (he : s.step e = s) (a : cfg.Node) :
    Stepped s e a g g := by
  constructor
  · rw [he]; exact h
  · rw [he]; exact .refl h.valid (h.node a)
  · intro b _; rw [he]
  · rw [he]; exact .keeps (by rw [he]) (.refl g _)

theorem Stepped.of_update {e : Event cfg} {out : List (Packet cfg)} (h : Simulates s g)
    (hn : (s.step e).node = (s.update a r' out).node) (hnet : (s.step e).net = s.net ++ out)
    (hm : Moves a g (s.node a) g' r') (hout : ∀ p ∈ out, PacketRel g' p)
    (ht : (s.step e).TermsBelow)
    (hk : StepKind s e a g' (s.node a) r') : Stepped s e a g g' := by
  have hself : (s.step e).node a = r' := by simp [hn, Cluster.update]
  have hu : Simulates (s.update a r' out) g' :=
    h.update hm hout fun b => by rw [← hn]; exact ht b
  constructor
  · exact ⟨ht, hu.valid, hu.logs, fun b => by rw [hn]; exact hu.node b,
      fun p hp => hu.net p (by rwa [hnet] at hp)⟩
  · rw [hself]; exact hm
  · intro b hb; simp [hn, Cluster.update, hb]
  · rw [hself]; exact hk

theorem mem_addressed {out : List (Nat × RequestVoteRequest)} {p : Packet cfg}
    (h : p ∈ Cluster.addressed a out) : ∃ b, ∃ x ∈ out, p = ⟨a, b, .requestVote x.2⟩ := by
  obtain ⟨x, hx, hp⟩ := List.mem_filterMap.mp h
  obtain ⟨b, -, rfl⟩ := Option.map_eq_some_iff.mp hp
  exact ⟨b, x, hx, rfl⟩

/-- The receiver of a packet. -/
theorem Packet.receive_moves {p : Packet cfg} (clk : Clock) (hv : Valid LogEntry.term g)
    (hg : GoodLogs g) (h : NodeRel g p.dst r) (hp : PacketRel g p) :
    ∃ g', Moves p.dst g r g' (p.receive clk r).1 ∧
      (∀ m ∈ (p.receive clk r).2, PacketRel g' ⟨p.dst, p.src, m⟩) ∧
      (Keeps g' r (p.receive clk r).1 ∨ ∃ req, p.body = .appendEntries req) := by
  obtain ⟨c, a, body⟩ := p
  cases body with
  | requestVote req =>
    obtain ⟨g', hm, hk, hp'⟩ := handleRequestVoteRequest_moves clk hv h hp
    refine ⟨g', hm, ?_, Or.inl hk⟩
    rintro m ⟨rfl⟩
    exact hp'
  | requestVoteResponse resp =>
    obtain ⟨g', hm, hk⟩ := handleRequestVoteResponse_moves clk hv h hp
    exact ⟨g', hm, by simp [Packet.receive], Or.inl hk⟩
  | appendEntries req =>
    obtain ⟨g', hm, hp'⟩ := handleAppendEntriesRequest_moves clk hv hg h hp
    refine ⟨g', hm, ?_, Or.inr ⟨req, rfl⟩⟩
    rintro m ⟨rfl⟩
    exact hp'
  | appendEntriesResponse resp =>
    obtain ⟨g', hm, hk⟩ := handleAppendEntriesResponse_moves clk hv h hp
    exact ⟨g', hm, by simp [Packet.receive], Or.inl hk⟩

/-- Every step is a growth of the history through one node. -/
theorem Simulates.step (h : Simulates s g) (e : Event cfg) (ht : (s.step e).TermsBelow) :
    ∃ a g', Stepped s e a g g' := by
  cases e with
  | timeout a clk outCap =>
    obtain ⟨g', hm, hk, hout⟩ := raftTimeout_moves clk h.valid (h.node a) (h.below a) outCap
    refine ⟨a, g', .of_update h rfl rfl hm ?_ ht (.keeps rfl hk)⟩
    intro p hp
    obtain ⟨b, x, hx, rfl⟩ := mem_addressed hp
    exact hout b x hx
  | heartbeat a =>
    rcases hr : heartbeatTick (s.node a) with _ | req
    · exact ⟨a, g, .of_eq h (by simp [Cluster.step, hr]) a⟩
    · refine ⟨a, g, .of_update h (by simp [Cluster.step, hr]; rfl) (by simp [Cluster.step, hr]; rfl)
        (.refl h.valid (h.node a)) ?_ ht (.keeps (by simp [Cluster.step, hr]; rfl) (.refl g _))⟩
      intro p hp
      obtain ⟨b, hb, rfl⟩ := List.mem_map.mp hp
      exact heartbeatTick_rel (h.node a) (cfg.mem_peers.mp hb) hr
  | appendEntries a i =>
    rcases hr : raftAppendEntries (s.node a) i with _ | req
    · exact ⟨a, g, .of_eq h (by simp [Cluster.step, hr]) a⟩
    rcases hi : (cfg.peers a)[i]? with _ | b
    · exact ⟨a, g, .of_eq h (by simp [Cluster.step, hr, hi]) a⟩
    refine ⟨a, g, .of_update h (by simp [Cluster.step, hr, hi]; rfl)
      (by simp [Cluster.step, hr, hi]; rfl) (.refl h.valid (h.node a)) ?_ ht
      (.keeps (by simp [Cluster.step, hr, hi]; rfl) (.refl g _))⟩
    intro p hp
    obtain rfl := List.mem_singleton.mp hp
    exact raftAppendEntries_rel h.valid (h.node a) hi hr
  | deliver k clk =>
    rcases hk : s.net[k]? with _ | p
    · exact ⟨0, g, .of_eq h (by simp [Cluster.step, hk]) 0⟩
    have hp := h.net p (List.mem_of_getElem? hk)
    obtain ⟨g', hm, hout, hkind⟩ := p.receive_moves clk h.valid h.logs (h.node p.dst) hp
    refine ⟨p.dst, g', .of_update h (by simp [Cluster.step, hk]; rfl)
      (by simp [Cluster.step, hk]; rfl) hm ?_ ht ?_⟩
    · intro q hq
      obtain ⟨m, hmem, rfl⟩ := List.mem_map.mp hq
      exact hout m (Option.mem_toList.mp hmem)
    · rcases hkind with hkeep | ⟨req, hreq⟩
      · exact .keeps (by simp [Cluster.step, hk]; rfl) hkeep
      · exact .appendEntries k clk p.src req rfl (by rw [hk, ← hreq])
  | sendCommand a command =>
    obtain ⟨g', hm, hk⟩ := raftLeaderSendCommand_moves h.valid (h.node a) command
    exact ⟨a, g', .of_update h rfl rfl hm (by simp) ht (.keeps rfl hk)⟩
  | commitEntry a outCap =>
    exact ⟨a, g, .of_update h rfl rfl (raftCommitEntry_moves h.valid (h.node a) outCap) (by simp) ht
      (.commitEntry outCap rfl)⟩
  | restart a clk =>
    exact ⟨a, g, .of_update h rfl rfl (startNode_moves clk h.valid (h.node a)).1 (by simp)
      ht (.restart clk rfl)⟩

theorem Cluster.step_deliver_appendEntries (clk : Clock) {k : Nat} {c : cfg.Node}
    {req : AppendEntriesRequest} (hk : s.net[k]? = some ⟨c, a, .appendEntries req⟩) :
    (s.step (.deliver k clk)).node a = (handleAppendEntriesRequest clk (s.node a) req).1 := by
  simp [Cluster.step, hk, Packet.receive, Cluster.update]

end Corestack.Raft
