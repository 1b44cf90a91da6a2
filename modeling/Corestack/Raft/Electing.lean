import Mathlib.Data.Prod.Lex
import Mathlib.Data.Fintype.EquivFin
import Mathlib.Data.Fintype.Lattice
import Corestack.Raft.Ballot
import Corestack.Raft.Convergence
import Corestack.Raft.Numbering

/-! # A leader can always be elected

Whatever has happened, one of the nodes can be made the leader of a term that no node
is beyond. A voter that has moved to the new term with a request answers the same
request once more, and then its vote counts.
-/

namespace Corestack.Raft

open Consensus

variable {cfg : Config} {s f x : Cluster cfg} {g : cfg.History} {a b c p q : cfg.Node}
  {r : RaftNode} {req : RequestVoteRequest} {t : UInt64}

/-- Node `a` leads in a term that no node is beyond. -/
structure Cluster.Rules (s : Cluster cfg) (a : cfg.Node) (t : UInt64) : Prop where
  leads : s.Leads a t
  top : ∀ b, (s.node b).pstate.currentTerm ≤ t

/-- A state that is reached without a change of the logs. -/
structure Cluster.ReachesQuietly (s f : Cluster cfg) : Prop where
  reaches : s.Reaches f
  entries : ∀ b, (f.node b).pstate.entries = (s.node b).pstate.entries

namespace Cluster.ReachesQuietly

theorem refl (s : Cluster cfg) : s.ReachesQuietly s := ⟨.refl, fun _ => rfl⟩

theorem trans (h : s.ReachesQuietly x) (h' : x.ReachesQuietly f) : s.ReachesQuietly f :=
  ⟨h.reaches.trans h'.reaches, fun b => (h'.entries b).trans (h.entries b)⟩

/-- One node moves on, in a term that is not the last one, and keeps its log. -/
theorem update {e : Event cfg} {out : List (Packet cfg)} (hb : s.TermsBelow)
    (he : s.step e = s.update a r out) (ht : r.pstate.currentTerm.toNat < 2 ^ 64 - 1)
    (hlog : SameLog (s.node a).pstate r.pstate) : s.ReachesQuietly (s.step e) := by
  constructor
  · exact .step .refl e (he ▸ hb.update ht a out)
  · intro b
    rw [he, Cluster.update_node]
    split_ifs with hba
    · rw [hba, PersistentState.entries, PersistentState.entries, hlog.1, hlog.2]
    · rfl

end Cluster.ReachesQuietly

/-! ## Voters -/

/-- A node that has voted for the sender of the request, in its term. -/
structure HasVoted (r : RaftNode) (req : RequestVoteRequest) : Prop where
  noFaults : r.logFile.NoFaults
  state : r.state = .follower
  currentTerm : r.pstate.currentTerm = req.term
  votedFor : r.pstate.votedFor = req.candidateId

/-- The candidate's log is up to date for the node. -/
def LogOk (r : RaftNode) (req : RequestVoteRequest) : Prop :=
  checkLog req.lastLogIndex req.lastLogTerm (raftLastLogIndex r) (raftLastLogTerm r) = true

theorem LogOk.congr {r' : RaftNode} (h : LogOk r req) (hs : SameLog r.pstate r'.pstate) :
    LogOk r' req := by
  unfold LogOk raftLastLogIndex raftLastLogTerm at *
  rw [hs.1, hs.2]
  exact h

/-- The last term and the length of a log. -/
def rank (l : List LogEntry) : Lex (Nat × Nat) :=
  toLex ((l.getLast?.elim 0 LogEntry.term).toNat, l.length)

/-- `checkLog` compares logs by their ranks. -/
theorem logOk_iff {r' : RaftNode} (hr : r.pstate.logLen ≤ raftLogCap)
    (hr' : r'.pstate.logLen ≤ raftLogCap) :
    LogOk r (voteRequest r') ↔ rank r.pstate.entries ≤ rank r'.pstate.entries := by
  have hlen := toNat_raftLastLogIndex hr
  have hlen' := toNat_raftLastLogIndex hr'
  unfold LogOk rank voteRequest checkLog
  dsimp only
  rw [Prod.Lex.toLex_le_toLex, ← raftLastLogTerm_eq, ← raftLastLogTerm_eq,
    PersistentState.length_entries, PersistentState.length_entries]
  split_ifs with hne
  · have hne' : (raftLastLogTerm r).toNat ≠ (raftLastLogTerm r').toNat :=
      fun h => hne (UInt64.toNat_inj.mp h.symm)
    rw [decide_eq_true_eq, gt_iff_lt, UInt64.lt_iff_toNat_lt]
    exact ⟨Or.inl, fun h => h.resolve_right fun hq => hne' hq.1⟩
  · obtain heq := not_not.mp hne
    rw [decide_eq_true_eq, ge_iff_le, UInt64.le_iff_toNat_le, hlen, hlen', heq]
    exact ⟨fun h => Or.inr ⟨rfl, h⟩, fun h => (h.resolve_left (lt_irrefl _)).2⟩

theorem hasVoted_answer (clk : Clock) (resp : RequestVoteResponse) (hf : r.logFile.NoFaults)
    (ht : r.pstate.currentTerm = req.term) (hs : r.state = .follower)
    (hv : r.pstate.votedFor = raftNone ∨ r.pstate.votedFor = req.candidateId)
    (hlog : LogOk r req) :
    HasVoted (answerRequestVote clk r req resp).1 req ∧
      (answerRequestVote clk r req resp).2 = { resp with voteGranted := true } := by
  have hm : mayVote r req = true := by
    unfold mayVote
    rw [hlog, Bool.and_true, Bool.or_eq_true, decide_eq_true_eq, decide_eq_true_eq]
    exact hv
  obtain ⟨file, hw, hn⟩ := persistStateLocked_of_noFaults (r := voteFor r req.candidateId) hf
  rw [answerRequestVote, if_neg (by simp [ht]), if_neg (by simp [hs]), if_pos hm, hw]
  exact ⟨⟨hn, hs, ht, rfl⟩, rfl⟩

/-- The first request moves the node to the new term. -/
theorem hasVoted_of_lt (clk : Clock) (hf : r.logFile.NoFaults) (hs : r.state ≠ .failed)
    (ht : r.pstate.currentTerm < req.term) (hlog : LogOk r req) :
    HasVoted (handleRequestVoteRequest clk r req).1 req := by
  obtain ⟨file, hw, hn⟩ := persistStateLocked_of_noFaults (r := enterTerm r req.term) hf
  rw [handleRequestVoteRequest, if_pos ht, updateTermLocked, if_neg (not_le.mpr ht), hw]
  have hstate : (enterTerm r req.term).state = .follower := if_pos hs
  exact (hasVoted_answer (r := raftResetElectionTimer clk (raftClearLeaderState
    (raftClearCandidateState { enterTerm r req.term with logFile := file }))) clk _ hn rfl hstate
    (Or.inl rfl) (hlog.congr ⟨rfl, rfl⟩)).1

/-- Whether it votes or not, it follows in the new term. -/
theorem follows_of_lt (clk : Clock) (hf : r.logFile.NoFaults) (hs : r.state ≠ .failed)
    (ht : r.pstate.currentTerm < req.term) :
    (handleRequestVoteRequest clk r req).1.state = .follower ∧
      (handleRequestVoteRequest clk r req).1.pstate.currentTerm = req.term := by
  obtain ⟨file, hw, hn⟩ := persistStateLocked_of_noFaults (r := enterTerm r req.term) hf
  have hstate : (enterTerm r req.term).state = .follower := if_pos hs
  rw [handleRequestVoteRequest, if_pos ht, updateTermLocked, if_neg (not_le.mpr ht), hw]
  dsimp only
  set r₁ := raftResetElectionTimer clk (raftClearLeaderState
    (raftClearCandidateState { enterTerm r req.term with logFile := file })) with hr₁
  obtain ⟨file', hw', -⟩ := persistStateLocked_of_noFaults (r := voteFor r₁ req.candidateId) hn
  unfold answerRequestVote
  split_ifs
  · exact ⟨hstate, rfl⟩
  · exact ⟨hstate, rfl⟩
  · rw [hw']
    exact ⟨hstate, rfl⟩
  · exact ⟨hstate, rfl⟩

/-- The second one is answered in that term. -/
theorem HasVoted.again (h : HasVoted r req) (clk : Clock) (hlog : LogOk r req) :
    HasVoted (handleRequestVoteRequest clk r req).1 req ∧
      (handleRequestVoteRequest clk r req).2 = ⟨req.term, true⟩ := by
  have hold : ¬ req.term > r.pstate.currentTerm := by simp [h.currentTerm]
  rw [handleRequestVoteRequest, if_neg hold]
  obtain ⟨hv, hresp⟩ := hasVoted_answer clk ⟨r.pstate.currentTerm, false⟩ h.noFaults h.currentTerm
    h.state (Or.inr h.votedFor) hlog
  exact ⟨hv, hresp.trans (by rw [h.currentTerm])⟩

/-! ## Timeouts -/

/-- A clock by which the node has waited long enough. -/
def expiry (r : RaftNode) : Clock := ⟨max 0 (r.latestHeartbeatMs + r.electionTimeoutDurationMs), 0⟩

theorem raftTimeout_expiry (h : NodeRel g c r) (hl : r.state ≠ .leader) (outCap : Nat) :
    ∃ file, raftTimeout (expiry r) r outCap =
      startElection (expiry r) { becomeCandidate r with logFile := file } outCap := by
  have hexp : raftElectionTimeoutExpired (expiry r) r = true := by
    unfold raftElectionTimeoutExpired expiry
    dsimp only
    rw [if_neg (by omega), decide_eq_true_eq]
    omega
  obtain ⟨file, hw, -⟩ := persistStateLocked_of_noFaults (r := becomeCandidate r) h.noFaults
  refine ⟨file, ?_⟩
  rw [raftTimeout, if_neg (by simp [hl, h.not_failed]), if_neg (by simp [hexp]), hw]

/-- Node `c` stands for the next term and asks all its peers. -/
structure Stands (s : Cluster cfg) (c : cfg.Node) (x : Cluster cfg) : Prop where
  quietly : s.ReachesQuietly x
  counting : Counting c ((s.node c).pstate.currentTerm + 1) ∅ (x.node c)
  other : ∀ b, b ≠ c → x.node b = s.node b
  asked : ∀ q, q ≠ c → ∃ k : Nat,
    x.net[k]? = some (⟨c, q, .requestVote (voteRequest (x.node c))⟩ : Packet cfg)

theorem Simulates.stands (h : Simulates s g) (hl : (s.node c).state ≠ .leader)
    (ht : (s.node c).pstate.currentTerm.toNat + 2 < 2 ^ 64) (hn : 0 < cfg.n) :
    ∃ x, Stands s c x := by
  have hnode := h.node c
  have hlen : (s.node c).peers.length = cfg.n := by
    rw [hnode.peers, Config.peerIds, List.length_map, cfg.length_peers]
  set clk := expiry (s.node c) with hclk
  obtain ⟨file, hto⟩ := raftTimeout_expiry hnode hl cfg.n
  have hm : majority ((s.node c).peers.length + 1) ≠ 1 := by
    rw [hlen]
    unfold majority
    omega
  obtain ⟨r', hr', hs⟩ := startElection_of_peers
    (r := { becomeCandidate (s.node c) with logFile := file }) clk cfg.n hm
  rw [← hclk, hs] at hto
  have hasks : (raftTimeout clk (s.node c) cfg.n).2 ≠ [] := by
    rw [hto]
    change (List.range (min (s.node c).peers.length cfg.n)).map _ ≠ []
    rw [hlen, min_self]
    simpa using hn.ne'
  have hstep : s.step (.timeout c clk cfg.n) = s.update c (raftTimeout clk (s.node c) cfg.n).1
      (Cluster.addressed c (raftTimeout clk (s.node c) cfg.n).2) := rfl
  have hself : (s.step (.timeout c clk cfg.n)).node c = (raftTimeout clk (s.node c) cfg.n).1 := by
    rw [hstep, Cluster.update_node, if_pos rfl]
  have hcount := (raftTimeout_asks hnode.peers hasks).1
  refine ⟨s.step (.timeout c clk cfg.n), ?_, hself ▸ hcount, ?_, ?_⟩
  · refine .update h.below hstep ?_ (raftTimeout_sameLog clk _ _)
    rw [hcount.currentTerm, UInt64.toNat_add, UInt64.toNat_one]
    omega
  · intro b hb
    rw [hstep, Cluster.update_node, if_neg hb]
  · intro q hq
    obtain ⟨i, hi⟩ := List.getElem?_of_mem (cfg.mem_peers.mpr hq)
    refine ⟨s.net.length + i, ?_⟩
    have htake : (cfg.peers c).take (min (s.node c).peers.length cfg.n) = cfg.peers c :=
      List.take_of_length_le (by rw [hlen, min_self, cfg.length_peers])
    have hnet : (s.step (.timeout c clk cfg.n)).net = s.net ++ (cfg.peers c).map fun q =>
        ⟨c, q, .requestVote (voteRequest r')⟩ := by
      rw [← htake, ← addressed_requests, hstep, hto]
      rfl
    rw [hself, hto, hnet, List.getElem?_append_right (Nat.le_add_right _ _),
      Nat.add_sub_cancel_left, List.getElem?_map, hi]
    rfl

/-! ## A ballot -/

/-- What the candidate has got from the nodes of a list. -/
structure Asked (s : Cluster cfg) (c : cfg.Node) (t : UInt64) (l : List cfg.Node)
    (x : Cluster cfg) : Prop where
  quietly : s.ReachesQuietly x
  net : s.net <+: x.net
  counting : Counting c t l.toFinset (x.node c)
  voted : ∀ b ∈ l, (x.node b).pstate.currentTerm = t
  waiting : ∀ b, b ≠ c → b ∉ l → x.node b = s.node b

theorem step_deliver {k : Nat} {m : Packet cfg} (hk : x.net[k]? = some m) (clk : Clock) :
    x.step (.deliver k clk) = x.update m.dst (m.receive clk (x.node m.dst)).1
      ((m.receive clk (x.node m.dst)).2.toList.map (⟨m.dst, m.src, ·⟩)) := by
  simp only [Cluster.step, hk]

theorem Cluster.Reaches.below (h : s.Reaches x) (hb : s.TermsBelow) : x.TermsBelow := by
  rcases Relation.ReflTransGen.cases_tail h with rfl | ⟨_, _, e, rfl, ht⟩
  · exact hb
  · exact ht

/-- A voter gets the request twice, and its second answer is counted. -/
theorem Asked.vote {l : List cfg.Node} {k : Nat} (h : Asked s c t l x) (hb : s.TermsBelow)
    (hc : c ∉ l) (hqc : q ≠ c) (hql : q ∉ l)
    (hk : s.net[k]? = some ⟨c, q, .requestVote req⟩) (hreq : req.term = t)
    (ht : t.toNat < 2 ^ 64 - 1) (hq : NodeRel g q (s.node q))
    (hlt : (s.node q).pstate.currentTerm < t) (hlog : LogOk (s.node q) req) :
    ∃ f, Asked s c t (q :: l) f := by
  subst hreq
  set clk : Clock := ⟨0, 0⟩
  have hxq := h.waiting q hqc hql
  have hbx := h.quietly.reaches.below hb
  have hcq : c ≠ q := hqc.symm
  -- the request for the first time
  obtain ⟨net, hnet⟩ := h.net
  have hlen : k < s.net.length := (List.getElem?_eq_some_iff.mp hk).1
  have hk₀ : x.net[k]? = some ⟨c, q, .requestVote req⟩ := by
    rw [← hnet, List.getElem?_append_left hlen, hk]
  have h₁ := step_deliver hk₀ clk
  set x₁ := x.step (.deliver k clk)
  have hv₁ : HasVoted (handleRequestVoteRequest clk (s.node q) req).1 req :=
    hasVoted_of_lt clk hq.noFaults hq.not_failed hlt hlog
  have hlog₁ := handleRequestVoteRequest_sameLog clk (s.node q) req
  have hx₁ : x₁.node q = (handleRequestVoteRequest clk (s.node q) req).1 := by
    rw [h₁, Cluster.update_node, if_pos rfl, hxq]
    rfl
  have hq₁ : x.ReachesQuietly x₁ := by
    refine .update hbx h₁ ?_ ?_
    · dsimp only
      rw [hxq]
      exact hv₁.currentTerm ▸ ht
    · dsimp only
      rw [hxq]
      exact hlog₁
  have hb₁ := hq₁.reaches.below hbx
  -- and once more
  have hk₁ : x₁.net[k]? = some ⟨c, q, .requestVote req⟩ := by
    rw [h₁]
    dsimp only [Cluster.update]
    rw [List.getElem?_append_left (List.getElem?_eq_some_iff.mp hk₀).1, hk₀]
  have h₂ := step_deliver hk₁ clk
  set x₂ := x₁.step (.deliver k clk)
  rw [← hx₁] at hv₁ hlog₁
  obtain ⟨hv₂, hresp⟩ := hv₁.again clk (hlog.congr hlog₁)
  have hq₂ : x₁.ReachesQuietly x₂ :=
    .update hb₁ h₂ (hv₂.currentTerm ▸ ht) (handleRequestVoteRequest_sameLog clk _ req)
  have hb₂ := hq₂.reaches.below hb₁
  have hk₂ : x₂.net[x₁.net.length]? =
      some ⟨q, c, .requestVoteResponse ⟨req.term, true⟩⟩ := by
    rw [h₂]
    dsimp only [Cluster.update, Packet.receive]
    rw [hresp, List.getElem?_append_right le_rfl, Nat.sub_self]
    rfl
  -- the answer
  have h₃ := step_deliver hk₂ clk
  set f := x₂.step (.deliver x₁.net.length clk)
  have hxc : x₂.node c = x.node c := by
    rw [h₂, Cluster.update_node, if_neg hcq, h₁, Cluster.update_node, if_neg hcq]
  have hcount := h.counting.response (by simpa using hc) hqc (by simpa using hql) le_rfl clk
  rw [if_pos rfl] at hcount
  have hfc : f.node c = handleRequestVoteResponse clk (x.node c) ⟨req.term, true⟩ (cfg.id q) := by
    rw [h₃, Cluster.update_node, if_pos rfl, hxc]
    rfl
  have hq₃ : x₂.ReachesQuietly f := by
    refine .update hb₂ h₃ ?_ (handleRequestVoteResponse_sameLog clk _ _ _)
    dsimp only
    rw [hxc]
    exact (congrArg UInt64.toNat hcount.currentTerm).trans_lt ht
  have hother : ∀ b, b ≠ c → b ≠ q → f.node b = x.node b := by
    intro b hbc hbq
    rw [h₃, Cluster.update_node, if_neg hbc, h₂, Cluster.update_node, if_neg hbq, h₁,
      Cluster.update_node, if_neg hbq]
  refine ⟨f, ((h.quietly.trans hq₁).trans hq₂).trans hq₃, ?_, ?_, ?_, ?_⟩
  · rw [h₃, h₂, h₁]
    dsimp only [Cluster.update]
    rw [List.append_assoc, List.append_assoc]
    exact h.net.trans (List.prefix_append _ _)
  · rw [hfc, List.toFinset_cons]
    exact hcount
  · intro b hbl
    rcases List.mem_cons.mp hbl with rfl | hbl
    · rw [h₃, Cluster.update_node, if_neg hqc, h₂, Cluster.update_node, if_pos rfl]
      exact hv₂.currentTerm
    · rw [hother b (fun h => hc (h ▸ hbl)) (fun h => hql (h ▸ hbl))]
      exact h.voted b hbl
  · intro b hbc hbl
    rw [List.mem_cons, not_or] at hbl
    rw [hother b hbc hbl.1]
    exact h.waiting b hbc hbl.2

/-- The votes of all nodes of a list, one after the other. -/
theorem Asked.all {l : List cfg.Node} (h : Asked s c t [] s) (hb : s.TermsBelow) (hc : c ∉ l)
    (hl : l.Nodup) (hreq : req.term = t) (ht : t.toNat < 2 ^ 64 - 1)
    (hk : ∀ q ∈ l, ∃ k : Nat, s.net[k]? = some ⟨c, q, .requestVote req⟩)
    (hq : ∀ q ∈ l, NodeRel g q (s.node q) ∧ (s.node q).pstate.currentTerm < t ∧
      LogOk (s.node q) req) :
    ∃ f, Asked s c t l f := by
  induction l with
  | nil => exact ⟨s, h⟩
  | cons q l ih =>
    rw [List.nodup_cons] at hl
    rw [List.mem_cons, not_or] at hc
    obtain ⟨x, hx⟩ := ih hc.2 hl.2 (fun q hm => hk q (List.mem_cons_of_mem _ hm))
      fun q hm => hq q (List.mem_cons_of_mem _ hm)
    obtain ⟨k, hkq⟩ := hk q List.mem_cons_self
    obtain ⟨hn, hlt, hlog⟩ := hq q List.mem_cons_self
    exact hx.vote hb hc.2 (Ne.symm hc.1) hl.1 hkq hreq ht hn hlt hlog

/-! ## The leader -/

/-- A node that is in the last term, has the best log and does not lead can be elected. -/
theorem Simulates.elect (h : Simulates s g) (hl : (s.node c).state ≠ .leader)
    (ht : (s.node c).pstate.currentTerm.toNat + 2 < 2 ^ 64)
    (htop : ∀ b, (s.node b).pstate.currentTerm ≤ (s.node c).pstate.currentTerm)
    (hbest : ∀ b, rank (s.node b).pstate.entries ≤ rank (s.node c).pstate.entries) :
    ∃ f, s.ReachesQuietly f ∧ f.Rules c ((s.node c).pstate.currentTerm + 1) := by
  have hnew : ((s.node c).pstate.currentTerm + 1).toNat =
      (s.node c).pstate.currentTerm.toNat + 1 := by
    rw [UInt64.toNat_add, UInt64.toNat_one]
    omega
  have hlt : ∀ b, (s.node b).pstate.currentTerm < (s.node c).pstate.currentTerm + 1 := by
    intro b
    have hle := UInt64.le_iff_toNat_le.mp (htop b)
    rw [UInt64.lt_iff_toNat_lt, hnew]
    omega
  rcases Nat.eq_zero_or_pos cfg.n with hn | hn
  · -- the node is alone
    set clk := expiry (s.node c)
    obtain ⟨file, hto⟩ := raftTimeout_expiry (h.node c) hl 0
    have hlen : (s.node c).peers.length = 0 := by
      rw [(h.node c).peers, Config.peerIds, List.length_map, cfg.length_peers, hn]
    have hsingle : (raftTimeout clk (s.node c) 0).1 = raftInitLeaderState (raftResetElectionTimer
        clk (raftInitCandidateState { becomeCandidate (s.node c) with logFile := file }
          ((s.node c).pstate.currentTerm + 1))) := by
      rw [hto, startElection]
      refine congrArg Prod.fst (if_pos ?_)
      change majority ((s.node c).peers.length + 1) = 1
      rw [hlen]
      rfl
    have hstep : s.step (.timeout c clk 0) = s.update c (raftTimeout clk (s.node c) 0).1
        (Cluster.addressed c (raftTimeout clk (s.node c) 0).2) := rfl
    have hself : (s.step (.timeout c clk 0)).node c = (raftTimeout clk (s.node c) 0).1 := by
      rw [hstep, Cluster.update_node, if_pos rfl]
    refine ⟨s.step (.timeout c clk 0), .update h.below hstep ?_ (raftTimeout_sameLog clk _ _),
      ⟨?_, ?_⟩, ?_⟩
    · rw [hsingle]
      change ((s.node c).pstate.currentTerm + 1).toNat < 2 ^ 64 - 1
      omega
    · rw [hself, hsingle]
      rfl
    · rw [hself, hsingle]
      rfl
    · intro b
      rw [hstep, Cluster.update_node]
      split_ifs
      · rw [hsingle]
        exact le_rfl
      · exact (hlt b).le
  obtain ⟨x, hx⟩ := h.stands hl ht hn
  have hterm : (voteRequest (x.node c)).term = (s.node c).pstate.currentTerm + 1 :=
    hx.counting.currentTerm
  have hasked : Asked x c ((s.node c).pstate.currentTerm + 1) [] x :=
    ⟨.refl x, List.prefix_rfl, hx.counting, fun _ h => absurd h List.not_mem_nil, fun _ _ _ => rfl⟩
  have hbx := hx.quietly.reaches.below h.below
  have hcap : (x.node c).pstate.logLen ≤ raftLogCap := by
    rw [← PersistentState.length_entries, hx.quietly.entries c, PersistentState.length_entries]
    exact (h.node c).inSync.logLen_le
  have hmem : ∀ q ∈ cfg.peers c, q ≠ c := fun q hq => cfg.mem_peers.mp hq
  obtain ⟨f, hf⟩ := hasked.all hbx (fun hm => hmem c hm rfl)
    (cfg.peers_nodup c) hterm (by omega) (fun q hq => hx.asked q (hmem q hq)) fun q hq => by
      rw [hx.other q (hmem q hq)]
      refine ⟨h.node q, hlt q, ?_⟩
      rw [logOk_iff (h.node q).inSync.logLen_le hcap, hx.quietly.entries c]
      exact hbest q
  refine ⟨f, hx.quietly.trans hf.quietly, ⟨?_, hf.counting.currentTerm⟩, ?_⟩
  · rcases hf.counting.role with ⟨hlead, -⟩ | ⟨-, hfew, -⟩
    · exact hlead
    · rw [List.toFinset_card_of_nodup (cfg.peers_nodup c), cfg.length_peers] at hfew
      unfold majority at hfew
      omega
  · intro b
    by_cases hbc : b = c
    · rw [hbc, hf.counting.currentTerm]
    · rw [hf.voted b (cfg.mem_peers.mpr hbc)]

/-- A node that does not lead brings another one to its next term. -/
theorem Simulates.bring (h : Simulates s g) (hl : (s.node b).state ≠ .leader) (hcb : c ≠ b)
    (ht : (s.node b).pstate.currentTerm.toNat + 2 < 2 ^ 64)
    (hlt : (s.node c).pstate.currentTerm < (s.node b).pstate.currentTerm) :
    ∃ f, s.ReachesQuietly f ∧ (f.node c).state = .follower ∧
      (f.node c).pstate.currentTerm = (s.node b).pstate.currentTerm + 1 ∧
      (f.node b).pstate.currentTerm = (s.node b).pstate.currentTerm + 1 ∧
      ∀ q, q ≠ b → q ≠ c → f.node q = s.node q := by
  have hn : 0 < cfg.n := by
    by_contra hn
    exact hcb (Fin.ext (by omega))
  have hnew : ((s.node b).pstate.currentTerm + 1).toNat =
      (s.node b).pstate.currentTerm.toNat + 1 := by
    rw [UInt64.toNat_add, UInt64.toNat_one]
    omega
  obtain ⟨x, hx⟩ := h.stands hl ht hn
  obtain ⟨k, hk⟩ := hx.asked c hcb
  have hdel := step_deliver hk ⟨0, 0⟩
  have hterm : (voteRequest (x.node b)).term = (s.node b).pstate.currentTerm + 1 :=
    hx.counting.currentTerm
  have hlt' : (s.node c).pstate.currentTerm < (voteRequest (x.node b)).term := by
    rw [UInt64.lt_iff_toNat_lt] at hlt ⊢
    rw [hterm, hnew]
    omega
  obtain ⟨hstate, hcur⟩ := follows_of_lt ⟨0, 0⟩ (h.node c).noFaults (h.node c).not_failed hlt'
  have hlog := handleRequestVoteRequest_sameLog ⟨0, 0⟩ (s.node c) (voteRequest (x.node b))
  rw [← hx.other c hcb] at hstate hcur hlog
  refine ⟨x.step (.deliver k ⟨0, 0⟩), hx.quietly.trans (.update (hx.quietly.reaches.below h.below)
    hdel ?_ hlog), ?_, ?_, ?_, ?_⟩
  · change (handleRequestVoteRequest _ _ _).1.pstate.currentTerm.toNat < _
    rw [hcur, hterm]
    omega
  · rw [hdel, Cluster.update_node, if_pos rfl]
    exact hstate
  · rw [hdel, Cluster.update_node, if_pos rfl]
    exact hcur.trans hterm
  · rw [hdel, Cluster.update_node, if_neg hcb.symm]
    exact hterm
  · intro q hqb hqc
    rw [hdel, Cluster.update_node, if_neg hqc]
    exact hx.other q hqb

/-- From every state of the cluster, without a change of the logs, a node can come to lead a term
that no node is beyond. -/
theorem Simulates.exists_rules (h : Simulates s g)
    (ht : ∀ b, (s.node b).pstate.currentTerm.toNat + 3 < 2 ^ 64) :
    ∃ f a t, s.ReachesQuietly f ∧ f.Rules a t := by
  obtain ⟨b, hb⟩ := Finite.exists_max fun b => (s.node b).pstate.currentTerm.toNat
  obtain ⟨c, hc⟩ := Finite.exists_max fun b => rank (s.node b).pstate.entries
  have htop : ∀ q, (s.node q).pstate.currentTerm ≤ (s.node b).pstate.currentTerm :=
    fun q => UInt64.le_iff_toNat_le.mpr (hb q)
  by_cases hlead : ∃ a, (s.node a).state = .leader ∧
      (s.node a).pstate.currentTerm = (s.node b).pstate.currentTerm
  · obtain ⟨a, ha⟩ := hlead
    exact ⟨s, a, _, .refl s, ha, htop⟩
  push Not at hlead
  by_cases hcur : (s.node c).pstate.currentTerm = (s.node b).pstate.currentTerm
  · obtain ⟨f, hf, hr⟩ := h.elect (fun hl => hlead c hl hcur) (by have := ht c; omega)
      (fun q => hcur ▸ htop q) hc
    exact ⟨f, c, _, hf, hr⟩
  -- the node with the best log is behind, and is brought to the next term first
  have hcb : c ≠ b := fun h => hcur (h ▸ rfl)
  have htb := ht b
  obtain ⟨x, hx, hfollows, hxc, hxb, hother⟩ := h.bring (fun hl => hlead b hl rfl) hcb (by omega)
    (lt_of_le_of_ne (htop c) hcur)
  have hnew : ((s.node b).pstate.currentTerm + 1).toNat =
      (s.node b).pstate.currentTerm.toNat + 1 := by
    rw [UInt64.toNat_add, UInt64.toNat_one]
    omega
  obtain ⟨g', hg', -⟩ := h.reaches hx.reaches
  have htop' : ∀ q, (x.node q).pstate.currentTerm ≤ (x.node c).pstate.currentTerm := by
    intro q
    rw [hxc]
    by_cases hqb : q = b
    · rw [hqb, hxb]
    by_cases hqc : q = c
    · rw [hqc, hxc]
    · rw [hother q hqb hqc, UInt64.le_iff_toNat_le, hnew]
      exact (hb q).trans (Nat.le_succ _)
  have hbest : ∀ q, rank (x.node q).pstate.entries ≤ rank (x.node c).pstate.entries := by
    intro q
    rw [hx.entries q, hx.entries c]
    exact hc q
  obtain ⟨f, hf, hr⟩ := hg'.elect (by simp [hfollows]) (by rw [hxc, hnew]; omega) htop' hbest
  exact ⟨f, c, _, hx.trans hf, hr⟩

end Corestack.Raft
