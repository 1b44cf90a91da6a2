import Corestack.Raft.Refinement

/-! # The moves of an election

A node steps down, stands, votes or wins: each of these is a step of the history,
and leaves the node related to it.
-/

namespace Corestack.Raft

open Consensus

variable {cfg : Config} {g : cfg.History} {a b c : cfg.Node} {r r' : RaftNode} {clk : Clock}

/-! ## Stepping down -/

theorem NodeRel.no_vote (hv : Valid LogEntry.term g) (h : NodeRel g a r) {t : UInt64}
    (ht : r.pstate.currentTerm < t) : g.vote a t = none := by
  by_contra hne
  obtain ⟨d, hd⟩ := Option.ne_none_iff_exists'.mp hne
  exact (h.cur ▸ hv.vote_le hd).not_gt ht

/-- The node moves to a later term as a follower. -/
theorem updateTermLocked_moves (clk : Clock) (hv : Valid LogEntry.term g) (h : NodeRel g a r)
    {t : UInt64} (ht : r.pstate.currentTerm < t) :
    ∃ r', updateTermLocked clk r t = (r', true) ∧ r'.state = .follower ∧
      r'.pstate = { r.pstate with currentTerm := t, votedFor := raftNone } ∧
      r'.vstate = r.vstate ∧ Moves a g r (g.advance a t) r' := by
  obtain ⟨hd, hs⟩ := updateTermLocked_spec clk h.inSync ht
  rcases hu : updateTermLocked clk r t with ⟨r', ok⟩
  rw [hu] at hd hs
  rcases hs with ⟨rfl, hs⟩ | ⟨-, -, hn⟩
  · have hf : r'.state = .follower := hd.state h.noFaults h.not_failed
    have hps : r'.pstate = { r.pstate with currentTerm := t, votedFor := raftNone } := hd.pstate
    refine ⟨r', rfl, hf, hps, hd.vstate, ?_⟩
    have hx : Extends a g (g.advance a t) := .advance (h.cur ▸ ht.le)
    exact {
      valid := hv.advance (h.cur ▸ ht.le)
      ext := hx
      node := {
        id := hd.id.trans h.id
        peers := hd.peers.trans h.peers
        noFaults := hd.logFile h.noFaults
        inSync := hs
        cur := by simp [hps]
        log := by rw [hps]; exact h.log
        votedFor := by simp [hps, h.no_vote hv ht]
        not_failed := by simp [hf]
        candidate := by simp [hf]
        leader := by simp [hf]
        commit := by
          rw [hps, hd.vstate]
          exact h.commit.mono hx ht.le le_rfl }
      logs := fun _ => Or.inl rfl
      frozen := fun _ _ => rfl
      no_return := by simp [hf] }
  · exact absurd h.noFaults hn

/-- A move to a later term loses nothing. -/
theorem Keeps.of_steppedDown {t : UInt64}
    (hp : r'.pstate = { r.pstate with currentTerm := t, votedFor := raftNone })
    (hv : r'.vstate = r.vstate) (g : cfg.History) : Keeps g r r' :=
  ⟨by rw [hp]; exact List.prefix_rfl, Or.inl hv⟩

/-! ## Counting nodes -/

theorem Config.isMajority {Q : Finset cfg.Node} {a : cfg.Node}
    (h : majority ((cfg.peers a).length + 1) ≤ Q.card) : IsMajority Q := by
  rw [length_peers] at h
  unfold IsMajority
  unfold majority at h
  rw [Fintype.card_fin]
  omega

/-! ## Winning -/

/-- A candidate with a majority of the votes wins. -/
theorem raftInitLeaderState_moves (hv : Valid LogEntry.term g) (h : Matches g a r)
    (hc : CandidateRel g a r) (hb : CommitBound g r.pstate.currentTerm r.vstate.commitIndex)
    (hm : countVotes r.cstate.votesGranted r.peers.length ≥ majority (r.peers.length + 1))
    (n : Int) :
    Moves a g r (g.win a r.pstate.currentTerm)
      { raftInitLeaderState r with latestHeartbeatMs := n } := by
  have hlen : r.peers.length = (cfg.peers a).length := by rw [h.peers]; simp [Config.peerIds]
  obtain ⟨Q, hQ, hq⟩ := cfg.exists_quorum a r.cstate.votesGranted
  have hmaj : IsMajority Q := Config.isMajority (by rw [hQ, ← hlen]; exact hm)
  have hvote : ∀ q ∈ Q, g.vote q r.pstate.currentTerm = some a := by
    intro q hqQ
    rcases (hq q).mp hqQ with rfl | ⟨i, hi, hg⟩
    · exact hv.cand_vote hc.cand
    · exact hc.granted hi hg
  have hnone : g.leader r.pstate.currentTerm = none := by
    by_contra hne
    obtain ⟨d, hd⟩ := Option.ne_none_iff_exists'.mp hne
    exact hc.not_won (hv.leader_unique hd hmaj hvote ▸ hd)
  have hx : Extends a g (g.win a r.pstate.currentTerm) := .win hv hnone
  have hnext : ∀ {i b}, (cfg.peers a)[i]? = some b →
      (if i < r.peers.length then raftLastLogIndex r + 1 else 0).toNat = r.pstate.logLen + 1 := by
    intro i b hi
    have hi' : i < r.peers.length := hlen ▸ (List.getElem?_eq_some_iff.mp hi).1
    rw [if_pos hi', toNat_raftLastLogIndex_add_one h.inSync.logLen_le]
  exact {
    valid := hv.win h.cur (h.log ▸ hc.cand) hnone hmaj hvote
    ext := hx
    node := {
      id := h.id
      peers := h.peers
      noFaults := h.noFaults
      inSync := h.inSync
      cur := h.cur
      log := h.log
      votedFor := h.votedFor
      not_failed := by simp [raftInitLeaderState]
      candidate := by simp [raftInitLeaderState]
      leader := fun _ => {
        won := by simp [raftInitLeaderState]
        acked := fun _ => Nat.zero_le _
        next_pos := fun hi => by
          show 0 < (if _ then _ else _ : UInt64).toNat
          rw [hnext hi]; omega
        next_le := fun hi => (hnext hi).le }
      commit := hb.mono hx le_rfl le_rfl }
    logs := fun t => by
      by_cases ht : t = r.pstate.currentTerm
      · right; subst ht; simp [h.log, raftInitLeaderState]
      · left; simp [ht]
    frozen := fun {t} ht _ => by
      have hne : t ≠ r.pstate.currentTerm := by rintro rfl; exact ht hnone
      simp [hne]
    no_return := fun _ hw => absurd (hnone.symm.trans hw) (by simp) }

/-- The reply to a vote request, at the node that asked. -/
theorem handleRequestVoteResponse_moves (clk : Clock) {resp : RequestVoteResponse}
    (hv : Valid LogEntry.term g) (h : NodeRel g a r)
    (hp : PacketRel g ⟨b, a, .requestVoteResponse resp⟩) :
    ∃ g', Moves a g r g' (handleRequestVoteResponse clk r resp (cfg.id b)) ∧
      Keeps g' r (handleRequestVoteResponse clk r resp (cfg.id b)) := by
  unfold handleRequestVoteResponse
  by_cases ht : resp.term > r.pstate.currentTerm
  · rw [if_pos ht]
    obtain ⟨r', hr', -, hps, hvs, hm⟩ := updateTermLocked_moves clk hv h ht
    rw [hr']
    exact ⟨_, hm, .of_steppedDown hps hvs _⟩
  rw [if_neg ht]
  split_ifs with hs
  · exact ⟨g, .refl hv h, .refl g r⟩
  push Not at hs
  obtain ⟨hcand, hcur, hel⟩ := hs
  rcases hi : findPeerIdx r (cfg.id b) with _ | i
  · exact ⟨g, .refl hv h, .refl g r⟩
  have hib : (cfg.peers a)[i]? = some b := cfg.findPeerIdx_eq h.peers hi
  dsimp only
  split_ifs with hr hm
  · exact ⟨g, .refl hv h, .refl g r⟩
  all_goals
    have hc := h.candidate hcand
    -- a reply that grants the vote was sent for this term: the voter had not voted before
    have hgrant : resp.voteGranted = true → g.vote b r.pstate.currentTerm = some a := by
      intro hg
      obtain ⟨t, hle, hvt⟩ := hp hg
      obtain ⟨l, hl, -⟩ := hv.vote_cand hvt
      have hge : t ≤ r.pstate.currentTerm := h.cur ▸ hv.vote_le (hv.cand_vote hl)
      obtain rfl : t = r.pstate.currentTerm := le_antisymm hge (hcur ▸ hle)
      exact hvt
    have hc' : CandidateRel g a (recordVote r i resp.voteGranted) := {
      electionTerm := hc.electionTerm
      cand := hc.cand
      not_won := hc.not_won
      granted := fun {j d} hj hg => by
        by_cases hij : j = i
        · subst hij
          obtain rfl : d = b := Option.some.inj (hj.symm.trans hib)
          exact hgrant (by simpa [recordVote] using hg)
        · exact hc.granted hj (by simpa [recordVote, hij] using hg) }
    have hm' : Matches g a (recordVote r i resp.voteGranted) :=
      ⟨h.id, h.peers, h.noFaults, h.inSync, h.cur, h.log, h.votedFor⟩
  · have hw := raftInitLeaderState_moves hv hm' hc' h.commit hm 0
    exact ⟨_, { hw with no_return := hw.no_return }, ⟨List.prefix_rfl, Or.inl rfl⟩⟩
  · have hn : NodeRel g a (recordVote r i resp.voteGranted) :=
      { hm' with
        not_failed := h.not_failed
        candidate := fun _ => hc'
        leader := fun hl => absurd (hcand.symm.trans hl) (by simp)
        commit := h.commit }
    exact ⟨g, .same hv hn fun hl => ⟨hl, rfl⟩, ⟨List.prefix_rfl, Or.inl rfl⟩⟩

/-! ## Voting -/

theorem NodeRel.votedFor_eq_none (h : NodeRel g a r) :
    r.pstate.votedFor = raftNone ↔ g.vote a r.pstate.currentTerm = none := by
  rw [h.votedFor]
  cases g.vote a r.pstate.currentTerm with
  | none => simp
  | some d => simpa using cfg.id_ne_none d

theorem NodeRel.votedFor_eq_id (h : NodeRel g a r) :
    r.pstate.votedFor = cfg.id c ↔ g.vote a r.pstate.currentTerm = some c := by
  rw [h.votedFor]
  cases g.vote a r.pstate.currentTerm with
  | none => simpa using (cfg.id_ne_none c).symm
  | some d => simpa using cfg.id_injective.eq_iff

theorem getLast?_entries (p : PersistentState) :
    p.entries.getLast? = if p.logLen = 0 then none else some (p.log (p.logLen - 1)) := by
  rw [List.getLast?_eq_getElem?, p.length_entries]
  split_ifs with h
  · simp [PersistentState.entries, h]
  · exact p.getElem?_entries (by omega)

theorem raftLastLogTerm_eq (r : RaftNode) :
    raftLastLogTerm r = r.pstate.entries.getLast?.elim 0 LogEntry.term := by
  rw [raftLastLogTerm, getLast?_entries]
  split_ifs <;> rfl

/-- `checkLog` lets a node vote only for an owner of a log that is as up to date as its own. -/
theorem upToDate_of_checkLog {l : List LogEntry} {r : RaftNode} {i t : UInt64}
    (hr : r.pstate.logLen ≤ raftLogCap) (hl : l.length ≤ raftLogCap) (hi : i = .ofNat l.length)
    (ht : t = l.getLast?.elim 0 LogEntry.term)
    (h : checkLog i t (raftLastLogIndex r) (raftLastLogTerm r) = true) :
    UpToDate LogEntry.term l r.pstate.entries := by
  intro e' he'
  have hlast : raftLastLogTerm r = e'.term := by
    rw [raftLastLogTerm_eq, Option.mem_def.mp he']; rfl
  have hpos : 0 < r.pstate.logLen := by
    rw [getLast?_entries] at he'
    by_contra h0
    simp [Nat.eq_zero_of_not_pos h0] at he'
  have hlen : i.toNat = l.length := by rw [hi, toNat_ofNat hl]
  rw [hlast] at h
  unfold checkLog at h
  rcases hcase : l.getLast? with _ | e
  · rw [hcase] at ht
    obtain rfl : t = 0 := ht
    obtain rfl : l = [] := List.getLast?_eq_none_iff.mp hcase
    exfalso
    split_ifs at h with hne
    · exact (UInt64.not_lt_zero (of_decide_eq_true h)).elim
    · have := UInt64.le_iff_toNat_le.mp (of_decide_eq_true h)
      rw [toNat_raftLastLogIndex hr, hlen] at this
      simp at this
      omega
  · rw [hcase] at ht
    obtain rfl : t = e.term := ht
    refine ⟨e, rfl, ?_⟩
    split_ifs at h with hne
    · exact Or.inl (of_decide_eq_true h)
    · right
      refine ⟨(not_not.mp hne).symm, ?_⟩
      have := UInt64.le_iff_toNat_le.mp (of_decide_eq_true h)
      rw [toNat_raftLastLogIndex hr, hlen] at this
      simpa using this

/-- A request of the current term is granted. -/
theorem voteFor_moves (clk : Clock) {req : RequestVoteRequest} (hv : Valid LogEntry.term g)
    (h : NodeRel g a r) (hl : r.state ≠ .leader)
    (hp : PacketRel g ⟨c, a, .requestVote req⟩) (ht : req.term = r.pstate.currentTerm)
    (hm : mayVote r req = true) :
    ∃ r' g', persistStateLocked (voteFor r req.candidateId) = (r', true) ∧
      r'.pstate = { r.pstate with votedFor := req.candidateId } ∧
      r'.vstate = r.vstate ∧ r'.state = r.state ∧
      Moves a g r g' (raftResetElectionTimer clk r') ∧
      g'.vote a r.pstate.currentTerm = some c := by
  obtain ⟨hid, l, hcand, hlen, hli, hlt⟩ := hp
  have hk : Kept (voteFor r req.candidateId) r.pstate.currentTerm r.pstate.votedFor := h.inSync
  rcases persistState_spec hk with ⟨f, hw, hs, hn⟩ | ⟨f, -, -, hn⟩
  swap
  · exact absurd h.noFaults hn
  obtain ⟨hvote, hcheck⟩ := Bool.and_eq_true_iff.mp hm
  rcases hown : g.vote a r.pstate.currentTerm with _ | d
  · -- the first vote of the term
    have hup := upToDate_of_checkLog h.inSync.logLen_le hlen hli hlt hcheck
    rw [← h.log] at hup
    have hcand' : g.cand c r.pstate.currentTerm = some l := ht ▸ hcand
    have hx : Extends a g (g.castVote a c r.pstate.currentTerm) := .castVote hown
    refine ⟨_, g.castVote a c r.pstate.currentTerm, hw, rfl, rfl, rfl, ?_, by simp⟩
    exact {
      valid := hv.castVote h.cur hown hcand' hup
      ext := hx
      node := {
        id := h.id
        peers := h.peers
        noFaults := hn h.noFaults
        inSync := hs
        cur := h.cur
        log := h.log
        votedFor := by simpa [raftResetElectionTimer, voteFor] using hid
        not_failed := h.not_failed
        candidate := fun hc => by
          have := hv.cand_vote (h.candidate hc).cand
          simp [hown] at this
        leader := fun hc => absurd hc hl
        commit := h.commit.mono hx le_rfl le_rfl }
      logs := fun _ => Or.inl rfl
      frozen := fun _ _ => rfl
      no_return := fun hs _ => absurd hs hl }
  · -- the same vote once more
    have hne : r.pstate.votedFor ≠ raftNone := by
      rw [Ne, h.votedFor_eq_none, hown]; simp
    have hsame : r.pstate.votedFor = req.candidateId := by simpa [hne] using hvote
    have hdc : g.vote a r.pstate.currentTerm = some c := h.votedFor_eq_id.mp (hsame.trans hid)
    have hps : (voteFor r req.candidateId).pstate = r.pstate := by
      rw [voteFor, ← hsame]
    refine ⟨_, g, hw, rfl, rfl, rfl, .same hv ?_ fun hs => absurd hs hl, hdc⟩
    exact {
      id := h.id
      peers := h.peers
      noFaults := hn h.noFaults
      inSync := hs
      cur := h.cur
      log := h.log
      votedFor := by
        show (voteFor r req.candidateId).pstate.votedFor = _
        rw [hps]; exact h.votedFor
      not_failed := h.not_failed
      candidate := fun hc => ⟨(h.candidate hc).electionTerm, (h.candidate hc).cand,
        (h.candidate hc).not_won, (h.candidate hc).granted⟩
      leader := fun hc => absurd hc hl
      commit := h.commit }

/-- What the handler does once the node is in the term of the request. -/
theorem answerRequestVote_moves (clk : Clock) {req : RequestVoteRequest}
    (resp : RequestVoteResponse) (hv : Valid LogEntry.term g) (h : NodeRel g a r)
    (hp : PacketRel g ⟨c, a, .requestVote req⟩)
    (hle : req.term ≤ r.pstate.currentTerm) (hresp : resp.voteGranted = false)
    (hterm : resp.term ≤ r.pstate.currentTerm) :
    ∃ g', Moves a g r g' (answerRequestVote clk r req resp).1 ∧
      Keeps g' r (answerRequestVote clk r req resp).1 ∧
      PacketRel g' ⟨a, c, .requestVoteResponse (answerRequestVote clk r req resp).2⟩ := by
  have hdeny : PacketRel g ⟨a, c, .requestVoteResponse resp⟩ := by simp [PacketRel, hresp]
  unfold answerRequestVote
  split_ifs with hlt hl hm
  · exact ⟨g, .refl hv h, .refl g r, hdeny⟩
  · exact ⟨g, .refl hv h, .refl g r, hdeny⟩
  · obtain ⟨r', g', hw, hps, hvs, -, hmv, hvote⟩ :=
      voteFor_moves clk hv h hl hp (le_antisymm hle (not_lt.mp hlt)) hm
    rw [hw]
    refine ⟨g', hmv, ⟨?_, Or.inl hvs⟩, fun _ => ⟨_, hterm, hvote⟩⟩
    simp only [raftResetElectionTimer, hps]
    exact List.prefix_rfl
  · exact ⟨g, .refl hv h, .refl g r, hdeny⟩

/-- A vote request is answered with a vote that the history has, or with a refusal. -/
theorem handleRequestVoteRequest_moves (clk : Clock) {req : RequestVoteRequest}
    (hv : Valid LogEntry.term g) (h : NodeRel g a r) (hp : PacketRel g ⟨c, a, .requestVote req⟩) :
    ∃ g', Moves a g r g' (handleRequestVoteRequest clk r req).1 ∧
      Keeps g' r (handleRequestVoteRequest clk r req).1 ∧
      PacketRel g' ⟨a, c, .requestVoteResponse (handleRequestVoteRequest clk r req).2⟩ := by
  unfold handleRequestVoteRequest
  split_ifs with ht
  · obtain ⟨r₁, hu, hf, hps, hvs, hm⟩ := updateTermLocked_moves clk hv h ht
    have hcur : r₁.pstate.currentTerm = req.term := by rw [hps]
    obtain ⟨g', hm', hk', hp'⟩ := answerRequestVote_moves clk
      ⟨r.pstate.currentTerm, false⟩ hm.valid hm.node (hp.mono hm.ext) hcur.ge rfl
      (hcur.symm ▸ ht.le)
    rw [hu]
    exact ⟨g', hm.trans (by simp [hf]) hm' fun _ => rfl,
      hk'.trans (by rw [hps]; rfl) hvs, hp'⟩
  · exact answerRequestVote_moves clk _ hv h hp (not_lt.mp ht) rfl le_rfl

/-! ## Standing -/

/-- A node that has written its candidacy of a new term. -/
theorem becomeCandidate_moves (clk : Clock) (hv : Valid LogEntry.term g) (h : NodeRel g a r)
    (ht : r.pstate.currentTerm.toNat < 2 ^ 64 - 1) :
    ∃ f, persistStateLocked (becomeCandidate r) = ({ becomeCandidate r with logFile := f }, true) ∧
      Moves a g r (g.stand a (r.pstate.currentTerm + 1))
        (raftResetElectionTimer clk (raftInitCandidateState { becomeCandidate r with logFile := f }
          (r.pstate.currentTerm + 1))) := by
  have hk : Kept (becomeCandidate r) r.pstate.currentTerm r.pstate.votedFor := h.inSync
  rcases persistState_spec hk with ⟨f, hw, hs, hn⟩ | ⟨f, -, -, hn⟩
  swap
  · exact absurd h.noFaults hn
  have hlt : r.pstate.currentTerm < r.pstate.currentTerm + 1 := by
    rw [UInt64.lt_iff_toNat_lt, UInt64.toNat_add, UInt64.toNat_one]
    omega
  have hlt' : g.cur a < r.pstate.currentTerm + 1 := h.cur ▸ hlt
  have hx : Extends a g (g.stand a (r.pstate.currentTerm + 1)) := .stand hv hlt'
  refine ⟨f, hw, ?_⟩
  exact {
    valid := hv.stand hlt'
    ext := hx
    node := {
      id := h.id
      peers := h.peers
      noFaults := hn h.noFaults
      inSync := hs
      cur := by simp [raftResetElectionTimer, raftInitCandidateState, becomeCandidate]
      log := h.log
      votedFor := by
        simp [raftResetElectionTimer, raftInitCandidateState, becomeCandidate, h.id]
      not_failed := by simp [raftResetElectionTimer, raftInitCandidateState, becomeCandidate]
      candidate := fun _ => {
        electionTerm := rfl
        cand := by
          simp only [raftResetElectionTimer, raftInitCandidateState, becomeCandidate,
            History.stand_cand, put_self, h.log]
          rfl
        not_won := fun hw => hlt'.not_ge (hv.leader_le hw)
        granted := fun _ hg => by simp [raftResetElectionTimer, raftInitCandidateState] at hg }
      leader := by simp [raftResetElectionTimer, raftInitCandidateState, becomeCandidate]
      commit := h.commit.mono hx hlt.le le_rfl }
    logs := fun _ => Or.inl rfl
    frozen := fun _ _ => rfl
    no_return := by simp [raftResetElectionTimer, raftInitCandidateState, becomeCandidate] }

theorem voteRequest_rel {req : RequestVoteRequest} {i n : Nat} (h : Matches g a r)
    (hc : g.cand a r.pstate.currentTerm = some r.pstate.entries)
    (hm : (i, req) ∈ (List.range n).map fun i => (i, voteRequest r)) :
    PacketRel g ⟨a, b, .requestVote req⟩ := by
  obtain ⟨j, -, hj⟩ := List.mem_map.mp hm
  obtain ⟨rfl, rfl⟩ := Prod.mk.injEq .. ▸ hj
  refine ⟨h.id, _, hc, ?_, ?_, ?_⟩
  · simpa using h.inSync.logLen_le
  · simp [voteRequest, raftLastLogIndex]
  · simp [voteRequest, raftLastLogTerm_eq]

/-- A timeout does nothing, or makes a candidate whose requests the history has. -/
theorem raftTimeout_moves (clk : Clock) (hv : Valid LogEntry.term g) (h : NodeRel g a r)
    (ht : r.pstate.currentTerm.toNat < 2 ^ 64 - 1) (outCap : Nat) :
    ∃ g', Moves a g r g' (raftTimeout clk r outCap).1 ∧
      Keeps g' r (raftTimeout clk r outCap).1 ∧
      ∀ b, ∀ x ∈ (raftTimeout clk r outCap).2, PacketRel g' ⟨a, b, .requestVote x.2⟩ := by
  unfold raftTimeout
  split_ifs
  · exact ⟨g, .refl hv h, .refl g r, by simp⟩
  · exact ⟨g, .refl hv h, .refl g r, by simp⟩
  obtain ⟨f, hw, hm⟩ := becomeCandidate_moves clk hv h ht
  rw [hw]
  unfold startElection
  dsimp only
  have hc := hm.node.candidate rfl
  split_ifs with hmaj
  · -- a node without peers wins at once
    have hvotes : countVotes (fun _ => false) r.peers.length ≥ majority (r.peers.length + 1) := by
      change majority (r.peers.length + 1) = 1 at hmaj
      rw [hmaj]
      exact Nat.le_add_right _ _
    have hwin :=
      raftInitLeaderState_moves hm.valid hm.node.toMatches hc hm.node.commit hvotes clk.now
    exact ⟨_, hm.trans (by simp [raftResetElectionTimer, raftInitCandidateState, becomeCandidate])
      hwin fun _ => rfl, ⟨List.prefix_rfl, Or.inl rfl⟩, by simp⟩
  · exact ⟨_, hm, ⟨List.prefix_rfl, Or.inl rfl⟩, fun b x hx =>
      voteRequest_rel hm.node.toMatches hc.cand hx⟩

end Corestack.Raft
