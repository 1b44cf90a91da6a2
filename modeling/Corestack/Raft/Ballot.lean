import Corestack.Raft.Cluster

/-! # One ballot

A candidate asks a set of nodes that are all willing to vote for it, and gets
their answers in any order. A voter answers in the term it had before the
request, so only the answers of those that were in the new term already count.
-/

namespace Corestack.Raft

variable {cfg : Config} {r r' : RaftNode} {c q : cfg.Node} {t : UInt64}

/-! ## The voters -/

/-- A node that has no reason to refuse the request. -/
structure Willing (r : RaftNode) (req : RequestVoteRequest) : Prop where
  noFaults : r.logFile.NoFaults
  not_failed : r.state ≠ .failed
  term : r.pstate.currentTerm < req.term ∨
    (r.pstate.currentTerm = req.term ∧ r.state ≠ .leader ∧ r.pstate.votedFor = raftNone)
  log : checkLog req.lastLogIndex req.lastLogTerm (raftLastLogIndex r) (raftLastLogTerm r) = true

theorem answerRequestVote_grants {req : RequestVoteRequest} (resp : RequestVoteResponse)
    (clk : Clock) (hf : r.logFile.NoFaults) (ht : r.pstate.currentTerm = req.term)
    (hl : r.state ≠ .leader) (hv : r.pstate.votedFor = raftNone)
    (hlog : checkLog req.lastLogIndex req.lastLogTerm (raftLastLogIndex r) (raftLastLogTerm r) =
      true) : (answerRequestVote clk r req resp).2 = { resp with voteGranted := true } := by
  have hm : mayVote r req = true := by simp [mayVote, hv, hlog]
  obtain ⟨f, hw, -⟩ := persistStateLocked_of_noFaults (r := voteFor r req.candidateId) hf
  rw [answerRequestVote, if_neg (by simp [ht]), if_neg hl, if_pos hm, hw]

/-- A willing node grants its vote, in the term that it had before. -/
theorem Willing.grants {req : RequestVoteRequest} (h : Willing r req) (clk : Clock) :
    (handleRequestVoteRequest clk r req).2 = ⟨r.pstate.currentTerm, true⟩ := by
  unfold handleRequestVoteRequest
  rcases h.term with hlt | ⟨heq, hl, hv⟩
  · rw [if_pos hlt, updateTermLocked, if_neg (not_le.mpr hlt)]
    obtain ⟨f, hw, hn⟩ := persistStateLocked_of_noFaults (r := enterTerm r req.term) h.noFaults
    rw [hw]
    exact answerRequestVote_grants _ clk hn rfl
      (by simp [raftResetElectionTimer, raftClearLeaderState, raftClearCandidateState, enterTerm,
        h.not_failed]) rfl h.log
  · rw [if_neg (by simp [heq])]
    exact answerRequestVote_grants _ clk h.noFaults heq hl hv h.log

/-! ## The candidate -/

/-- The votes of a set of peers, and one's own. -/
theorem countVotes_eq {granted : Nat → Bool} {A : Finset cfg.Node} (hA : c ∉ A)
    (h : ∀ i q, (cfg.peers c)[i]? = some q → granted i = decide (q ∈ A)) :
    countVotes granted (cfg.peers c).length = 1 + A.card := by
  obtain ⟨Q, hQ, hq⟩ := cfg.exists_quorum c granted
  have hins : Q = insert c A := by
    ext q
    rw [hq, Finset.mem_insert]
    refine or_congr_right' fun hqc => ⟨fun ⟨i, hi, hg⟩ => ?_, fun hm => ?_⟩
    · rw [h i q hi] at hg
      exact of_decide_eq_true hg
    · obtain ⟨i, hi⟩ := List.getElem?_of_mem (cfg.mem_peers.mpr hqc)
      exact ⟨i, hi, by rw [h i q hi]; exact decide_eq_true hm⟩
  rw [countVotes, ← hQ, hins, Finset.card_insert_of_notMem hA, Nat.add_comm]

/-- The candidate of term `t` when the votes of `A` have been counted. -/
structure Counting (c : cfg.Node) (t : UInt64) (A : Finset cfg.Node) (r : RaftNode) : Prop where
  peers : r.peers = cfg.peerIds c
  currentTerm : r.pstate.currentTerm = t
  role : r.state = .leader ∧ majority (cfg.n + 1) ≤ 1 + A.card ∨
    r.state = .candidate ∧ 1 + A.card < majority (cfg.n + 1) ∧ r.cstate.electionTerm = t ∧
      ∀ i q, (cfg.peers c)[i]? = some q →
        r.cstate.votesResponded i = decide (q ∈ A) ∧ r.cstate.votesGranted i = decide (q ∈ A)

/-- A vote counts if it comes in the term of the candidate, and not from an earlier one. -/
theorem Counting.response {A : Finset cfg.Node} (h : Counting c t A r) (hA : c ∉ A) (hq : q ≠ c)
    (hqA : q ∉ A) {u : UInt64} (hu : u ≤ t) (clk : Clock) :
    Counting c t (if u = t then insert q A else A)
      (handleRequestVoteResponse clk r ⟨u, true⟩ (cfg.id q)) := by
  have hnew : ¬ u > r.pstate.currentTerm := by rw [h.currentTerm]; exact not_lt.mpr hu
  by_cases hut : u = t
  swap
  · -- an answer in an earlier term is dropped
    have hold : u ≠ r.pstate.currentTerm := h.currentTerm ▸ hut
    rw [if_neg hut, handleRequestVoteResponse, if_neg hnew, if_pos (Or.inr (Or.inl hold))]
    exact h
  rw [if_pos hut, handleRequestVoteResponse, if_neg hnew]
  rcases h.role with ⟨hl, hm⟩ | ⟨hc, -, hel, hvotes⟩
  · -- the candidate has won already
    rw [if_pos (Or.inl (by simp [hl]))]
    refine ⟨h.peers, h.currentTerm, Or.inl ⟨hl, hm.trans ?_⟩⟩
    rw [Finset.card_insert_of_notMem hqA]
    omega
  rw [if_neg (by simp [hc, hel, h.currentTerm, hut])]
  obtain ⟨i, hi⟩ := cfg.exists_findPeerIdx h.peers hq
  have hiq := cfg.findPeerIdx_eq h.peers hi
  have hresp : r.cstate.votesResponded i = false := by simpa [hqA] using (hvotes i q hiq).1
  rw [hi]
  dsimp only
  rw [if_neg (by simp [hresp])]
  have hlen : r.peers.length = (cfg.peers c).length := by rw [h.peers]; simp [Config.peerIds]
  have hvotes' : ∀ j p, (cfg.peers c)[j]? = some p →
      (recordVote r i true).cstate.votesResponded j = decide (p ∈ insert q A) ∧
        (recordVote r i true).cstate.votesGranted j = decide (p ∈ insert q A) := by
    intro j p hj
    rcases eq_or_ne j i with rfl | hji
    · obtain rfl : p = q := Option.some.inj (hj.symm.trans hiq)
      simp [recordVote]
    · have hpq : p ≠ q := by rintro rfl; exact hji (cfg.peers_inj hj hiq)
      simpa [recordVote, hji, hpq] using hvotes j p hj
  have hcount : countVotes (recordVote r i true).cstate.votesGranted
      (recordVote r i true).peers.length = 1 + (insert q A).card := by
    change countVotes _ r.peers.length = _
    rw [hlen]
    exact countVotes_eq (by simp [hq.symm, hA]) fun j p hj => (hvotes' j p hj).2
  have hmaj : majority ((recordVote r i true).peers.length + 1) = majority (cfg.n + 1) := by
    change majority (r.peers.length + 1) = _
    rw [hlen, cfg.length_peers]
  rw [hcount, hmaj]
  split_ifs with hm
  · exact ⟨h.peers, h.currentTerm, Or.inl ⟨rfl, hm⟩⟩
  · exact ⟨h.peers, h.currentTerm, Or.inr ⟨hc, not_le.mp hm, hel, hvotes'⟩⟩

theorem raftTimeout_cases (clk : Clock) (r : RaftNode) (outCap : Nat) :
    (raftTimeout clk r outCap).2 = [] ∨ ∃ f, raftTimeout clk r outCap =
      startElection clk { becomeCandidate r with logFile := f } outCap := by
  unfold raftTimeout
  split_ifs
  · exact Or.inl rfl
  · exact Or.inl rfl
  · rcases hw : (becomeCandidate r).logFile.write (stateLine
      (becomeCandidate r).pstate.currentTerm (becomeCandidate r).pstate.votedFor) with ⟨f, _ | _⟩
    · left
      rw [persistStateLocked, hw]
    · right
      rw [persistStateLocked, hw]
      exact ⟨f, rfl⟩

theorem startElection_of_peers (clk : Clock) (outCap : Nat)
    (h : majority (r.peers.length + 1) ≠ 1) :
    ∃ r', r' = raftResetElectionTimer clk (raftInitCandidateState r r.pstate.currentTerm) ∧
      startElection clk r outCap =
        (r', (List.range (min r.peers.length outCap)).map fun i => (i, voteRequest r')) :=
  ⟨_, rfl, if_neg h⟩

theorem startElection_of_single (clk : Clock) (outCap : Nat)
    (h : majority (r.peers.length + 1) = 1) : (startElection clk r outCap).2 = [] :=
  congrArg Prod.snd (if_pos h)

/-- A node that asks for votes has just become a candidate, and has counted none. -/
theorem raftTimeout_asks {clk : Clock} {outCap : Nat} (hp : r.peers = cfg.peerIds c)
    (h : (raftTimeout clk r outCap).2 ≠ []) :
    Counting c (r.pstate.currentTerm + 1) ∅ (raftTimeout clk r outCap).1 ∧
      ∀ x ∈ (raftTimeout clk r outCap).2, x.2.term = r.pstate.currentTerm + 1 := by
  rcases raftTimeout_cases clk r outCap with hnil | ⟨f, he⟩
  · exact absurd hnil h
  rw [he] at h ⊢
  have hm : majority (r.peers.length + 1) ≠ 1 := fun hm => h (startElection_of_single clk outCap hm)
  obtain ⟨r', hr', hs⟩ := startElection_of_peers (r := { becomeCandidate r with logFile := f }) clk
    outCap hm
  have hlen : r.peers.length = cfg.n := by
    rw [hp, Config.peerIds, List.length_map, cfg.length_peers]
  have hn : 1 < majority (cfg.n + 1) := by
    rw [hlen] at hm
    unfold majority at hm ⊢
    omega
  have ht : r'.pstate.currentTerm = r.pstate.currentTerm + 1 := by rw [hr']; rfl
  rw [hs]
  constructor
  · subst hr'
    exact ⟨hp, ht, Or.inr ⟨rfl, by simpa using hn, ht, fun _ _ _ => ⟨by simp; rfl, by simp; rfl⟩⟩⟩
  · intro x hx
    obtain ⟨i, -, rfl⟩ := List.mem_map.mp hx
    exact ht

theorem raftTimeout_requests (clk : Clock) (r : RaftNode) (outCap : Nat) :
    ∃ m, (raftTimeout clk r outCap).2 =
      (List.range m).map fun i => (i, voteRequest (raftTimeout clk r outCap).1) := by
  rcases raftTimeout_cases clk r outCap with hnil | ⟨f, he⟩
  · exact ⟨0, hnil⟩
  · rw [he, startElection]
    dsimp only
    split_ifs
    · exact ⟨0, rfl⟩
    · exact ⟨_, rfl⟩

/-! ## The exchange -/

/-- The packets at the places `ks` are delivered, the last one first. -/
inductive Delivers (s : Cluster cfg) : List Nat → Cluster cfg → Prop
  | nil : Delivers s [] s
  | cons {ks : List Nat} {k : Nat} {x : Cluster cfg} (h : Delivers s ks x) (clk : Clock)
      (hk : k < x.net.length) : Delivers s (k :: ks) (x.step (.deliver k clk))

/-- Node `c` times out and asks, among others, all of `Q`, with which it is a majority and whose
members have no reason to refuse. -/
structure Ballot (s : Cluster cfg) (c : cfg.Node) (clk : Clock) (outCap : Nat)
    (Q : Finset cfg.Node) : Prop where
  peers : (s.node c).peers = cfg.peerIds c
  asks : (raftTimeout clk (s.node c) outCap).2 ≠ []
  notMem : c ∉ Q
  majority : majority (cfg.n + 1) ≤ 1 + Q.card
  asked : ∀ q ∈ Q, ∃ p ∈ (s.step (.timeout c clk outCap)).net.drop s.net.length, p.dst = q
  willing : ∀ q ∈ Q, Willing (s.node q) (voteRequest ((s.step (.timeout c clk outCap)).node c))

/-- Of the packets since state `s`, those to and from `Q` are delivered, each of them once. -/
structure Polled (s : Cluster cfg) (c : cfg.Node) (clk : Clock) (outCap : Nat)
    (Q : Finset cfg.Node) (ks : List Nat) (f : Cluster cfg) : Prop where
  delivers : Delivers (s.step (.timeout c clk outCap)) ks f
  once : ks.Nodup
  mem_iff : ∀ k, k ∈ ks ↔
    s.net.length ≤ k ∧ ∃ p, f.net[k]? = some p ∧ (p.dst ∈ Q ∨ p.src ∈ Q)

variable {s f x : Cluster cfg} {clk : Clock} {outCap : Nat} {Q : Finset cfg.Node} {ks : List Nat}

/-- The requests go to the first peers, as many as fit. -/
theorem addressed_requests (c : cfg.Node) (m : Nat) (req : RequestVoteRequest) :
    Cluster.addressed c ((List.range m).map fun i => (i, req)) =
      ((cfg.peers c).take m).map fun q => ⟨c, q, .requestVote req⟩ := by
  induction m with
  | zero => rfl
  | succ m ih =>
    rw [List.range_succ, List.map_append, List.take_add_one, List.map_append, ← ih]
    cases hi : (cfg.peers c)[m]? <;> simp [Cluster.addressed, hi]

/-- The answer that a willing node gives. -/
def voteFrom (s : Cluster cfg) (c q : cfg.Node) : Packet cfg :=
  ⟨q, c, .requestVoteResponse ⟨(s.node q).pstate.currentTerm, true⟩⟩

/-- A ballot of term `t` that began in state `s`, after the packets `ks`: the nodes of `R` have
answered, and the votes of `A` have been counted. -/
structure Polling (s : Cluster cfg) (c : cfg.Node) (t : UInt64) (Q : Finset cfg.Node)
    (R : List cfg.Node) (A : Finset cfg.Node) (ks : List Nat) (x : Cluster cfg) : Prop where
  net : x.net = s.net ++ R.map (voteFrom s c)
  lt : ∀ k ∈ ks, k < x.net.length
  mem : ∀ q ∈ R, q ∈ Q
  nodup : R.Nodup
  answered : ∀ q, q ∈ R ↔ ∃ k ∈ ks, ∃ p, s.net[k]? = some p ∧ p.dst = q
  waiting : ∀ q ∈ Q, q ∉ R → x.node q = s.node q
  counted : ∀ q, q ∈ A ↔ (s.node q).pstate.currentTerm = t ∧
    ∃ j, R[j]? = some q ∧ s.net.length + j ∈ ks
  counting : Counting c t A (x.node c)

variable {R : List cfg.Node} {A : Finset cfg.Node} {k : Nat}

theorem Polling.request {req : RequestVoteRequest} (h : Polling s c t Q R A ks x) (hc : c ∉ Q)
    (hk : s.net[k]? = some ⟨c, q, .requestVote req⟩) (hq : q ∈ Q) (hqR : q ∉ R)
    (hw : Willing (s.node q) req) (clk : Clock) :
    Polling s c t Q (R ++ [q]) A (k :: ks) (x.step (.deliver k clk)) := by
  have hcq : c ≠ q := fun he => hc (he ▸ hq)
  have hlt : k < s.net.length := (List.getElem?_eq_some_iff.mp hk).1
  have hkx : x.net[k]? = some ⟨c, q, .requestVote req⟩ := by
    rw [h.net, List.getElem?_append_left hlt, hk]
  have hgrant : (handleRequestVoteRequest clk (x.node q) req).2 =
      ⟨(s.node q).pstate.currentTerm, true⟩ := by
    rw [h.waiting q hq hqR]
    exact hw.grants clk
  have hnode : ∀ b, b ≠ q → (x.step (.deliver k clk)).node b = x.node b := fun b hb => by
    simp [Cluster.step, hkx, Packet.receive, Cluster.update, hb]
  have hnet : (x.step (.deliver k clk)).net = x.net ++ [voteFrom s c q] := by
    simp [Cluster.step, hkx, Packet.receive, Cluster.update, hgrant, voteFrom]
  constructor
  · rw [hnet, h.net]; simp
  · intro j hj
    rw [hnet, List.length_append, List.length_singleton]
    rcases List.mem_cons.mp hj with rfl | hj
    · rw [h.net, List.length_append]; omega
    · exact (h.lt j hj).trans (Nat.lt_succ_self _)
  · intro p hp
    rcases List.mem_append.mp hp with hp | hp
    · exact h.mem p hp
    · exact List.mem_singleton.mp hp ▸ hq
  · refine List.nodup_append.mpr ⟨h.nodup, List.nodup_singleton q, ?_⟩
    rintro p hp _ hq' rfl
    exact hqR (List.mem_singleton.mp hq' ▸ hp)
  · intro p
    rw [List.mem_append, List.mem_singleton, h.answered]
    constructor
    · rintro (⟨j, hj, hp⟩ | rfl)
      · exact ⟨j, List.mem_cons_of_mem _ hj, hp⟩
      · exact ⟨k, List.mem_cons_self, _, hk, rfl⟩
    · rintro ⟨j, hj, p', hp', rfl⟩
      rcases List.mem_cons.mp hj with rfl | hj
      · obtain rfl := Option.some.inj (hk.symm.trans hp')
        exact Or.inr rfl
      · exact Or.inl ⟨j, hj, p', hp', rfl⟩
  · intro p hp hpR
    rw [List.mem_append, List.mem_singleton, not_or] at hpR
    rw [hnode p hpR.2]
    exact h.waiting p hp hpR.1
  · intro p
    rw [h.counted]
    refine and_congr_right fun _ => exists_congr fun j => ?_
    -- the answer of `q` has not been delivered, and its place is none of `ks`
    have hnew : s.net.length + R.length ∉ ks := fun hm => by
      have := h.lt _ hm
      rw [h.net] at this
      simp at this
    rw [List.mem_cons, or_iff_right (by omega)]
    constructor
    · rintro ⟨hj, hm⟩
      exact ⟨by rw [List.getElem?_append_left (List.getElem?_eq_some_iff.mp hj).1, hj], hm⟩
    · rintro ⟨hj, hm⟩
      have hjR : j < R.length := by
        by_contra hge
        have hjlt := (List.getElem?_eq_some_iff.mp hj).1
        rw [List.length_append, List.length_singleton] at hjlt
        obtain rfl : j = R.length := by omega
        exact hnew hm
      exact ⟨by rwa [List.getElem?_append_left hjR] at hj, hm⟩
  · rw [hnode c hcq]
    exact h.counting

theorem Polling.reply {j : Nat} (h : Polling s c t Q R A ks x) (hc : c ∉ Q)
    (hj : R[j]? = some q) (hk : s.net.length + j ∉ ks)
    (hle : (s.node q).pstate.currentTerm ≤ t) (clk : Clock) :
    Polling s c t Q R (if (s.node q).pstate.currentTerm = t then insert q A else A)
      ((s.net.length + j) :: ks) (x.step (.deliver (s.net.length + j) clk)) := by
  have hqQ : q ∈ Q := h.mem q (List.mem_of_getElem? hj)
  have hqc : q ≠ c := fun he => hc (he ▸ hqQ)
  have hkx : x.net[s.net.length + j]? = some (voteFrom s c q) := by
    rw [h.net, List.getElem?_append_right (Nat.le_add_right _ _)]
    simp [hj]
  have hnet : (x.step (.deliver (s.net.length + j) clk)).net = x.net := by
    simp [Cluster.step, hkx, Packet.receive, voteFrom, Cluster.update]
  have hnode : ∀ b, b ≠ c →
      (x.step (.deliver (s.net.length + j) clk)).node b = x.node b := fun b hb => by
    simp [Cluster.step, hkx, Packet.receive, voteFrom, Cluster.update, hb]
  have hself : (x.step (.deliver (s.net.length + j) clk)).node c =
      handleRequestVoteResponse clk (x.node c) ⟨(s.node q).pstate.currentTerm, true⟩
        (cfg.id q) := by
    simp [Cluster.step, hkx, Packet.receive, voteFrom, Cluster.update]
  have hcA : c ∉ A := fun hm => by
    obtain ⟨-, i, hi, -⟩ := (h.counted c).mp hm
    exact hc (h.mem c (List.mem_of_getElem? hi))
  have hplace : ∀ {i}, R[i]? = some q → i = j := fun {i} hi => by
    obtain ⟨hi', hiq⟩ := List.getElem?_eq_some_iff.mp hi
    obtain ⟨hj', hjq⟩ := List.getElem?_eq_some_iff.mp hj
    exact h.nodup.getElem_inj_iff.mp (hiq.trans hjq.symm)
  have hqA : q ∉ A := fun hm => by
    obtain ⟨-, i, hi, hik⟩ := (h.counted q).mp hm
    exact hk (hplace hi ▸ hik)
  constructor
  · rw [hnet, h.net]
  · intro i hi
    rw [hnet]
    rcases List.mem_cons.mp hi with rfl | hi
    · exact (List.getElem?_eq_some_iff.mp hkx).1
    · exact h.lt i hi
  · exact h.mem
  · exact h.nodup
  · intro p
    rw [h.answered]
    refine exists_congr fun i => ?_
    rw [List.mem_cons]
    refine and_congr_left ?_
    rintro ⟨p', hp', -⟩
    have := (List.getElem?_eq_some_iff.mp hp').1
    exact ⟨Or.inr, fun hi => hi.resolve_left (by omega)⟩
  · intro p hp hpR
    rw [hnode p fun he => hc (he ▸ hp)]
    exact h.waiting p hp hpR
  · intro p
    by_cases hp : p = q
    · subst hp
      have hlast : p ∈ (if (s.node p).pstate.currentTerm = t then insert p A else A) ↔
          (s.node p).pstate.currentTerm = t := by
        split_ifs with ht
        · simp [ht]
        · simp [ht, hqA]
      rw [hlast]
      exact ⟨fun ht => ⟨ht, j, hj, List.mem_cons_self⟩, And.left⟩
    · have hlast : p ∈ (if (s.node q).pstate.currentTerm = t then insert q A else A) ↔ p ∈ A := by
        split_ifs
        · simp [hp]
        · rfl
      rw [hlast, h.counted]
      refine and_congr_right fun _ => exists_congr fun i => and_congr_right fun hi => ?_
      have hij : i ≠ j := fun he => hp (Option.some.inj (hi.symm.trans (he ▸ hj)))
      rw [List.mem_cons, or_iff_right (by omega)]
  · rw [hself]
    exact h.counting.response hcA hqc hqA hle clk

theorem net_prefix_deliver (x : Cluster cfg) (k : Nat) (clk : Clock) :
    x.net <+: (x.step (.deliver k clk)).net := by
  cases hk : x.net[k]? with
  | none => simp [Cluster.step, hk]
  | some p => simp [Cluster.step, hk, Cluster.update]

theorem Delivers.lt (h : Delivers s ks x) : ∀ k ∈ ks, k < x.net.length := by
  induction h with
  | nil => simp
  | @cons ks k x h clk hk ih =>
    have hle := (net_prefix_deliver x k clk).length_le
    intro j hj
    rcases List.mem_cons.mp hj with rfl | hj
    · exact hk.trans_le hle
    · exact (ih j hj).trans_le hle

/-- What the timeout sends. -/
theorem net_timeout (s : Cluster cfg) (c : cfg.Node) (clk : Clock) (outCap : Nat) :
    ∃ m, (s.step (.timeout c clk outCap)).net = s.net ++ ((cfg.peers c).take m).map fun q =>
      ⟨c, q, .requestVote (voteRequest ((s.step (.timeout c clk outCap)).node c))⟩ := by
  obtain ⟨m, hm⟩ := raftTimeout_requests clk (s.node c) outCap
  refine ⟨m, ?_⟩
  simp only [Cluster.step, Cluster.update, Function.update_self]
  rw [hm, addressed_requests]

theorem Ballot.node_eq (h : Ballot s c clk outCap Q) (hq : q ∈ Q) :
    (s.step (.timeout c clk outCap)).node q = s.node q := by
  have hqc : q ≠ c := fun he => h.notMem (he ▸ hq)
  simp [Cluster.step, Cluster.update, hqc]

theorem Ballot.counting (h : Ballot s c clk outCap Q) :
    Counting c ((s.node c).pstate.currentTerm + 1) ∅ ((s.step (.timeout c clk outCap)).node c) := by
  have := (raftTimeout_asks h.peers h.asks).1
  simpa [Cluster.step, Cluster.update] using this

theorem Ballot.term_le (h : Ballot s c clk outCap Q) (hq : q ∈ Q) :
    (s.node q).pstate.currentTerm ≤ (s.node c).pstate.currentTerm + 1 := by
  rw [← h.counting.currentTerm]
  rcases (h.willing q hq).term with hlt | ⟨heq, -⟩
  · exact hlt.le
  · exact heq.le

/-- However the packets of a ballot are delivered, the answers are those of willing nodes. -/
theorem Ballot.polling (h : Ballot s c clk outCap Q)
    (hd : Delivers (s.step (.timeout c clk outCap)) ks x) (hnd : ks.Nodup)
    (hks : ∀ k ∈ ks, s.net.length ≤ k ∧ ∃ p, x.net[k]? = some p ∧ (p.dst ∈ Q ∨ p.src ∈ Q)) :
    ∃ R A, Polling (s.step (.timeout c clk outCap)) c ((s.node c).pstate.currentTerm + 1) Q R A
      ks x := by
  obtain ⟨m, hnet⟩ := net_timeout s c clk outCap
  set s₁ := s.step (.timeout c clk outCap) with hs₁
  induction hd with
  | nil => exact ⟨[], ∅, by simp, by simp, by simp, List.nodup_nil, by simp, fun _ _ _ => rfl,
      by simp, h.counting⟩
  | @cons ks k x hd clk' hk ih =>
    obtain ⟨hkn, hnd⟩ := List.nodup_cons.mp hnd
    have hold : ∀ j, j < x.net.length →
        (x.step (.deliver k clk')).net[j]? = x.net[j]? := fun j hj => by
      obtain ⟨out, ho⟩ := net_prefix_deliver x k clk'
      rw [← ho, List.getElem?_append_left hj]
    obtain ⟨R, A, hp⟩ := ih hnd fun j hj => by
      have := hks j (List.mem_cons_of_mem _ hj)
      rwa [hold j (hd.lt j hj)] at this
    obtain ⟨hge, p, hkp, hor⟩ := hks k List.mem_cons_self
    rw [hold k hk] at hkp
    rcases Nat.lt_or_ge k s₁.net.length with hlt | hge'
    · -- a request
      rw [hp.net, List.getElem?_append_left hlt] at hkp
      have hkp' := hkp
      rw [hnet, List.getElem?_append_right hge, List.getElem?_map] at hkp'
      obtain ⟨q, hq, rfl⟩ := Option.map_eq_some_iff.mp hkp'
      have hqQ : q ∈ Q := hor.resolve_right h.notMem
      refine ⟨R ++ [q], A, hp.request h.notMem hkp hqQ (fun hqR => ?_) ?_ clk'⟩
      · obtain ⟨j, hj, p', hjp, hpq⟩ := (hp.answered q).mp hqR
        have hjge := (hks j (List.mem_cons_of_mem _ hj)).1
        rw [hnet, List.getElem?_append_right hjge, List.getElem?_map] at hjp
        obtain ⟨q', hq', rfl⟩ := Option.map_eq_some_iff.mp hjp
        obtain rfl : q' = q := hpq
        have hjk : j - s.net.length = k - s.net.length := by
          obtain ⟨hj', hjq⟩ := List.getElem?_eq_some_iff.mp hq'
          obtain ⟨hk', hkq⟩ := List.getElem?_eq_some_iff.mp hq
          have hnodup := (List.take_sublist m _).nodup (cfg.peers_nodup c)
          exact hnodup.getElem_inj_iff.mp (hjq.trans hkq.symm)
        obtain rfl : j = k := by omega
        exact hkn hj
      · rw [h.node_eq hqQ]
        exact h.willing q hqQ
    · -- an answer
      obtain ⟨j, rfl⟩ := Nat.exists_eq_add_of_le hge'
      rw [hp.net, List.getElem?_append_right hge', Nat.add_sub_cancel_left,
        List.getElem?_map] at hkp
      obtain ⟨q, hq, -⟩ := Option.map_eq_some_iff.mp hkp
      have hqQ := hp.mem q (List.mem_of_getElem? hq)
      refine ⟨R, _, hp.reply h.notMem hq hkn ?_ clk'⟩
      rw [h.node_eq hqQ]
      exact h.term_le hqQ

/-- A candidate that has asked a majority of willing nodes is elected just when those of them that
were in the new term before are a majority with it. -/
theorem elected_iff (h : Ballot s c clk outCap Q) (hp : Polled s c clk outCap Q ks f) :
    f.Leads c ((s.node c).pstate.currentTerm + 1) ↔
      majority (cfg.n + 1) ≤ 1 + (Q.filter fun q =>
        (s.node q).pstate.currentTerm = (s.node c).pstate.currentTerm + 1).card := by
  obtain ⟨m, hnet⟩ := net_timeout s c clk outCap
  obtain ⟨R, A, hpoll⟩ := h.polling hp.delivers hp.once fun k hk => (hp.mem_iff k).mp hk
  have hR : ∀ q ∈ Q, q ∈ R := fun q hq => by
    obtain ⟨p, hmem, rfl⟩ := h.asked q hq
    rw [hpoll.answered]
    obtain ⟨j, hj⟩ := List.getElem?_of_mem hmem
    rw [List.getElem?_drop] at hj
    refine ⟨s.net.length + j, (hp.mem_iff _).mpr ⟨Nat.le_add_right _ _, p, ?_, Or.inl hq⟩, p, hj,
      rfl⟩
    rw [hpoll.net, List.getElem?_append_left (List.getElem?_eq_some_iff.mp hj).1, hj]
  have hA : A = Q.filter fun q =>
      (s.node q).pstate.currentTerm = (s.node c).pstate.currentTerm + 1 := by
    ext q
    rw [hpoll.counted, Finset.mem_filter]
    constructor
    · rintro ⟨ht, j, hj, -⟩
      have hq := hpoll.mem q (List.mem_of_getElem? hj)
      exact ⟨hq, h.node_eq hq ▸ ht⟩
    · rintro ⟨hq, ht⟩
      obtain ⟨j, hj⟩ := List.getElem?_of_mem (hR q hq)
      refine ⟨(h.node_eq hq).symm ▸ ht, j, hj, (hp.mem_iff _).mpr
        ⟨?_, voteFrom (s.step (.timeout c clk outCap)) c q, ?_, Or.inr hq⟩⟩
      · rw [hnet, List.length_append]; omega
      · rw [hpoll.net, List.getElem?_append_right (Nat.le_add_right _ _)]
        simp [hj]
  rw [← hA]
  rcases hpoll.counting.role with ⟨hl, hm⟩ | ⟨hc, hm, -⟩
  · exact iff_of_true ⟨hl, hpoll.counting.currentTerm⟩ hm
  · exact iff_of_false (fun hl => absurd (hc.symm.trans hl.1) (by simp)) (not_le.mpr hm)

theorem Polled.of_lt (hd : Delivers (s.step (.timeout c clk outCap)) ks f) (hnd : ks.Nodup)
    (h : ∀ k < f.net.length, k ∈ ks ↔
      s.net.length ≤ k ∧ (f.net[k]?.any fun p => p.dst ∈ Q ∨ p.src ∈ Q) = true) :
    Polled s c clk outCap Q ks f := by
  refine ⟨hd, hnd, fun k => ?_⟩
  rcases Nat.lt_or_ge k f.net.length with hlt | hge
  · rw [h k hlt, Option.any_eq_true]
    simp
  · refine iff_of_false (fun hk => hge.not_gt (hd.lt k hk)) ?_
    rintro ⟨-, p, hp, -⟩
    exact hge.not_gt (List.getElem?_eq_some_iff.mp hp).1

/-- Node 1 is in term 2 already and elects node 0 with its first answer. -/
theorem elected_iff_trio :
    (Cluster.after Cluster.atZero ([.deliver 14 ⟨2000, 0⟩, .deliver 12 ⟨2000, 0⟩,
      .timeout 0 ⟨2000, 0⟩ 8] ++ Cluster.refused)).Leads 0 2 := by
  have hb : Ballot (Cluster.after Cluster.atZero Cluster.refused) 0 ⟨2000, 0⟩ 8 {1} := {
    peers := by decide +kernel
    asks := by decide +kernel
    notMem := by decide
    majority := by decide
    asked := by decide +kernel
    willing := by
      intro q hq
      obtain rfl := Finset.mem_singleton.mp hq
      exact ⟨⟨by decide +kernel, by decide +kernel⟩, by decide +kernel, Or.inr (by decide +kernel),
        by decide +kernel⟩ }
  have hp : Polled (Cluster.after Cluster.atZero Cluster.refused) 0 ⟨2000, 0⟩ 8 {1} [14, 12]
      (Cluster.after Cluster.atZero ([.deliver 14 ⟨2000, 0⟩, .deliver 12 ⟨2000, 0⟩,
        .timeout 0 ⟨2000, 0⟩ 8] ++ Cluster.refused)) :=
    .of_lt (.cons (.cons .nil _ (by decide +kernel)) _ (by decide +kernel)) (by decide)
      (by decide +kernel)
  exact (elected_iff hb hp).mpr (by decide +kernel)

/-- Right after the start node 1 answers the first request in term 0, and node 0 drops its vote. -/
theorem willing_majority_not_elected :
    Ballot (Cluster.init Cluster.atZero) 0 ⟨1000, 0⟩ 8 {1} ∧
      Polled (Cluster.init Cluster.atZero) 0 ⟨1000, 0⟩ 8 {1} [2, 0]
        (Cluster.after Cluster.atZero [.deliver 2 ⟨1000, 0⟩, .deliver 0 ⟨1000, 0⟩,
          .timeout 0 ⟨1000, 0⟩ 8]) ∧
      ¬ (Cluster.after Cluster.atZero [.deliver 2 ⟨1000, 0⟩, .deliver 0 ⟨1000, 0⟩,
          .timeout 0 ⟨1000, 0⟩ 8]).Leads 0 1 := by
  refine ⟨?_, .of_lt (.cons (.cons .nil _ (by decide +kernel)) _ (by decide +kernel)) (by decide)
    (by decide +kernel), by decide +kernel⟩
  exact {
    peers := by decide +kernel
    asks := by decide +kernel
    notMem := by decide
    majority := by decide
    asked := by decide +kernel
    willing := by
      intro q hq
      obtain rfl := Finset.mem_singleton.mp hq
      exact ⟨⟨by decide +kernel, by decide +kernel⟩, by decide +kernel, Or.inl (by decide +kernel),
        by decide +kernel⟩ }

end Corestack.Raft
