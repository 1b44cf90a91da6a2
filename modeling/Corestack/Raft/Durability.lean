import Corestack.Raft.Recovery

/-! # Runs of one node

What a node has promised is compared with what its file would restore. Every
operation keeps the file in a state that can be restored, and one that meets no
failed write keeps it in step with the node.
-/

namespace Corestack.Raft

/-! ## Reading the file again -/

/-- Records determine what they replay to, so a file holds one persistent state. -/
theorem LogFile.Holds.restore {f : LogFile} {t v : UInt64} {log : List LogEntry}
    (h : f.Holds t v log) (clk : Clock) (id : UInt64) :
    ∃ p : PersistentState,
      restorePstate (blankNode clk f id) = ({ blankNode clk f id with pstate := p }, true) ∧
      p.currentTerm = t ∧ p.votedFor = v ∧ p.entries = log := by
  obtain ⟨cs, p, hcs, hp, hs⟩ := h
  have hr := LogRecord.restoreLines_flatMap_line hp
  refine ⟨p, ?_, hs⟩
  unfold restorePstate
  rcases hf : f.content with _ | text
  · rw [← hcs, hf] at hr
    obtain rfl : initialPstate = p := congrArg Prod.fst hr
    have hc : (blankNode clk f id).logFile.content = none := hf
    rw [hc]
    rfl
  · rw [← hcs, hf] at hr
    rw [Option.getD_some] at hr
    have hc : (blankNode clk f id).logFile.content = some text := hf
    have hi : (blankNode clk f id).pstate = initialPstate := rfl
    rw [hc]
    dsimp only
    rw [hi, hr]

/-- Restoring the file succeeds and gives this term and vote. -/
def Restores (r : RaftNode) (term votedFor : UInt64) : Prop :=
  ∀ clk, ∃ p : PersistentState,
    restorePstate (blankNode clk r.logFile r.id) =
      ({ blankNode clk r.logFile r.id with pstate := p }, true) ∧
    p.currentTerm = term ∧ p.votedFor = votedFor

/-- Restoring the file succeeds and gives the term, the vote and the log in memory. -/
def Durable (r : RaftNode) : Prop :=
  ∀ clk, ∃ p : PersistentState,
    restorePstate (blankNode clk r.logFile r.id) =
      ({ blankNode clk r.logFile r.id with pstate := p }, true) ∧
    p.currentTerm = r.pstate.currentTerm ∧ p.votedFor = r.pstate.votedFor ∧
    p.logLen = r.pstate.logLen ∧ ∀ i < r.pstate.logLen, p.log i = r.pstate.log i

theorem PersistentState.entries_eq_iff {p q : PersistentState} :
    p.entries = q.entries ↔ p.logLen = q.logLen ∧ ∀ i < q.logLen, p.log i = q.log i := by
  constructor
  · intro h
    have hlen : p.logLen = q.logLen := by simpa using congrArg List.length h
    refine ⟨hlen, fun i hi => ?_⟩
    have := p.getElem?_entries (hlen ▸ hi)
    rw [h, q.getElem?_entries hi] at this
    exact (Option.some.inj this).symm
  · rintro ⟨hlen, h⟩
    unfold entries
    rw [hlen]
    exact List.map_congr_left fun i hi => h i (List.mem_range.mp hi)

variable {r : RaftNode} {t v : UInt64}

theorem Kept.restores_iff (h : Kept r t v) {t' v' : UInt64} :
    Restores r t' v' ↔ t = t' ∧ v = v' := by
  constructor
  · intro hr
    obtain ⟨p, hp, ht, hv⟩ := hr ⟨0, 0⟩
    obtain ⟨q, hq, rfl, rfl, -⟩ := LogFile.Holds.restore h ⟨0, 0⟩ r.id
    have hpq : q = p := congrArg (fun x : RaftNode × Bool => x.1.pstate) (hq.symm.trans hp)
    exact ⟨hpq ▸ ht, hpq ▸ hv⟩
  · rintro ⟨rfl, rfl⟩ clk
    obtain ⟨p, hp, ht, hv, -⟩ := LogFile.Holds.restore h clk r.id
    exact ⟨p, hp, ht, hv⟩

theorem InSync.durable (h : InSync r) : Durable r := by
  intro clk
  obtain ⟨p, hp, ht, hv, hl⟩ := LogFile.Holds.restore h clk r.id
  exact ⟨p, hp, ht, hv, PersistentState.entries_eq_iff.mp hl⟩

theorem Kept.durable_iff (h : Kept r t v) :
    Durable r ↔ Restores r r.pstate.currentTerm r.pstate.votedFor := by
  constructor
  · intro hd clk
    obtain ⟨p, hp, ht, hv, -⟩ := hd clk
    exact ⟨p, hp, ht, hv⟩
  · intro hr
    obtain ⟨rfl, rfl⟩ := h.restores_iff.mp hr
    exact InSync.durable h

/-! ## What an operation does to the file -/

/-- Some term and vote can be restored, and the log in memory with them. -/
def Restorable (r : RaftNode) : Prop := ∃ t v, Kept r t v

/-- An operation that keeps the file restorable, and in step as long as no write fails. -/
structure Carries (r r' : RaftNode) : Prop where
  restorable : Restorable r → Restorable r'
  inSync : r.logFile.NoFaults → InSync r → r'.logFile.NoFaults ∧ InSync r'

theorem Carries.refl (r : RaftNode) : Carries r r := ⟨id, And.intro⟩

theorem Carries.trans {r' r'' : RaftNode} (h : Carries r r') (h' : Carries r' r'') :
    Carries r r'' where
  restorable hr := h'.restorable (h.restorable hr)
  inSync hf hs := (h.inSync hf hs).elim h'.inSync

/-- Nothing that the file is about has changed. -/
theorem Carries.of_eq {r' : RaftNode} (hf : r'.logFile = r.logFile) (hp : r'.pstate = r.pstate) :
    Carries r r' := by
  have hk : ∀ t v, Kept r' t v = Kept r t v := fun t v => by unfold Kept; rw [hf, hp]
  refine ⟨fun ⟨t, v, h⟩ => ⟨t, v, by rwa [hk]⟩, fun hn hs => ⟨hf ▸ hn, ?_⟩⟩
  unfold InSync; rw [hk, hp]; exact hs

theorem InSync.congr {r' : RaftNode} (h : InSync r) (hf : r'.logFile = r.logFile)
    (hp : r'.pstate = r.pstate) : InSync r' := by
  unfold InSync Kept; rw [hf, hp]; exact h

/-- A later term leaves the node in step with its file, or failed. -/
theorem updateTermLocked_carries (clk : Clock) (r : RaftNode) (newTerm : UInt64) :
    Carries r (updateTermLocked clk r newTerm).1 := by
  by_cases hlt : r.pstate.currentTerm < newTerm
  · constructor
    · rintro ⟨t, v, h⟩
      rcases (updateTermLocked_spec clk h hlt).2 with ⟨-, hs⟩ | ⟨-, hk, -⟩
      · exact ⟨_, _, hs⟩
      · exact ⟨t, v, hk⟩
    · intro hf hs
      obtain ⟨hd, h⟩ := updateTermLocked_spec clk hs hlt
      rcases h with ⟨-, hs'⟩ | ⟨-, -, hn⟩
      · exact ⟨hd.logFile hf, hs'⟩
      · exact absurd hf hn
  · rw [updateTermLocked_of_le (not_lt.mp hlt)]
    exact .refl r

/-! ## The operations -/

/-- The node after an operation that writes to its log alone. -/
structure SameVote (r r' : RaftNode) : Prop where
  currentTerm : r'.pstate.currentTerm = r.pstate.currentTerm
  votedFor : r'.pstate.votedFor = r.pstate.votedFor
  kept : ∀ {t v}, Kept r t v → Kept r' t v
  noFaults : r.logFile.NoFaults → r'.logFile.NoFaults

theorem SameVote.carries {r' : RaftNode} (h : SameVote r r') : Carries r r' := by
  refine ⟨fun ⟨t, v, hk⟩ => ⟨t, v, h.kept hk⟩, fun hf hs => ⟨h.noFaults hf, ?_⟩⟩
  unfold InSync
  rw [h.currentTerm, h.votedFor]
  exact h.kept hs

/-- Only what was in step before is in step afterwards. -/
theorem SameVote.durable_iff {r' : RaftNode} (h : SameVote r r') (hk : Kept r t v) :
    Durable r' ↔ Restores r r.pstate.currentTerm r.pstate.votedFor := by
  rw [(h.kept hk).durable_iff, (h.kept hk).restores_iff, hk.restores_iff, h.currentTerm, h.votedFor]

theorem learnCommit_eq (r : RaftNode) (leaderCommit : UInt64) :
    ∃ n, learnCommit r leaderCommit = { r with vstate := { r.vstate with commitIndex := n } } := by
  unfold learnCommit
  split_ifs
  · exact ⟨_, rfl⟩
  · exact ⟨r.vstate.commitIndex, rfl⟩

theorem acceptAppendEntries_sameVote (r : RaftNode) (req : AppendEntriesRequest)
    (hr : Restorable r) : SameVote r (acceptAppendEntries r req).1 := by
  have hself : SameVote r r := ⟨rfl, rfl, id, id⟩
  unfold acceptAppendEntries
  dsimp only
  split_ifs with hp hm
  · exact hself
  · exact hself
  · obtain ⟨t₀, v₀, hk₀⟩ := hr
    have hi : req.prevLogIndex.toNat + 0 ≤ r.pstate.logLen := by omega
    have hl := (storeEntries_spec req.log hk₀ hi).2
    have hkept : ∀ {t v}, Kept r t v → Kept (storeEntries req.prevLogIndex r 0 req.log).1 t v :=
      fun hk => (storeEntries_spec req.log hk hi).1
    rcases hs : storeEntries req.prevLogIndex r 0 req.log with ⟨r', _ | _⟩
    · rw [hs] at hl hkept
      exact ⟨hl.currentTerm, hl.votedFor, hkept, fun h => (hl.noFaults h).1⟩
    · rw [hs] at hl hkept
      obtain ⟨n, hn⟩ := learnCommit_eq r' req.leaderCommit
      dsimp only
      rw [hn]
      exact ⟨hl.currentTerm, hl.votedFor, hkept, fun h => (hl.noFaults h).1⟩

/-- A request of the current term is answered without writing the term or the vote. -/
theorem handleAppendEntriesRequest_sameVote (clk : Clock) {req : AppendEntriesRequest}
    (hr : Restorable r) (ht : req.term = r.pstate.currentTerm) :
    SameVote r (handleAppendEntriesRequest clk r req).1 := by
  unfold handleAppendEntriesRequest
  dsimp only
  rw [if_neg (by simp [ht]), if_neg (by simp [ht])]
  have h := acceptAppendEntries_sameVote (followLeader clk r req.leaderId) req hr
  exact ⟨h.currentTerm, h.votedFor, h.kept, h.noFaults⟩

/-- A later term is in the file before its request is answered with success. -/
theorem handleAppendEntriesRequest_later (clk : Clock) {req : AppendEntriesRequest}
    (hr : Restorable r) (ht : r.pstate.currentTerm < req.term) :
    Carries r (handleAppendEntriesRequest clk r req).1 ∧
      ((handleAppendEntriesRequest clk r req).2.success = true →
        InSync (handleAppendEntriesRequest clk r req).1) := by
  obtain ⟨t, v, hk⟩ := hr
  have hc := updateTermLocked_carries clk r req.term
  have hs := (updateTermLocked_spec clk hk ht).2
  unfold handleAppendEntriesRequest
  dsimp only
  rw [if_neg (not_lt.mpr ht.le), if_pos ht]
  rcases hu : updateTermLocked clk r req.term with ⟨r₁, _ | _⟩
  · rw [hu] at hc
    exact ⟨hc, by simp⟩
  · rw [hu] at hc hs
    obtain ⟨-, hin⟩ | ⟨hf, -⟩ := hs
    · have hin' : InSync (followLeader clk r₁ req.leaderId) := hin
      have ha := acceptAppendEntries_sameVote (followLeader clk r₁ req.leaderId) req ⟨_, _, hin'⟩
      have hfollow : Carries r₁ (followLeader clk r₁ req.leaderId) := .of_eq rfl rfl
      refine ⟨hc.trans (hfollow.trans ha.carries), fun _ => ?_⟩
      unfold InSync
      rw [ha.currentTerm, ha.votedFor]
      exact ha.kept hin'
    · cases hf

theorem handleAppendEntriesRequest_carries (clk : Clock) (req : AppendEntriesRequest)
    (hr : Restorable r) : Carries r (handleAppendEntriesRequest clk r req).1 := by
  rcases lt_trichotomy req.term r.pstate.currentTerm with hlt | heq | hgt
  · unfold handleAppendEntriesRequest
    dsimp only
    rw [if_pos hlt]
    exact .refl r
  · exact (handleAppendEntriesRequest_sameVote clk hr heq).carries
  · exact (handleAppendEntriesRequest_later clk hr hgt).1

theorem persistStateLocked_of_noFaults (h : r.logFile.NoFaults) :
    ∃ f, persistStateLocked r = ({ r with logFile := f }, true) ∧ f.NoFaults := by
  rcases r.logFile.write_cases (stateLine r.pstate.currentTerm r.pstate.votedFor) with
    ⟨f, hw, -, hn⟩ | ⟨f, -, -, hn⟩
  · exact ⟨f, by rw [persistStateLocked, hw], hn h⟩
  · exact absurd h hn

/-- Writing the term and the vote puts the node in step, or leaves the file as it was. -/
theorem persistStateLocked_cases (r r₀ : RaftNode) (hf : r.logFile = r₀.logFile)
    (hl : r.pstate.entries = r₀.pstate.entries) (hr : Restorable r₀) :
    (∃ f, persistStateLocked r = ({ r with logFile := f }, true) ∧
      InSync { r with logFile := f } ∧ (r₀.logFile.NoFaults → f.NoFaults)) ∨
    (∃ f, persistStateLocked r = ({ r with logFile := f }, false) ∧
      Restorable { r with logFile := f } ∧ ¬ r₀.logFile.NoFaults) := by
  obtain ⟨t, v, hk⟩ := hr
  have hk' : Kept r t v := by unfold Kept; rw [hf, hl]; exact hk
  rw [← hf]
  rcases persistState_spec hk' with ⟨f, hw, hs, hn⟩ | ⟨f, hw, hs, hn⟩
  · exact Or.inl ⟨f, hw, hs, hn⟩
  · exact Or.inr ⟨f, hw, ⟨t, v, hs⟩, hn⟩

/-- A node that has just written its term and vote. -/
theorem Carries.of_inSync {r' : RaftNode} (h : InSync r')
    (hf : r.logFile.NoFaults → r'.logFile.NoFaults) : Carries r r' :=
  ⟨fun _ => ⟨_, _, h⟩, fun hn _ => ⟨hf hn, h⟩⟩

/-- A node that has failed to write. -/
theorem Carries.of_faults {r' : RaftNode} (h : Restorable r') (hn : ¬ r.logFile.NoFaults) :
    Carries r r' := ⟨fun _ => h, fun hf => absurd hf hn⟩

theorem startElection_pstate (clk : Clock) (r : RaftNode) (outCap : Nat) :
    (startElection clk r outCap).1.logFile = r.logFile ∧
      (startElection clk r outCap).1.pstate = r.pstate := by
  unfold startElection
  dsimp only
  split_ifs <;> exact ⟨rfl, rfl⟩

/-- A node asks for votes only when its candidacy is in the file. -/
theorem raftTimeout_carries (clk : Clock) (r : RaftNode) (outCap : Nat) (hr : Restorable r) :
    Carries r (raftTimeout clk r outCap).1 ∧
      ((raftTimeout clk r outCap).2 ≠ [] → InSync (raftTimeout clk r outCap).1) := by
  unfold raftTimeout
  split_ifs
  · exact ⟨.refl r, by simp⟩
  · exact ⟨.refl r, by simp⟩
  · rcases persistStateLocked_cases (becomeCandidate r) r rfl rfl hr with
      ⟨f, hw, hs, hn⟩ | ⟨f, hw, hs, hn⟩
    · rw [hw]
      obtain ⟨hf, hp⟩ := startElection_pstate clk { becomeCandidate r with logFile := f } outCap
      have hin := InSync.congr hs hf hp
      exact ⟨.of_inSync hin fun h => by rw [hf]; exact hn h, fun _ => hin⟩
    · rw [hw]
      exact ⟨.of_faults hs hn, by simp⟩

/-- A granted vote is in the file. -/
theorem handleRequestVoteRequest_carries (clk : Clock) (r : RaftNode) (req : RequestVoteRequest)
    (hr : Restorable r) :
    Carries r (handleRequestVoteRequest clk r req).1 ∧
      ((handleRequestVoteRequest clk r req).2.voteGranted = true →
        InSync (handleRequestVoteRequest clk r req).1) := by
  unfold handleRequestVoteRequest answerRequestVote
  set r₁ := if req.term > r.pstate.currentTerm then (updateTermLocked clk r req.term).1 else r
    with hr₁
  have hc : Carries r r₁ := by
    rw [hr₁]
    split_ifs
    · exact updateTermLocked_carries clk r req.term
    · exact .refl r
  split_ifs
  · exact ⟨hc, by simp⟩
  · exact ⟨hc, by simp⟩
  · rcases persistStateLocked_cases (voteFor r₁ req.candidateId) r₁ rfl rfl (hc.restorable hr) with
      ⟨f, hw, hs, hn⟩ | ⟨f, hw, hs, hn⟩
    · rw [hw]
      exact ⟨hc.trans (.of_inSync hs hn), fun _ => hs⟩
    · rw [hw]
      exact ⟨hc.trans (.of_faults hs hn), by simp⟩
  · exact ⟨hc, by simp⟩

theorem answerRequestVote_cases (clk : Clock) (r : RaftNode) (req : RequestVoteRequest)
    (resp : RequestVoteResponse) : (answerRequestVote clk r req resp).1 = r ∨
      (answerRequestVote clk r req resp).1.state ≠ .leader := by
  unfold answerRequestVote
  split_ifs with ht hl hm
  · exact Or.inl rfl
  · exact Or.inl rfl
  · right
    unfold persistStateLocked
    rcases (voteFor r req.candidateId).logFile.write _ with ⟨f, _ | _⟩
    · simp
    · exact hl
  · exact Or.inl rfl

theorem handleRequestVoteResponse_carries (clk : Clock) (r : RaftNode)
    (resp : RequestVoteResponse) (peer : UInt64) :
    Carries r (handleRequestVoteResponse clk r resp peer) := by
  unfold handleRequestVoteResponse
  split_ifs
  · exact updateTermLocked_carries clk r resp.term
  · exact .refl r
  · split
    · exact .refl r
    · dsimp only
      split_ifs <;> exact .of_eq rfl rfl

theorem advanceFrom_eq (r : RaftNode) (n : Nat) :
    ∃ m, advanceFrom r n = { r with vstate := { r.vstate with commitIndex := m } } := by
  induction n with
  | zero => exact ⟨r.vstate.commitIndex, rfl⟩
  | succ n ih =>
    unfold advanceFrom
    split_ifs
    · exact ih
    · exact ⟨_, rfl⟩
    · exact ih
    · exact ⟨r.vstate.commitIndex, rfl⟩

theorem advanceCommitIndexLocked_eq (r : RaftNode) :
    ∃ m, advanceCommitIndexLocked r = { r with vstate := { r.vstate with commitIndex := m } } := by
  unfold advanceCommitIndexLocked
  split_ifs
  · exact ⟨r.vstate.commitIndex, rfl⟩
  · exact advanceFrom_eq _ _

theorem handleAppendEntriesResponse_carries (clk : Clock) (r : RaftNode)
    (resp : AppendEntriesResponse) (peer : UInt64) :
    Carries r (handleAppendEntriesResponse clk r resp peer) := by
  unfold handleAppendEntriesResponse
  rcases findPeerIdx r peer with _ | i
  · dsimp only
    split_ifs
    · exact .refl r
    · exact .refl r
    · exact updateTermLocked_carries clk r resp.term
    · exact .refl r
  · dsimp only
    split_ifs
    · exact .refl r
    · exact .refl r
    · exact updateTermLocked_carries clk r resp.term
    · obtain ⟨m, hm⟩ := advanceCommitIndexLocked_eq _
      rw [hm]
      exact .of_eq rfl rfl
    · obtain ⟨m, hm⟩ := advanceCommitIndexLocked_eq r
      rw [hm]
      exact .of_eq rfl rfl
    · exact .of_eq rfl rfl
    · exact .refl r

theorem toNat_raftLastLogIndex (h : r.pstate.logLen ≤ raftLogCap) :
    (raftLastLogIndex r).toNat = r.pstate.logLen :=
  toNat_ofNat h

theorem toNat_raftLastLogIndex_add_one (h : r.pstate.logLen ≤ raftLogCap) :
    (raftLastLogIndex r + 1).toNat = r.pstate.logLen + 1 := by
  rw [toNat_add_one ((toNat_raftLastLogIndex h).trans_le h), toNat_raftLastLogIndex h]

/-- A command goes to the file and to the log, and changes neither term nor vote. -/
theorem raftLeaderSendCommand_sameVote (r : RaftNode) (command : ClientCommand) :
    SameVote r (raftLeaderSendCommand r command).1 := by
  have hself : SameVote r r := ⟨rfl, rfl, id, id⟩
  unfold raftLeaderSendCommand
  by_cases hl : r.state ≠ .leader
  · rw [if_pos hl]; exact hself
  · by_cases hc : r.pstate.logLen ≥ raftLogCap
    · rw [if_neg hl, if_pos hc]; exact hself
    · rw [if_neg hl, if_neg hc]
      have hi := toNat_raftLastLogIndex_add_one (not_le.mp hc).le
      dsimp only
      set e : LogEntry := ⟨raftLastLogIndex r + 1, r.pstate.currentTerm, command⟩
      unfold persistLogEntryLocked
      rcases r.logFile.write_cases (entryLine e) with ⟨f, hw, hf, hn⟩ | ⟨f, hw, hf, hn⟩
      · have hk : ∀ {t v}, Kept r t v → f.Holds t v (r.pstate.push e).entries := fun h => by
          rw [PersistentState.entries_push]
          exact LogFile.Holds.append_entry h hf (by rw [PersistentState.length_entries]; exact hi)
            (by simpa using hc)
        rw [hw]
        dsimp only
        split_ifs <;> exact ⟨rfl, rfl, hk, hn⟩
      · rw [hw]
        exact ⟨rfl, rfl, fun h => LogFile.Holds.of_content_eq h hf, fun h => absurd h hn⟩

/-! ## Runs -/

/-- What can happen to a node. A restart may find other peers configured. -/
inductive NodeOp where
  | timeout (clk : Clock) (outCap : Nat)
  | requestVoteRequest (clk : Clock) (req : RequestVoteRequest)
  | requestVoteResponse (clk : Clock) (resp : RequestVoteResponse) (peer : UInt64)
  | appendEntriesRequest (clk : Clock) (req : AppendEntriesRequest)
  | appendEntriesResponse (clk : Clock) (resp : AppendEntriesResponse) (peer : UInt64)
  | leaderSendCommand (command : ClientCommand)
  | restart (clk : Clock) (peers : List UInt64)

/-- Start on a file, with the peers that the caller then enters. -/
def startNode (clk : Clock) (file : LogFile) (id : UInt64) (peers : List UInt64) : RaftNode :=
  { initialiseRaftSm clk file id with peers := peers }

/-- The node after an operation, and whether it promises something to the outside: a vote, an
acceptance, a candidacy or a stored command. -/
def NodeOp.perform (r : RaftNode) : NodeOp → RaftNode × Bool
  | timeout clk outCap =>
    let (r, out) := raftTimeout clk r outCap
    (r, !out.isEmpty)
  | requestVoteRequest clk req =>
    let (r, resp) := handleRequestVoteRequest clk r req
    (r, resp.voteGranted)
  | requestVoteResponse clk resp peer => (handleRequestVoteResponse clk r resp peer, false)
  | appendEntriesRequest clk req =>
    let (r, resp) := handleAppendEntriesRequest clk r req
    (r, resp.success)
  | appendEntriesResponse clk resp peer => (handleAppendEntriesResponse clk r resp peer, false)
  | leaderSendCommand command => raftLeaderSendCommand r command
  | restart clk peers => (startNode clk r.logFile r.id peers, false)

/-- The outcomes of the next writes. -/
def RaftNode.withFaults (r : RaftNode) (faults : List Bool) : RaftNode :=
  { r with logFile := { r.logFile with faults := faults } }

/-- A run in which each operation comes with the outcomes of its writes. -/
def runNode (r : RaftNode) (ops : List (List Bool × NodeOp)) : RaftNode :=
  ops.foldl (fun r op => (op.2.perform (r.withFaults op.1)).1) r

/-- A node that has never run before. -/
def freshNode (clk : Clock) (id : UInt64) (peers : List UInt64) : RaftNode :=
  startNode clk ⟨false, none, []⟩ id peers

/-- The file behind a descriptor that `create_log_file` has opened. -/
def LogFile.opened (f : LogFile) : LogFile :=
  { f with isOpen := true, content := some (f.content.getD []) }

/-- A restarted node is a blank one with what its file holds. -/
theorem startNode_eq {f : LogFile} {log : List LogEntry} (h : f.Holds t v log) (clk : Clock)
    (id : UInt64) (peers : List UInt64) :
    ∃ p : PersistentState,
      startNode clk f id peers =
        { blankNode clk f id with pstate := p, peers := peers, logFile := f.opened } ∧
      p.currentTerm = t ∧ p.votedFor = v ∧ p.entries = log := by
  obtain ⟨p, hp, hs⟩ := h.restore clk id
  refine ⟨p, ?_, hs⟩
  rw [startNode, initialiseRaftSm, hp]
  rfl

theorem LogFile.Holds.opened {f : LogFile} {log : List LogEntry} (h : f.Holds t v log) :
    f.opened.Holds t v log := by
  obtain ⟨cs, p, hcs, hp⟩ := h
  exact ⟨cs, p, hcs, hp⟩

theorem startNode_carries (clk : Clock) (peers : List UInt64) (hr : Restorable r) :
    Carries r (startNode clk r.logFile r.id peers) ∧
      InSync (startNode clk r.logFile r.id peers) := by
  obtain ⟨t, v, hk⟩ := hr
  obtain ⟨p, hp, rfl, rfl, hl⟩ := startNode_eq hk clk r.id peers
  have hs : InSync (startNode clk r.logFile r.id peers) := by
    rw [hp]
    unfold InSync Kept
    rw [hl]
    exact hk.opened
  refine ⟨.of_inSync hs fun hn => ?_, hs⟩
  rw [hp]
  exact ⟨rfl, hn.2⟩

theorem freshNode_inSync (clk : Clock) (id : UInt64) (peers : List UInt64) :
    InSync (freshNode clk id peers) ∧ (freshNode clk id peers).logFile.NoFaults :=
  ⟨LogFile.holds_of_content_eq_nil rfl, rfl, rfl⟩

theorem NodeOp.perform_carries (op : NodeOp) (hr : Restorable r) : Carries r (op.perform r).1 := by
  cases op with
  | timeout clk outCap => exact (raftTimeout_carries clk r outCap hr).1
  | requestVoteRequest clk req => exact (handleRequestVoteRequest_carries clk r req hr).1
  | requestVoteResponse clk resp peer => exact handleRequestVoteResponse_carries clk r resp peer
  | appendEntriesRequest clk req => exact handleAppendEntriesRequest_carries clk req hr
  | appendEntriesResponse clk resp peer =>
    exact handleAppendEntriesResponse_carries clk r resp peer
  | leaderSendCommand command => exact (raftLeaderSendCommand_sameVote r command).carries
  | restart clk peers => exact (startNode_carries clk peers hr).1

theorem Restorable.withFaults (h : Restorable r) (faults : List Bool) :
    Restorable (r.withFaults faults) := by
  obtain ⟨t, v, hk⟩ := h
  exact ⟨t, v, LogFile.Holds.of_content_eq hk rfl⟩

/-- Whatever writes fail, the file can be restored. -/
theorem runNode_restorable (ops : List (List Bool × NodeOp)) (h : Restorable r) :
    Restorable (runNode r ops) := by
  induction ops generalizing r with
  | nil => exact h
  | cons op ops ih =>
    have hf := h.withFaults op.1
    exact ih ((op.2.perform_carries hf).restorable hf)

/-- The state before a call from which a promise of the call is durable: a call that does not
write the term and the vote itself needs them to be in the file already. -/
def NodeOp.Covered (r : RaftNode) : NodeOp → Prop
  | appendEntriesRequest _ req =>
    req.term = r.pstate.currentTerm → Restores r r.pstate.currentTerm r.pstate.votedFor
  | leaderSendCommand _ => Restores r r.pstate.currentTerm r.pstate.votedFor
  | _ => True

/-- A promise is durable exactly when the call was made in a covered state. -/
theorem NodeOp.perform_durable_iff (op : NodeOp) (hr : Restorable r)
    (hp : (op.perform r).2 = true) : Durable (op.perform r).1 ↔ op.Covered r := by
  cases op with
  | timeout clk outCap =>
    have hne : (raftTimeout clk r outCap).2 ≠ [] := by
      rintro he
      simp [perform, he] at hp
    exact iff_of_true (InSync.durable ((raftTimeout_carries clk r outCap hr).2 hne)) trivial
  | requestVoteRequest clk req =>
    have hd := InSync.durable ((handleRequestVoteRequest_carries clk r req hr).2 hp)
    exact iff_of_true hd trivial
  | requestVoteResponse clk resp peer => cases hp
  | appendEntriesRequest clk req =>
    obtain ⟨t, v, hk⟩ := id hr
    rcases lt_trichotomy req.term r.pstate.currentTerm with hlt | heq | hgt
    · simp [perform, handleAppendEntriesRequest, hlt] at hp
    · have hs := handleAppendEntriesRequest_sameVote clk hr heq
      exact (hs.durable_iff hk).trans ⟨fun h _ => h, fun h => h heq⟩
    · exact iff_of_true (InSync.durable ((handleAppendEntriesRequest_later clk hr hgt).2 hp))
        fun h => absurd h hgt.ne'
  | appendEntriesResponse clk resp peer => cases hp
  | leaderSendCommand command =>
    obtain ⟨t, v, hk⟩ := hr
    exact (raftLeaderSendCommand_sameVote r command).durable_iff hk
  | restart clk peers => cases hp

/-- In every run, whatever writes fail, a promise is durable exactly when the call found its term
and vote in the file or wrote them. -/
theorem promise_durable_iff (clk : Clock) (id : UInt64) (peers : List UInt64)
    (ops : List (List Bool × NodeOp)) (faults : List Bool) (op : NodeOp)
    (hp : (op.perform ((runNode (freshNode clk id peers) ops).withFaults faults)).2 = true) :
    Durable (op.perform ((runNode (freshNode clk id peers) ops).withFaults faults)).1 ↔
      op.Covered ((runNode (freshNode clk id peers) ops).withFaults faults) :=
  op.perform_durable_iff
    ((runNode_restorable ops ⟨_, _, (freshNode_inSync clk id peers).1⟩).withFaults faults) hp

/-- A granted vote, after a timeout that could not be written. -/
theorem promise_durable_iff_vote :
    ((NodeOp.requestVoteRequest ⟨1001, 0⟩ ⟨2, 0, 0, 3⟩).perform
      ((runNode (freshNode ⟨0, 0⟩ 1 [2, 3]) [([true], .timeout ⟨1000, 0⟩ 8)]).withFaults [])).2
        = true ∧
    (Durable ((NodeOp.requestVoteRequest ⟨1001, 0⟩ ⟨2, 0, 0, 3⟩).perform
      ((runNode (freshNode ⟨0, 0⟩ 1 [2, 3])
        [([true], .timeout ⟨1000, 0⟩ 8)]).withFaults [])).1 ↔
      (NodeOp.requestVoteRequest ⟨1001, 0⟩ ⟨2, 0, 0, 3⟩).Covered
        ((runNode (freshNode ⟨0, 0⟩ 1 [2, 3]) [([true], .timeout ⟨1000, 0⟩ 8)]).withFaults [])) :=
  ⟨by decide, promise_durable_iff _ _ _ _ _ _ (by decide)⟩

/-- A candidacy that could not be written, and a heartbeat of its term answered with success. -/
theorem promise_not_durable :
    ¬ ∀ (clk : Clock) (id : UInt64) (peers : List UInt64) (ops : List (List Bool × NodeOp))
      (faults : List Bool) (op : NodeOp),
      (op.perform ((runNode (freshNode clk id peers) ops).withFaults faults)).2 = true →
      Durable (op.perform ((runNode (freshNode clk id peers) ops).withFaults faults)).1 := by
  intro h
  obtain ⟨p, hp, ht, -⟩ := h ⟨0, 0⟩ 1 [2, 3] [([true], .timeout ⟨1000, 0⟩ 8)] []
    (.appendEntriesRequest ⟨1001, 0⟩ ⟨1, 2, 0, 0, 0, [], Nat.zero_le _⟩) (by decide) ⟨0, 0⟩
  have hq := congrArg (fun x : RaftNode × Bool => x.1.pstate.currentTerm) hp
  rw [ht] at hq
  revert hq
  decide

/-- A node whose writes all succeed can be rebuilt from its file at any point of its run. -/
theorem recovery_exact (clk : Clock) (id : UInt64) (peers : List UInt64) (ops : List NodeOp) :
    Durable (ops.foldl (fun r op => (op.perform r).1) (freshNode clk id peers)) := by
  suffices h : ∀ (r : RaftNode), InSync r → r.logFile.NoFaults →
      InSync (ops.foldl (fun r op => (op.perform r).1) r) from
    (h _ (freshNode_inSync clk id peers).1 (freshNode_inSync clk id peers).2).durable
  induction ops with
  | nil => exact fun r hs _ => hs
  | cons op ops ih =>
    intro r hs hf
    obtain ⟨hf', hs'⟩ := (op.perform_carries ⟨_, _, hs⟩).inSync hf hs
    exact ih _ hs' hf'

end Corestack.Raft
