import Corestack.Raft.Durability

/-! # The log as a numbered array

Whatever a log file says and whatever a node is sent, entry `i` of its log has
index `i + 1`, and the log fits its array.
-/

namespace Corestack.Raft

/-- The log fits its array, and entry `i` has index `i + 1`. -/
structure Numbered (p : PersistentState) : Prop where
  logLen_le : p.logLen ≤ raftLogCap
  index : ∀ i < p.logLen, (p.log i).index.toNat = i + 1

/-- The same log, whatever the term and the vote. -/
def SameLog (p p' : PersistentState) : Prop := p'.log = p.log ∧ p'.logLen = p.logLen

variable {p p' : PersistentState} {r : RaftNode}

theorem SameLog.refl (p : PersistentState) : SameLog p p := ⟨rfl, rfl⟩

theorem Numbered.of_sameLog (h : Numbered p) (hs : SameLog p p') : Numbered p' := by
  obtain ⟨hl, hn⟩ := hs
  constructor
  · rw [hn]
    exact h.logLen_le
  · rw [hl, hn]
    exact h.index

theorem Numbered.push {e : LogEntry} (h : Numbered p) (hi : e.index.toNat = p.logLen + 1)
    (hc : p.logLen < raftLogCap) : Numbered (p.push e) := by
  constructor
  · exact hc
  · intro i hlt
    rcases Nat.lt_succ_iff_lt_or_eq.mp hlt with hlt' | rfl
    · simp only [PersistentState.push, Function.update_of_ne hlt'.ne]
      exact h.index i hlt'
    · simpa [PersistentState.push] using hi

theorem Numbered.truncate {n : Nat} (h : Numbered p) (hn : n ≤ p.logLen) :
    Numbered (p.truncate n) :=
  ⟨hn.trans h.logLen_le, fun i hi => h.index i (hi.trans_le hn)⟩

/-! ## Reading a file -/

/-- A line of any text is passed over, ends the reading, or keeps the numbers. -/
theorem restoreLine_numbered {line : List Char} (h : Numbered p)
    (hp : restoreLine p line = some p') : Numbered p' := by
  unfold restoreLine at hp
  split at hp
  · obtain rfl := Option.some.inj hp
    exact h.of_sameLog ⟨rfl, rfl⟩
  · split at hp
    · split_ifs at hp with h0 hle
      · obtain rfl := Option.some.inj hp
        exact h.truncate (by omega)
      · obtain rfl := Option.some.inj hp
        exact h
    · split at hp
      · split_ifs at hp with hi hc
        obtain rfl := Option.some.inj hp
        refine h.push ?_ (not_le.mp hc)
        rw [not_not.mp hi]
        exact toNat_ofNat (not_le.mp hc)
      · obtain rfl := Option.some.inj hp
        exact h

theorem restoreLines_numbered (lines : List (List Char)) (h : Numbered p) :
    Numbered (restoreLines p lines).1 := by
  induction lines generalizing p with
  | nil => exact h
  | cons line lines ih =>
    unfold restoreLines
    rcases hp : restoreLine p line with _ | p'
    · exact h
    · exact ih (restoreLine_numbered h hp)

/-- A node starts with a numbered log, whether or not its whole file can be read. -/
theorem startNode_numbered (clk : Clock) (file : LogFile) (id : UInt64) (peers : List UInt64) :
    Numbered (startNode clk file id peers).pstate := by
  have hb : Numbered (blankNode clk file id).pstate :=
    ⟨Nat.zero_le _, fun i hi => absurd hi (Nat.not_lt_zero i)⟩
  have hr : Numbered (restorePstate (blankNode clk file id)).1.pstate := by
    unfold restorePstate
    split
    · exact hb
    · exact restoreLines_numbered _ hb
  unfold startNode initialiseRaftSm
  rcases hp : restorePstate (blankNode clk file id) with ⟨r, _ | _⟩
  · rw [hp] at hr
    exact hr
  · rw [hp] at hr
    exact hr

/-! ## The loop over the entries of a request -/

theorem pushEntry_cases (r : RaftNode) (e : LogEntry) :
    (∃ r', pushEntry r e = (r', false) ∧ r'.pstate = r.pstate) ∨
    (∃ r', pushEntry r e = (r', true) ∧ r.pstate.logLen < raftLogCap ∧
      r'.pstate = r.pstate.push e) := by
  unfold pushEntry
  split_ifs with hc
  · exact Or.inl ⟨r, rfl, rfl⟩
  · unfold persistLogEntryLocked
    rcases r.logFile.write (entryLine e) with ⟨f, _ | _⟩
    · exact Or.inl ⟨_, rfl, rfl⟩
    · exact Or.inr ⟨_, rfl, not_le.mp hc, rfl⟩

/-- An entry goes to its place, when what stood there and behind it has been cut off. -/
theorem storeEntry_cases (r : RaftNode) (e : LogEntry) {pos : Nat} (hpos : pos ≤ r.pstate.logLen) :
    (∃ r', storeEntry r e pos = (r', false) ∧
      (r'.pstate = r.pstate ∨ r'.pstate = r.pstate.truncate pos)) ∨
    (∃ r', storeEntry r e pos = (r', true) ∧ pos < raftLogCap ∧
      r'.pstate = (r.pstate.truncate pos).push e) := by
  unfold storeEntry
  split_ifs with hlt
  · unfold persistTruncateLocked
    rcases r.logFile.write (truncateLine e.index) with ⟨f, _ | _⟩
    · exact Or.inl ⟨_, rfl, Or.inl rfl⟩
    · rcases pushEntry_cases { r with logFile := f, pstate := r.pstate.truncate pos } e with
        ⟨r', hr, hp⟩ | ⟨r', hr, hc, hp⟩
      · exact Or.inl ⟨r', hr, Or.inr hp⟩
      · exact Or.inr ⟨r', hr, hc, hp⟩
  · obtain rfl : pos = r.pstate.logLen := by omega
    rcases pushEntry_cases r e with ⟨r', hr, hp⟩ | ⟨r', hr, hc, hp⟩
    · exact Or.inl ⟨r', hr, Or.inl hp⟩
    · exact Or.inr ⟨r', hr, hc, hp⟩

/-- The places of the log array that the loop writes, with the entries written there: each time,
`log_len` before it is counted up. -/
def storedAt (prevLogIndex : UInt64) (r : RaftNode) (i : Nat) :
    List LogEntry → List (Nat × LogEntry)
  | [] => []
  | incoming :: rest =>
    if incoming.index ≠ prevLogIndex + .ofNat i + 1 then []
    else
      let pos := (incoming.index - 1).toNat
      if pos < r.pstate.logLen ∧ (r.pstate.log pos).term = incoming.term then
        storedAt prevLogIndex r (i + 1) rest
      else
        match storeEntry r incoming pos with
        | (r, true) => (r.pstate.logLen - 1, incoming) :: storedAt prevLogIndex r (i + 1) rest
        | (_, false) => []

/-- Write an array at these places. -/
def writeAll (log : Nat → LogEntry) (xs : List (Nat × LogEntry)) : Nat → LogEntry :=
  xs.foldl (fun log x => Function.update log x.1 x.2) log

/-- Every entry goes to the place that its own index says, inside the array. -/
def InPlace (xs : List (Nat × LogEntry)) : Prop :=
  ∀ x ∈ xs, x.1 + 1 = x.2.index.toNat ∧ x.1 < raftLogCap

theorem storeEntries_numbered (es : List LogEntry) {prev : UInt64} {i : Nat}
    (h : Numbered r.pstate) (hi : prev.toNat + i ≤ r.pstate.logLen) :
    Numbered (storeEntries prev r i es).1.pstate ∧ InPlace (storedAt prev r i es) ∧
      (storeEntries prev r i es).1.pstate.log = writeAll r.pstate.log (storedAt prev r i es) := by
  have hnil : InPlace [] := fun x hx => absurd hx List.not_mem_nil
  induction es generalizing r i with
  | nil => exact ⟨h, hnil, rfl⟩
  | cons e es ih =>
    unfold storeEntries storedAt
    split_ifs with hne
    · exact ⟨h, hnil, rfl⟩
    · have hidx : e.index.toNat = prev.toNat + i + 1 := by
        rw [not_not.mp hne, toNat_expected (hi.trans h.logLen_le)]
      have hpos : (e.index - 1).toNat = prev.toNat + i := by
        rw [toNat_sub_one (by omega), hidx, Nat.add_sub_cancel]
      dsimp only
      rw [hpos]
      split_ifs with hm
      · exact ih h (by omega)
      · have hcut := h.truncate hi
        rcases storeEntry_cases r e hi with ⟨r', hr, hp⟩ | ⟨r', hr, hc, hp⟩
        · rw [hr]
          rcases hp with hp | hp
          · exact ⟨by rwa [hp], hnil, by rw [hp]; rfl⟩
          · exact ⟨by rwa [hp], hnil, by rw [hp]; rfl⟩
        · rw [hr]
          have hn : Numbered r'.pstate := by
            rw [hp]
            exact hcut.push hidx hc
          have hlen : r'.pstate.logLen = prev.toNat + i + 1 := by
            rw [hp]
            rfl
          have hlog : r'.pstate.log = Function.update r.pstate.log (prev.toNat + i) e := by
            rw [hp]
            rfl
          have hi' : prev.toNat + (i + 1) ≤ r'.pstate.logLen := by omega
          obtain ⟨hn', hx, hw⟩ := ih hn hi'
          rw [hlog] at hw
          dsimp only
          rw [hlen, Nat.add_sub_cancel]
          refine ⟨hn', ?_, hw⟩
          rintro x (_ | ⟨_, hx'⟩)
          · exact ⟨hidx.symm, hc⟩
          · exact hx x hx'

/-- The places that `acceptAppendEntries` writes. -/
def acceptedAt (r : RaftNode) (req : AppendEntriesRequest) : List (Nat × LogEntry) :=
  if req.prevLogIndex.toNat > r.pstate.logLen then []
  else if req.prevLogIndex > 0 ∧
      (r.pstate.log (req.prevLogIndex - 1).toNat).term ≠ req.prevLogTerm then []
  else storedAt req.prevLogIndex r 0 req.log

/-- The places that `handleAppendEntriesRequest` writes. -/
def appendedAt (clk : Clock) (r : RaftNode) (req : AppendEntriesRequest) :
    List (Nat × LogEntry) :=
  if req.term < r.pstate.currentTerm then []
  else if req.term > r.pstate.currentTerm then
    match updateTermLocked clk r req.term with
    | (r, true) => acceptedAt (followLeader clk r req.leaderId) req
    | (_, false) => []
  else acceptedAt (followLeader clk r req.leaderId) req

/-- What a request does to a numbered log. -/
structure Fills (r r' : RaftNode) (xs : List (Nat × LogEntry)) : Prop where
  numbered : Numbered r'.pstate
  inPlace : InPlace xs
  log : r'.pstate.log = writeAll r.pstate.log xs

theorem Fills.of_sameLog {r' : RaftNode} (h : Numbered r.pstate)
    (hs : SameLog r.pstate r'.pstate) : Fills r r' [] :=
  ⟨h.of_sameLog hs, fun _ hx => absurd hx List.not_mem_nil, hs.1⟩

theorem acceptAppendEntries_fills (req : AppendEntriesRequest) (h : Numbered r.pstate) :
    Fills r (acceptAppendEntries r req).1 (acceptedAt r req) := by
  unfold acceptAppendEntries acceptedAt
  dsimp only
  split_ifs with hp hm
  · exact .of_sameLog h (.refl _)
  · exact .of_sameLog h (.refl _)
  · have hi : req.prevLogIndex.toNat + 0 ≤ r.pstate.logLen := not_lt.mp hp
    obtain ⟨hn, hx, hw⟩ := storeEntries_numbered req.log h hi
    rcases hs : storeEntries req.prevLogIndex r 0 req.log with ⟨r', _ | _⟩
    · rw [hs] at hn hw
      exact ⟨hn, hx, hw⟩
    · rw [hs] at hn hw
      obtain ⟨n, hl⟩ := learnCommit_eq r' req.leaderCommit
      dsimp only
      rw [hl]
      exact ⟨hn, hx, hw⟩

theorem updateTermLocked_sameLog (clk : Clock) (r : RaftNode) (newTerm : UInt64) :
    SameLog r.pstate (updateTermLocked clk r newTerm).1.pstate := by
  unfold updateTermLocked persistStateLocked
  split_ifs
  · exact .refl _
  · rcases (enterTerm r newTerm).logFile.write _ with ⟨f, _ | _⟩
    · exact ⟨rfl, rfl⟩
    · exact ⟨rfl, rfl⟩

theorem handleAppendEntriesRequest_fills (clk : Clock) (req : AppendEntriesRequest)
    (h : Numbered r.pstate) :
    Fills r (handleAppendEntriesRequest clk r req).1 (appendedAt clk r req) := by
  unfold handleAppendEntriesRequest appendedAt
  dsimp only
  split_ifs
  · exact .of_sameLog h (.refl _)
  · have hs := updateTermLocked_sameLog clk r req.term
    rcases hu : updateTermLocked clk r req.term with ⟨r', _ | _⟩
    · rw [hu] at hs
      exact .of_sameLog h hs
    · rw [hu] at hs
      obtain ⟨hn, hx, hw⟩ := acceptAppendEntries_fills (r := followLeader clk r' req.leaderId) req
        (h.of_sameLog hs)
      exact ⟨hn, hx, hw.trans (congrArg (writeAll · _) hs.1)⟩
  · obtain ⟨hn, hx, hw⟩ := acceptAppendEntries_fills (r := followLeader clk r req.leaderId) req h
    exact ⟨hn, hx, hw⟩

/-! ## The other operations -/

theorem raftTimeout_sameLog (clk : Clock) (r : RaftNode) (outCap : Nat) :
    SameLog r.pstate (raftTimeout clk r outCap).1.pstate := by
  unfold raftTimeout persistStateLocked
  split_ifs
  · exact .refl _
  · exact .refl _
  · rcases (becomeCandidate r).logFile.write _ with ⟨f, _ | _⟩
    · exact ⟨rfl, rfl⟩
    · dsimp only
      rw [(startElection_pstate clk _ outCap).2]
      exact ⟨rfl, rfl⟩

theorem handleRequestVoteRequest_sameLog (clk : Clock) (r : RaftNode) (req : RequestVoteRequest) :
    SameLog r.pstate (handleRequestVoteRequest clk r req).1.pstate := by
  have hanswer : ∀ r₁ resp, SameLog r₁.pstate (answerRequestVote clk r₁ req resp).1.pstate := by
    intro r₁ resp
    unfold answerRequestVote persistStateLocked
    split_ifs
    · exact .refl _
    · exact .refl _
    · rcases (voteFor r₁ req.candidateId).logFile.write _ with ⟨f, _ | _⟩
      · exact ⟨rfl, rfl⟩
      · exact ⟨rfl, rfl⟩
    · exact .refl _
  unfold handleRequestVoteRequest
  split_ifs
  · obtain ⟨hl, hn⟩ := updateTermLocked_sameLog clk r req.term
    obtain ⟨hl', hn'⟩ := hanswer (updateTermLocked clk r req.term).1 ⟨r.pstate.currentTerm, false⟩
    exact ⟨hl'.trans hl, hn'.trans hn⟩
  · exact hanswer r _

theorem handleRequestVoteResponse_sameLog (clk : Clock) (r : RaftNode)
    (resp : RequestVoteResponse) (peer : UInt64) :
    SameLog r.pstate (handleRequestVoteResponse clk r resp peer).pstate := by
  unfold handleRequestVoteResponse
  split_ifs
  · exact updateTermLocked_sameLog clk r resp.term
  · exact .refl _
  · rcases findPeerIdx r peer with _ | i
    · exact .refl _
    · dsimp only
      split_ifs <;> exact ⟨rfl, rfl⟩

theorem handleAppendEntriesResponse_sameLog (clk : Clock) (r : RaftNode)
    (resp : AppendEntriesResponse) (peer : UInt64) :
    SameLog r.pstate (handleAppendEntriesResponse clk r resp peer).pstate := by
  have hadvance : ∀ r₁, (advanceCommitIndexLocked r₁).pstate = r₁.pstate := by
    intro r₁
    obtain ⟨m, hm⟩ := advanceCommitIndexLocked_eq r₁
    rw [hm]
  unfold handleAppendEntriesResponse
  rcases findPeerIdx r peer with _ | i
  · dsimp only
    split_ifs
    · exact .refl _
    · exact .refl _
    · exact updateTermLocked_sameLog clk r resp.term
    · exact .refl _
  · dsimp only
    split_ifs
    · exact .refl _
    · exact .refl _
    · exact updateTermLocked_sameLog clk r resp.term
    · rw [hadvance]
      exact ⟨rfl, rfl⟩
    · rw [hadvance]
      exact .refl _
    · exact ⟨rfl, rfl⟩
    · exact .refl _

theorem raftLeaderSendCommand_numbered (command : ClientCommand) (h : Numbered r.pstate) :
    Numbered (raftLeaderSendCommand r command).1.pstate := by
  unfold raftLeaderSendCommand
  by_cases hl : r.state ≠ .leader
  · rw [if_pos hl]
    exact h
  · by_cases hc : r.pstate.logLen ≥ raftLogCap
    · rw [if_neg hl, if_pos hc]
      exact h
    · rw [if_neg hl, if_neg hc]
      dsimp only
      set e : LogEntry := ⟨raftLastLogIndex r + 1, r.pstate.currentTerm, command⟩
      have hpush : Numbered (r.pstate.push e) :=
        h.push (toNat_raftLastLogIndex_add_one h.logLen_le) (not_le.mp hc)
      unfold persistLogEntryLocked
      rcases r.logFile.write (entryLine e) with ⟨f, _ | _⟩
      · exact h
      · dsimp only
        split_ifs
        · exact hpush
        · exact hpush

/-! ## Runs -/

/-- One operation, whatever it is sent and whatever writes fail. -/
theorem NodeOp.perform_numbered (op : NodeOp) (h : Numbered r.pstate) :
    Numbered (op.perform r).1.pstate := by
  cases op with
  | timeout clk outCap => exact h.of_sameLog (raftTimeout_sameLog clk r outCap)
  | requestVoteRequest clk req => exact h.of_sameLog (handleRequestVoteRequest_sameLog clk r req)
  | requestVoteResponse clk resp peer =>
    exact h.of_sameLog (handleRequestVoteResponse_sameLog clk r resp peer)
  | appendEntriesRequest clk req => exact (handleAppendEntriesRequest_fills clk req h).numbered
  | appendEntriesResponse clk resp peer =>
    exact h.of_sameLog (handleAppendEntriesResponse_sameLog clk r resp peer)
  | leaderSendCommand command => exact raftLeaderSendCommand_numbered command h
  | restart clk peers => exact startNode_numbered clk r.logFile r.id peers

theorem runNode_numbered (ops : List (List Bool × NodeOp)) (h : Numbered r.pstate) :
    Numbered (runNode r ops).pstate := by
  induction ops generalizing r with
  | nil => exact h
  | cons op ops ih => exact ih (op.2.perform_numbered h)

/-- Whatever the file says and whatever is sent, the log is a numbered array, and a request only
writes entries to the places that their indexes say. -/
theorem log_numbered (clk : Clock) (file : LogFile) (id : UInt64) (peers : List UInt64)
    (ops : List (List Bool × NodeOp)) :
    (runNode (startNode clk file id peers) ops).pstate.logLen ≤ raftLogCap ∧
    (∀ i < (runNode (startNode clk file id peers) ops).pstate.logLen,
      ((runNode (startNode clk file id peers) ops).pstate.log i).index.toNat = i + 1) ∧
    ∀ (faults : List Bool) (clk' : Clock) (req : AppendEntriesRequest),
      InPlace (appendedAt clk'
        ((runNode (startNode clk file id peers) ops).withFaults faults) req) ∧
      (handleAppendEntriesRequest clk'
        ((runNode (startNode clk file id peers) ops).withFaults faults) req).1.pstate.log =
        writeAll (runNode (startNode clk file id peers) ops).pstate.log
          (appendedAt clk'
            ((runNode (startNode clk file id peers) ops).withFaults faults) req) := by
  have h := runNode_numbered ops (startNode_numbered clk file id peers)
  refine ⟨h.logLen_le, h.index, fun faults clk' req => ?_⟩
  have ha := handleAppendEntriesRequest_fills
    (r := (runNode (startNode clk file id peers) ops).withFaults faults) clk' req h
  exact ⟨ha.inPlace, ha.log⟩

end Corestack.Raft
