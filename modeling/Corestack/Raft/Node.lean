import Corestack.Raft.LogFile

/-! # The Raft node

The functions of `raft.c` on one node. A call that takes the node's mutex is one
function here. A function that may write the log file returns the node with the
new file.
-/

namespace Corestack.Raft

/-! ## Helpers -/

def majority (n : Nat) : Nat := n / 2 + 1

/-- Whether a candidate's log is at least as up to date as the receiver's. -/
def checkLog (reqLogIdx reqLogTerm lastIdx lastTerm : UInt64) : Bool :=
  if reqLogTerm ≠ lastTerm then reqLogTerm > lastTerm else reqLogIdx ≥ lastIdx

def raftLastLogIndex (r : RaftNode) : UInt64 := .ofNat r.pstate.logLen

def raftLastLogTerm (r : RaftNode) : UInt64 :=
  if r.pstate.logLen = 0 then 0 else (r.pstate.log (r.pstate.logLen - 1)).term

/-- The loop of `find_peer_idx`: a later match replaces an earlier one. -/
def findPeerIdxFrom (peer : UInt64) : List UInt64 → Nat → Option Nat → Option Nat
  | [], _, found => found
  | p :: ps, i, found => findPeerIdxFrom peer ps (i + 1) (if p = peer then some i else found)

/-- `none` is `SIZE_MAX`. -/
def findPeerIdx (r : RaftNode) (peer : UInt64) : Option Nat := findPeerIdxFrom peer r.peers 0 none

def raftElectionTimeoutExpired (clk : Clock) (r : RaftNode) : Bool :=
  if clk.now < 0 then false
  else clk.now - r.latestHeartbeatMs ≥ r.electionTimeoutDurationMs

def raftRandomElectionTimeout (clk : Clock) : Int := 150 + clk.rand % 150

def raftResetElectionTimer (clk : Clock) (r : RaftNode) : RaftNode :=
  { r with
    electionTimeoutDurationMs := raftRandomElectionTimeout clk
    latestHeartbeatMs := clk.now }

def raftInitCandidateState (r : RaftNode) (term : UInt64) : RaftNode :=
  { r with cstate := ⟨term, fun _ => false, fun _ => false⟩ }

def raftInitLeaderState (r : RaftNode) : RaftNode :=
  { r with
    state := .leader
    leaderId := r.id
    lstate :=
      { nextIndex := fun i => if i < r.peers.length then raftLastLogIndex r + 1 else 0
        matchIndex := fun _ => 0 } }

def raftClearCandidateState (r : RaftNode) : RaftNode :=
  { r with cstate := ⟨0, fun _ => false, fun _ => false⟩ }

def raftClearLeaderState (r : RaftNode) : RaftNode :=
  { r with lstate := ⟨fun _ => 0, fun _ => 0⟩ }

/-- The node in a later term, before that is written. -/
def enterTerm (r : RaftNode) (newTerm : UInt64) : RaftNode :=
  { r with
    state := if r.state ≠ .failed then .follower else r.state
    pstate := { r.pstate with currentTerm := newTerm, votedFor := raftNone }
    leaderId := raftNone }

/-- The flag is `false` where the source returns `-1`. -/
def updateTermLocked (clk : Clock) (r : RaftNode) (newTerm : UInt64) : RaftNode × Bool :=
  if newTerm ≤ r.pstate.currentTerm then (r, true)
  else
    match persistStateLocked (enterTerm r newTerm) with
    | (r, true) =>
      (raftResetElectionTimer clk (raftClearLeaderState (raftClearCandidateState r)), true)
    | (r, false) => ({ r with state := .failed }, false)

/-! ## Elections -/

/-- The node as a candidate of the next term, before that is written. -/
def becomeCandidate (r : RaftNode) : RaftNode :=
  { r with
    leaderId := raftNone
    state := .candidate
    pstate := { r.pstate with currentTerm := r.pstate.currentTerm + 1, votedFor := r.id } }

/-- The request for the votes of the others. -/
def voteRequest (r : RaftNode) : RequestVoteRequest :=
  ⟨r.pstate.currentTerm, raftLastLogIndex r, raftLastLogTerm r, r.id⟩

/-- A candidate asks `peers[peer_idx]` for each index that fits the caller's buffer. -/
def startElection (clk : Clock) (r : RaftNode) (outCap : Nat) :
    RaftNode × List (Nat × RequestVoteRequest) :=
  let r := raftResetElectionTimer clk (raftInitCandidateState r r.pstate.currentTerm)
  -- a single node is its own majority
  if majority (r.peers.length + 1) = 1 then (raftInitLeaderState r, [])
  else (r, (List.range (min r.peers.length outCap)).map fun i => (i, voteRequest r))

/-- The node after a timeout, and the messages for `peers[peer_idx]`. -/
def raftTimeout (clk : Clock) (r : RaftNode) (outCap : Nat) :
    RaftNode × List (Nat × RequestVoteRequest) :=
  if r.state = .failed ∨ r.state = .leader then (r, [])
  else if !raftElectionTimeoutExpired clk r then (r, [])
  else
    -- a failed write leaves a candidate of the new term
    match persistStateLocked (becomeCandidate r) with
    | (r, true) => startElection clk r outCap
    | (r, false) => (r, [])

/-- Whether the node may vote for the sender of a request of its current term. -/
def mayVote (r : RaftNode) (req : RequestVoteRequest) : Bool :=
  (r.pstate.votedFor = raftNone || r.pstate.votedFor = req.candidateId) &&
    checkLog req.lastLogIndex req.lastLogTerm (raftLastLogIndex r) (raftLastLogTerm r)

/-- Record the vote for the sender of a request. -/
def voteFor (r : RaftNode) (candidateId : UInt64) : RaftNode :=
  { r with pstate := { r.pstate with votedFor := candidateId } }

/-- The part of the handler after the term has been updated. -/
def answerRequestVote (clk : Clock) (r : RaftNode) (req : RequestVoteRequest)
    (resp : RequestVoteResponse) : RaftNode × RequestVoteResponse :=
  if req.term < r.pstate.currentTerm then (r, resp)
  else if r.state = .leader then (r, resp)
  else if mayVote r req then
    match persistStateLocked (voteFor r req.candidateId) with
    | (r, true) => (raftResetElectionTimer clk r, { resp with voteGranted := true })
    | (r, false) => ({ r with state := .failed }, resp)
  else (r, resp)

/-- The reply carries the term that the node had when the request came in. -/
def handleRequestVoteRequest (clk : Clock) (r : RaftNode) (req : RequestVoteRequest) :
    RaftNode × RequestVoteResponse :=
  answerRequestVote clk
    (if req.term > r.pstate.currentTerm then (updateTermLocked clk r req.term).1 else r) req
    ⟨r.pstate.currentTerm, false⟩

/-- One's own vote and those in the first `n` places of `votes_granted`. -/
def countVotes (granted : Nat → Bool) (n : Nat) : Nat :=
  1 + (List.range n).countP granted

/-- Note the answer of `peers[peer_idx]`. -/
def recordVote (r : RaftNode) (peerIdx : Nat) (voteGranted : Bool) : RaftNode :=
  { r with
    cstate :=
      { r.cstate with
        votesResponded := Function.update r.cstate.votesResponded peerIdx true
        votesGranted := Function.update r.cstate.votesGranted peerIdx voteGranted } }

def handleRequestVoteResponse (clk : Clock) (r : RaftNode) (resp : RequestVoteResponse)
    (peer : UInt64) : RaftNode :=
  if resp.term > r.pstate.currentTerm then (updateTermLocked clk r resp.term).1
  else if r.state ≠ .candidate ∨ resp.term ≠ r.pstate.currentTerm ∨
      resp.term ≠ r.cstate.electionTerm then r
  else
    match findPeerIdx r peer with
    | none => r
    | some peerIdx =>
      if r.cstate.votesResponded peerIdx then r
      else
        let r := recordVote r peerIdx resp.voteGranted
        if countVotes r.cstate.votesGranted r.peers.length ≥ majority (r.peers.length + 1) then
          { raftInitLeaderState r with latestHeartbeatMs := 0 }
        else r

/-! ## Replication -/

/-- A heartbeat to be sent to the peers, if the node is a leader. -/
def heartbeatTick (r : RaftNode) : Option AppendEntriesRequest :=
  if r.state = .failed ∨ r.state ≠ .leader then none
  else some
    { term := r.pstate.currentTerm
      leaderId := r.id
      prevLogIndex := 0
      prevLogTerm := 0
      leaderCommit := r.vstate.commitIndex
      log := []
      length_le := Nat.zero_le _ }

/-- How many entries the next request for a peer holds. -/
def entryCount (logLen nextIdx : Nat) : Nat :=
  if nextIdx ≤ logLen then
    let available := logLen - nextIdx + 1
    if available < raftAppendBatch then available else raftAppendBatch
  else 0

theorem entryCount_le (logLen nextIdx : Nat) : entryCount logLen nextIdx ≤ raftAppendBatch := by
  unfold entryCount
  split_ifs
  · dsimp only; split_ifs <;> omega
  · exact Nat.zero_le _

def raftAppendEntries (r : RaftNode) (peerIdx : Nat) : Option AppendEntriesRequest :=
  if r.state ≠ .leader ∨ peerIdx ≥ r.peers.length then none
  else
    let nextIdx := r.lstate.nextIndex peerIdx
    let prevLogIdx := nextIdx - 1
    some
      { term := r.pstate.currentTerm
        leaderId := r.id
        prevLogIndex := prevLogIdx
        prevLogTerm := if prevLogIdx > 0 then (r.pstate.log (prevLogIdx - 1).toNat).term else 0
        leaderCommit := r.vstate.commitIndex
        log := (List.range (entryCount r.pstate.logLen nextIdx.toNat)).map fun i =>
          r.pstate.log (prevLogIdx.toNat + i)
        length_le := by simpa using entryCount_le _ _ }

/-- Write an accepted entry at the end of the log. The flag is `false` where the handler
returns. -/
def pushEntry (r : RaftNode) (incoming : LogEntry) : RaftNode × Bool :=
  if r.pstate.logLen ≥ raftLogCap then (r, false)
  else
    match persistLogEntryLocked r incoming with
    | (r, true) => ({ r with pstate := r.pstate.push incoming }, true)
    | (r, false) => ({ r with state := .failed }, false)

/-- Write an accepted entry whose place is `pos`, after cutting off a conflicting suffix. -/
def storeEntry (r : RaftNode) (incoming : LogEntry) (pos : Nat) : RaftNode × Bool :=
  if pos < r.pstate.logLen then
    match persistTruncateLocked r incoming.index with
    | (r, true) => pushEntry { r with pstate := r.pstate.truncate pos } incoming
    | (r, false) => ({ r with state := .failed }, false)
  else pushEntry r incoming

/-- The loop over the entries of a request, from its `i`th one on. -/
def storeEntries (prevLogIndex : UInt64) (r : RaftNode) (i : Nat) :
    List LogEntry → RaftNode × Bool
  | [] => (r, true)
  | incoming :: rest =>
    if incoming.index ≠ prevLogIndex + .ofNat i + 1 then (r, false)
    else
      let pos := (incoming.index - 1).toNat
      if pos < r.pstate.logLen ∧ (r.pstate.log pos).term = incoming.term then
        storeEntries prevLogIndex r (i + 1) rest
      else
        match storeEntry r incoming pos with
        | (r, true) => storeEntries prevLogIndex r (i + 1) rest
        | (r, false) => (r, false)

/-- Learn the commit position from the leader, up to the node's own last index. -/
def learnCommit (r : RaftNode) (leaderCommit : UInt64) : RaftNode :=
  if leaderCommit > r.vstate.commitIndex then
    let last := raftLastLogIndex r
    { r with
      vstate :=
        { r.vstate with commitIndex := if leaderCommit < last then leaderCommit else last } }
  else r

/-- The part of the handler after the term has been accepted. -/
def acceptAppendEntries (r : RaftNode) (req : AppendEntriesRequest) :
    RaftNode × AppendEntriesResponse :=
  let resp : AppendEntriesResponse := ⟨r.pstate.currentTerm, false, 0⟩
  if req.prevLogIndex.toNat > r.pstate.logLen then (r, resp)
  else if req.prevLogIndex > 0 ∧
      (r.pstate.log (req.prevLogIndex - 1).toNat).term ≠ req.prevLogTerm then (r, resp)
  else
    match storeEntries req.prevLogIndex r 0 req.log with
    | (r, false) => (r, resp)
    | (r, true) =>
      (learnCommit r req.leaderCommit,
        { resp with success := true, matchIndex := req.prevLogIndex + .ofNat req.log.length })

/-- Follow the sender of a request of the current term. -/
def followLeader (clk : Clock) (r : RaftNode) (leaderId : UInt64) : RaftNode :=
  raftResetElectionTimer clk
    { r with
      state := if r.state ≠ .failed then .follower else r.state
      leaderId := leaderId
      latestHeartbeatMs := clk.now }

def handleAppendEntriesRequest (clk : Clock) (r : RaftNode) (req : AppendEntriesRequest) :
    RaftNode × AppendEntriesResponse :=
  let resp : AppendEntriesResponse := ⟨r.pstate.currentTerm, false, 0⟩
  if req.term < r.pstate.currentTerm then (r, resp)
  else if req.term > r.pstate.currentTerm then
    match updateTermLocked clk r req.term with
    | (r, true) => acceptAppendEntries (followLeader clk r req.leaderId) req
    | (r, false) => (r, resp)
  else acceptAppendEntries (followLeader clk r req.leaderId) req

/-- How many nodes hold index `n`, the leader included. -/
def countReplicas (r : RaftNode) (n : UInt64) : Nat :=
  1 + (List.range r.peers.length).countP fun peer => r.lstate.matchIndex peer ≥ n

/-- The loop of `AdvanceCommitIndex_locked`, downwards from `n`. -/
def advanceFrom (r : RaftNode) : Nat → RaftNode
  | 0 => r
  | n + 1 =>
    if n + 1 > r.vstate.commitIndex.toNat then
      if (r.pstate.log n).term ≠ r.pstate.currentTerm then advanceFrom r n
      else if countReplicas r (.ofNat (n + 1)) ≥ majority (r.peers.length + 1) then
        { r with vstate := { r.vstate with commitIndex := .ofNat (n + 1) } }
      else advanceFrom r n
    else r

def advanceCommitIndexLocked (r : RaftNode) : RaftNode :=
  if r.state ≠ .leader then r else advanceFrom r (raftLastLogIndex r).toNat

/-- Note that `peers[peer_idx]` holds the log up to `matchIndex`. -/
def recordMatch (r : RaftNode) (peerIdx : Nat) (matchIndex : UInt64) : RaftNode :=
  { r with
    lstate :=
      { nextIndex := Function.update r.lstate.nextIndex peerIdx (matchIndex + 1)
        matchIndex := Function.update r.lstate.matchIndex peerIdx matchIndex } }

/-- Try `peers[peer_idx]` one place earlier. -/
def stepBack (r : RaftNode) (peerIdx : Nat) : RaftNode :=
  { r with
    lstate :=
      { r.lstate with
        nextIndex :=
          Function.update r.lstate.nextIndex peerIdx (r.lstate.nextIndex peerIdx - 1) } }

def handleAppendEntriesResponse (clk : Clock) (r : RaftNode) (resp : AppendEntriesResponse)
    (peer : UInt64) : RaftNode :=
  if r.state ≠ .leader then r
  else if r.pstate.currentTerm > resp.term then r
  else if r.pstate.currentTerm < resp.term then (updateTermLocked clk r resp.term).1
  else
    match findPeerIdx r peer with
    | none => r
    | some peerIdx =>
      if resp.success then
        advanceCommitIndexLocked
          (if r.lstate.nextIndex peerIdx < resp.matchIndex then
            recordMatch r peerIdx resp.matchIndex
          else r)
      else if r.lstate.nextIndex peerIdx > 1 then stepBack r peerIdx
      else r

/-- The flag is `true` where the source returns `0`. -/
def raftLeaderSendCommand (r : RaftNode) (command : ClientCommand) : RaftNode × Bool :=
  if r.state ≠ .leader then (r, false)
  else if r.pstate.logLen ≥ raftLogCap then (r, false)
  else
    let entry : LogEntry := ⟨raftLastLogIndex r + 1, r.pstate.currentTerm, command⟩
    match persistLogEntryLocked r entry with
    | (r, true) =>
      let r := { r with pstate := r.pstate.push entry }
      -- a single node commits at once
      if majority (r.peers.length + 1) = 1 then
        ({ r with vstate := { r.vstate with commitIndex := entry.index } }, true)
      else (r, true)
    | (r, false) => ({ r with state := .failed }, false)

/-- Deliver committed entries that have not been delivered yet, at most `outCap`. -/
def raftCommitEntry (r : RaftNode) : Nat → RaftNode × List LogEntry
  | 0 => (r, [])
  | outCap + 1 =>
    if r.vstate.lastApplied < r.vstate.commitIndex then
      let entry := r.pstate.log r.vstate.lastApplied.toNat
      let (r, out) := raftCommitEntry
        { r with vstate := { r.vstate with lastApplied := r.vstate.lastApplied + 1 } } outCap
      (r, entry :: out)
    else (r, [])

/-! ## Start -/

/-- Open the file for appending, creating it if need be. The source returns no value on this
path, and its caller does the same whatever it reads. -/
def createLogFile (r : RaftNode) : RaftNode :=
  { r with
    logFile := { r.logFile with isOpen := true, content := some (r.logFile.content.getD []) } }

/-- A follower in term 0 with an empty log, before the log file is read. -/
def blankNode (clk : Clock) (file : LogFile) (id : UInt64) : RaftNode :=
  raftResetElectionTimer clk
    { state := .follower
      id := id
      leaderId := raftNone
      peers := []
      pstate := ⟨0, raftNone, fun _ => default, 0⟩
      vstate := ⟨0, 0⟩
      cstate := ⟨0, fun _ => false, fun _ => false⟩
      lstate := ⟨fun _ => 0, fun _ => 0⟩
      electionTimeoutDurationMs := 0
      latestHeartbeatMs := 0
      heartbeatIntervalMs := 50
      logFile := { file with isOpen := false } }

/-- A node that starts on what an earlier run left in its file. -/
def initialiseRaftSm (clk : Clock) (file : LogFile) (id : UInt64) : RaftNode :=
  match restorePstate (blankNode clk file id) with
  | (r, false) => r
  | (r, true) => createLogFile r

end Corestack.Raft
