import Corestack.Raft.Leading
import Corestack.Raft.Numbering

/-! # Handing out entries

Whatever a node is sent, whatever its file says and whichever writes fail, it hands out
the entries 1, 2, 3 and so on, each of them once: what has been committed is never beyond
what the array has held, and a place of the array keeps its number.
-/

namespace Corestack.Raft

variable {r r' : RaftNode} {out : List LogEntry}

/-- What the application asks of a node beside its operations. -/
inductive Task
  | call (faults : List Bool) (op : NodeOp)
  | commitEntry (outCap : Nat)

/-- A node and the entries that it has handed out in its present start. -/
def Task.perform (x : RaftNode × List LogEntry) : Task → RaftNode × List LogEntry
  | .call faults (.restart clk peers) =>
    (((NodeOp.restart clk peers).perform (x.1.withFaults faults)).1, [])
  | .call faults op => ((op.perform (x.1.withFaults faults)).1, x.2)
  | .commitEntry outCap =>
    ((raftCommitEntry x.1 outCap).1, x.2 ++ (raftCommitEntry x.1 outCap).2)

def serveTasks (x : RaftNode × List LogEntry) (ts : List Task) : RaftNode × List LogEntry :=
  ts.foldl Task.perform x

/-! ## Operations and places -/

/-- Every place keeps what it holds or gets an entry of its number, and nothing behind the log is
committed. -/
structure Settles (r r' : RaftNode) : Prop where
  applied : r'.vstate.lastApplied = r.vstate.lastApplied
  commit : r'.vstate.commitIndex = r.vstate.commitIndex ∨
    r'.vstate.commitIndex.toNat ≤ r'.pstate.logLen
  place : ∀ i, r'.pstate.log i = r.pstate.log i ∨ (r'.pstate.log i).index.toNat = i + 1

theorem Settles.of_sameLog (hs : SameLog r.pstate r'.pstate) (hv : r'.vstate = r.vstate) :
    Settles r r' := by
  constructor
  · rw [hv]
  · exact Or.inl (congrArg _ hv)
  · intro i
    exact Or.inl (congrFun hs.1 i)

theorem updateTermLocked_vstate (clk : Clock) (r : RaftNode) (newTerm : UInt64) :
    (updateTermLocked clk r newTerm).1.vstate = r.vstate := by
  unfold updateTermLocked persistStateLocked
  split_ifs
  · rfl
  · rcases (enterTerm r newTerm).logFile.write _ with ⟨f, _ | _⟩
    · rfl
    · rfl

theorem raftTimeout_vstate (clk : Clock) (r : RaftNode) (outCap : Nat) :
    (raftTimeout clk r outCap).1.vstate = r.vstate := by
  unfold raftTimeout persistStateLocked startElection
  split_ifs
  · rfl
  · rfl
  · rcases (becomeCandidate r).logFile.write _ with ⟨f, _ | _⟩
    · rfl
    · dsimp only
      split_ifs
      · rfl
      · rfl

theorem handleRequestVoteRequest_vstate (clk : Clock) (r : RaftNode) (req : RequestVoteRequest) :
    (handleRequestVoteRequest clk r req).1.vstate = r.vstate := by
  have hanswer : ∀ r₁ resp, (answerRequestVote clk r₁ req resp).1.vstate = r₁.vstate := by
    intro r₁ resp
    unfold answerRequestVote persistStateLocked
    split_ifs
    · rfl
    · rfl
    · rcases (voteFor r₁ req.candidateId).logFile.write _ with ⟨f, _ | _⟩
      · rfl
      · rfl
    · rfl
  unfold handleRequestVoteRequest
  split_ifs
  · exact (hanswer _ _).trans (updateTermLocked_vstate clk r req.term)
  · exact hanswer r _

theorem handleRequestVoteResponse_vstate (clk : Clock) (r : RaftNode)
    (resp : RequestVoteResponse) (peer : UInt64) :
    (handleRequestVoteResponse clk r resp peer).vstate = r.vstate := by
  unfold handleRequestVoteResponse
  split_ifs
  · exact updateTermLocked_vstate clk r resp.term
  · rfl
  · rcases findPeerIdx r peer with _ | i
    · rfl
    · dsimp only
      split_ifs
      · rfl
      · rfl
      · rfl

/-! ## A leader -/

theorem advanceCommitIndexLocked_settles (hn : Numbered r.pstate) :
    Settles r (advanceCommitIndexLocked r) := by
  have hself : Settles r r := .of_sameLog (.refl _) rfl
  unfold advanceCommitIndexLocked
  split_ifs
  · exact hself
  · rcases advanceFrom_cases r (raftLastLogIndex r).toNat with h | ⟨m, hm, -, -, -, h⟩
    · rw [h]
      exact hself
    · rw [h]
      rw [toNat_raftLastLogIndex hn.logLen_le] at hm
      refine ⟨rfl, Or.inr ?_, fun _ => Or.inl rfl⟩
      change (UInt64.ofNat (m + 1)).toNat ≤ r.pstate.logLen
      rw [toNat_ofNat (hm.trans_le hn.logLen_le)]
      exact hm

theorem handleAppendEntriesResponse_settles (clk : Clock) (resp : AppendEntriesResponse)
    (peer : UInt64) (hn : Numbered r.pstate) :
    Settles r (handleAppendEntriesResponse clk r resp peer) := by
  have hself : Settles r r := .of_sameLog (.refl _) rfl
  have hterm := updateTermLocked_sameLog clk r resp.term
  unfold handleAppendEntriesResponse
  rcases findPeerIdx r peer with _ | i
  · dsimp only
    split_ifs
    · exact hself
    · exact hself
    · exact .of_sameLog hterm (updateTermLocked_vstate clk r resp.term)
    · exact hself
  · dsimp only
    split_ifs
    · exact hself
    · exact hself
    · exact .of_sameLog hterm (updateTermLocked_vstate clk r resp.term)
    · obtain ⟨happ, hcom, hplace⟩ :=
        advanceCommitIndexLocked_settles (r := recordMatch r i resp.matchIndex) hn
      exact ⟨happ, hcom, hplace⟩
    · exact advanceCommitIndexLocked_settles hn
    · exact .of_sameLog (.refl _) rfl
    · exact hself

/-- A single node commits its command at once. -/
theorem raftLeaderSendCommand_settles (command : ClientCommand) (hn : Numbered r.pstate) :
    Settles r (raftLeaderSendCommand r command).1 := by
  unfold raftLeaderSendCommand
  by_cases hl : r.state ≠ .leader
  · rw [if_pos hl]
    exact .of_sameLog (.refl _) rfl
  by_cases hc : r.pstate.logLen ≥ raftLogCap
  · rw [if_neg hl, if_pos hc]
    exact .of_sameLog (.refl _) rfl
  rw [if_neg hl, if_neg hc]
  dsimp only
  have hindex := toNat_raftLastLogIndex_add_one hn.logLen_le
  set e : LogEntry := ⟨raftLastLogIndex r + 1, r.pstate.currentTerm, command⟩ with he
  have hplace : ∀ i, (r.pstate.push e).log i = r.pstate.log i ∨
      ((r.pstate.push e).log i).index.toNat = i + 1 := by
    intro i
    simp only [PersistentState.push, Function.update_apply]
    split_ifs with hi
    · right
      rw [he, hi, hindex]
    · exact Or.inl rfl
  unfold persistLogEntryLocked
  rcases r.logFile.write (entryLine e) with ⟨f, _ | _⟩
  · exact .of_sameLog (.refl _) rfl
  · dsimp only
    split_ifs
    · exact ⟨rfl, Or.inr hindex.le, hplace⟩
    · exact ⟨rfl, Or.inl rfl, hplace⟩

/-! ## A follower -/

theorem writeAll_place {xs : List (Nat × LogEntry)} (hx : InPlace xs) (log : Nat → LogEntry)
    (i : Nat) : writeAll log xs i = log i ∨ (writeAll log xs i).index.toNat = i + 1 := by
  induction xs generalizing log with
  | nil => exact Or.inl rfl
  | cons x xs ih =>
    obtain ⟨⟨hpos, -⟩, hxs⟩ := List.forall_mem_cons.mp hx
    have hrec := ih hxs (Function.update log x.1 x.2)
    rcases hrec with h | h
    · by_cases hi : i = x.1
      · right
        change (writeAll (Function.update log x.1 x.2) xs i).index.toNat = i + 1
        rw [h, hi, Function.update_self, hpos]
      · left
        exact h.trans (Function.update_of_ne hi _ _)
    · exact Or.inr h

theorem storeEntry_vstate (r : RaftNode) (e : LogEntry) (pos : Nat) :
    (storeEntry r e pos).1.vstate = r.vstate := by
  have hpush : ∀ r₁, (pushEntry r₁ e).1.vstate = r₁.vstate := by
    intro r₁
    unfold pushEntry persistLogEntryLocked
    split_ifs
    · rfl
    · rcases r₁.logFile.write _ with ⟨f, _ | _⟩
      · rfl
      · rfl
  unfold storeEntry persistTruncateLocked
  split_ifs
  · rcases r.logFile.write _ with ⟨f, _ | _⟩
    · rfl
    · exact hpush _
  · exact hpush r

theorem storeEntries_vstate (prev : UInt64) (es : List LogEntry) (r : RaftNode) (i : Nat) :
    (storeEntries prev r i es).1.vstate = r.vstate := by
  induction es generalizing r i with
  | nil => rfl
  | cons e es ih =>
    unfold storeEntries
    split_ifs
    · rfl
    · dsimp only
      split_ifs
      · exact ih r (i + 1)
      · have hs := storeEntry_vstate r e (e.index - 1).toNat
        rcases hst : storeEntry r e (e.index - 1).toNat with ⟨r', _ | _⟩
        · rw [hst] at hs
          exact hs
        · rw [hst] at hs
          exact (ih r' (i + 1)).trans hs

/-- What a request commits lies within the log that it leaves. -/
theorem acceptAppendEntries_commit (req : AppendEntriesRequest) (hn : Numbered r.pstate) :
    (acceptAppendEntries r req).1.vstate.lastApplied = r.vstate.lastApplied ∧
      ((acceptAppendEntries r req).1.vstate.commitIndex = r.vstate.commitIndex ∨
        (acceptAppendEntries r req).1.vstate.commitIndex.toNat ≤
          (acceptAppendEntries r req).1.pstate.logLen) := by
  unfold acceptAppendEntries
  dsimp only
  split_ifs with hp hm
  · exact ⟨rfl, Or.inl rfl⟩
  · exact ⟨rfl, Or.inl rfl⟩
  · have hi : req.prevLogIndex.toNat + 0 ≤ r.pstate.logLen := not_lt.mp hp
    have hn' := (storeEntries_numbered req.log hn hi).1
    have hv := storeEntries_vstate req.prevLogIndex req.log r 0
    rcases hs : storeEntries req.prevLogIndex r 0 req.log with ⟨r', _ | _⟩
    · rw [hs] at hv
      exact ⟨congrArg _ hv, Or.inl (congrArg _ hv)⟩
    · rw [hs] at hv hn'
      dsimp only at hv hn' ⊢
      have hlog : (learnCommit r' req.leaderCommit).pstate = r'.pstate := by
        obtain ⟨n, h⟩ := learnCommit_eq r' req.leaderCommit
        rw [h]
      have happ : (learnCommit r' req.leaderCommit).vstate.lastApplied =
          r'.vstate.lastApplied := by
        obtain ⟨n, h⟩ := learnCommit_eq r' req.leaderCommit
        rw [h]
      constructor
      · rw [happ, hv]
      · rw [hlog]
        rcases learnCommit_commitIndex req.leaderCommit hn'.logLen_le with h | ⟨-, h⟩
        · exact Or.inl (h.trans (congrArg _ hv))
        · exact Or.inr (h.trans_le (min_le_right _ _))

theorem handleAppendEntriesRequest_settles (clk : Clock) (req : AppendEntriesRequest)
    (hn : Numbered r.pstate) : Settles r (handleAppendEntriesRequest clk r req).1 := by
  have hfill := handleAppendEntriesRequest_fills clk req hn
  have hcommit : (handleAppendEntriesRequest clk r req).1.vstate.lastApplied =
        r.vstate.lastApplied ∧
      ((handleAppendEntriesRequest clk r req).1.vstate.commitIndex = r.vstate.commitIndex ∨
        (handleAppendEntriesRequest clk r req).1.vstate.commitIndex.toNat ≤
          (handleAppendEntriesRequest clk r req).1.pstate.logLen) := by
    unfold handleAppendEntriesRequest
    dsimp only
    split_ifs
    · exact ⟨rfl, Or.inl rfl⟩
    · have hs := updateTermLocked_sameLog clk r req.term
      have hv := updateTermLocked_vstate clk r req.term
      rcases hu : updateTermLocked clk r req.term with ⟨r', _ | _⟩
      · rw [hu] at hv
        exact ⟨congrArg _ hv, Or.inl (congrArg _ hv)⟩
      · rw [hu] at hs hv
        rw [← show r'.vstate = r.vstate from hv]
        exact acceptAppendEntries_commit (r := followLeader clk r' req.leaderId) req
          (hn.of_sameLog hs)
    · exact acceptAppendEntries_commit (r := followLeader clk r req.leaderId) req hn
  constructor
  · exact hcommit.1
  · exact hcommit.2
  · intro i
    rw [hfill.log]
    exact writeAll_place hfill.inPlace r.pstate.log i

/-! ## Runs -/

/-- All that has been committed has a place with its number, and what was handed out is counted. -/
structure HandsOut (r : RaftNode) (out : List LogEntry) : Prop where
  numbered : Numbered r.pstate
  index : ∀ i < r.vstate.commitIndex.toNat, (r.pstate.log i).index.toNat = i + 1
  length : out.length = r.vstate.lastApplied.toNat
  order : ∀ i e, out[i]? = some e → e.index.toNat = i + 1

theorem HandsOut.settle (h : HandsOut r out) (hs : Settles r r') (hn : Numbered r'.pstate) :
    HandsOut r' out := by
  refine ⟨hn, ?_, ?_, h.order⟩
  · intro i hi
    rcases hs.commit with hc | hc
    · rw [hc] at hi
      rcases hs.place i with hp | hp
      · rw [hp]
        exact h.index i hi
      · exact hp
    · exact hn.index i (hi.trans_le hc)
  · rw [hs.applied]
    exact h.length

theorem startNode_vstate (clk : Clock) (file : LogFile) (id : UInt64) (peers : List UInt64) :
    (startNode clk file id peers).vstate = ⟨0, 0⟩ := by
  have hr : (restorePstate (blankNode clk file id)).1.vstate = ⟨0, 0⟩ := by
    unfold restorePstate
    split
    · rfl
    · rfl
  unfold startNode initialiseRaftSm
  rcases hp : restorePstate (blankNode clk file id) with ⟨r, _ | _⟩
  · rw [hp] at hr
    exact hr
  · rw [hp] at hr
    exact hr

theorem startNode_handsOut (clk : Clock) (file : LogFile) (id : UInt64) (peers : List UInt64) :
    HandsOut (startNode clk file id peers) [] := by
  have hv := startNode_vstate clk file id peers
  refine ⟨startNode_numbered clk file id peers, ?_, ?_, ?_⟩
  · intro i hi
    rw [hv] at hi
    exact absurd hi (Nat.not_lt_zero i)
  · rw [hv]
    rfl
  · intro i e he
    cases he

theorem HandsOut.commitEntry (h : HandsOut r out) (outCap : Nat) :
    HandsOut (raftCommitEntry r outCap).1 (out ++ (raftCommitEntry r outCap).2) := by
  obtain ⟨n, hle, hor, he⟩ := raftCommitEntry_eq r outCap
  have hle' := UInt64.le_iff_toNat_le.mp hle
  rw [he]
  refine ⟨h.numbered, h.index, ?_, ?_⟩
  · rw [List.length_append, List.length_map, List.length_range, h.length]
    exact Nat.add_sub_cancel' hle'
  · intro i e hi
    rw [List.getElem?_append] at hi
    split_ifs at hi with hlt
    · exact h.order i e hi
    · -- the entry comes from the place behind those handed out before
      rw [not_lt, h.length] at hlt
      rw [List.getElem?_map, h.length] at hi
      obtain ⟨j, hj, rfl⟩ := Option.map_eq_some_iff.mp hi
      obtain ⟨hjlt, rfl⟩ := List.getElem?_eq_some_iff.mp hj
      rw [List.length_range] at hjlt
      rw [List.getElem_range, Nat.add_sub_cancel' hlt]
      apply h.index
      rcases hor with hn | rfl
      · have hn' := UInt64.le_iff_toNat_le.mp hn
        omega
      · omega

/-- One operation of a node keeps its places numbered and what is committed within them. -/
theorem NodeOp.perform_settles (op : NodeOp) (hn : Numbered r.pstate)
    (hop : ∀ clk peers, op ≠ .restart clk peers) : Settles r (op.perform r).1 := by
  cases op with
  | timeout clk outCap =>
    exact .of_sameLog (raftTimeout_sameLog clk r outCap) (raftTimeout_vstate clk r outCap)
  | requestVoteRequest clk req =>
    exact .of_sameLog (handleRequestVoteRequest_sameLog clk r req)
      (handleRequestVoteRequest_vstate clk r req)
  | requestVoteResponse clk resp peer =>
    exact .of_sameLog (handleRequestVoteResponse_sameLog clk r resp peer)
      (handleRequestVoteResponse_vstate clk r resp peer)
  | appendEntriesRequest clk req => exact handleAppendEntriesRequest_settles clk req hn
  | appendEntriesResponse clk resp peer =>
    exact handleAppendEntriesResponse_settles clk resp peer hn
  | leaderSendCommand command => exact raftLeaderSendCommand_settles command hn
  | restart clk peers => exact absurd rfl (hop clk peers)

theorem HandsOut.call (h : HandsOut r out) (op : NodeOp)
    (hop : ∀ clk peers, op ≠ .restart clk peers) : HandsOut (op.perform r).1 out :=
  h.settle (op.perform_settles h.numbered hop) (op.perform_numbered h.numbered)

theorem HandsOut.withFaults (h : HandsOut r out) (faults : List Bool) :
    HandsOut (r.withFaults faults) out :=
  ⟨h.numbered, h.index, h.length, h.order⟩

theorem HandsOut.perform (h : HandsOut r out) (t : Task) :
    HandsOut (t.perform (r, out)).1 (t.perform (r, out)).2 := by
  cases t with
  | commitEntry outCap => exact h.commitEntry outCap
  | call faults op =>
    have hf := h.withFaults faults
    cases op with
    | restart clk peers => exact startNode_handsOut clk _ r.id peers
    | timeout clk outCap => exact hf.call _ nofun
    | requestVoteRequest clk req => exact hf.call _ nofun
    | requestVoteResponse clk resp peer => exact hf.call _ nofun
    | appendEntriesRequest clk req => exact hf.call _ nofun
    | appendEntriesResponse clk resp peer => exact hf.call _ nofun
    | leaderSendCommand command => exact hf.call _ nofun

theorem HandsOut.serveTasks (h : HandsOut r out) (ts : List Task) :
    HandsOut (serveTasks (r, out) ts).1 (serveTasks (r, out) ts).2 := by
  induction ts generalizing r out with
  | nil => exact h
  | cons t ts ih => exact ih (h.perform t)

theorem HandsOut.map_index (h : HandsOut r out) :
    out.map (·.index.toNat) = List.range' 1 r.vstate.lastApplied.toNat := by
  apply List.ext_getElem
  · rw [List.length_map, List.length_range', h.length]
  · intro i hi hi'
    rw [List.getElem_map, List.getElem_range']
    rw [List.length_map] at hi
    have hnum := h.order i out[i] (List.getElem?_eq_getElem hi)
    omega

/-- Whatever its file says, whatever is sent and whichever writes fail, a node hands out entry 1,
entry 2 and so on in each of its starts: none is skipped, and none is handed out twice. -/
theorem handed_out_in_order (clk : Clock) (file : LogFile) (id : UInt64) (peers : List UInt64)
    (ts : List Task) :
    (serveTasks (startNode clk file id peers, []) ts).2.map (·.index.toNat) =
      List.range' 1
        (serveTasks (startNode clk file id peers, []) ts).1.vstate.lastApplied.toNat :=
  ((startNode_handsOut clk file id peers).serveTasks ts).map_index

end Corestack.Raft
