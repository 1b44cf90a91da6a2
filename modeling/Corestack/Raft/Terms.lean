import Corestack.Raft.Durability
import Corestack.Runs

/-! # Terms and votes of one node

A node whose writes succeed moves to later terms and votes once in each, across
its restarts. There are two exceptions: the number of the last term is followed
by 0, and a vote for the id `RAFT_NONE` is not remembered.
-/

namespace Corestack.Raft

variable {r r' : RaftNode} {op : NodeOp}

/-- An election begins. -/
def NodeOp.Elects (r : RaftNode) : NodeOp → Prop
  | timeout clk _ =>
    ¬ (r.state = .failed ∨ r.state = .leader) ∧ raftElectionTimeoutExpired clk r = true
  | _ => False

instance (r : RaftNode) (op : NodeOp) : Decidable (op.Elects r) := by
  cases op <;> unfold NodeOp.Elects <;> infer_instance

/-- The vote that an operation casts, with the term that the node is then in: its own candidacy,
or a vote that it grants. -/
def NodeOp.cast (r : RaftNode) (op : NodeOp) : Option (UInt64 × UInt64) :=
  match op with
  | timeout _ _ =>
    if op.Elects r then some ((op.perform r).1.pstate.currentTerm, r.id) else none
  | requestVoteRequest _ req =>
    if (op.perform r).2 then some ((op.perform r).1.pstate.currentTerm, req.candidateId) else none
  | _ => none

/-- A run in which every write succeeds. -/
def NodeOp.run (r : RaftNode) (ops : List NodeOp) : RaftNode :=
  ops.foldl (fun r op => (op.perform r).1) r

/-- The votes cast in a run. -/
def votesCast (r : RaftNode) : List NodeOp → List (UInt64 × UInt64)
  | [] => []
  | op :: ops => (op.cast r).toList ++ votesCast (op.perform r).1 ops

/-! ## One operation -/

/-- What an operation makes of the term and the vote. -/
inductive TermStep (r : RaftNode) (op : NodeOp) (r' : RaftNode) : Prop
  | same (hc : op.cast r = none) (ht : r'.pstate.currentTerm = r.pstate.currentTerm)
      (hv : r'.pstate.votedFor = r.pstate.votedFor)
  | later (hc : op.cast r = none) (ht : r.pstate.currentTerm < r'.pstate.currentTerm)
  | candidacy (he : op.Elects r) (hc : op.cast r = some (r'.pstate.currentTerm, r.id))
      (ht : r'.pstate.currentTerm = r.pstate.currentTerm + 1) (hv : r'.pstate.votedFor = r.id)
  | vote (clk : Clock) (req : RequestVoteRequest) (hop : op = .requestVoteRequest clk req)
      (hc : op.cast r = some (r'.pstate.currentTerm, req.candidateId))
      (ht : r'.pstate.currentTerm = req.term) (hle : r.pstate.currentTerm ≤ req.term)
      (hv : r'.pstate.votedFor = req.candidateId)
      (hmay : req.term = r.pstate.currentTerm → r.state ≠ .leader ∧ mayVote r req = true)

theorem TermStep.of_updateTerm {newTerm : UInt64} (clk : Clock) (hs : InSync r)
    (ht : r.pstate.currentTerm < newTerm) (hc : op.cast r = none) :
    TermStep r op (updateTermLocked clk r newTerm).1 := by
  have hp := (updateTermLocked_spec clk hs ht).1.pstate
  exact .later hc (by rw [hp]; exact ht)

theorem raftTimeout_termStep (clk : Clock) (outCap : Nat) (hf : r.logFile.NoFaults) :
    TermStep r (.timeout clk outCap) ((NodeOp.timeout clk outCap).perform r).1 := by
  by_cases he : (NodeOp.timeout clk outCap).Elects r
  · obtain ⟨f, hw, -⟩ := persistStateLocked_of_noFaults (r := becomeCandidate r) hf
    have hr : (raftTimeout clk r outCap).1 =
        (startElection clk { becomeCandidate r with logFile := f } outCap).1 := by
      rw [raftTimeout, if_neg he.1, if_neg (by simp [he.2]), hw]
    obtain ⟨-, hp⟩ := startElection_pstate clk { becomeCandidate r with logFile := f } outCap
    rw [← hr] at hp
    have hp' : ((NodeOp.timeout clk outCap).perform r).1.pstate = (becomeCandidate r).pstate := hp
    refine .candidacy he ?_ (by rw [hp']; rfl) (by rw [hp']; rfl)
    rw [NodeOp.cast, if_pos he]
  · have hr : (raftTimeout clk r outCap).1 = r := by
      unfold raftTimeout
      split_ifs with hs ht
      · rfl
      · rfl
      · exact absurd ⟨hs, by simpa using ht⟩ he
    refine .same ?_ ?_ ?_
    · rw [NodeOp.cast, if_neg he]
    · exact congrArg (fun x : RaftNode => x.pstate.currentTerm) hr
    · exact congrArg (fun x : RaftNode => x.pstate.votedFor) hr

/-- A vote is granted in the current term. -/
theorem answerRequestVote_of_mayVote (clk : Clock) {req : RequestVoteRequest}
    (resp : RequestVoteResponse) (hf : r.logFile.NoFaults) (ht : r.pstate.currentTerm = req.term)
    (hl : r.state ≠ .leader) (hm : mayVote r req = true) :
    ∃ f, answerRequestVote clk r req resp =
      (raftResetElectionTimer clk { voteFor r req.candidateId with logFile := f },
        { resp with voteGranted := true }) := by
  obtain ⟨f, hw, -⟩ := persistStateLocked_of_noFaults (r := voteFor r req.candidateId) hf
  exact ⟨f, by rw [answerRequestVote, if_neg (by simp [ht]), if_neg hl, if_pos hm, hw]⟩

theorem answerRequestVote_of_not (clk : Clock) {req : RequestVoteRequest}
    (resp : RequestVoteResponse)
    (h : ¬ (r.pstate.currentTerm ≤ req.term ∧ r.state ≠ .leader ∧ mayVote r req = true)) :
    answerRequestVote clk r req resp = (r, resp) := by
  unfold answerRequestVote
  split_ifs with ht hl hm
  · rfl
  · rfl
  · exact absurd ⟨not_lt.mp ht, hl, hm⟩ h
  · rfl

/-- What is answered in a term in which the node is, or was before a request. -/
theorem cast_requestVoteRequest (clk : Clock) (req : RequestVoteRequest) {b : Bool}
    (h : handleRequestVoteRequest clk r req = (r', ⟨r.pstate.currentTerm, b⟩)) :
    (NodeOp.requestVoteRequest clk req).cast r =
      if b then some (r'.pstate.currentTerm, req.candidateId) else none := by
  simp [NodeOp.cast, NodeOp.perform, h]

theorem requestVoteRequest_termStep_of_le (clk : Clock) (req : RequestVoteRequest)
    (hf : r.logFile.NoFaults) (ht : ¬ req.term > r.pstate.currentTerm) :
    TermStep r (.requestVoteRequest clk req) ((NodeOp.requestVoteRequest clk req).perform r).1 := by
  have hr : handleRequestVoteRequest clk r req =
      answerRequestVote clk r req ⟨r.pstate.currentTerm, false⟩ := by
    rw [handleRequestVoteRequest, if_neg ht]
  by_cases hm : r.pstate.currentTerm ≤ req.term ∧ r.state ≠ .leader ∧ mayVote r req = true
  · have heq := le_antisymm hm.1 (not_lt.mp ht)
    obtain ⟨f, hw⟩ := answerRequestVote_of_mayVote clk ⟨r.pstate.currentTerm, false⟩ hf heq
      hm.2.1 hm.2.2
    rw [hw] at hr
    have hp : ((NodeOp.requestVoteRequest clk req).perform r).1 =
        raftResetElectionTimer clk { voteFor r req.candidateId with logFile := f } :=
      congrArg Prod.fst hr
    rw [hp]
    exact .vote clk req rfl (cast_requestVoteRequest clk req hr) heq hm.1 rfl fun _ => hm.2
  · rw [answerRequestVote_of_not clk _ hm] at hr
    have hp : ((NodeOp.requestVoteRequest clk req).perform r).1 = r := congrArg Prod.fst hr
    rw [hp]
    exact .same (cast_requestVoteRequest clk req hr) rfl rfl

theorem requestVoteRequest_termStep_of_lt (clk : Clock) (req : RequestVoteRequest) (hs : InSync r)
    (hf : r.logFile.NoFaults) (ht : req.term > r.pstate.currentTerm) :
    TermStep r (.requestVoteRequest clk req) ((NodeOp.requestVoteRequest clk req).perform r).1 := by
  have hd := (updateTermLocked_spec clk hs ht).1
  set r₁ := (updateTermLocked clk r req.term).1
  have hr : handleRequestVoteRequest clk r req =
      answerRequestVote clk r₁ req ⟨r.pstate.currentTerm, false⟩ := by
    rw [handleRequestVoteRequest, if_pos ht]
  have hcur : r₁.pstate.currentTerm = req.term := by rw [hd.pstate]
  by_cases hm : r₁.pstate.currentTerm ≤ req.term ∧ r₁.state ≠ .leader ∧ mayVote r₁ req = true
  · obtain ⟨f, hw⟩ := answerRequestVote_of_mayVote clk ⟨r.pstate.currentTerm, false⟩
      (hd.logFile hf) hcur hm.2.1 hm.2.2
    rw [hw] at hr
    have hp : ((NodeOp.requestVoteRequest clk req).perform r).1 =
        raftResetElectionTimer clk { voteFor r₁ req.candidateId with logFile := f } :=
      congrArg Prod.fst hr
    rw [hp]
    exact .vote clk req rfl (cast_requestVoteRequest clk req hr) hcur ht.le rfl
      fun heq => absurd heq ht.ne'
  · rw [answerRequestVote_of_not clk _ hm] at hr
    have hp : ((NodeOp.requestVoteRequest clk req).perform r).1 = r₁ := by
      simp only [NodeOp.perform, hr]
    rw [hp]
    exact .later (cast_requestVoteRequest clk req hr) (by rw [hcur]; exact ht)

theorem appendEntriesRequest_termStep (clk : Clock) (req : AppendEntriesRequest)
    (hs : InSync r) : TermStep r (.appendEntriesRequest clk req)
      ((NodeOp.appendEntriesRequest clk req).perform r).1 := by
  rcases lt_trichotomy req.term r.pstate.currentTerm with hlt | heq | hgt
  · have hr : ((NodeOp.appendEntriesRequest clk req).perform r).1 = r := by
      simp only [NodeOp.perform, handleAppendEntriesRequest, if_pos hlt]
    rw [hr]
    exact .same rfl rfl rfl
  · have h := handleAppendEntriesRequest_sameVote clk ⟨_, _, hs⟩ heq
    exact .same rfl h.currentTerm h.votedFor
  · have hu := (updateTermLocked_spec clk hs hgt)
    obtain ⟨hd, h⟩ := hu
    refine .later rfl ?_
    simp only [NodeOp.perform, handleAppendEntriesRequest, if_neg (not_lt.mpr hgt.le), if_pos hgt]
    rcases hw : updateTermLocked clk r req.term with ⟨r₁, _ | _⟩
    · rw [hw] at hd
      dsimp only
      rw [hd.pstate]
      exact hgt
    · rw [hw] at hd h
      obtain ⟨-, hin⟩ | ⟨hf, -⟩ := h
      · have hin' : InSync (followLeader clk r₁ req.leaderId) := hin
        have ha := acceptAppendEntries_sameVote (followLeader clk r₁ req.leaderId) req ⟨_, _, hin'⟩
        dsimp only
        rw [ha.currentTerm]
        have hfol : (followLeader clk r₁ req.leaderId).pstate = r₁.pstate := rfl
        rw [hfol, hd.pstate]
        exact hgt
      · cases hf

theorem appendEntriesResponse_termStep (clk : Clock) (resp : AppendEntriesResponse)
    (peer : UInt64) (hs : InSync r) : TermStep r (.appendEntriesResponse clk resp peer)
      ((NodeOp.appendEntriesResponse clk resp peer).perform r).1 := by
  by_cases hlt : r.state = .leader ∧ r.pstate.currentTerm < resp.term
  · simp only [NodeOp.perform, handleAppendEntriesResponse, ne_eq, hlt.1, not_true_eq_false,
      if_neg (not_lt.mpr hlt.2.le), if_pos hlt.2, ↓reduceIte]
    exact .of_updateTerm clk hs hlt.2 rfl
  · have hp : ((NodeOp.appendEntriesResponse clk resp peer).perform r).1.pstate = r.pstate := by
      simp only [NodeOp.perform, handleAppendEntriesResponse]
      rcases findPeerIdx r peer with _ | i
      · dsimp only
        split_ifs with hl hgt hle
        · rfl
        · rfl
        · exact absurd ⟨not_not.mp hl, hle⟩ hlt
        · rfl
      · dsimp only
        split_ifs with hl hgt hle
        · rfl
        · rfl
        · exact absurd ⟨not_not.mp hl, hle⟩ hlt
        · obtain ⟨m, hm⟩ := advanceCommitIndexLocked_eq (recordMatch r i resp.matchIndex)
          rw [hm]
          rfl
        · obtain ⟨m, hm⟩ := advanceCommitIndexLocked_eq r
          rw [hm]
        · rfl
        · rfl
    exact .same rfl (by rw [hp]) (by rw [hp])

theorem NodeOp.termStep (op : NodeOp) (hs : InSync r) (hf : r.logFile.NoFaults) :
    TermStep r op (op.perform r).1 := by
  cases op with
  | timeout clk outCap => exact raftTimeout_termStep clk outCap hf
  | requestVoteRequest clk req =>
    by_cases ht : req.term > r.pstate.currentTerm
    · exact requestVoteRequest_termStep_of_lt clk req hs hf ht
    · exact requestVoteRequest_termStep_of_le clk req hf ht
  | requestVoteResponse clk resp peer =>
    simp only [perform, handleRequestVoteResponse]
    split_ifs with ht
    · exact .of_updateTerm clk hs ht rfl
    · exact .same rfl rfl rfl
    · rcases findPeerIdx r peer with _ | i
      · exact .same rfl rfl rfl
      · dsimp only
        split_ifs <;> exact .same rfl rfl rfl
  | appendEntriesRequest clk req => exact appendEntriesRequest_termStep clk req hs
  | appendEntriesResponse clk resp peer => exact appendEntriesResponse_termStep clk resp peer hs
  | leaderSendCommand command =>
    have h := raftLeaderSendCommand_sameVote r command
    exact .same rfl h.currentTerm h.votedFor
  | restart clk peers =>
    obtain ⟨p, hp, ht, hv, -⟩ := startNode_eq hs clk r.id peers
    exact .same rfl (by simp [perform, hp, ht]) (by simp [perform, hp, hv])

/-! ## Runs -/

/-- No two candidates get the vote of one term. -/
def OneVote (votes : List (UInt64 × UInt64)) : Prop :=
  ∀ t c c', (t, c) ∈ votes → (t, c') ∈ votes → c = c'

/-- An operation after which the term has not gone back and no vote has been cast twice, given
the votes cast before it. -/
def NodeOp.Sound (votes : List (UInt64 × UInt64)) (r : RaftNode) : NodeOp → Prop
  | timeout clk outCap =>
    (timeout clk outCap).Elects r → r.pstate.currentTerm ≠ 18446744073709551615
  | requestVoteRequest _ req =>
    req.term = r.pstate.currentTerm → r.state ≠ .leader → mayVote r req = true →
      (req.term, raftNone) ∈ votes → req.candidateId = raftNone
  | _ => True

/-- What the votes cast so far have to do with the node. -/
structure Voted (votes : List (UInt64 × UInt64)) (r : RaftNode) : Prop where
  inSync : InSync r
  noFaults : r.logFile.NoFaults
  term_le : ∀ x ∈ votes, x.1 ≤ r.pstate.currentTerm
  votedFor : ∀ c, (r.pstate.currentTerm, c) ∈ votes → r.pstate.votedFor = c
  oneVote : OneVote votes

variable {votes : List (UInt64 × UInt64)}

theorem OneVote.of_append {votes' : List (UInt64 × UInt64)} (h : OneVote (votes ++ votes')) :
    OneVote votes :=
  fun t c c' hc hc' => h t c c' (List.mem_append_left _ hc) (List.mem_append_left _ hc')

/-- One more vote, for whom earlier votes of its term went to. -/
theorem OneVote.concat {t c : UInt64} (h : OneVote votes) (hc : ∀ c', (t, c') ∈ votes → c' = c) :
    OneVote (votes ++ [(t, c)]) := by
  intro t' c₁ c₂ h₁ h₂
  rw [List.mem_append, List.mem_singleton, Prod.mk.injEq] at h₁ h₂
  rcases h₁ with h₁ | ⟨rfl, rfl⟩ <;> rcases h₂ with h₂ | ⟨ht, rfl⟩
  · exact h t' c₁ c₂ h₁ h₂
  · subst ht
    exact hc c₁ h₁
  · exact (hc c₂ h₂).symm
  · rfl

/-- A vote in a term in which none has been cast for another. -/
theorem Voted.concat {t c : UInt64} (h : Voted votes r) (hs : InSync r') (hf : r'.logFile.NoFaults)
    (hle : r.pstate.currentTerm ≤ r'.pstate.currentTerm) (hc : r'.pstate.votedFor = c)
    (ht : r'.pstate.currentTerm = t) (hold : ∀ c', (t, c') ∈ votes → c' = c) :
    Voted (votes ++ [(t, c)]) r' where
  inSync := hs
  noFaults := hf
  term_le x hx := by
    rw [List.mem_append, List.mem_singleton] at hx
    rcases hx with hx | rfl
    · exact (h.term_le x hx).trans hle
    · exact ht.ge
  votedFor c' hc' := by
    rw [List.mem_append, List.mem_singleton, Prod.mk.injEq, ht] at hc'
    rcases hc' with hc' | ⟨-, rfl⟩
    · rw [hold c' hc', hc]
    · exact hc
  oneVote := h.oneVote.concat hold

/-- Nobody has been voted for in a later term. -/
theorem Voted.not_mem_of_lt {t c : UInt64} (h : Voted votes r) (ht : r.pstate.currentTerm < t) :
    (t, c) ∉ votes :=
  fun hc => absurd (h.term_le _ hc) (not_le.mpr ht)

theorem lt_add_one_of_ne {t : UInt64} (h : t ≠ 18446744073709551615) : t < t + 1 := by
  rw [UInt64.lt_iff_toNat_lt, UInt64.toNat_add]
  have hne : t.toNat ≠ 18446744073709551615 := fun he => h (UInt64.toNat_inj.mp he)
  have hlt := t.toNat_lt
  have h1 : (1 : UInt64).toNat = 1 := rfl
  omega

/-- The vote that lets a request of the current term pass is for its sender, or for nobody. -/
theorem votedFor_of_mayVote {req : RequestVoteRequest} (h : mayVote r req = true) :
    r.pstate.votedFor = raftNone ∨ r.pstate.votedFor = req.candidateId := by
  simp only [mayVote, Bool.and_eq_true, Bool.or_eq_true, decide_eq_true_eq] at h
  exact h.1

/-- A sound operation keeps the votes apart and the terms in order. -/
theorem Voted.step (h : Voted votes r) (ho : op.Sound votes r) :
    Voted (votes ++ (op.cast r).toList) (op.perform r).1 ∧
      r.pstate.currentTerm ≤ (op.perform r).1.pstate.currentTerm := by
  obtain ⟨hf, hs⟩ := (op.perform_carries ⟨_, _, h.inSync⟩).inSync h.noFaults h.inSync
  cases op.termStep h.inSync h.noFaults with
  | same hc ht hv =>
    rw [hc, Option.toList_none, List.append_nil]
    refine ⟨⟨hs, hf, ?_, ?_, h.oneVote⟩, ht.ge⟩
    · rw [ht]
      exact h.term_le
    · rw [ht, hv]
      exact h.votedFor
  | later hc ht =>
    rw [hc, Option.toList_none, List.append_nil]
    exact ⟨⟨hs, hf, fun x hx => (h.term_le x hx).trans ht.le,
      fun c hc => absurd hc (h.not_mem_of_lt ht), h.oneVote⟩, ht.le⟩
  | candidacy he hc ht hv =>
    have hlt : r.pstate.currentTerm < (op.perform r).1.pstate.currentTerm := by
      rw [ht]
      apply lt_add_one_of_ne
      cases op with
      | timeout clk outCap => exact ho he
      | _ => cases he
    rw [hc, Option.toList_some]
    exact ⟨h.concat hs hf hlt.le hv rfl fun c' hc' => absurd hc' (h.not_mem_of_lt hlt), hlt.le⟩
  | vote clk req hop hc ht hle hv hmay =>
    rw [hc, Option.toList_some]
    have hle' : r.pstate.currentTerm ≤ (op.perform r).1.pstate.currentTerm := by
      rw [ht]
      exact hle
    refine ⟨h.concat hs hf hle' hv rfl fun c' hc' => ?_, hle'⟩
    rw [ht] at hc'
    rcases hle.lt_or_eq with hlt | heq
    · exact absurd hc' (h.not_mem_of_lt hlt)
    · obtain ⟨hl, hm⟩ := hmay heq.symm
      have hvc : r.pstate.votedFor = c' := h.votedFor c' (by rw [heq]; exact hc')
      rcases votedFor_of_mayVote hm with hnone | hcand
      · subst hop
        obtain rfl : raftNone = c' := hnone.symm.trans hvc
        exact (ho heq.symm hl hm hc').symm
      · exact hvc.symm.trans hcand

/-- An operation that is not sound takes the term back, or gives a vote twice. -/
theorem Voted.sound (h : Voted votes r)
    (hle : r.pstate.currentTerm ≤ (op.perform r).1.pstate.currentTerm)
    (hone : OneVote (votes ++ (op.cast r).toList)) : op.Sound votes r := by
  cases op with
  | timeout clk outCap =>
    rintro he hmax
    rcases (NodeOp.timeout clk outCap).termStep h.inSync h.noFaults with
      ⟨hc, -, -⟩ | ⟨hc, -⟩ | ⟨-, -, ht, -⟩ | ⟨_, _, hop, -⟩
    · rw [NodeOp.cast, if_pos he] at hc
      cases hc
    · rw [NodeOp.cast, if_pos he] at hc
      cases hc
    · rw [ht, hmax] at hle
      exact absurd hle (by decide)
    · cases hop
  | requestVoteRequest clk req =>
    intro ht hl hm hmem
    obtain ⟨f, hw⟩ := answerRequestVote_of_mayVote clk ⟨r.pstate.currentTerm, false⟩ h.noFaults
      ht.symm hl hm
    have hr : handleRequestVoteRequest clk r req =
        answerRequestVote clk r req ⟨r.pstate.currentTerm, false⟩ := by
      rw [handleRequestVoteRequest, if_neg (by simp [ht])]
    have hc := cast_requestVoteRequest clk req (hr.trans hw)
    rw [hc] at hone
    refine hone req.term _ _ (List.mem_append_right _ ?_) (List.mem_append_left _ hmem)
    simp [raftResetElectionTimer, voteFor, ht]
  | requestVoteResponse clk resp peer => exact trivial
  | appendEntriesRequest clk req => exact trivial
  | appendEntriesResponse clk resp peer => exact trivial
  | leaderSendCommand command => exact trivial
  | restart clk peers => exact trivial

theorem NodeOp.run_concat (r : RaftNode) (ops : List NodeOp) (op : NodeOp) :
    NodeOp.run r (ops ++ [op]) = (op.perform (NodeOp.run r ops)).1 := by
  simp [NodeOp.run]

theorem votesCast_concat (r : RaftNode) (ops : List NodeOp) (op : NodeOp) :
    votesCast r (ops ++ [op]) = votesCast r ops ++ (op.cast (NodeOp.run r ops)).toList := by
  induction ops generalizing r with
  | nil => simp [votesCast, NodeOp.run]
  | cons op' ops ih =>
    have hrun : NodeOp.run (op'.perform r).1 ops = NodeOp.run r (op' :: ops) := rfl
    rw [List.cons_append, votesCast, votesCast, ih, hrun, List.append_assoc]

theorem votesCast_append (r : RaftNode) (ops ops' : List NodeOp) :
    votesCast r (ops ++ ops') = votesCast r ops ++ votesCast (NodeOp.run r ops) ops' := by
  induction ops generalizing r with
  | nil => rfl
  | cons op ops ih =>
    rw [List.cons_append, votesCast, votesCast, ih, List.append_assoc]
    rfl

/-- A node that has never run before has cast no vote. -/
theorem freshNode_voted (clk : Clock) (id : UInt64) (peers : List UInt64) :
    Voted [] (freshNode clk id peers) :=
  ⟨(freshNode_inSync clk id peers).1, (freshNode_inSync clk id peers).2, by simp, by simp,
    fun _ _ _ h => by simp at h⟩

/-- Up to here no term has gone back and no vote has been cast twice. -/
def TermsInOrder (r : RaftNode) (pre : List NodeOp) : Prop :=
  (∀ pre', pre' <+: pre →
    (NodeOp.run r pre').pstate.currentTerm ≤ (NodeOp.run r pre).pstate.currentTerm) ∧
  OneVote (votesCast r pre)

theorem termsInOrder_iff {ops : List NodeOp} :
    (∀ pre pre', pre' <+: pre → pre <+: ops →
      (NodeOp.run r pre').pstate.currentTerm ≤ (NodeOp.run r pre).pstate.currentTerm) ∧
      OneVote (votesCast r ops) ↔ ∀ pre, pre <+: ops → TermsInOrder r pre := by
  constructor
  · rintro ⟨hle, hone⟩ pre hp
    constructor
    · exact fun pre' hp' => hle pre pre' hp' hp
    · obtain ⟨ops', rfl⟩ := hp
      rw [votesCast_append] at hone
      exact hone.of_append
  · intro h
    exact ⟨fun pre pre' hp' hp => (h pre hp).1 pre' hp', (h ops List.prefix_rfl).2⟩

/-- A sound operation goes on with a run in order. -/
theorem Voted.concat_run {pre : List NodeOp} (h : Voted (votesCast r pre) (NodeOp.run r pre))
    (hin : TermsInOrder r pre) (ho : op.Sound (votesCast r pre) (NodeOp.run r pre)) :
    Voted (votesCast r (pre ++ [op])) (NodeOp.run r (pre ++ [op])) ∧
      TermsInOrder r (pre ++ [op]) := by
  obtain ⟨hv, hle⟩ := h.step ho
  rw [← votesCast_concat, ← NodeOp.run_concat] at hv
  rw [← NodeOp.run_concat] at hle
  refine ⟨hv, ?_, hv.oneVote⟩
  intro pre' hp'
  rcases List.prefix_concat_iff.mp hp' with rfl | hp'
  · exact le_rfl
  · exact (hin.1 pre' hp').trans hle

/-- The terms of a run never go back and no term sees two votes, if and only if no election begins
in the last term and no other candidate gets the vote of a term in which `RAFT_NONE` had it. -/
theorem one_vote_iff (clk : Clock) (id : UInt64) (peers : List UInt64) (ops : List NodeOp) :
    (∀ pre pre', pre' <+: pre → pre <+: ops →
      (NodeOp.run (freshNode clk id peers) pre').pstate.currentTerm ≤
        (NodeOp.run (freshNode clk id peers) pre).pstate.currentTerm) ∧
      OneVote (votesCast (freshNode clk id peers) ops) ↔
    ∀ pre op, pre ++ [op] <+: ops → op.Sound (votesCast (freshNode clk id peers) pre)
      (NodeOp.run (freshNode clk id peers) pre) := by
  have hfresh := freshNode_voted clk id peers
  set r := freshNode clk id peers
  apply termsInOrder_iff.trans
  apply Runs.forall_prefix_iff
    (I := fun pre => Voted (votesCast r pre) (NodeOp.run r pre) ∧ TermsInOrder r pre)
  · refine ⟨hfresh, ?_, hfresh.oneVote⟩
    intro pre' hp'
    rw [List.prefix_nil.mp hp']
  · rintro pre op - ⟨hv, hin⟩ ho
    exact hv.concat_run hin ho
  · rintro pre - ⟨-, hin⟩
    exact hin
  · rintro pre op - ⟨hv, -⟩ hin
    have hle := hin.1 pre (List.prefix_append _ _)
    have hone := hin.2
    rw [NodeOp.run_concat] at hle
    rw [votesCast_concat] at hone
    exact hv.sound hle hone

/-- A candidate with the id `RAFT_NONE` and another get the vote of term 1. -/
theorem two_votes_in_one_term :
    ¬ ∀ (clk : Clock) (id : UInt64) (peers : List UInt64) (ops : List NodeOp),
      (∀ pre pre', pre' <+: pre → pre <+: ops →
        (NodeOp.run (freshNode clk id peers) pre').pstate.currentTerm ≤
          (NodeOp.run (freshNode clk id peers) pre).pstate.currentTerm) ∧
        OneVote (votesCast (freshNode clk id peers) ops) := by
  intro h
  have hone := (h ⟨0, 0⟩ 1 [2, 3] [.requestVoteRequest ⟨1, 0⟩ ⟨1, 0, 0, raftNone⟩,
    .requestVoteRequest ⟨2, 0⟩ ⟨1, 0, 0, 3⟩]).2
  exact absurd (hone 1 raftNone 3 (by decide) (by decide)) (by decide)

/-- An election in the last term goes back to term 0. -/
example : (NodeOp.run (freshNode ⟨0, 0⟩ 1 [2, 3])
    [.requestVoteRequest ⟨1, 0⟩ ⟨18446744073709551615, 0, 0, 3⟩,
      .timeout ⟨1000, 0⟩ 8]).pstate.currentTerm = 0 := by decide

end Corestack.Raft
