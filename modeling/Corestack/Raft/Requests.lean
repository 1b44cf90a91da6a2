import Corestack.Raft.Safety

/-! # The requests of a leader

A leader's `next_index` stays within its log and one place behind, so a request
is a slice of the log, and the receiver never leaves its loop early.
-/

namespace Corestack.Raft

open Consensus

variable {cfg : Config} {s : Cluster cfg} {g : cfg.History} {a b c : cfg.Node} {r r' : RaftNode}
  {i : Nat} {req : AppendEntriesRequest} {past : List (Cluster cfg)}

/-! ## Building a request -/

/-- The places of the log that `raft_append_entries` reads. -/
def appendReads (r : RaftNode) (peerIdx : Nat) : List Nat :=
  let nextIdx := r.lstate.nextIndex peerIdx
  let prevLogIdx := nextIdx - 1
  (if prevLogIdx > 0 then [(prevLogIdx - 1).toNat] else []) ++
    (List.range (entryCount r.pstate.logLen nextIdx.toNat)).map (prevLogIdx.toNat + ·)

/-- Nothing else of the log goes into a request. -/
theorem raftAppendEntries_congr {log : Nat → LogEntry}
    (h : ∀ n ∈ appendReads r i, log n = r.pstate.log n) :
    raftAppendEntries { r with pstate := { r.pstate with log := log } } i =
      raftAppendEntries r i := by
  have hlog : ∀ n ∈ List.range (entryCount r.pstate.logLen (r.lstate.nextIndex i).toNat),
      log ((r.lstate.nextIndex i - 1).toNat + n) =
        r.pstate.log ((r.lstate.nextIndex i - 1).toNat + n) := by
    intro n hn
    apply h
    exact List.mem_append_right _ (List.mem_map_of_mem hn)
  unfold raftAppendEntries
  dsimp only
  split_ifs with hs hp
  · rfl
  · have hprev : log (r.lstate.nextIndex i - 1 - 1).toNat =
        r.pstate.log (r.lstate.nextIndex i - 1 - 1).toNat := by
      apply h
      simp [appendReads, hp]
    simp only [hprev, List.map_congr_left hlog]
  · simp only [List.map_congr_left hlog]

/-- The request is the slice of the log behind `prevLogIndex`. -/
structure IsSlice (r : RaftNode) (req : AppendEntriesRequest) : Prop where
  prev_le : req.prevLogIndex.toNat ≤ r.pstate.logLen
  prevLogTerm : 0 < req.prevLogIndex.toNat →
    req.prevLogTerm = (r.pstate.log (req.prevLogIndex.toNat - 1)).term
  length_le : req.log.length ≤ raftAppendBatch
  log : req.log = (r.pstate.entries.drop req.prevLogIndex.toNat).take raftAppendBatch
  index : ∀ j e, req.log[j]? = some e → e.index.toNat = req.prevLogIndex.toNat + j + 1

/-- What a leader keeps about a peer lies within its log, and so does the request for it. -/
structure WellFormed (r : RaftNode) (peerIdx : Nat) : Prop where
  next_pos : 1 ≤ (r.lstate.nextIndex peerIdx).toNat
  next_le : (r.lstate.nextIndex peerIdx).toNat ≤ r.pstate.logLen + 1
  match_le : (r.lstate.matchIndex peerIdx).toNat ≤ r.pstate.logLen
  reads_lt : ∀ n ∈ appendReads r peerIdx, n < r.pstate.logLen
  request : ∃ req, raftAppendEntries r peerIdx = some req ∧
    req.prevLogIndex = r.lstate.nextIndex peerIdx - 1 ∧ IsSlice r req

/-- Every place read is before the next index, or among the entries from it on. -/
theorem lt_of_mem_appendReads (hpos : 0 < (r.lstate.nextIndex i).toNat)
    (hle : (r.lstate.nextIndex i).toNat ≤ r.pstate.logLen + 1) {n : Nat}
    (hn : n ∈ appendReads r i) : n < r.pstate.logLen := by
  have hprev := toNat_sub_one hpos
  have hcount := entryCount_add_le r.pstate.logLen hpos hle
  rcases List.mem_append.mp hn with hn | hn
  · split_ifs at hn with hgt
    · obtain rfl := List.mem_singleton.mp hn
      have hgt' : 0 < (r.lstate.nextIndex i - 1).toNat := UInt64.lt_iff_toNat_lt.mp hgt
      rw [toNat_sub_one hgt']
      omega
    · exact absurd hn List.not_mem_nil
  · obtain ⟨j, hj, rfl⟩ := List.mem_map.mp hn
    have hj' := List.mem_range.mp hj
    omega

/-- A request holds all entries from the next index on, or a full batch of them. -/
theorem take_entryCount (l : List LogEntry) {nextIdx : Nat} (hpos : 0 < nextIdx)
    (h : nextIdx ≤ l.length + 1) : (l.drop (nextIdx - 1)).take (entryCount l.length nextIdx) =
      (l.drop (nextIdx - 1)).take raftAppendBatch := by
  rw [List.take_eq_take_iff, List.length_drop]
  unfold entryCount
  dsimp only
  split_ifs <;> omega

theorem raftAppendEntries_isSlice (h : NodeRel g a r) (hib : (cfg.peers a)[i]? = some b)
    (hr : raftAppendEntries r i = some req) :
    req.prevLogIndex = r.lstate.nextIndex i - 1 ∧ IsSlice r req := by
  obtain ⟨hl, -, -, hprev, hle, hlog, hlast⟩ := raftAppendEntries_spec h hib hr
  have hpos := (h.leader hl).next_pos hib
  have hnext := (h.leader hl).next_le hib
  rw [← PersistentState.length_entries] at hnext hlog
  rw [hprev, take_entryCount _ hpos hnext, ← hprev] at hlog
  constructor
  · unfold raftAppendEntries at hr
    split_ifs at hr
    obtain rfl := Option.some.inj hr
    rfl
  · refine ⟨hle, fun h0 => ?_, req.length_le, hlog, fun j e he => ?_⟩
    · symm
      apply hlast
      have hlt : req.prevLogIndex.toNat - 1 < r.pstate.logLen := by omega
      rw [Option.mem_def, List.getLast?_take, if_neg h0.ne',
        PersistentState.getElem?_entries _ hlt]
      rfl
    · rw [hlog, List.getElem?_take] at he
      split_ifs at he
      rw [List.getElem?_drop] at he
      exact LogFile.Holds.dense h.inSync _ e he

/-- What a leader keeps about its peers is in order. -/
theorem NodeRel.wellFormed (hv : Valid LogEntry.term g) (h : NodeRel g a r)
    (hl : r.state = .leader) (hi : i < r.peers.length) : WellFormed r i := by
  have hlead := h.leader hl
  have hi' : i < (cfg.peers a).length := by
    rw [h.peers, Config.peerIds, List.length_map] at hi
    exact hi
  have hib := List.getElem?_eq_getElem hi'
  have hpos := hlead.next_pos hib
  have hle := hlead.next_le hib
  refine ⟨hpos, hle, hlead.matchIndex_le hv h hib,
    fun n hn => lt_of_mem_appendReads hpos hle hn, ?_⟩
  have hr : ∃ req, raftAppendEntries r i = some req := by
    unfold raftAppendEntries
    rw [if_neg (by simp [hl, hi])]
    exact ⟨_, rfl⟩
  obtain ⟨req, hr⟩ := hr
  exact ⟨req, hr, raftAppendEntries_isSlice h hib hr⟩

/-! ## Receiving a request -/

instance (r : RaftNode) (req : AppendEntriesRequest) : Decidable (Refuses r req) :=
  inferInstanceAs (Decidable (_ ∨ _))

/-- The node as it goes into the loop over the entries of a request, if the handler comes to it. -/
def loopNode (clk : Clock) (r : RaftNode) (req : AppendEntriesRequest) : Option RaftNode :=
  if req.term < r.pstate.currentTerm then none
  else
    match updateTermLocked clk r req.term with
    | (r, true) =>
      let r := followLeader clk r req.leaderId
      if Refuses r req then none else some r
    | (_, false) => none

theorem acceptAppendEntries_of_not_refuses (h : ¬ Refuses r req) :
    acceptAppendEntries r req =
      match storeEntries req.prevLogIndex r 0 req.log with
      | (r', false) => (r', ⟨r.pstate.currentTerm, false, 0⟩)
      | (r', true) => (learnCommit r' req.leaderCommit,
          ⟨r.pstate.currentTerm, true, req.prevLogIndex + .ofNat req.log.length⟩) := by
  unfold acceptAppendEntries
  exact (if_neg fun hp => h (Or.inl hp)).trans (if_neg fun hp => h (Or.inr hp))

/-- The handler comes to the loop with the follower that `loopNode` says. -/
theorem loopNode_eq_some {clk : Clock} (h : loopNode clk r req = some r') :
    ¬ Refuses r' req ∧ ¬ req.term < r.pstate.currentTerm ∧
      ∃ r₁, updateTermLocked clk r req.term = (r₁, true) ∧
        r' = followLeader clk r₁ req.leaderId := by
  unfold loopNode at h
  split_ifs at h with hlt
  rcases hu : updateTermLocked clk r req.term with ⟨r₁, _ | _⟩
  · rw [hu] at h
    cases h
  · rw [hu] at h
    dsimp only at h
    split_ifs at h with hn
    exact ⟨Option.some.inj h ▸ hn, hlt, r₁, rfl, (Option.some.inj h).symm⟩

/-- The answer of a node that comes to the loop is that of the loop. -/
theorem handleAppendEntriesRequest_of_loopNode {clk : Clock} (h : loopNode clk r req = some r') :
    handleAppendEntriesRequest clk r req =
      match storeEntries req.prevLogIndex r' 0 req.log with
      | (r₁, false) => (r₁, ⟨r'.pstate.currentTerm, false, 0⟩)
      | (r₁, true) => (learnCommit r₁ req.leaderCommit,
          ⟨r'.pstate.currentTerm, true, req.prevLogIndex + .ofNat req.log.length⟩) := by
  obtain ⟨hn, hlt, r₁, hu, rfl⟩ := loopNode_eq_some h
  rw [← acceptAppendEntries_of_not_refuses hn, handleAppendEntriesRequest, if_neg hlt]
  split_ifs with hgt
  · rw [hu]
  · rw [updateTermLocked_of_le (not_lt.mp hgt)] at hu
    rw [(Prod.mk.inj hu).1]

/-- A request of a leader goes through the loop to the end. -/
theorem storeEntries_of_packetRel {clk : Clock} (hv : Valid LogEntry.term g) (hg : GoodLogs g)
    (h : NodeRel g a r) (hp : PacketRel g ⟨c, a, .appendEntries req⟩)
    (hr : loopNode clk r req = some r') :
    (storeEntries req.prevLogIndex r' 0 req.log).2 = true := by
  obtain ⟨hn, hlt, r₁, hu, rfl⟩ := loopNode_eq_some hr
  have hnode : ∃ g', Valid LogEntry.term g' ∧ GoodLogs g' ∧
      NodeRel g' a (followLeader clk r₁ req.leaderId) ∧
      PacketRel g' ⟨c, a, .appendEntries req⟩ := by
    rcases (not_lt.mp hlt).lt_or_eq with hgt | heq
    · obtain ⟨r₂, hu', -, -, -, hm⟩ := updateTermLocked_moves clk hv h hgt
      obtain rfl := (Prod.mk.inj (hu'.symm.trans hu)).1
      have hf := (followLeader_moves clk hm.valid hm.node req.leaderId).2
      exact ⟨_, hm.valid, fun t => hg t, hf.node, hp.mono hm.ext⟩
    · rw [updateTermLocked_of_le heq.ge] at hu
      obtain rfl := (Prod.mk.inj hu).1
      exact ⟨g, hv, hg, (followLeader_moves clk hv h req.leaderId).2.node, hp⟩
  obtain ⟨g', hv', hg', hnode, hp'⟩ := hnode
  rcases acceptAppendEntries_loop hv' hg' hnode.toMatches hp' with ⟨hrefuse, -⟩ | ⟨l, hloop, -, -⟩
  · exact absurd hrefuse hn
  · exact hloop.graft.1

/-- In every state of a cluster a leader keeps to its log and sends slices of it, and a request
that its receiver takes up goes through the loop to the end. -/
theorem requests_well_formed (h : Cluster.Run (s :: past)) :
    (∀ a i, (s.node a).state = .leader → i < (s.node a).peers.length → WellFormed (s.node a) i) ∧
    ∀ c a req, ⟨c, a, .appendEntries req⟩ ∈ s.net → ∀ clk r,
      loopNode clk (s.node a) req = some r →
        (storeEntries req.prevLogIndex r 0 req.log).2 = true := by
  obtain ⟨g, hg⟩ := Run.simulates h
  constructor
  · intro a i hl hi
    exact (hg.node a).wellFormed hg.valid hl hi
  · intro c a req hp clk r hr
    exact storeEntries_of_packetRel hg.valid hg.logs (hg.node a) (hg.net _ hp) hr

/-- Node 0 leads with two entries, which it has sent to node 1 in one request. -/
theorem requests_well_formed_trio :
    WellFormed ((Cluster.after Cluster.atZero Cluster.replicated).node 0) 0 ∧
      ∃ req r, ⟨0, 1, .appendEntries req⟩ ∈ (Cluster.after Cluster.atZero Cluster.replicated).net ∧
        loopNode ⟨1000, 0⟩ ((Cluster.after Cluster.atZero Cluster.replicated).node 1) req = some r ∧
        (storeEntries req.prevLogIndex r 0 req.log).2 = true := by
  have hrun : Cluster.Run (Cluster.states Cluster.atZero Cluster.replicated) :=
    Cluster.run_states _ _ (by decide +kernel)
  obtain ⟨hnode, hnet⟩ := requests_well_formed hrun
  let req : AppendEntriesRequest :=
    ⟨1, 0, 0, 0, 0, [⟨1, 1, ⟨0, 0, 0, 1⟩⟩, ⟨2, 1, ⟨0, 0, 0, 2⟩⟩], by decide⟩
  have hmem : ⟨0, 1, .appendEntries req⟩ ∈
      (Cluster.after Cluster.atZero Cluster.replicated).net := by
    apply List.mem_of_getElem? (i := 4)
    rfl
  have hsome : (loopNode ⟨1000, 0⟩
      ((Cluster.after Cluster.atZero Cluster.replicated).node 1) req).isSome = true := by
    decide +kernel
  obtain ⟨r, hr⟩ := Option.isSome_iff_exists.mp hsome
  refine ⟨hnode 0 0 (by decide +kernel) (by decide +kernel), req, r, hmem, hr, ?_⟩
  exact hnet 0 1 req hmem ⟨1000, 0⟩ r hr

end Corestack.Raft
