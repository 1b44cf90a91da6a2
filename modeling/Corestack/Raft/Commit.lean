import Corestack.Raft.Safety

/-! # What a node takes for committed

A follower takes for committed what its leader has committed, up to the end of its
own log, whether or not the leader has confirmed that log. The runs in which it
has are those in which all nodes deliver the same entries.
-/

namespace Corestack.Raft

open Consensus

variable {cfg : Config} {s s' : Cluster cfg} {g g' : cfg.History} {a b c : cfg.Node}
  {r r' : RaftNode} {tr past : List (Cluster cfg)}

/-! ## The condition -/

/-- The node has the entries of the request already, and those before them. -/
def Covers (r : RaftNode) (req : AppendEntriesRequest) : Prop :=
  req.prevLogIndex.toNat + req.log.length ≤ r.pstate.logLen ∧
  (0 < req.prevLogIndex.toNat →
    (r.pstate.log (req.prevLogIndex.toNat - 1)).term = req.prevLogTerm) ∧
  ∀ j (h : j < req.log.length),
    (r.pstate.log (req.prevLogIndex.toNat + j)).term = req.log[j].term

/-- The commit position that the request offers to a node which has its entries already. -/
def offered (r : RaftNode) (req : AppendEntriesRequest) : Nat :=
  min req.leaderCommit.toNat r.pstate.logLen

/-- In one of these states `c` was leader in term `t`, with an entry at index `n` of the same term
as the one that the node has there. -/
def Backed (tr : List (Cluster cfg)) (c : cfg.Node) (t : UInt64) (r : RaftNode) (n : Nat) : Prop :=
  ∃ x ∈ tr, x.Leads c t ∧ n ≤ (x.node c).pstate.logLen ∧
    ((x.node c).pstate.log (n - 1)).term = (r.pstate.log (n - 1)).term

/-- A request that leaves the log of its receiver as it is, and raises the commit position beyond
the entries of the request, raises it to a place where the sender, as leader of the term of the
request, has had an entry of the same term. -/
def SoundRequest (tr : List (Cluster cfg)) (c : cfg.Node) (r : RaftNode)
    (req : AppendEntriesRequest) : Prop :=
  r.pstate.currentTerm ≤ req.term → Covers r req →
    req.prevLogIndex.toNat + req.log.length < offered r req →
    r.vstate.commitIndex.toNat < offered r req → Backed tr c req.term r (offered r req)

/-- The event delivers no unsound request. -/
def SoundStep (tr : List (Cluster cfg)) (s : Cluster cfg) : Event cfg → Prop
  | .deliver k _ =>
    match s.net[k]? with
    | some ⟨c, a, .appendEntries req⟩ => SoundRequest tr c (s.node a) req
    | _ => True
  | _ => True

/-- The runs all of whose steps are sound. -/
inductive SoundRun : List (Cluster cfg) → Prop
  | init (clk : cfg.Node → Clock) : SoundRun [Cluster.init clk]
  | step {s : Cluster cfg} {past : List (Cluster cfg)} (e : Event cfg) (h : SoundRun (s :: past))
      (ht : (s.step e).TermsBelow) (hs : SoundStep (s :: past) s e) :
      SoundRun (s.step e :: s :: past)

instance (r : RaftNode) (req : AppendEntriesRequest) : Decidable (Covers r req) :=
  inferInstanceAs (Decidable (_ ∧ _ ∧ _))

instance (tr : List (Cluster cfg)) (c : cfg.Node) (t : UInt64) (r : RaftNode) (n : Nat) :
    Decidable (Backed tr c t r n) :=
  inferInstanceAs (Decidable (∃ x ∈ tr, _))

instance (tr : List (Cluster cfg)) (c : cfg.Node) (r : RaftNode) (req : AppendEntriesRequest) :
    Decidable (SoundRequest tr c r req) :=
  inferInstanceAs (Decidable (_ → _))

instance (tr : List (Cluster cfg)) (s : Cluster cfg) : DecidablePred (SoundStep tr s)
  | .deliver k _ =>
    match hk : s.net[k]? with
    | some ⟨c, a, .appendEntries req⟩ =>
      decidable_of_iff (SoundRequest tr c (s.node a) req) (by simp [SoundStep, hk])
    | some ⟨_, _, .requestVote _⟩ => isTrue (by simp [SoundStep, hk])
    | some ⟨_, _, .requestVoteResponse _⟩ => isTrue (by simp [SoundStep, hk])
    | some ⟨_, _, .appendEntriesResponse _⟩ => isTrue (by simp [SoundStep, hk])
    | none => isTrue (by simp [SoundStep, hk])
  | .timeout .. => isTrue trivial
  | .heartbeat .. => isTrue trivial
  | .appendEntries .. => isTrue trivial
  | .sendCommand .. => isTrue trivial
  | .commitEntry .. => isTrue trivial
  | .restart .. => isTrue trivial

/-- A list of events, the last one first, is a sound run if each of them is a sound step. -/
theorem soundRun_states (clk : cfg.Node → Clock) (es : List (Event cfg))
    (ht : ∀ s ∈ Cluster.states clk es, s.TermsBelow)
    (hs : ∀ t ∈ es.tails, ∀ e ∈ t.head?,
      SoundStep (Cluster.states clk t.tail) (Cluster.after clk t.tail) e) :
    SoundRun (Cluster.states clk es) := by
  induction es with
  | nil => exact .init clk
  | cons e es ih =>
    have hr := ih (fun s hm => ht s (List.mem_cons_of_mem _ hm)) fun t hm => hs t (by simp [hm])
    have hlast := ht _ List.mem_cons_self
    have hstep := hs (e :: es) (by simp) e rfl
    cases es with
    | nil => exact .step e hr hlast hstep
    | cons e' es => exact .step e hr hlast hstep

/-! ## The invariant -/

/-- What the node takes for committed is in its log and is committed. -/
structure CommitSafe (g : cfg.History) (r : RaftNode) : Prop where
  applied_le : r.vstate.lastApplied.toNat ≤ r.vstate.commitIndex.toNat
  commit_le : r.vstate.commitIndex.toNat ≤ r.pstate.logLen
  committed : CommittedPrefix LogEntry.term g r.pstate.currentTerm
    (r.pstate.entries.take r.vstate.commitIndex.toNat)

/-- What the node has delivered is committed, and since its last start it is the log up to
`lastApplied`. -/
structure DeliverSafe (g : cfg.History) (r : RaftNode) (ds : List (List LogEntry)) : Prop where
  now : ds.head? = some (r.pstate.entries.take r.vstate.lastApplied.toNat)
  committed : ∀ l ∈ ds, ∃ t, CommittedPrefix LogEntry.term g t l

/-- The logs that leaders have had so far are in the logs of their terms. -/
def PastLogs (tr : List (Cluster cfg)) (g : cfg.History) : Prop :=
  ∀ x ∈ tr, ∀ c t, x.Leads c t → g.leader t = some c ∧ (x.node c).pstate.entries <+: g.leaderLog t

theorem CommitSafe.mono (hx : Extends a g g') (h : CommitSafe g r) : CommitSafe g' r :=
  ⟨h.applied_le, h.commit_le, h.committed.mono hx le_rfl⟩

theorem DeliverSafe.mono {ds : List (List LogEntry)} (hx : Extends a g g')
    (h : DeliverSafe g r ds) : DeliverSafe g' r ds := by
  refine ⟨h.now, fun l hl => ?_⟩
  obtain ⟨t, ht⟩ := h.committed l hl
  exact ⟨t, ht.mono hx le_rfl⟩

theorem PastLogs.mono (hx : Extends a g g') (h : PastLogs tr g) : PastLogs tr g' := by
  intro x hm c t hl
  obtain ⟨hw, hp⟩ := h x hm c t hl
  exact ⟨hx.leader hw, hp.trans (hx.leaderLog t)⟩

theorem take_eq_of_isPrefix {l l' : List LogEntry} {n : Nat} (h : l <+: l') (hn : n ≤ l.length) :
    l'.take n = l.take n := by
  obtain ⟨m, rfl⟩ := h
  exact List.take_append_of_le_length hn

/-- A new log that starts with what the node takes for committed. -/
theorem DeliverSafe.congr {ds : List (List LogEntry)} (h : DeliverSafe g r ds)
    (hs : CommitSafe g r) (hv : r'.vstate.lastApplied = r.vstate.lastApplied)
    (hp : r.pstate.entries.take r.vstate.commitIndex.toNat <+: r'.pstate.entries) :
    DeliverSafe g r' ds := by
  refine ⟨?_, h.committed⟩
  have hlen : r.vstate.lastApplied.toNat ≤
      (r.pstate.entries.take r.vstate.commitIndex.toNat).length := by
    rw [List.length_take, PersistentState.length_entries, min_eq_left hs.commit_le]
    exact hs.applied_le
  rw [h.now, hv, take_eq_of_isPrefix hp hlen, List.take_take, min_eq_left hs.applied_le]

theorem CommitSafe.keeps (hs : CommitSafe g r) (hm : Moves a g r g' r') (hn : Matches g a r)
    (hk : Keeps g' r r') : CommitSafe g' r' := by
  have hcur : r.pstate.currentTerm ≤ r'.pstate.currentTerm := by
    rw [← hn.cur, ← hm.node.cur]; exact hm.ext.cur_le
  have hlen := hk.entries.length_le
  simp only [PersistentState.length_entries] at hlen
  rcases hk.vstate with hv | ⟨n, hv, hlt, -, hle, hc⟩
  · refine ⟨by rw [hv]; exact hs.applied_le, by rw [hv]; exact hs.commit_le.trans hlen, ?_⟩
    rw [hv, take_eq_of_isPrefix hk.entries (by simpa using hs.commit_le)]
    exact hs.committed.mono hm.ext hcur
  · rw [UInt64.lt_iff_toNat_lt] at hlt
    refine ⟨by rw [hv]; exact hs.applied_le.trans hlt.le, by rw [hv]; exact hle, ?_⟩
    rw [hv]
    exact Or.inr ⟨_, le_rfl, _, hc, List.prefix_rfl⟩

/-! ## Requests -/

theorem covers_of_isPrefix {req : AppendEntriesRequest} {l : List LogEntry}
    (hlen : l.length = req.prevLogIndex.toNat) (hp : l ++ req.log <+: r.pstate.entries)
    (hlast : ∀ e ∈ l.getLast?, e.term = req.prevLogTerm) : Covers r req := by
  have hle := hp.length_le
  rw [List.length_append, PersistentState.length_entries, hlen] at hle
  have hget : ∀ {i e}, (l ++ req.log)[i]? = some e → r.pstate.log i = e := by
    intro i e hi
    obtain ⟨hlt, -⟩ := List.getElem?_eq_some_iff.mp hi
    have h := List.prefix_iff_getElem?.mp hp i hlt
    rw [← List.getElem?_eq_getElem, hi] at h
    rw [List.length_append, hlen] at hlt
    rw [PersistentState.getElem?_entries _ (by omega)] at h
    exact Option.some.inj h
  refine ⟨hle, fun hpos => ?_, fun j hj => congrArg LogEntry.term (hget ?_)⟩
  · have hlt : req.prevLogIndex.toNat - 1 < l.length := by omega
    rw [hget ((List.getElem?_append_left hlt).trans (List.getElem?_eq_getElem hlt))]
    apply hlast
    rw [Option.mem_def, List.getLast?_eq_getElem?, hlen, List.getElem?_eq_getElem hlt]
  · rw [← hlen, List.getElem?_append_right (Nat.le_add_right _ _), Nat.add_sub_cancel_left]
    exact List.getElem?_eq_getElem hj

/-- Entries that a leader is known to have had are in the log of its term. -/
theorem Backed.take_prefix {t : UInt64} {n : Nat} (hv : Valid LogEntry.term g) (hn : Matches g a r)
    (hpast : PastLogs tr g) (hpos : 0 < n) (hle : n ≤ r.pstate.logLen) (hb : Backed tr c t r n) :
    r.pstate.entries.take n <+: g.leaderLog t := by
  obtain ⟨x, hx, hlead, hxle, hxt⟩ := hb
  have hxp : (x.node c).pstate.entries.take n <+: g.leaderLog t :=
    (List.take_prefix _ _).trans (hpast x hx c t hlead).2
  have hrp : r.pstate.entries.take n <+: r.pstate.entries := List.take_prefix _ _
  rw [← PersistentState.take_pred_append _ hpos hxle] at hxp
  rw [← PersistentState.take_pred_append _ hpos hle] at hrp ⊢
  rw [NodeRel.matching hv hn t _ _ _ _ hrp hxp (by simp; omega) hxt.symm]
  exact hxp

/-- The entries up to an accepted commit position are in the log of the term. -/
theorem Accepted.take_prefix {req : AppendEntriesRequest} {l : List LogEntry}
    (hv : Valid LogEntry.term g) (hn : Matches g a r) (ha : Accepted g r req l r')
    (hpast : PastLogs tr g)
    (hlt : r.vstate.commitIndex.toNat < min req.leaderCommit.toNat r'.pstate.logLen)
    (hsound : SoundRequest tr c r req) :
    r'.pstate.entries.take (min req.leaderCommit.toNat r'.pstate.logLen) <+:
      g.leaderLog req.term := by
  have hent := ha.entries
  by_cases hpre : l ++ req.log <+: r.pstate.entries
  swap
  · -- the log ends with the entries of the request
    rw [graft_of_not_isPrefix hpre] at hent
    rw [hent]
    exact (List.take_prefix _ _).trans ha.isPrefix
  rw [graft_of_isPrefix hpre] at hent
  have hlog : r'.pstate.logLen = r.pstate.logLen := by
    rw [← PersistentState.length_entries, hent, PersistentState.length_entries]
  rw [hlog] at hlt
  rw [hent, hlog]
  rcases le_or_gt (offered r req) (req.prevLogIndex.toNat + req.log.length) with hle | hgt
  · -- the position is within what the request confirms
    have hlen : offered r req ≤ (l ++ req.log).length := by
      rw [List.length_append, ha.length]; exact hle
    rw [← offered, take_eq_of_isPrefix hpre hlen]
    exact (List.take_prefix _ _).trans ha.isPrefix
  · have hcov := covers_of_isPrefix ha.length hpre ha.last
    have hb := hsound ha.term_le hcov hgt hlt
    exact hb.take_prefix hv hn hpast (Nat.zero_lt_of_lt hlt) (min_le_right _ _)

/-- An accepted request keeps what the node takes for committed. -/
theorem CommitSafe.take_prefix_accepted {req : AppendEntriesRequest} {l : List LogEntry}
    (hv : Valid LogEntry.term g) (hw : g.leader req.term ≠ none) (hs : CommitSafe g r)
    (ha : Accepted g r req l r') :
    r.pstate.entries.take r.vstate.commitIndex.toNat <+: r'.pstate.entries := by
  rw [ha.entries]
  exact IsPrefix.graft (List.take_prefix _ _)
    (hv.committedPrefix_leaderLog hs.committed ha.term_le hw) ha.isPrefix

theorem CommitSafe.accepted {req : AppendEntriesRequest} {l : List LogEntry}
    (hv : Valid LogEntry.term g) (hn : Matches g a r) (hs : CommitSafe g r)
    (hp : PacketRel g ⟨c, a, .appendEntries req⟩) (ha : Accepted g r req l r')
    (hpast : PastLogs tr g) (hx : Extends a g g')
    (hsound : SoundRequest tr c r req) :
    CommitSafe g' r' := by
  obtain ⟨-, hw, hbound, -⟩ := hp
  have hpre := hs.take_prefix_accepted hv (by simp [hw]) ha
  have hlen := hpre.length_le
  rw [List.length_take, PersistentState.length_entries, PersistentState.length_entries,
    min_eq_left hs.commit_le] at hlen
  have hold : CommittedPrefix LogEntry.term g' r'.pstate.currentTerm
      (r'.pstate.entries.take r.vstate.commitIndex.toNat) := by
    rw [take_eq_of_isPrefix hpre (by simp; exact hs.commit_le), List.take_take, min_self,
      ha.currentTerm]
    exact hs.committed.mono hx ha.term_le
  rcases ha.commit with he | ⟨hlt, he⟩
  · exact ⟨by rw [he, ha.lastApplied]; exact hs.applied_le, by rw [he]; exact hlen, he ▸ hold⟩
  rw [UInt64.lt_iff_toNat_lt] at hlt
  have hle : r.vstate.commitIndex.toNat ≤ min req.leaderCommit.toNat r'.pstate.logLen :=
    le_min hlt.le hlen
  refine ⟨by rw [he, ha.lastApplied]; exact hs.applied_le.trans hle,
    by rw [he]; exact min_le_right _ _, ?_⟩
  rw [he]
  rcases hle.eq_or_lt with heq | hlt'
  · exact heq ▸ hold
  -- a committed prefix is at least as long as the commit position of the request
  rcases hbound with h0 | ⟨u, hu, p, hcom, hplen⟩
  · simp [h0] at hlt
  have htake := ha.take_prefix hv hn hpast hlt' hsound
  have hpl := hv.committed_prefix hcom hu (by simp [hw])
  refine Or.inr ⟨u, ha.currentTerm ▸ hu, p, hcom.mono hx, ?_⟩
  refine List.prefix_of_prefix_length_le htake hpl ((List.length_take_le _ _).trans ?_)
  exact (min_le_left _ _).trans hplen

/-! ## Runs -/

/-- What holds in the last state of a sound run. -/
structure Agreed (tr : List (Cluster cfg)) (s : Cluster cfg) (g : cfg.History) : Prop where
  sim : Simulates s g
  commit : ∀ a, CommitSafe g (s.node a)
  deliver : ∀ a, DeliverSafe g (s.node a) (s.delivered a)
  past : PastLogs tr g

theorem CommitSafe.zero (hv : r.vstate = ⟨0, 0⟩) : CommitSafe g r :=
  ⟨by simp [hv], by simp [hv], Or.inl (by simp [hv])⟩

theorem agreed_init (clk : cfg.Node → Clock) :
    Agreed [Cluster.init clk] (Cluster.init clk) cfg.noHistory where
  sim := simulates_init clk
  commit a := .zero rfl
  deliver a := ⟨rfl, fun l hl => ⟨0, Or.inl (List.mem_singleton.mp hl)⟩⟩
  past x hx c t hl := by
    obtain rfl := List.mem_singleton.mp hx
    obtain ⟨hw, hlog⟩ := (simulates_init clk).leads hl
    exact ⟨hw, hlog ▸ List.prefix_rfl⟩

theorem raftCommitEntry_safe {ds : List (List LogEntry)} (hs : CommitSafe g r)
    (hd : DeliverSafe g r ds) (outCap : Nat) :
    CommitSafe g (raftCommitEntry r outCap).1 ∧
      DeliverSafe g (raftCommitEntry r outCap).1
        (Cluster.handOut (raftCommitEntry r outCap).2 ds) := by
  obtain ⟨n, hle, hor, he⟩ := raftCommitEntry_eq r outCap
  have hn : n.toNat ≤ r.vstate.commitIndex.toNat := by
    rcases hor with h | rfl
    · exact UInt64.le_iff_toNat_le.mp h
    · exact hs.applied_le
  rw [UInt64.le_iff_toNat_le] at hle
  rw [he]
  refine ⟨⟨hn, hs.commit_le, hs.committed⟩, ?_⟩
  rcases ds with _ | ⟨now, before⟩
  · simpa using hd.now
  obtain rfl : now = r.pstate.entries.take r.vstate.lastApplied.toNat := Option.some.inj hd.now
  have hout : r.pstate.entries.take r.vstate.lastApplied.toNat ++
      (List.range (n.toNat - r.vstate.lastApplied.toNat)).map
        (fun i => r.pstate.log (r.vstate.lastApplied.toNat + i)) =
      r.pstate.entries.take n.toNat := by
    have hcl := hs.commit_le
    rw [PersistentState.map_log_add _ (by omega), ← List.take_add, Nat.add_sub_cancel' hle]
  dsimp only [Cluster.handOut]
  rw [hout]
  refine ⟨rfl, fun l hl => ?_⟩
  rcases List.mem_cons.mp hl with rfl | hl
  · exact ⟨_, hs.committed.of_isPrefix (List.take_prefix_take_left hn)⟩
  · exact hd.committed l (List.mem_cons_of_mem _ hl)

/-- What a sound step does to the node that takes it, and to what has been delivered. -/
theorem Agreed.actor {e : Event cfg} (h : Agreed tr s g) (hst : Stepped s e a g g')
    (hs : SoundStep tr s e) :
    CommitSafe g' ((s.step e).node a) ∧
      DeliverSafe g' ((s.step e).node a) ((s.step e).delivered a) ∧
      ∀ b, b ≠ a → (s.step e).delivered b = s.delivered b := by
  have hx := hst.moves.ext
  have hv := h.sim.valid
  have hn := h.sim.node a
  have hkeep : Keeps g' (s.node a) ((s.step e).node a) → (s.step e).delivered = s.delivered →
      CommitSafe g' ((s.step e).node a) ∧
        DeliverSafe g' ((s.step e).node a) ((s.step e).delivered a) ∧
        ∀ b, b ≠ a → (s.step e).delivered b = s.delivered b := by
    intro hk hd
    refine ⟨(h.commit a).keeps hst.moves hn.toMatches hk, ?_, fun b _ => by rw [hd]⟩
    rw [hd]
    refine ((h.deliver a).congr (h.commit a) ?_ ((List.take_prefix _ _).trans hk.entries)).mono hx
    rcases hk.vstate with hv | ⟨n, hv, -⟩ <;> rw [hv]
  cases hst.kind with
  | keeps hd hk => exact hkeep hk hd
  | restart clk he =>
    obtain rfl := he
    obtain ⟨-, hent, hvs⟩ := startNode_moves clk hv hn
    have hnode : (s.step (.restart a clk)).node a =
        startNode clk (s.node a).logFile (cfg.id a) (cfg.peerIds a) := by
      simp [Cluster.step, Cluster.update]
    have hdel : (s.step (.restart a clk)).delivered a = [] :: s.delivered a := by
      simp [Cluster.step]
    rw [hnode, hdel]
    refine ⟨.zero hvs, ⟨by simp [hvs], fun l hl => ?_⟩, fun b hb => by simp [Cluster.step, hb]⟩
    rcases List.mem_cons.mp hl with rfl | hl
    · exact ⟨0, Or.inl rfl⟩
    · exact ((h.deliver a).mono hx).committed l hl
  | commitEntry outCap he =>
    obtain rfl := he
    obtain ⟨hc, hd⟩ := raftCommitEntry_safe (h.commit a) (h.deliver a) outCap
    have hnode : (s.step (.commitEntry a outCap)).node a =
        (raftCommitEntry (s.node a) outCap).1 := by simp [Cluster.step, Cluster.update]
    have hdel : (s.step (.commitEntry a outCap)).delivered a =
        Cluster.handOut (raftCommitEntry (s.node a) outCap).2 (s.delivered a) := by
      simp [Cluster.step]
    rw [hnode, hdel]
    exact ⟨hc.mono hx, hd.mono hx, fun b hb => by simp [Cluster.step, hb]⟩
  | appendEntries k clk c req he hk =>
    obtain rfl := he
    have hp := h.sim.net _ (List.mem_of_getElem? hk)
    have hdel : (s.step (.deliver k clk)).delivered = s.delivered := by
      simp [Cluster.step, hk]; rfl
    have hnode := Cluster.step_deliver_appendEntries clk hk
    rcases handleAppendEntriesRequest_cases clk hv h.sim.logs hn hp with
      ⟨-, he⟩ | ⟨hr, -⟩ | ⟨l, ha, -⟩
    · exact hkeep (by rw [hnode, he]; exact .refl _ _) hdel
    · exact hkeep (by rw [hnode]; exact ⟨hr.entries ▸ List.prefix_rfl, Or.inl hr.vstate⟩) hdel
    · rw [hnode, hdel]
      have hw : g.leader req.term ≠ none := by simp [hp.2.1]
      have hsound : SoundRequest tr c (s.node a) req := by
        simpa only [SoundStep, hk] using hs
      exact ⟨(h.commit a).accepted hv hn.toMatches hp ha h.past hx hsound,
        ((h.deliver a).congr (h.commit a) ha.lastApplied
          ((h.commit a).take_prefix_accepted hv hw ha)).mono hx, fun _ _ => rfl⟩

theorem Agreed.step {e : Event cfg} (h : Agreed (s :: past) s g) (ht : (s.step e).TermsBelow)
    (hs : SoundStep (s :: past) s e) : ∃ g', Agreed (s.step e :: s :: past) (s.step e) g' := by
  obtain ⟨a, g', hst⟩ := h.sim.step e ht
  have hx := hst.moves.ext
  obtain ⟨hc, hd, hother⟩ := h.actor hst hs
  refine ⟨g', hst.sim, fun b => ?_, fun b => ?_, fun x hmem c t hl => ?_⟩
  · rcases eq_or_ne b a with rfl | hb
    · exact hc
    · rw [hst.other b hb]; exact (h.commit b).mono hx
  · rcases eq_or_ne b a with rfl | hb
    · exact hd
    · rw [hst.other b hb, hother b hb]; exact (h.deliver b).mono hx
  · rcases List.mem_cons.mp hmem with rfl | hmem
    · obtain ⟨hw, hlog⟩ := hst.sim.leads hl
      exact ⟨hw, hlog ▸ List.prefix_rfl⟩
    · exact h.past.mono hx x hmem c t hl

theorem SoundRun.agreed (h : SoundRun (s :: past)) : ∃ g, Agreed (s :: past) s g := by
  generalize htr : s :: past = tr at h
  induction h generalizing s past with
  | init clk =>
    obtain ⟨rfl, rfl⟩ := List.cons.inj htr
    exact ⟨_, agreed_init clk⟩
  | step e _ ht hs ih =>
    obtain ⟨rfl, rfl⟩ := List.cons.inj htr
    obtain ⟨g, hg⟩ := ih rfl
    exact hg.step ht hs

/-- In a sound run the sequences that any two nodes deliver, in any of their starts, are prefixes
of one another. -/
theorem state_machine_safety (h : SoundRun (s :: past)) (a b : cfg.Node) {l l' : List LogEntry}
    (hl : l ∈ s.delivered a) (hl' : l' ∈ s.delivered b) : l <+: l' ∨ l' <+: l := by
  obtain ⟨g, hg⟩ := h.agreed
  obtain ⟨t, ht⟩ := (hg.deliver a).committed l hl
  obtain ⟨t', ht'⟩ := (hg.deliver b).committed l' hl'
  exact hg.sim.valid.committedPrefix_comparable ht ht'

/-- Nodes 0 and 1 deliver the entries that node 0 has committed. -/
theorem state_machine_safety_trio :
    [(⟨1, 1, 0, 0, 0, 1⟩ : LogEntry), ⟨2, 1, 0, 0, 0, 2⟩] <+: [⟨1, 1, 0, 0, 0, 1⟩] ∨
      [(⟨1, 1, 0, 0, 0, 1⟩ : LogEntry)] <+: [⟨1, 1, 0, 0, 0, 1⟩, ⟨2, 1, 0, 0, 0, 2⟩] :=
  state_machine_safety (soundRun_states Cluster.atZero Cluster.agreed (by decide +kernel)
    (by decide +kernel)) 0 1 (by decide +kernel) (by decide +kernel)

/-- Node 0 delivers the entry of term 1 that nobody else has, node 1 those of term 2. -/
theorem state_machine_diverges :
    ¬ ∀ (cfg : Config) (s : Cluster cfg) (past : List (Cluster cfg)), Cluster.Run (s :: past) →
      ∀ (a b : cfg.Node) (l l' : List LogEntry), l ∈ s.delivered a → l' ∈ s.delivered b →
        l <+: l' ∨ l' <+: l := by
  intro h
  have hrun := Cluster.run_states Cluster.atZero
    ([.commitEntry 1 8, .commitEntry 0 8] ++ Cluster.diverged) (by decide +kernel)
  have hpre := h .trio _ _ hrun 0 1 [⟨1, 1, 0, 0, 0, 1⟩] [⟨1, 2, 0, 0, 0, 2⟩, ⟨2, 2, 0, 0, 0, 3⟩]
    (by decide +kernel) (by decide +kernel)
  revert hpre
  decide

/-- The lines that a call has added to the file. -/
def addedLines (r r' : RaftNode) : List (List Char) :=
  Text.fgets lineCap ((r'.logFile.content.getD []).drop (r.logFile.content.getD []).length)

theorem Writes.addedLines {cs : List LogRecord} (h : Writes r r' cs) :
    addedLines r r' = cs.map LogRecord.line := by
  unfold Raft.addedLines
  rw [h, List.drop_left, LogRecord.fgets_flatMap_line]

/-- In a sound run every node has `lastApplied ≤ commitIndex ≤ log_len`, and whatever request of
the network it handles next, it writes no `TRUNCATE` with an index up to its `commitIndex`. -/
theorem committed_kept (h : SoundRun (s :: past)) (a : cfg.Node) :
    (s.node a).vstate.lastApplied ≤ (s.node a).vstate.commitIndex ∧
      (s.node a).vstate.commitIndex.toNat ≤ (s.node a).pstate.logLen ∧
      ∀ clk c req, ⟨c, a, .appendEntries req⟩ ∈ s.net →
        ∀ i ≤ (s.node a).vstate.commitIndex,
          truncateLine i ∉
            addedLines (s.node a) (handleAppendEntriesRequest clk (s.node a) req).1 := by
  obtain ⟨g, hg⟩ := h.agreed
  have hs := hg.commit a
  refine ⟨UInt64.le_iff_toNat_le.mpr hs.applied_le, hs.commit_le, fun clk c req hm i hi hmem => ?_⟩
  have hp := hg.sim.net _ hm
  have hw : g.leader req.term ≠ none := by simp [hp.2.1]
  obtain ⟨cs, hcs, hk⟩ := handleAppendEntriesRequest_writes clk hg.sim.valid hg.sim.logs
    (hg.sim.node a) hp hs.commit_le
    fun hle => hg.sim.valid.committedPrefix_leaderLog hs.committed hle hw
  rw [hcs.addedLines] at hmem
  obtain ⟨d, hd, hline⟩ := List.mem_map.mp hmem
  obtain rfl : d = .truncate i := LogRecord.line_injective hline
  exact (UInt64.le_iff_toNat_le.mp hi).not_gt (hk i hd)

/-- Node 1 has learned of two committed entries. -/
theorem committed_kept_trio :
    let s := Cluster.after Cluster.atZero Cluster.agreed
    (s.node 1).vstate.lastApplied ≤ (s.node 1).vstate.commitIndex ∧
      (s.node 1).vstate.commitIndex.toNat ≤ (s.node 1).pstate.logLen ∧
      ∀ clk c req, ⟨c, 1, .appendEntries req⟩ ∈ s.net → ∀ i ≤ (s.node 1).vstate.commitIndex,
        truncateLine i ∉
          addedLines (s.node 1) (handleAppendEntriesRequest clk (s.node 1) req).1 :=
  committed_kept (soundRun_states Cluster.atZero Cluster.agreed (by decide +kernel)
    (by decide +kernel)) 1

/-- Node 0 has taken its own entry at index 1 for committed, and cuts it off when node 1 sends
the committed ones. -/
theorem committed_cut :
    ¬ ∀ (cfg : Config) (s : Cluster cfg) (past : List (Cluster cfg)), Cluster.Run (s :: past) →
      ∀ a : cfg.Node, (s.node a).vstate.lastApplied ≤ (s.node a).vstate.commitIndex ∧
        (s.node a).vstate.commitIndex.toNat ≤ (s.node a).pstate.logLen ∧
        ∀ clk c req, ⟨c, a, .appendEntries req⟩ ∈ s.net →
          ∀ i ≤ (s.node a).vstate.commitIndex,
            truncateLine i ∉
              addedLines (s.node a) (handleAppendEntriesRequest clk (s.node a) req).1 := by
  intro h
  have hrun := Cluster.run_states Cluster.atZero (.appendEntries 1 0 :: Cluster.diverged)
    (by decide +kernel)
  refine (h .trio _ _ hrun 0).2.2 ⟨2000, 0⟩ 1 ⟨2, 1, 0, 0, 2,
    [⟨1, 2, 0, 0, 0, 2⟩, ⟨2, 2, 0, 0, 0, 3⟩], by decide⟩ ?_ 1 (by decide +kernel)
    (by decide +kernel)
  exact List.mem_of_getElem? (i := 13) rfl

end Corestack.Raft
