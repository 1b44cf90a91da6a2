import Corestack.Raft.Catching

/-! # The cluster can always go on

Whatever messages were lost, delayed, repeated or reordered and whatever nodes have been
started again, the cluster can elect a leader that brings two more commands to all of
the nodes, which then have one log, all of it committed. It takes two commands since
the confirmation of a single entry is never noted.
-/

namespace Corestack.Raft

open Consensus

variable {cfg : Config} {s f x : Cluster cfg} {g : cfg.History} {a b p q : cfg.Node}
  {r : RaftNode} {t : UInt64}

/-! ## Logs and commit positions -/

/-- A node that has the log of a leader of the last term has nothing more. -/
theorem Simulates.entries_eq (h : Simulates s g) (hr : s.Rules a t)
    (hlast : raftLastLogTerm (s.node a) = t) (hpos : 0 < (s.node a).pstate.logLen)
    (hs : SharesPrefix (s.node a) (s.node b) (s.node a).pstate.logLen) :
    (s.node b).pstate.entries = (s.node a).pstate.entries := by
  obtain ⟨-, hlog⟩ := h.leads hr.leads
  obtain ⟨-, hp⟩ := sharesPrefix_iff.mp hs
  rw [List.take_of_length_le (by simp), hlog] at hp
  rw [hlog]
  refine h.valid.eq_leaderLog ?_ hp ?_ ?_
  · rw [← hlog, getLast?_entries, if_neg hpos.ne']
    refine ⟨_, rfl, ?_⟩
    rw [raftLastLogTerm, if_neg hpos.ne'] at hlast
    exact hlast
  · rw [← (h.node b).log]
    exact h.valid.log_lineage b
  · intro e he
    rw [← (h.node b).log] at he
    exact (h.valid.log_term e he).trans ((h.node b).cur.le.trans (hr.top b))

/-- No node has learned of more than a leader of the last term has. -/
theorem Simulates.commitIndex_le (h : Simulates s g) (hr : s.Rules a t) (b : cfg.Node) :
    (s.node b).vstate.commitIndex.toNat ≤ (s.node a).pstate.logLen := by
  obtain ⟨hwon, hlog⟩ := h.leads hr.leads
  rcases (h.node b).commit with h0 | ⟨u, hu, p, hp, hle⟩
  · rw [h0]
    exact Nat.zero_le _
  · have hpre := h.valid.committed_prefix hp (hu.trans (hr.top b)) (by rw [hwon]; simp)
    rw [← hlog] at hpre
    have hlen := hpre.length_le
    rw [PersistentState.length_entries] at hlen
    exact hle.trans hlen

/-! ## Heartbeats -/

theorem handleAppendEntriesRequest_heartbeat {req : AppendEntriesRequest} (clk : Clock)
    (ht : req.term = r.pstate.currentTerm) (hp : req.prevLogIndex = 0) (hl : req.log = []) :
    (handleAppendEntriesRequest clk r req).1 =
      learnCommit (followLeader clk r req.leaderId) req.leaderCommit := by
  simp [handleAppendEntriesRequest, acceptAppendEntries, storeEntries, ht, hp, hl]

theorem learnCommit_pstate (r : RaftNode) (n : UInt64) : (learnCommit r n).pstate = r.pstate := by
  unfold learnCommit
  split_ifs <;> rfl

/-- A node that has all of it learns that all of it is committed. -/
theorem learnCommit_all {n : UInt64} (hcap : r.pstate.logLen ≤ raftLogCap)
    (hn : n.toNat = r.pstate.logLen) (hle : r.vstate.commitIndex.toNat ≤ r.pstate.logLen) :
    (learnCommit r n).vstate.commitIndex.toNat = r.pstate.logLen := by
  have hlast := toNat_raftLastLogIndex hcap
  unfold learnCommit
  split_ifs with hgt
  · dsimp only
    split_ifs
    · exact hn
    · exact hlast
  · rw [gt_iff_lt, UInt64.lt_iff_toNat_lt] at hgt
    omega

/-- The log of node `a`, and all of it committed. -/
structure Informed (s : Cluster cfg) (a : cfg.Node) (r : RaftNode) : Prop where
  entries : r.pstate.entries = (s.node a).pstate.entries
  commitIndex : r.vstate.commitIndex.toNat = r.pstate.logLen

/-- A heartbeat of a leader that has committed its log tells all the others that have it. -/
theorem Simulates.tell (h : Simulates s g) (hr : s.Rules a t)
    (hlast : raftLastLogTerm (s.node a) = t) (hpos : 0 < (s.node a).pstate.logLen)
    (hcommit : (s.node a).vstate.commitIndex.toNat = (s.node a).pstate.logLen)
    (hlogs : ∀ b, (s.node b).pstate.entries = (s.node a).pstate.entries) :
    ∃ f, s.Reaches f ∧ f.Leads a t ∧ ∀ b, Informed s a (f.node b) := by
  have hlead := hr.leads.1
  have hlen : ∀ b, (s.node b).pstate.logLen = (s.node a).pstate.logLen := by
    intro b
    rw [← PersistentState.length_entries, hlogs b, PersistentState.length_entries]
  -- who has an entry of the last term is in it
  have hterm : ∀ b, (s.node b).pstate.currentTerm = t := by
    intro b
    refine le_antisymm (hr.top b) ?_
    have hmem : (s.node a).pstate.log ((s.node a).pstate.logLen - 1) ∈ g.log b := by
      rw [(h.node b).log, hlogs b]
      have hat := (s.node a).pstate.getElem?_entries (Nat.sub_lt hpos Nat.one_pos)
      exact List.mem_of_getElem? hat
    have hle := h.valid.log_term _ hmem
    rw [raftLastLogTerm, if_neg hpos.ne'] at hlast
    rw [hlast, (h.node b).cur] at hle
    exact hle
  obtain ⟨req, hreq⟩ : ∃ req, heartbeatTick (s.node a) = some req :=
    ⟨_, if_neg (by simp [hlead])⟩
  have hfields : req.term = t ∧ req.prevLogIndex = 0 ∧ req.log = [] ∧
      req.leaderCommit = (s.node a).vstate.commitIndex := by
    unfold heartbeatTick at hreq
    rw [if_neg (by simp [hlead])] at hreq
    obtain rfl := Option.some.inj hreq
    exact ⟨hr.leads.2, rfl, rfl, rfl⟩
  obtain ⟨hreqt, hprev, hlog, hleader⟩ := hfields
  have hstep : s.step (.heartbeat a) =
      s.update a (s.node a) ((cfg.peers a).map (⟨a, ·, .appendEntries req⟩)) := by
    simp only [Cluster.step, hreq]
  have hbelow : (s.step (.heartbeat a)).TermsBelow := by
    rw [hstep]
    exact h.below.update (h.below a) a _
  have hnode : ∀ b, (s.step (.heartbeat a)).node b = s.node b := by
    intro b
    rw [hstep, Cluster.update_node]
    split_ifs with hba
    · rw [hba]
    · rfl
  set s₁ := s.step (.heartbeat a)
  suffices hall : ∀ l : List cfg.Node, l.Nodup → a ∉ l → ∃ f, s₁.Reaches f ∧ s₁.net <+: f.net ∧
      (∀ b ∈ l, Informed s a (f.node b)) ∧ ∀ b, b ∉ l → f.node b = s.node b by
    have hna : a ∉ cfg.peers a := fun hm => cfg.mem_peers.mp hm rfl
    obtain ⟨f, hf, -, hin, hout⟩ := hall (cfg.peers a) (cfg.peers_nodup a) hna
    refine ⟨f, (Cluster.Reaches.step .refl _ hbelow).trans hf, ?_, fun b => ?_⟩
    · rw [Cluster.Leads, hout a hna]
      exact hr.leads
    · by_cases hba : b = a
      · rw [hba, hout a hna]
        exact ⟨rfl, hcommit⟩
      · exact hin b (cfg.mem_peers.mpr hba)
  intro l
  induction l with
  | nil =>
    exact fun _ _ => ⟨s₁, .refl, List.prefix_rfl, fun b hb => absurd hb List.not_mem_nil,
      fun b _ => hnode b⟩
  | cons q l ih =>
    intro hnd hnot
    rw [List.nodup_cons] at hnd
    rw [List.mem_cons, not_or] at hnot
    obtain ⟨x, hx, hnet, hin, hout⟩ := ih hnd.2 hnot.2
    have hqa : q ≠ a := Ne.symm hnot.1
    obtain ⟨i, hi⟩ := List.getElem?_of_mem (cfg.mem_peers.mpr hqa)
    have hk₁ : s₁.net[s.net.length + i]? = some ⟨a, q, .appendEntries req⟩ := by
      rw [hstep]
      dsimp only [Cluster.update]
      rw [List.getElem?_append_right (Nat.le_add_right _ _), Nat.add_sub_cancel_left,
        List.getElem?_map, hi]
      rfl
    have hk : x.net[s.net.length + i]? = some ⟨a, q, .appendEntries req⟩ := by
      obtain ⟨net, hnet⟩ := hnet
      rw [← hnet, List.getElem?_append_left (List.getElem?_eq_some_iff.mp hk₁).1, hk₁]
    have hdel := step_deliver hk ⟨0, 0⟩
    have hxq := hout q hnd.1
    have hnew : (handleAppendEntriesRequest ⟨0, 0⟩ (s.node q) req).1 =
        learnCommit (followLeader ⟨0, 0⟩ (s.node q) req.leaderId) req.leaderCommit :=
      handleAppendEntriesRequest_heartbeat _ (hreqt.trans (hterm q).symm) hprev hlog
    have hfq : (x.step (.deliver (s.net.length + i) ⟨0, 0⟩)).node q =
        learnCommit (followLeader ⟨0, 0⟩ (s.node q) req.leaderId) req.leaderCommit := by
      rw [hdel, Cluster.update_node, if_pos rfl, ← hnew, hxq]
      rfl
    have hps := learnCommit_pstate (followLeader ⟨0, 0⟩ (s.node q) req.leaderId) req.leaderCommit
    refine ⟨x.step (.deliver (s.net.length + i) ⟨0, 0⟩), hx.step _ ?_, ?_, ?_, ?_⟩
    · rw [hdel]
      refine (hx.below hbelow).update ?_ q _
      dsimp only
      rw [hxq]
      change (handleAppendEntriesRequest ⟨0, 0⟩ (s.node q) req).1.pstate.currentTerm.toNat < _
      rw [hnew, hps]
      exact h.below q
    · rw [hdel]
      exact hnet.trans (List.prefix_append _ _)
    · intro b hb
      by_cases hbq : b = q
      · subst hbq
        rw [hfq]
        constructor
        · rw [hps]
          exact hlogs b
        · rw [hps]
          refine learnCommit_all (h.node b).inSync.logLen_le ?_ ?_
          · rw [hleader, hcommit]
            exact (hlen b).symm
          · exact (h.commitIndex_le hr b).trans (hlen b).ge
      · rw [hdel, Cluster.update_node, if_neg hbq]
        exact hin b (List.mem_of_ne_of_mem hbq hb)
    · intro b hb
      rw [List.mem_cons, not_or] at hb
      rw [hdel, Cluster.update_node, if_neg hb.1]
      exact hout b hb.2

/-! ## Progress -/

/-- From every state of every run, unless the terms or the places of the logs run out, the cluster
can come to a state in which all nodes have one log, which ends with two new commands and is
committed. No messages in flight, crashes or rivals that a run may have had stand in the way. -/
theorem progress {past : List (Cluster cfg)} (h : Cluster.Run (s :: past))
    (ht : ∀ b, (s.node b).pstate.currentTerm.toNat + 3 < 2 ^ 64)
    (hc : ∀ b, (s.node b).pstate.logLen + 2 ≤ raftLogCap) (first second : ClientCommand) :
    ∃ f a t e e', s.Reaches f ∧ f.Leads a t ∧ e.command = first ∧ e'.command = second ∧
      ∀ b, (f.node b).pstate.entries = (s.node a).pstate.entries ++ [e, e'] ∧
        (f.node b).vstate.commitIndex.toNat = (f.node b).pstate.logLen := by
  obtain ⟨g, hg⟩ := Run.simulates h
  obtain ⟨s₁, a, t, hq₁, hr₁⟩ := hg.exists_rules ht
  obtain ⟨g₁, hg₁, -⟩ := hg.reaches hq₁.reaches
  have hlen₁ : (s₁.node a).pstate.logLen = (s.node a).pstate.logLen := by
    rw [← PersistentState.length_entries, hq₁.entries a, PersistentState.length_entries]
  set k := (s.node a).pstate.logLen with hk
  have hcap := hc a
  -- all cursors are settled
  obtain ⟨s₂, hs₂, hr₂, hps₂, hcur₂⟩ := hg₁.exchange_all hr₁ (Cursor.Settled k) fun i q hi => by
    rw [hlen₁]
    exact (hlen₁ ▸ cursor_bounded (hg₁.node a) hr₁.leads.1 hi (s₁.node q)).exists_settled
  obtain ⟨g₂, hg₂, -⟩ := hg₁.reaches hs₂
  -- the leader takes the commands
  obtain ⟨s₃, hs₃, hr₃, hent₃, hcur₃⟩ := hg₂.command hr₂ (by rw [hps₂, hlen₁]; omega) first
  obtain ⟨g₃, hg₃, -⟩ := hg₂.reaches hs₃
  have hlen₃ : (s₃.node a).pstate.logLen = k + 1 := by
    rw [← PersistentState.length_entries, hent₃, List.length_append, hps₂]
    simp [hlen₁]
  obtain ⟨s₄, hs₄, hr₄, hent₄, hcur₄⟩ := hg₃.command hr₃ (by rw [hlen₃]; omega) second
  obtain ⟨g₄, hg₄, -⟩ := hg₃.reaches hs₄
  have hlen₄ : (s₄.node a).pstate.logLen = k + 2 := by
    rw [← PersistentState.length_entries, hent₄, List.length_append]
    simp [hlen₃]
  -- one more exchange with each peer
  obtain ⟨s₅, hs₅, hr₅, hps₅, hcur₅⟩ := hg₄.exchange_all hr₄ (· = ⟨k + 2, k + 2, k + 2⟩)
    fun i q hi => by
      refine ⟨1, ?_⟩
      rw [hlen₄, Function.iterate_one, hcur₄ i q hi, hcur₃ i q hi]
      exact (hcur₂ i q hi).finish
  obtain ⟨g₅, hg₅, -⟩ := hg₄.reaches hs₅
  have hlen₅ : (s₅.node a).pstate.logLen = k + 2 := by rw [hps₅, hlen₄]
  have hrep : ∀ i q, (cfg.peers a)[i]? = some q → Replicated (s₅.node a) (s₅.node q) i := by
    intro i q hi
    rw [replicated_iff (hg₅.node a) hr₅.leads.1 hi, hlen₅]
    exact hcur₅ i q hi
  have hlast : raftLastLogTerm (s₅.node a) = t := by
    rw [raftLastLogTerm_eq, hps₅, hent₄, List.getLast?_append]
    rfl
  have hreach : s.Reaches s₅ :=
    (((hq₁.reaches.trans hs₂).trans hs₃).trans hs₄).trans hs₅
  obtain ⟨past', h₅⟩ := Run.extend h hreach
  have hcommit := Run.commitIndex_eq h₅ hr₅.leads hlast (Q := Finset.univ) (by
    rw [Finset.card_univ, Fintype.card_fin]
    unfold majority
    omega) fun q _ => by
      by_cases hqa : q = a
      · exact Or.inl hqa
      · obtain ⟨j, hj⟩ := List.getElem?_of_mem (cfg.mem_peers.mpr hqa)
        exact Or.inr ⟨j, hj, hrep j q hj⟩
  have hpos : 0 < (s₅.node a).pstate.logLen := by omega
  obtain ⟨f, hf, hlead, hinf⟩ := hg₅.tell hr₅ hlast hpos hcommit fun b => by
    by_cases hba : b = a
    · rw [hba]
    · obtain ⟨j, hj⟩ := List.getElem?_of_mem (cfg.mem_peers.mpr hba)
      exact hg₅.entries_eq hr₅ hlast hpos (hrep j b hj).log
  refine ⟨f, a, t, ⟨raftLastLogIndex (s₂.node a) + 1, t, first⟩,
    ⟨raftLastLogIndex (s₃.node a) + 1, t, second⟩, hreach.trans hf, hlead, rfl, rfl,
    fun b => ⟨?_, (hinf b).commitIndex⟩⟩
  rw [(hinf b).entries, hps₅, hent₄, hent₃, hps₂, hq₁.entries a, List.append_assoc]
  rfl

/-- Two nodes have stood against each other and the leader has been started again. -/
theorem progress_refused :
    ∃ f a t e e', (Cluster.after Cluster.atZero Cluster.refused).Reaches f ∧ f.Leads a t ∧
      e.command = ⟨0, 0, 0, 2⟩ ∧ e'.command = ⟨0, 0, 0, 1⟩ ∧
      ∀ b, (f.node b).pstate.entries =
          ((Cluster.after Cluster.atZero Cluster.refused).node a).pstate.entries ++ [e, e'] ∧
        (f.node b).vstate.commitIndex.toNat = (f.node b).pstate.logLen :=
  progress (Cluster.run_states Cluster.atZero Cluster.refused (by decide +kernel))
    (by decide +kernel) (by decide +kernel) ⟨0, 0, 0, 2⟩ ⟨0, 0, 0, 1⟩

end Corestack.Raft
