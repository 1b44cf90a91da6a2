import Corestack.Raft.Simulation

/-! # Safety of the cluster

Elections, logs, committed entries and acknowledgements in every run of a cluster:
what holds of the histories is read off the nodes and the packets.
-/

namespace Corestack.Raft

open Consensus

variable {cfg : Config} {s s' u : Cluster cfg} {g g' : cfg.History} {a b : cfg.Node}
  {r r' : RaftNode} {t : UInt64} {tr later past : List (Cluster cfg)}

/-! ## Runs -/

/-- A run may go on from one state to the other. -/
def Cluster.Reaches : Cluster cfg → Cluster cfg → Prop :=
  Relation.ReflTransGen fun s s' => ∃ e, s' = s.step e ∧ s'.TermsBelow

theorem Run.simulates (h : Cluster.Run (s :: past)) : ∃ g, Simulates s g := by
  generalize htr : s :: past = tr at h
  induction h generalizing s past with
  | init clk =>
    obtain ⟨rfl, -⟩ := List.cons.inj htr
    exact ⟨_, simulates_init clk⟩
  | step e _ ht ih =>
    obtain ⟨rfl, rfl⟩ := List.cons.inj htr
    obtain ⟨g, hg⟩ := ih rfl
    obtain ⟨a, g', hs⟩ := hg.step e ht
    exact ⟨g', hs.sim⟩

/-- The last step of a run. -/
theorem Run.last_step (h : Cluster.Run (u :: tr)) (htr : tr ≠ []) :
    Cluster.Run tr ∧ ∃ s ∈ tr.head?, ∃ e, u = s.step e ∧ u.TermsBelow := by
  cases h with
  | init clk => exact absurd rfl htr
  | step e h ht => exact ⟨h, _, rfl, e, rfl, ht⟩

theorem Run.tail (h : Cluster.Run (later ++ s :: past)) : Cluster.Run (s :: past) := by
  induction later with
  | nil => exact h
  | cons x later ih =>
    exact ih (Run.last_step h (by simp)).1

theorem Run.reaches (h : Cluster.Run (later ++ s :: past)) (hu : u ∈ later ++ [s]) :
    s.Reaches u := by
  induction later generalizing u with
  | nil =>
    obtain rfl := List.mem_singleton.mp hu
    exact .refl
  | cons x later ih =>
    obtain ⟨h', y, hy, he⟩ := Run.last_step h (by simp)
    rcases List.mem_cons.mp hu with rfl | hu
    · refine .tail (ih h' ?_) he
      cases later with
      | nil => simpa [eq_comm] using hy
      | cons z later => exact List.mem_cons.mpr (Or.inl (Option.some.inj hy).symm)
    · exact ih h' hu

/-- Of two states of a run, one comes before the other. -/
theorem Run.reaches_or (h : Cluster.Run tr) (hs : s ∈ tr) (hs' : s' ∈ tr) :
    ∃ x ∈ tr, (x = s ∧ x.Reaches s') ∨ (x = s' ∧ x.Reaches s) := by
  obtain ⟨l, l', rfl⟩ := List.append_of_mem hs
  rcases List.mem_append.mp hs' with hm | hm
  · exact ⟨s, hs, Or.inl ⟨rfl, Run.reaches h (List.mem_append_left _ hm)⟩⟩
  rcases List.mem_cons.mp hm with rfl | hm
  · exact ⟨s', hs, Or.inl ⟨rfl, .refl⟩⟩
  · obtain ⟨m, m', rfl⟩ := List.append_of_mem hm
    refine ⟨s', hs', Or.inr ⟨rfl, ?_⟩⟩
    have h' : Cluster.Run ((l ++ s :: m) ++ s' :: m') := by simpa using h
    exact Run.reaches h' (by simp)

theorem Simulates.reaches (h : Simulates s g) (hr : s.Reaches s') :
    ∃ g', Simulates s' g' ∧ Grows g g' := by
  induction hr with
  | refl => exact ⟨g, h, .refl⟩
  | tail _ he ih =>
    obtain ⟨e, rfl, ht⟩ := he
    obtain ⟨g₁, h₁, hg₁⟩ := ih
    obtain ⟨a, g', hs⟩ := h₁.step e ht
    exact ⟨g', hs.sim, hg₁.tail ⟨a, hs.moves.ext⟩⟩

theorem Run.mem_simulates (h : Cluster.Run tr) (hs : s ∈ tr) : ∃ g, Simulates s g := by
  obtain ⟨l, l', rfl⟩ := List.append_of_mem hs
  exact Run.simulates (Run.tail h)

/-! ## Leaders -/

/-- A leader has won its term, and its log is the log of the term. -/
theorem Simulates.leads (h : Simulates s g) (hl : s.Leads a t) :
    g.leader t = some a ∧ (s.node a).pstate.entries = g.leaderLog t := by
  obtain ⟨hs, rfl⟩ := hl
  have hlead := (h.node a).leader hs
  exact ⟨hlead.won, hlead.entries_eq h.valid (h.node a).toMatches⟩

/-- At most one node is ever leader in a term. -/
theorem election_safety (h : Cluster.Run tr) (hs : s ∈ tr) (hs' : s' ∈ tr) (hl : s.Leads a t)
    (hl' : s'.Leads b t) : a = b := by
  obtain ⟨x, hx, ⟨rfl, hr⟩ | ⟨rfl, hr⟩⟩ := Run.reaches_or h hs hs'
  · obtain ⟨g, hg⟩ := Run.mem_simulates h hx
    obtain ⟨g', hg', hgrow⟩ := hg.reaches hr
    have ha := hgrow.leader (hg.leads hl).1
    exact Option.some.inj (ha.symm.trans (hg'.leads hl').1)
  · obtain ⟨g, hg⟩ := Run.mem_simulates h hx
    obtain ⟨g', hg', hgrow⟩ := hg.reaches hr
    have hb := hgrow.leader (hg.leads hl').1
    exact Option.some.inj ((hg'.leads hl).1.symm.trans hb)

/-- Node 0 is the leader of term 1 before and after it has sent entries. -/
theorem election_safety_trio :
    (Cluster.after Cluster.atZero Cluster.elected).Leads 0 1 ∧
      (Cluster.after Cluster.atZero Cluster.replicated).Leads 0 1 ∧
      (0 : Config.trio.Node) = 0 := by
  have hl : (Cluster.after Cluster.atZero Cluster.elected).Leads 0 1 := by decide +kernel
  have hl' : (Cluster.after Cluster.atZero Cluster.replicated).Leads 0 1 := by
    decide +kernel
  exact ⟨hl, hl', election_safety (Cluster.run_states _ Cluster.replicated (by decide +kernel))
    (Cluster.after_mem_states _ _ _) (Cluster.after_mem_states _ _ []) hl hl'⟩

/-! ## Logs -/

/-- The first `n` entries of the two logs are there and equal. -/
def SharesPrefix (r r' : RaftNode) (n : Nat) : Prop :=
  n ≤ r.pstate.logLen ∧ n ≤ r'.pstate.logLen ∧ ∀ i < n, r.pstate.log i = r'.pstate.log i

theorem sharesPrefix_of_isPrefix {p : List LogEntry} (h : p <+: r.pstate.entries)
    (h' : p <+: r'.pstate.entries) : SharesPrefix r r' p.length := by
  have hle := h.length_le
  have hle' := h'.length_le
  rw [PersistentState.length_entries] at hle hle'
  refine ⟨hle, hle', fun i hi => ?_⟩
  have he := List.prefix_iff_getElem?.mp h i hi
  have he' := List.prefix_iff_getElem?.mp h' i hi
  rw [PersistentState.getElem?_entries _ (hi.trans_le hle)] at he
  rw [PersistentState.getElem?_entries _ (hi.trans_le hle')] at he'
  exact Option.some.inj (he.trans he'.symm)

/-- Two logs with entries of one term at some place agree up to that place. -/
theorem log_matching (h : Cluster.Run (s :: past)) (a b : cfg.Node) {i : Nat} (hi : 0 < i)
    (ha : i ≤ (s.node a).pstate.logLen) (hb : i ≤ (s.node b).pstate.logLen)
    (ht : ((s.node a).pstate.log (i - 1)).term = ((s.node b).pstate.log (i - 1)).term) :
    SharesPrefix (s.node a) (s.node b) i := by
  obtain ⟨g, hg⟩ := Run.simulates h
  have hlin : ∀ c, Lineage LogEntry.term g (s.node c).pstate.entries := fun c =>
    (hg.node c).log ▸ hg.valid.log_lineage c
  have hpre : ∀ c, i ≤ (s.node c).pstate.logLen →
      (s.node c).pstate.entries.take (i - 1) ++ [(s.node c).pstate.log (i - 1)] <+:
        (s.node c).pstate.entries := fun c hc => by
    rw [PersistentState.take_pred_append _ hi hc]
    exact List.take_prefix _ _
  have heq := (hlin a).matching (hlin b) (hpre a ha) (hpre b hb) (by simp; omega) ht
  have hshare := sharesPrefix_of_isPrefix (hpre a ha) (heq ▸ hpre b hb)
  rwa [PersistentState.take_pred_append _ hi ha, List.length_take, PersistentState.length_entries,
    min_eq_left ha] at hshare

/-- Nodes 0 and 1 have an entry of term 1 at index 2, so their first two entries are equal. -/
theorem log_matching_trio :
    SharesPrefix ((Cluster.after Cluster.atZero Cluster.replicated).node 0)
      ((Cluster.after Cluster.atZero Cluster.replicated).node 1) 2 :=
  log_matching (Cluster.run_states _ Cluster.replicated (by decide +kernel)) _ _ (by decide)
    (by decide +kernel) (by decide +kernel) (by decide +kernel)

/-! ## Committed entries -/

/-- A leader whose commit position has risen has found its log committed up to there. -/
theorem Stepped.committed {e : Event cfg} (h : Simulates s g) (hs : Stepped s e a g g')
    (hl : ((s.step e).node b).state = .leader)
    (hlt : (s.node b).vstate.commitIndex < ((s.step e).node b).vstate.commitIndex) :
    ((s.step e).node b).vstate.commitIndex.toNat ≤ ((s.step e).node b).pstate.logLen ∧
      Committed LogEntry.term g' ((s.step e).node b).pstate.currentTerm
        (((s.step e).node b).pstate.entries.take
          ((s.step e).node b).vstate.commitIndex.toNat) := by
  rcases eq_or_ne b a with rfl | hb
  swap
  · rw [hs.other b hb] at hlt
    exact absurd hlt (lt_irrefl _)
  cases hs.kind with
  | keeps _ hk =>
    rcases hk.vstate with hv | ⟨n, hv, -, -, hn, hc⟩
    · rw [hv] at hlt
      exact absurd hlt (lt_irrefl _)
    · rw [hv]
      exact ⟨hn, hc⟩
  | restart clk he =>
    obtain rfl := he
    obtain ⟨-, -, hv⟩ := startNode_moves clk h.valid (h.node b)
    simp [Cluster.step, Cluster.update, hv] at hlt
  | commitEntry outCap he =>
    obtain rfl := he
    obtain ⟨n, -, -, he⟩ := raftCommitEntry_eq (s.node b) outCap
    simp [Cluster.step, Cluster.update, he] at hlt
  | appendEntries k clk c req he hk =>
    obtain rfl := he
    rw [Cluster.step_deliver_appendEntries _ hk] at hl hlt
    rcases handleAppendEntriesRequest_cases clk h.valid h.logs (h.node b)
      (h.net _ (List.mem_of_getElem? hk)) with
      ⟨-, he⟩ | ⟨hr, -⟩ | ⟨l, ha, -⟩
    · rw [he] at hlt
      exact absurd hlt (lt_irrefl _)
    · exact absurd (hl.symm.trans hr.state) (by simp)
    · exact absurd (hl.symm.trans ha.state) (by simp)

/-- What a leader has committed is in the log of every leader from then on. -/
theorem leader_completeness (h : Cluster.Run (later ++ s' :: s :: past))
    (hl : (s'.node a).state = .leader)
    (hlt : (s.node a).vstate.commitIndex < (s'.node a).vstate.commitIndex)
    (hu : u ∈ later ++ [s']) (hb : (u.node b).state = .leader)
    (ht : (s'.node a).pstate.currentTerm ≤ (u.node b).pstate.currentTerm) :
    SharesPrefix (u.node b) (s'.node a) (s'.node a).vstate.commitIndex.toNat := by
  have hreach := Run.reaches h hu
  cases Run.tail h with
  | step e hrun hterm =>
    obtain ⟨g, hg⟩ := Run.simulates hrun
    obtain ⟨c, g', hs⟩ := hg.step e hterm
    obtain ⟨hle, hcom⟩ := hs.committed hg hl hlt
    obtain ⟨g'', hu', hgrow⟩ := hs.sim.reaches hreach
    obtain ⟨hwon, hlog⟩ := hu'.leads ⟨hb, rfl⟩
    have hpre := hu'.valid.committed_prefix (hcom.grows hgrow) ht (by simp [hwon])
    rw [← hlog] at hpre
    have := sharesPrefix_of_isPrefix hpre (List.take_prefix _ _)
    rwa [List.length_take, PersistentState.length_entries, min_eq_left hle] at this

/-- Node 0 commits two entries of term 1 and is the leader when it sends its next heartbeat. -/
theorem leader_completeness_trio :
    SharesPrefix
      ((Cluster.after Cluster.atZero
        (.heartbeat 0 :: Cluster.replicated)).node 0)
      ((Cluster.after Cluster.atZero Cluster.replicated).node 0) 2 := by
  have hrun : Cluster.Run (Cluster.states Cluster.atZero
      (.heartbeat 0 :: Cluster.replicated)) := Cluster.run_states _ _ (by decide +kernel)
  exact leader_completeness (show Cluster.Run ([_] ++ _ :: _ :: _) from hrun)
    (by decide +kernel) (by decide +kernel) List.mem_cons_self (by decide +kernel)
    (by decide +kernel)

/-! ## Acknowledgements -/

/-- While its winner does not lead, the log of a term stays as it is. -/
theorem Stepped.frozen {e : Event cfg} (h : Simulates s g) (hs : Stepped s e b g g')
    (hw : g.leader t = some a) (hn : ¬ (s.Leads a t ∧ (s.step e).Leads a t)) :
    g'.leaderLog t = g.leaderLog t := by
  refine hs.moves.frozen (by simp [hw]) fun ⟨h₁, h₂, h₃, h₄⟩ => hn ?_
  obtain rfl : b = a := Option.some.inj ((h.leads ⟨h₁, h₂⟩).1.symm.trans hw)
  exact ⟨⟨h₁, h₂⟩, h₃, h₄⟩

theorem Stepped.no_return {e : Event cfg} (hs : Stepped s e b g g') (hw : g.leader t = some a)
    (hl : (s.step e).Leads a t) : s.Leads a t := by
  obtain ⟨hl, rfl⟩ := hl
  rcases eq_or_ne a b with rfl | hb
  · exact hs.moves.no_return hl hw
  · rw [hs.other a hb] at hl ⊢
    exact ⟨hl, rfl⟩

theorem Simulates.reaches_frozen (h : Simulates s g) (hw : g.leader t = some a)
    (hn : ¬ s.Leads a t) (hr : s.Reaches s') :
    ∃ g', Simulates s' g' ∧ Grows g g' ∧ g'.leaderLog t = g.leaderLog t ∧ ¬ s'.Leads a t := by
  induction hr with
  | refl => exact ⟨g, h, .refl, rfl, hn⟩
  | tail _ he ih =>
    obtain ⟨e, rfl, ht⟩ := he
    obtain ⟨g₁, h₁, hg₁, hl₁, hn₁⟩ := ih
    obtain ⟨b, g', hs⟩ := h₁.step e ht
    have hw₁ := hg₁.leader hw
    exact ⟨g', hs.sim, hg₁.tail ⟨b, hs.moves.ext⟩,
      (hs.frozen h₁ hw₁ fun hl => hn₁ hl.1).trans hl₁, fun hl => hn₁ (hs.no_return hw₁ hl)⟩

/-- The log of a term is the log that its leader has, or had when it last led. -/
theorem Run.leaderLog (h : Cluster.Run (later ++ s :: past)) (hl : s.Leads a t)
    (hlater : ∀ x ∈ later, ¬ x.Leads a t) (hu : (later ++ [s]).head? = some u) :
    ∃ g, Simulates u g ∧ g.leader t = some a ∧ g.leaderLog t = (s.node a).pstate.entries := by
  rcases List.eq_nil_or_concat' later with rfl | ⟨l, x, rfl⟩
  · obtain rfl : s = u := Option.some.inj hu
    obtain ⟨g, hg⟩ := Run.simulates h
    exact ⟨g, hg, (hg.leads hl).1, (hg.leads hl).2.symm⟩
  · have hmem : u ∈ l ++ [x] := by
      cases l with
      | nil => simpa using hu.symm
      | cons y l => simp at hu; simp [hu]
    rw [List.append_assoc, List.singleton_append] at h
    have hreach := Run.reaches h hmem
    have hx : ¬ x.Leads a t := hlater x (by simp)
    cases Run.tail h with
    | step e hrun hterm =>
      obtain ⟨g, hg⟩ := Run.simulates hrun
      obtain ⟨b, g', hs⟩ := hg.step e hterm
      obtain ⟨hw, hlog⟩ := hg.leads hl
      obtain ⟨g'', hsim, hgrow, hlog'', -⟩ :=
        hs.sim.reaches_frozen (hs.moves.ext.leader hw) hx hreach
      exact ⟨g'', hsim, hgrow.leader (hs.moves.ext.leader hw),
        hlog''.trans ((hs.frozen hg hw fun hl => hx hl.2).trans hlog.symm)⟩

/-- A prefix that a node has confirmed is in its log while it stays in the term. -/
theorem Simulates.acked_prefix (h : Simulates s g) {n : Nat}
    (hc : (s.node b).pstate.currentTerm = t) (hn : n ≤ g.acked b t) :
    (g.leaderLog t).take n <+: (s.node b).pstate.entries := by
  subst hc
  rw [← (h.node b).log]
  rw [← (h.node b).cur] at hn ⊢
  exact h.valid.acked_prefix (List.take_prefix _ _) ((List.length_take_le _ _).trans hn)

/-- As long as a node stays in a term, its log begins with every prefix that it has ever confirmed
in it, as the leader of the term has that prefix or had it when it last led; so a leader's
`match_index` does not exceed what the two logs share. -/
theorem acknowledged_kept (h : Cluster.Run (later ++ s :: past)) (hl : s.Leads a t)
    (hlater : ∀ x ∈ later, ¬ x.Leads a t) (hu : (later ++ [s]).head? = some u) {p : cfg.Node}
    (hc : (u.node p).pstate.currentTerm = t) :
    (∀ d resp, ⟨p, d, .appendEntriesResponse resp⟩ ∈ u.net → resp.term = t →
      resp.success = true → SharesPrefix (u.node p) (s.node a) resp.matchIndex.toNat) ∧
    (u.Leads a t → ∀ i, (cfg.peers a)[i]? = some p →
      SharesPrefix (u.node p) (u.node a) ((u.node a).lstate.matchIndex i).toNat) := by
  obtain ⟨g, hg, hw, hlog⟩ := Run.leaderLog h hl hlater hu
  have hshare : ∀ {n : Nat} {r : RaftNode}, r.pstate.entries = g.leaderLog t → n ≤ g.acked p t →
      SharesPrefix (u.node p) r n := by
    intro n r hr hn
    have hpre : (g.leaderLog t).take n <+: r.pstate.entries := hr ▸ List.take_prefix _ _
    have := sharesPrefix_of_isPrefix (hg.acked_prefix hc hn) hpre
    rwa [List.length_take, min_eq_left (hn.trans (hg.valid.acked_le p t))] at this
  refine ⟨fun d resp hm ht hs => hshare hlog.symm ?_, fun hl i hi => hshare (hg.leads hl).2 ?_⟩
  · have := hg.net _ hm hs
    rwa [ht] at this
  · obtain ⟨hl, ht⟩ := hl
    have := ((hg.node a).leader hl).acked hi
    rwa [ht] at this

/-- Node 1 has confirmed two entries to node 0, which leads. -/
theorem acknowledged_kept_trio :
    SharesPrefix ((Cluster.after Cluster.atZero Cluster.replicated).node 1)
      ((Cluster.after Cluster.atZero Cluster.replicated).node 0) 2 := by
  have hrun : Cluster.Run ([] ++ Cluster.states Cluster.atZero Cluster.replicated) :=
    Cluster.run_states _ Cluster.replicated (by decide +kernel)
  have hl : (Cluster.after Cluster.atZero Cluster.replicated).Leads 0 1 := by
    decide +kernel
  exact (acknowledged_kept hrun hl (by simp) rfl
    (by decide +kernel : (_ : RaftNode).pstate.currentTerm = _)).2 hl 0 (by decide +kernel)

end Corestack.Raft
