import Corestack.Raft.Electing
import Corestack.Raft.Tracking

/-! # All peers catch up

A leader of a term that no node is beyond exchanges requests and answers with all of
its peers, one after the other. What it knows of one peer is not touched by what it
does with another.
-/

namespace Corestack.Raft

open Consensus

variable {cfg : Config} {s f : Cluster cfg} {g : cfg.History} {a b p q : cfg.Node}
  {r : RaftNode} {t : UInt64} {i j k : Nat} {c : Cursor}

/-! ## Cursors -/

/-- At most one entry is left to be sent, which is too few to be noted. -/
structure Cursor.Settled (k : Nat) (c : Cursor) : Prop where
  shared_eq : c.shared = c.prev
  prev_le : c.prev ≤ k
  le_prev : k ≤ c.prev + 1

/-- Exchanges settle every cursor. -/
theorem Cursor.Bounded.exists_settled (h : c.Bounded k) :
    ∃ n, ((Cursor.step k)^[n] c).Settled k := by
  have hclimb : ∀ d c, c.shared = c.prev → c.prev ≤ k → k - c.prev ≤ d →
      ∃ n, ((Cursor.step k)^[n] c).Settled k := by
    intro d
    induction d with
    | zero =>
      intro c hs hle hd
      exact ⟨0, hs, hle, show k ≤ c.prev + 1 by omega⟩
    | succ d ih =>
      intro c hs hle hd
      by_cases hlast : k ≤ c.prev + 1
      · exact ⟨0, hs, hle, hlast⟩
      · have hstep : c.step k = ⟨min (c.prev + raftAppendBatch) k, min (c.prev + raftAppendBatch) k,
            min (c.prev + raftAppendBatch) k⟩ := by
          rw [Cursor.step, if_neg (by omega), if_pos (by omega)]
        obtain ⟨n, hn⟩ := ih (c.step k) (by rw [hstep]) (by rw [hstep]; exact min_le_right _ _)
          (by rw [hstep]; dsimp only [raftAppendBatch]; omega)
        exact ⟨n + 1, hn⟩
  obtain ⟨hs, hp⟩ := h
  obtain ⟨n, hn⟩ := hclimb k { c with prev := c.shared } rfl (hs.trans hp) (Nat.sub_le _ _)
  refine ⟨n + (c.prev - c.shared), ?_⟩
  rw [Function.iterate_add_apply, Cursor.iterate_walk hs]
  exact hn

/-- Two more entries, and one exchange brings all of the log. -/
theorem Cursor.Settled.finish (h : c.Settled k) : c.step (k + 2) = ⟨k + 2, k + 2, k + 2⟩ := by
  obtain ⟨hs, hp, hk⟩ := h
  have hmin : min (c.prev + raftAppendBatch) (k + 2) = k + 2 :=
    min_eq_right (by simp only [raftAppendBatch]; omega)
  rw [Cursor.step, if_neg (by omega), if_pos (by omega), hmin]

/-! ## One peer -/

/-- An answer of one peer says nothing about another one. -/
theorem handleAppendEntriesResponse_lstate {clk : Clock} {resp : AppendEntriesResponse}
    (hpe : r.peers = cfg.peerIds a) (hi : (cfg.peers a)[i]? = some p) (hij : j ≠ i)
    (hl : (handleAppendEntriesResponse clk r resp (cfg.id p)).state = .leader) :
    (handleAppendEntriesResponse clk r resp (cfg.id p)).lstate.nextIndex j =
        r.lstate.nextIndex j ∧
      (handleAppendEntriesResponse clk r resp (cfg.id p)).lstate.matchIndex j =
        r.lstate.matchIndex j := by
  have hpa : p ≠ a := cfg.mem_peers.mp (List.mem_of_getElem? hi)
  obtain ⟨i', hi'⟩ := cfg.exists_findPeerIdx hpe hpa
  obtain rfl : i' = i := cfg.peers_inj (cfg.findPeerIdx_eq hpe hi') hi
  unfold handleAppendEntriesResponse at hl ⊢
  rw [hi'] at hl ⊢
  dsimp only at hl ⊢
  split_ifs at hl ⊢ with hs hold hnew hok hlt hback
  · exact ⟨rfl, rfl⟩
  · exact ⟨rfl, rfl⟩
  · exact absurd hl (updateTermLocked_not_leader clk hnew)
  all_goals simp only [advanceCommitIndexLocked_lstate, recordMatch, stepBack,
    Function.update_of_ne hij, and_self]

theorem Simulates.exchange_node (h : Simulates s g) (hl : s.Leads a t) {e : Exchange}
    (hi : (cfg.peers a)[e.peerIdx]? = some p) : ∃ resp, (s.exchange a e).node a =
      handleAppendEntriesResponse e.leaderClk (s.node a) resp (cfg.id p) := by
  have hap : a ≠ p := (cfg.mem_peers.mp (List.mem_of_getElem? hi)).symm
  obtain ⟨req, hreq⟩ := raftAppendEntries_of_leader (h.node a) hl.1 hi
  have h₁ : s.step (.appendEntries a e.peerIdx) =
      s.update a (s.node a) [⟨a, p, .appendEntries req⟩] := by
    simp only [Cluster.step, hreq, hi]
  have hk₁ : (s.step (.appendEntries a e.peerIdx)).net[s.net.length]? =
      some ⟨a, p, .appendEntries req⟩ := by
    simp [h₁, Cluster.update]
  have h₂ := step_deliver hk₁ e.peerClk
  set x := (s.step (.appendEntries a e.peerIdx)).step (.deliver s.net.length e.peerClk) with hx
  have hk₂ : x.net[s.net.length + 1]? = some ⟨p, a, .appendEntriesResponse
      (handleAppendEntriesRequest e.peerClk (s.node p) req).2⟩ := by
    simp [h₂, h₁, Cluster.update, Packet.receive]
  have hxa : x.node a = s.node a := by
    rw [h₂, Cluster.update_node, if_neg hap, h₁, Cluster.update_node, if_pos rfl]
  refine ⟨(handleAppendEntriesRequest e.peerClk (s.node p) req).2, ?_⟩
  rw [Cluster.exchange, ← hx, step_deliver hk₂, Cluster.update_node, if_pos rfl, hxa]
  rfl

/-- What exchanges with the peer at place `i` leave. -/
structure OnlyPeer (s : Cluster cfg) (a : cfg.Node) (t : UInt64) (i : Nat) (f : Cluster cfg) :
    Prop where
  reaches : s.Reaches f
  rules : f.Rules a t
  pstate : (f.node a).pstate = (s.node a).pstate
  cursor : ∀ j q, j ≠ i → (cfg.peers a)[j]? = some q →
    cursor (f.node a) (f.node q) j = cursor (s.node a) (s.node q) j

theorem Simulates.exchange_kept (h : Simulates s g) (hr : s.Rules a t) {e : Exchange}
    (hi : (cfg.peers a)[e.peerIdx]? = some p) : OnlyPeer s a t e.peerIdx (s.exchange a e) := by
  have hx := h.exchange hr.leads hi (hr.top p)
  obtain ⟨resp, hnode⟩ := h.exchange_node hr.leads hi
  refine ⟨hx.reaches, ⟨hx.leads, fun b => ?_⟩, hx.pstate, fun j q hj hq => ?_⟩
  · by_cases hba : b = a
    · rw [hba, hx.leads.2]
    by_cases hbp : b = p
    · rw [hbp, hx.peer]
    · rw [hx.other b hba hbp]
      exact hr.top b
  · have hqa : q ≠ a := cfg.mem_peers.mp (List.mem_of_getElem? hq)
    have hqp : q ≠ p := by
      rintro rfl
      exact hj (cfg.peers_inj hq hi)
    have hlead := hx.leads.1
    rw [hnode] at hlead
    obtain ⟨hnext, hmatch⟩ := handleAppendEntriesResponse_lstate (h.node a).peers hi hj hlead
    rw [← hnode] at hnext hmatch
    have hent : ((s.exchange a e).node a).pstate.entries = (s.node a).pstate.entries := by
      rw [hx.pstate]
    unfold Raft.cursor
    rw [hx.other q hqa hqp, hnext, hmatch, findGreatest_sharesPrefix_congr hent rfl]

theorem Simulates.exchanges_kept (h : Simulates s g) (hr : s.Rules a t) {es : List Exchange}
    (hi : (cfg.peers a)[i]? = some p) (hes : ∀ e ∈ es, e.peerIdx = i) :
    OnlyPeer s a t i (s.exchanges a es) := by
  induction es generalizing s g with
  | nil => exact ⟨.refl, hr, rfl, fun _ _ _ _ => rfl⟩
  | cons e es ih =>
    obtain rfl := hes e List.mem_cons_self
    have hx := h.exchange_kept hr hi
    obtain ⟨g', hg', -⟩ := h.reaches hx.reaches
    have hrest := ih hg' hx.rules fun e' he' => hes e' (List.mem_cons_of_mem _ he')
    refine ⟨hx.reaches.trans hrest.reaches, hrest.rules, hrest.pstate.trans hx.pstate, ?_⟩
    exact fun j q hj hq => (hrest.cursor j q hj hq).trans (hx.cursor j q hj hq)

/-! ## All peers -/

/-- What can be had of each cursor by itself can be had of all of them. -/
theorem Simulates.exchange_all (h : Simulates s g) (hr : s.Rules a t) (P : Cursor → Prop)
    (hP : ∀ i q, (cfg.peers a)[i]? = some q →
      ∃ n, P ((Cursor.step (s.node a).pstate.logLen)^[n] (cursor (s.node a) (s.node q) i))) :
    ∃ f, s.Reaches f ∧ f.Rules a t ∧ (f.node a).pstate = (s.node a).pstate ∧
      ∀ i q, (cfg.peers a)[i]? = some q → P (cursor (f.node a) (f.node q) i) := by
  suffices hall : ∀ m, ∃ f, s.Reaches f ∧ f.Rules a t ∧ (f.node a).pstate = (s.node a).pstate ∧
      ∀ i q, (cfg.peers a)[i]? = some q → (i < m → P (cursor (f.node a) (f.node q) i)) ∧
        (m ≤ i → cursor (f.node a) (f.node q) i = cursor (s.node a) (s.node q) i) by
    obtain ⟨f, hf, hfr, hps, hc⟩ := hall (cfg.peers a).length
    exact ⟨f, hf, hfr, hps, fun i q hi => (hc i q hi).1 (List.getElem?_eq_some_iff.mp hi).1⟩
  intro m
  induction m with
  | zero => exact ⟨s, .refl, hr, rfl, fun i q _ => ⟨fun hi => absurd hi (Nat.not_lt_zero i),
      fun _ => rfl⟩⟩
  | succ m ih =>
    obtain ⟨x, hx, hxr, hps, hc⟩ := ih
    cases hm : (cfg.peers a)[m]? with
    | none =>
      refine ⟨x, hx, hxr, hps, fun i q hi => ⟨fun him => ?_, fun him => (hc i q hi).2 (by omega)⟩⟩
      have hne : i ≠ m := by
        rintro rfl
        rw [hm] at hi
        cases hi
      exact (hc i q hi).1 (by omega)
    | some p =>
      obtain ⟨n, hn⟩ := hP m p hm
      obtain ⟨g', hg', -⟩ := h.reaches hx
      set es := rounds m (fun _ => (⟨0, 0⟩, ⟨0, 0⟩)) n with hes
      have hidx : ∀ e ∈ es, e.peerIdx = m := by
        intro e he
        obtain ⟨j, -, rfl⟩ := List.mem_map.mp he
        rfl
      have hlen : es.length = n := by simp [hes, rounds]
      have hkept := hg'.exchanges_kept hxr hm hidx
      have hcur := hg'.exchanges_cursor hxr.leads hm (hxr.top p) hidx
      rw [hlen, hps, (hc m p hm).2 le_rfl] at hcur
      refine ⟨x.exchanges a es, hx.trans hkept.reaches, hkept.rules, hkept.pstate.trans hps, ?_⟩
      intro i q hi
      by_cases him : i = m
      · subst him
        obtain rfl := Option.some.inj (hi.symm.trans hm)
        exact ⟨fun _ => hcur ▸ hn, fun hle => absurd hle (by omega)⟩
      · rw [hkept.cursor i q him hi]
        exact ⟨fun hlt => (hc i q hi).1 (by omega), fun hle => (hc i q hi).2 (by omega)⟩

/-! ## Commands -/

theorem raftLeaderSendCommand_push (h : NodeRel g a r) (hl : r.state = .leader)
    (hc : r.pstate.logLen < raftLogCap) (command : ClientCommand) :
    ∃ file v, (raftLeaderSendCommand r command).1 =
      { r with
        pstate := r.pstate.push ⟨raftLastLogIndex r + 1, r.pstate.currentTerm, command⟩
        vstate := v
        logFile := file } := by
  have hidx := toNat_raftLastLogIndex_add_one hc.le
  rcases persistLogEntry_spec (e := ⟨raftLastLogIndex r + 1, r.pstate.currentTerm, command⟩)
    h.inSync hidx hc with ⟨file, hw, -⟩ | ⟨file, -, -, hn⟩
  · unfold raftLeaderSendCommand
    rw [if_neg (not_not.mpr hl), if_neg (not_le.mpr hc)]
    dsimp only
    rw [hw]
    dsimp only
    split_ifs
    · exact ⟨file, _, rfl⟩
    · exact ⟨file, _, rfl⟩
  · exact absurd h.noFaults hn

/-- An entry at the end of the log is behind every cursor. -/
theorem cursor_push {r₁ r' : RaftNode} (hl : r₁.lstate = r.lstate) {e : LogEntry}
    (hp : r₁.pstate = r.pstate.push e)
    (hnext : (r.lstate.nextIndex i).toNat ≤ r.pstate.logLen + 1) :
    cursor r₁ r' i = cursor r r' i := by
  have hshares : ∀ n ≤ (r.lstate.nextIndex i).toNat - 1,
      SharesPrefix r₁ r' n ↔ SharesPrefix r r' n := by
    intro n hn
    have hle : n ≤ r.pstate.logLen := by omega
    have hlen : r₁.pstate.logLen = r.pstate.logLen + 1 := by rw [hp]; rfl
    have htake : r₁.pstate.entries.take n = r.pstate.entries.take n := by
      rw [hp, PersistentState.entries_push, List.take_append_of_le_length (by simpa using hle)]
    rw [sharesPrefix_iff, sharesPrefix_iff, htake, hlen]
    exact and_congr_left fun _ => iff_of_true (by omega) hle
  obtain ⟨hle, hm, hmax⟩ := Nat.findGreatest_eq_iff.mp
    (rfl : Nat.findGreatest (SharesPrefix r r') ((r.lstate.nextIndex i).toNat - 1) = _)
  have hgreatest := Nat.findGreatest_eq_iff.mpr ⟨hle, fun h0 => (hshares _ hle).mpr (hm h0),
    fun n hlt hn hs => hmax hlt hn ((hshares n hn).mp hs)⟩
  unfold cursor
  rw [hl, hgreatest]

/-- A command is taken by the leader, whose cursors stay where they are. -/
theorem Simulates.command (h : Simulates s g) (hr : s.Rules a t)
    (hc : (s.node a).pstate.logLen < raftLogCap) (command : ClientCommand) :
    ∃ f, s.Reaches f ∧ f.Rules a t ∧
      (f.node a).pstate.entries =
        (s.node a).pstate.entries ++ [⟨raftLastLogIndex (s.node a) + 1, t, command⟩] ∧
      ∀ i q, (cfg.peers a)[i]? = some q →
        cursor (f.node a) (f.node q) i = cursor (s.node a) (s.node q) i := by
  obtain ⟨⟨hl, rfl⟩, htop⟩ := hr
  obtain ⟨file, v, hpush⟩ := raftLeaderSendCommand_push (h.node a) hl hc command
  have hstep : s.step (.sendCommand a command) =
      s.update a (raftLeaderSendCommand (s.node a) command).1 [] := rfl
  rw [hpush] at hstep
  have hself : (s.step (.sendCommand a command)).node a =
      { s.node a with
        pstate := (s.node a).pstate.push
          ⟨raftLastLogIndex (s.node a) + 1, (s.node a).pstate.currentTerm, command⟩
        vstate := v
        logFile := file } := by
    rw [hstep, Cluster.update_node, if_pos rfl]
  refine ⟨s.step (.sendCommand a command), .step .refl _ ?_, ⟨?_, ?_⟩, ?_, ?_⟩
  · rw [hstep]
    refine h.below.update ?_ a []
    exact h.below a
  · rw [Cluster.Leads, hself]
    exact ⟨hl, rfl⟩
  · intro b
    rw [hstep, Cluster.update_node]
    split_ifs
    · exact le_rfl
    · exact htop b
  · rw [hself]
    exact PersistentState.entries_push _ _
  · intro i q hi
    have hqa : q ≠ a := cfg.mem_peers.mp (List.mem_of_getElem? hi)
    have hother : (s.step (.sendCommand a command)).node q = s.node q := by
      rw [hstep, Cluster.update_node, if_neg hqa]
    rw [hother, hself]
    exact cursor_push rfl rfl (((h.node a).leader hl).next_le hi)

end Corestack.Raft
