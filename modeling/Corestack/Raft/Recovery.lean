import Corestack.Raft.Node

/-! # What the log file holds

A file holds a term, a vote and a log when replaying its records gives them.
Every write keeps the file in step with the log in memory, whether it succeeds or
fails. Without failures it is in step with the term and the vote as well, so a
restart rebuilds what the node had.
-/

namespace Corestack.Raft

/-- The persistent state before the file is read. -/
def initialPstate : PersistentState := ⟨0, raftNone, fun _ => default, 0⟩

/-- The records of the file replay to this term, vote and log. -/
def LogFile.Holds (f : LogFile) (term votedFor : UInt64) (log : List LogEntry) : Prop :=
  ∃ (cs : List LogRecord) (p : PersistentState),
    f.content.getD [] = cs.flatMap LogRecord.line ∧
    cs.foldlM LogRecord.replay initialPstate = some p ∧
    p.currentTerm = term ∧ p.votedFor = votedFor ∧ p.entries = log

/-- Entry `i` of the log has index `i + 1`. -/
def Dense (log : List LogEntry) : Prop := ∀ i e, log[i]? = some e → e.index.toNat = i + 1

theorem Dense.nil : Dense [] := by simp [Dense]

theorem Dense.append_singleton {log : List LogEntry} {e : LogEntry} (h : Dense log)
    (he : e.index.toNat = log.length + 1) : Dense (log ++ [e]) := by
  intro i f hf
  rw [List.getElem?_append] at hf
  split at hf
  · exact h i f hf
  · rename_i hi
    obtain ⟨h0, rfl⟩ : i - log.length = 0 ∧ e = f := by simpa [List.getElem?_singleton] using hf
    omega

theorem Dense.of_isPrefix {l log : List LogEntry} (h : Dense log) (hp : l <+: log) : Dense l := by
  intro i e he
  obtain ⟨hi, rfl⟩ := List.getElem?_eq_some_iff.mp he
  exact h i _ (List.prefix_iff_getElem?.mp hp i hi)

theorem replay_dense {p p' : PersistentState} {c : LogRecord} (h : c.replay p = some p')
    (hd : Dense p.entries) (hc : p.logLen ≤ raftLogCap) :
    Dense p'.entries ∧ p'.logLen ≤ raftLogCap := by
  cases c with
  | state t v =>
    obtain rfl := Option.some.inj h
    exact ⟨hd, hc⟩
  | entry e =>
    simp only [LogRecord.replay] at h
    split at h
    · rename_i he
      obtain rfl := Option.some.inj h
      refine ⟨?_, he.2⟩
      rw [PersistentState.entries_push]
      exact hd.append_singleton (by simpa using he.1)
    · simp at h
  | truncate i =>
    simp only [LogRecord.replay] at h
    split at h
    · simp at h
    · split at h
      · rename_i hi
        obtain rfl := Option.some.inj h
        have hle : i.toNat - 1 ≤ p.logLen := by omega
        refine ⟨?_, hle.trans hc⟩
        rw [PersistentState.entries_truncate _ hle]
        exact hd.of_isPrefix (List.take_prefix _ _)
      · obtain rfl := Option.some.inj h
        exact ⟨hd, hc⟩

theorem replayAll_dense {p p' : PersistentState} {cs : List LogRecord}
    (h : cs.foldlM LogRecord.replay p = some p') (hd : Dense p.entries)
    (hc : p.logLen ≤ raftLogCap) : Dense p'.entries ∧ p'.logLen ≤ raftLogCap := by
  induction cs generalizing p with
  | nil =>
    obtain rfl := Option.some.inj h
    exact ⟨hd, hc⟩
  | cons c cs ih =>
    obtain ⟨q, hq, hqs⟩ := Option.bind_eq_some_iff.mp h
    obtain ⟨hd', hc'⟩ := replay_dense hq hd hc
    exact ih hqs hd' hc'

namespace LogFile

variable {f : LogFile} {term votedFor : UInt64} {log : List LogEntry}

theorem Holds.dense (h : f.Holds term votedFor log) : Dense log := by
  obtain ⟨cs, p, -, hp, -, -, rfl⟩ := h
  exact (replayAll_dense hp (by simp [Dense, initialPstate, PersistentState.entries])
    (Nat.zero_le _)).1

theorem Holds.length_le (h : f.Holds term votedFor log) : log.length ≤ raftLogCap := by
  obtain ⟨cs, p, -, hp, -, -, rfl⟩ := h
  simpa using (replayAll_dense hp (by simp [Dense, initialPstate, PersistentState.entries])
    (Nat.zero_le _)).2

theorem holds_of_content_eq_nil (h : f.content.getD [] = []) : f.Holds 0 raftNone [] :=
  ⟨[], initialPstate, by simpa using h, rfl, rfl, rfl, rfl⟩

/-- One more record at the end of the file. -/
theorem Holds.append {f' : LogFile} {c : LogRecord}
    (h : f.Holds term votedFor log) (hf : f'.content.getD [] = f.content.getD [] ++ c.line)
    {term' votedFor' : UInt64} {log' : List LogEntry}
    (hc : ∀ p : PersistentState, p.currentTerm = term → p.votedFor = votedFor →
      p.entries = log → ∃ p', c.replay p = some p' ∧
        p'.currentTerm = term' ∧ p'.votedFor = votedFor' ∧ p'.entries = log') :
    f'.Holds term' votedFor' log' := by
  obtain ⟨cs, p, hcs, hp, ht, hv, hl⟩ := h
  obtain ⟨p', hp', ht', hv', hl'⟩ := hc p ht hv hl
  refine ⟨cs ++ [c], p', ?_, ?_, ht', hv', hl'⟩
  · simp [hf, hcs]
  · simp [List.foldlM_append, hp, hp']

theorem Holds.append_state {f' : LogFile} {t v : UInt64} (h : f.Holds term votedFor log)
    (hf : f'.content.getD [] = f.content.getD [] ++ stateLine t v) : f'.Holds t v log :=
  h.append (c := .state t v) hf fun _ _ _ hl => ⟨_, rfl, rfl, rfl, hl⟩

theorem Holds.append_entry {f' : LogFile} {e : LogEntry} (h : f.Holds term votedFor log)
    (hf : f'.content.getD [] = f.content.getD [] ++ entryLine e)
    (hi : e.index.toNat = log.length + 1) (hc : log.length < raftLogCap) :
    f'.Holds term votedFor (log ++ [e]) :=
  h.append (c := .entry e) hf fun p ht hv hl => by
    refine ⟨p.push e, ?_, ht, hv, by simp [hl]⟩
    have hlen : p.logLen = log.length := by simp [← hl]
    rw [LogRecord.replay, if_pos ⟨by rw [hi, hlen], hlen ▸ hc⟩]

theorem Holds.append_truncate {f' : LogFile} {i : UInt64} (h : f.Holds term votedFor log)
    (hf : f'.content.getD [] = f.content.getD [] ++ truncateLine i)
    (h0 : 0 < i.toNat) (hi : i.toNat ≤ log.length) :
    f'.Holds term votedFor (log.take (i.toNat - 1)) :=
  h.append (c := .truncate i) hf fun p ht hv hl => by
    have hlen : p.logLen = log.length := by simp [← hl]
    refine ⟨p.truncate (i.toNat - 1), ?_, ht, hv, ?_⟩
    · have hne : i ≠ 0 := by rintro rfl; simp at h0
      rw [LogRecord.replay, if_neg hne, if_pos (by omega)]
    · rw [PersistentState.entries_truncate _ (by omega), hl]

end LogFile

/-! ## Writes that may fail -/

/-- The descriptor is open and no write will fail. -/
def LogFile.NoFaults (f : LogFile) : Prop := f.isOpen = true ∧ f.faults = []

theorem LogFile.write_cases (f : LogFile) (line : List Char) :
    (∃ f', f.write line = (f', true) ∧ f'.content.getD [] = f.content.getD [] ++ line ∧
      (f.NoFaults → f'.NoFaults)) ∨
    (∃ f', f.write line = (f', false) ∧ f'.content = f.content ∧ ¬ f.NoFaults) := by
  unfold LogFile.write LogFile.NoFaults
  split
  · split
    · rename_i hf; exact Or.inr ⟨_, rfl, rfl, by simp [hf]⟩
    · exact Or.inl ⟨_, rfl, rfl, fun h => ⟨h.1, by simp [h.2]⟩⟩
  · rename_i hf; exact Or.inr ⟨_, rfl, rfl, fun h => hf h.1⟩

theorem LogFile.Holds.of_content_eq {f f' : LogFile} {t v : UInt64} {log : List LogEntry}
    (h : f.Holds t v log) (hf : f'.content = f.content) : f'.Holds t v log := by
  obtain ⟨cs, p, hcs, hp⟩ := h
  exact ⟨cs, p, by rw [hf]; exact hcs, hp⟩

/-- The file holds the log in memory, with some term and vote. -/
def Kept (r : RaftNode) (term votedFor : UInt64) : Prop :=
  r.logFile.Holds term votedFor r.pstate.entries

/-- The file holds exactly the persistent state in memory. -/
def InSync (r : RaftNode) : Prop := Kept r r.pstate.currentTerm r.pstate.votedFor

variable {r : RaftNode} {t v : UInt64}

theorem persistState_spec (h : Kept r t v) :
    (∃ f, persistStateLocked r = ({ r with logFile := f }, true) ∧
      f.Holds r.pstate.currentTerm r.pstate.votedFor r.pstate.entries ∧
      (r.logFile.NoFaults → f.NoFaults)) ∨
    (∃ f, persistStateLocked r = ({ r with logFile := f }, false) ∧
      f.Holds t v r.pstate.entries ∧ ¬ r.logFile.NoFaults) := by
  rcases r.logFile.write_cases (stateLine r.pstate.currentTerm r.pstate.votedFor) with
    ⟨f, hw, hf, hn⟩ | ⟨f, hw, hf, hn⟩
  · exact Or.inl ⟨f, by rw [persistStateLocked, hw], h.append_state hf, hn⟩
  · exact Or.inr ⟨f, by rw [persistStateLocked, hw], h.of_content_eq hf, hn⟩

/-- The node after an operation on its log: only the log, the file and the failure of the node
may be new. -/
structure LogOnly (r r' : RaftNode) : Prop where
  id : r'.id = r.id
  leaderId : r'.leaderId = r.leaderId
  peers : r'.peers = r.peers
  currentTerm : r'.pstate.currentTerm = r.pstate.currentTerm
  votedFor : r'.pstate.votedFor = r.pstate.votedFor
  vstate : r'.vstate = r.vstate
  cstate : r'.cstate = r.cstate
  lstate : r'.lstate = r.lstate
  state : r'.state = r.state ∨ r'.state = .failed
  noFaults : r.logFile.NoFaults → r'.logFile.NoFaults ∧ r'.state = r.state

theorem LogOnly.refl (r : RaftNode) : LogOnly r r :=
  ⟨rfl, rfl, rfl, rfl, rfl, rfl, rfl, rfl, Or.inl rfl, fun h => ⟨h, rfl⟩⟩

theorem LogOnly.trans {r' r'' : RaftNode} (h : LogOnly r r') (h' : LogOnly r' r'') :
    LogOnly r r'' where
  id := h'.id.trans h.id
  leaderId := h'.leaderId.trans h.leaderId
  peers := h'.peers.trans h.peers
  currentTerm := h'.currentTerm.trans h.currentTerm
  votedFor := h'.votedFor.trans h.votedFor
  vstate := h'.vstate.trans h.vstate
  cstate := h'.cstate.trans h.cstate
  lstate := h'.lstate.trans h.lstate
  state := by
    rcases h'.state with hs | hs
    · rw [hs]; exact h.state
    · exact Or.inr hs
  noFaults hf := by
    obtain ⟨hf', hs⟩ := h.noFaults hf
    obtain ⟨hf'', hs'⟩ := h'.noFaults hf'
    exact ⟨hf'', hs'.trans hs⟩

/-- What cutting the log before entry `pos + 1` does. -/
theorem persistTruncate_spec {i : UInt64} {pos : Nat} (h : Kept r t v) (hi : i.toNat = pos + 1)
    (hpos : pos < r.pstate.logLen) :
    (∃ f, persistTruncateLocked r i = ({ r with logFile := f }, true) ∧
      f.Holds t v (r.pstate.entries.take pos) ∧ (r.logFile.NoFaults → f.NoFaults)) ∨
    (∃ f, persistTruncateLocked r i = ({ r with logFile := f }, false) ∧
      f.Holds t v r.pstate.entries ∧ ¬ r.logFile.NoFaults) := by
  rcases r.logFile.write_cases (truncateLine i) with ⟨f, hw, hf, hn⟩ | ⟨f, hw, hf, hn⟩
  · refine Or.inl ⟨f, by rw [persistTruncateLocked, hw], ?_, hn⟩
    have := LogFile.Holds.append_truncate h hf (by omega) (by simpa using by omega)
    rwa [hi] at this
  · exact Or.inr ⟨f, by rw [persistTruncateLocked, hw], h.of_content_eq hf, hn⟩

theorem persistLogEntry_spec {e : LogEntry} (h : Kept r t v)
    (hi : e.index.toNat = r.pstate.logLen + 1) (hc : r.pstate.logLen < raftLogCap) :
    (∃ f, persistLogEntryLocked r e = ({ r with logFile := f }, true) ∧
      f.Holds t v (r.pstate.entries ++ [e]) ∧ (r.logFile.NoFaults → f.NoFaults)) ∨
    (∃ f, persistLogEntryLocked r e = ({ r with logFile := f }, false) ∧
      f.Holds t v r.pstate.entries ∧ ¬ r.logFile.NoFaults) := by
  rcases r.logFile.write_cases (entryLine e) with ⟨f, hw, hf, hn⟩ | ⟨f, hw, hf, hn⟩
  · exact Or.inl ⟨f, by rw [persistLogEntryLocked, hw],
      LogFile.Holds.append_entry h hf (by simpa using hi) (by simpa using hc), hn⟩
  · exact Or.inr ⟨f, by rw [persistLogEntryLocked, hw], h.of_content_eq hf, hn⟩

theorem LogOnly.of_faults {f : LogFile} (hn : ¬ r.logFile.NoFaults) :
    LogOnly r { r with logFile := f, state := .failed } :=
  ⟨rfl, rfl, rfl, rfl, rfl, rfl, rfl, rfl, Or.inr rfl, fun h => absurd h hn⟩

theorem pushEntry_spec {e : LogEntry} (h : Kept r t v)
    (hi : e.index.toNat = r.pstate.logLen + 1) :
    Kept (pushEntry r e).1 t v ∧ LogOnly r (pushEntry r e).1 ∧
      ((pushEntry r e).2 = true → (pushEntry r e).1.pstate.entries = r.pstate.entries ++ [e]) ∧
      (r.logFile.NoFaults → r.pstate.logLen < raftLogCap → (pushEntry r e).2 = true) := by
  unfold pushEntry
  by_cases hc : r.pstate.logLen ≥ raftLogCap
  · rw [if_pos hc]
    exact ⟨h, LogOnly.refl r, by simp, fun _ hp => absurd hp (by omega)⟩
  · rw [if_neg hc]
    rcases persistLogEntry_spec h hi (by omega) with ⟨f, hw, hf, hn⟩ | ⟨f, hw, hf, hn⟩
    · rw [hw]
      refine ⟨by simpa [Kept] using hf, ?_, by simp, by simp⟩
      exact ⟨rfl, rfl, rfl, rfl, rfl, rfl, rfl, rfl, Or.inl rfl, fun h => ⟨hn h, rfl⟩⟩
    · rw [hw]
      exact ⟨hf, .of_faults hn, by simp, fun h => absurd h hn⟩

/-- Storing an entry at place `pos` leaves the first `pos` entries and puts it behind them. -/
theorem storeEntry_spec {e : LogEntry} {pos : Nat} (h : Kept r t v)
    (hi : e.index.toNat = pos + 1) (hpos : pos ≤ r.pstate.logLen) :
    Kept (storeEntry r e pos).1 t v ∧ LogOnly r (storeEntry r e pos).1 ∧
      ((storeEntry r e pos).2 = true →
        (storeEntry r e pos).1.pstate.entries = r.pstate.entries.take pos ++ [e]) ∧
      (r.logFile.NoFaults → pos < raftLogCap → (storeEntry r e pos).2 = true) := by
  unfold storeEntry
  by_cases hp : pos < r.pstate.logLen
  · rw [if_pos hp]
    have hcut := PersistentState.entries_truncate r.pstate hp.le
    rcases persistTruncate_spec h hi hp with ⟨f, hw, hf, hn⟩ | ⟨f, hw, hf, hn⟩
    · rw [hw]
      have hk : Kept { r with logFile := f, pstate := r.pstate.truncate pos } t v := by
        unfold Kept; rw [hcut]; exact hf
      have hl : LogOnly r { r with logFile := f, pstate := r.pstate.truncate pos } :=
        ⟨rfl, rfl, rfl, rfl, rfl, rfl, rfl, rfl, Or.inl rfl, fun h => ⟨hn h, rfl⟩⟩
      obtain ⟨hk', hl', he, hok⟩ := pushEntry_spec hk hi
      exact ⟨hk', hl.trans hl', fun h => by rw [he h, hcut], fun h => hok (hn h)⟩
    · rw [hw]
      exact ⟨hf, .of_faults hn, by simp, fun h => absurd h hn⟩
  · rw [if_neg hp]
    obtain rfl : pos = r.pstate.logLen := by omega
    rw [← r.pstate.length_entries, List.take_length, r.pstate.length_entries]
    exact pushEntry_spec h hi

/-- The index that the loop expects next does not wrap. -/
theorem toNat_expected {prev : UInt64} {i : Nat} (h : prev.toNat + i ≤ raftLogCap) :
    (prev + .ofNat i + 1).toNat = prev.toNat + i + 1 := by
  have hadd := toNat_add_ofNat h
  rw [toNat_add_one (hadd.trans_le h), hadd]

theorem Kept.logLen_le (h : Kept r t v) : r.pstate.logLen ≤ raftLogCap := by
  simpa using LogFile.Holds.length_le h

/-- The loop over the entries keeps file and memory in step, wherever it stops. -/
theorem storeEntries_spec (es : List LogEntry) {prev : UInt64} {i : Nat} (h : Kept r t v)
    (hi : prev.toNat + i ≤ r.pstate.logLen) :
    Kept (storeEntries prev r i es).1 t v ∧ LogOnly r (storeEntries prev r i es).1 := by
  induction es generalizing r i with
  | nil => exact ⟨h, LogOnly.refl r⟩
  | cons e es ih =>
    unfold storeEntries
    split_ifs with hne
    · exact ⟨h, LogOnly.refl r⟩
    · have hidx : e.index.toNat = prev.toNat + i + 1 := by
        rw [not_not.mp hne, toNat_expected (hi.trans h.logLen_le)]
      have hpos : (e.index - 1).toNat = prev.toNat + i := by
        rw [toNat_sub_one (by omega), hidx, Nat.add_sub_cancel]
      dsimp only
      rw [hpos]
      split_ifs with hm
      · exact ih h (by omega)
      · obtain ⟨hk, hl, he, -⟩ := storeEntry_spec h hidx hi
        rcases hs : storeEntry r e (prev.toNat + i) with ⟨r', _ | _⟩
        · rw [hs] at hk hl
          exact ⟨hk, hl⟩
        · rw [hs] at hk hl he
          have hlen : r'.pstate.logLen = prev.toNat + i + 1 := by
            simpa [hi] using congrArg List.length (he rfl)
          have hi' : prev.toNat + (i + 1) ≤ r'.pstate.logLen := by omega
          obtain ⟨hk', hl'⟩ := ih hk hi'
          exact ⟨hk', hl.trans hl'⟩

/-! ## Terms and votes -/

/-- The node after it has moved to a later term, whether or not that was written. -/
structure SteppedDown (r r' : RaftNode) (newTerm : UInt64) : Prop where
  id : r'.id = r.id
  peers : r'.peers = r.peers
  pstate : r'.pstate = { r.pstate with currentTerm := newTerm, votedFor := raftNone }
  vstate : r'.vstate = r.vstate
  not_leader : r'.state = .follower ∨ r'.state = .failed
  logFile : r.logFile.NoFaults → r'.logFile.NoFaults
  state : r.logFile.NoFaults → r.state ≠ .failed → r'.state = .follower

theorem updateTermLocked_of_le {clk : Clock} {newTerm : UInt64}
    (h : newTerm ≤ r.pstate.currentTerm) : updateTermLocked clk r newTerm = (r, true) := by
  rw [updateTermLocked, if_pos h]

theorem enterTerm_steppedDown (r : RaftNode) (newTerm : UInt64) :
    (enterTerm r newTerm).state = .follower ∨ (enterTerm r newTerm).state = .failed := by
  simp only [enterTerm]
  split_ifs with h
  · exact Or.inl rfl
  · exact Or.inr (not_not.mp h)

/-- A later term is either written, with no vote, or the node fails. -/
theorem updateTermLocked_spec (clk : Clock) {newTerm : UInt64} (h : Kept r t v)
    (hlt : r.pstate.currentTerm < newTerm) :
    SteppedDown r (updateTermLocked clk r newTerm).1 newTerm ∧
      ((updateTermLocked clk r newTerm).2 = true ∧ InSync (updateTermLocked clk r newTerm).1 ∨
      (updateTermLocked clk r newTerm).2 = false ∧ Kept (updateTermLocked clk r newTerm).1 t v ∧
        ¬ r.logFile.NoFaults) := by
  have hk : Kept (enterTerm r newTerm) t v := h
  rw [updateTermLocked, if_neg hlt.not_ge]
  rcases persistState_spec hk with ⟨f, hw, hf, hn⟩ | ⟨f, hw, hf, hn⟩
  · rw [hw]
    refine ⟨⟨rfl, rfl, rfl, rfl, enterTerm_steppedDown r newTerm, hn, fun _ hs => ?_⟩,
      Or.inl ⟨rfl, hf⟩⟩
    simp [raftResetElectionTimer, raftClearLeaderState, raftClearCandidateState, enterTerm, hs]
  · rw [hw]
    exact ⟨⟨rfl, rfl, rfl, rfl, Or.inr rfl, fun h => absurd h hn, fun h => absurd h hn⟩,
      Or.inr ⟨rfl, hf, hn⟩⟩

end Corestack.Raft
