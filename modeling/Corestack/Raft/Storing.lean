import Corestack.Raft.Refinement

/-! # Storing the entries of a request

The loop of `HandleAppendEntriesRequest` on a request whose entries continue the
log of a leader: what it leaves in the log, and what it writes to the file.
-/

namespace Corestack.Raft

open Consensus

variable {cfg : Config} {g : cfg.History} {a : cfg.Node} {r r' : RaftNode}

/-! ## Storing entries -/

/-- Two logs that agree up to every place where they have entries of one term. -/
def Matching (l l' : List LogEntry) : Prop :=
  ∀ p e p' e', p ++ [e] <+: l → p' ++ [e'] <+: l' → p.length = p'.length → e.term = e'.term →
    p ++ [e] = p' ++ [e']

theorem NodeRel.matching (hv : Valid LogEntry.term g) (h : Matches g a r) (t : UInt64) :
    Matching r.pstate.entries (g.leaderLog t) := fun _ _ _ _ hp hp' hlen he =>
  (h.log ▸ hv.log_lineage a).matching (hv.leaderLog_lineage t) hp hp' hlen he

theorem getElem?_of_prefix_append {p l : List LogEntry} {e : LogEntry} (h : p ++ [e] <+: l) :
    l[p.length]? = some e := by
  obtain ⟨s, rfl⟩ := h
  simp

/-- The entry at place `p.length` of a log that starts with `p`. -/
theorem take_append_log {p : List LogEntry} {q : PersistentState} (hp : p <+: q.entries)
    (h : p.length < q.logLen) : p ++ [q.log p.length] <+: q.entries := by
  have hlt : p.length < q.entries.length := by simpa using h
  have ht := List.take_append_getElem hlt
  rw [← List.prefix_iff_eq_take.mp hp, q.getElem_entries] at ht
  rw [ht]
  exact List.take_prefix _ _

/-- The request's entry is already at its place, or it is not. -/
theorem Matching.append_prefix_iff {p : List LogEntry} {e : LogEntry} {q : PersistentState}
    {l : List LogEntry} (hm : Matching q.entries l) (hp : p <+: q.entries) (he : p ++ [e] <+: l) :
    p ++ [e] <+: q.entries ↔ p.length < q.logLen ∧ (q.log p.length).term = e.term := by
  constructor
  · intro h
    have hlen := h.length_le
    simp only [List.length_append, List.length_singleton, q.length_entries] at hlen
    have hat := getElem?_of_prefix_append h
    rw [q.getElem?_entries (by omega)] at hat
    exact ⟨by omega, congrArg LogEntry.term (Option.some.inj hat)⟩
  · rintro ⟨hlt, ht⟩
    have hq := take_append_log hp hlt
    rw [← hm _ _ _ _ hq he rfl ht]
    exact hq

/-- The loop before its `i`th entry, on a request whose entries continue the log `l` behind `p`. -/
structure StoreLoop (prev : UInt64) (l p es : List LogEntry) (i : Nat) (r : RaftNode) : Prop where
  restorable : Restorable r
  noFaults : r.logFile.NoFaults
  matching : Matching r.pstate.entries l
  dense : Dense l
  length_le : l.length ≤ raftLogCap
  prior : p <+: r.pstate.entries
  isPrefix : p ++ es <+: l
  length : p.length = prev.toNat + i

theorem prefix_of_append_cons {p l : List LogEntry} {e : LogEntry} {es : List LogEntry}
    (h : p ++ e :: es <+: l) : p ++ [e] <+: l :=
  ((List.prefix_append_right_inj p).mpr ⟨es, rfl⟩).trans h

theorem storeEntries_skip {prev : UInt64} {e : LogEntry} (es : List LogEntry) {i n : Nat}
    (hexp : e.index = prev + .ofNat i + 1) (hpos : (e.index - 1).toNat = n)
    (hat : n < r.pstate.logLen ∧ (r.pstate.log n).term = e.term) :
    storeEntries prev r i (e :: es) = storeEntries prev r (i + 1) es := by
  subst hpos
  rw [storeEntries, if_neg (not_not.mpr hexp)]
  exact if_pos hat

theorem storeEntries_store {prev : UInt64} {e : LogEntry} (es : List LogEntry) {i n : Nat}
    (hexp : e.index = prev + .ofNat i + 1) (hpos : (e.index - 1).toNat = n)
    (hat : ¬ (n < r.pstate.logLen ∧ (r.pstate.log n).term = e.term))
    (hs : storeEntry r e n = (r', true)) :
    storeEntries prev r i (e :: es) = storeEntries prev r' (i + 1) es := by
  subst hpos
  rw [storeEntries, if_neg (not_not.mpr hexp)]
  refine (if_neg hat).trans ?_
  rw [hs]

/-- One turn of the loop: the entry is at its place already, or it replaces what stands there and
behind it. -/
theorem StoreLoop.cons {prev : UInt64} {l p es : List LogEntry} {e : LogEntry} {i : Nat}
    (h : StoreLoop prev l p (e :: es) i r) :
    (p ++ [e] <+: r.pstate.entries ∧
      storeEntries prev r i (e :: es) = storeEntries prev r (i + 1) es ∧
      StoreLoop prev l (p ++ [e]) es (i + 1) r) ∨
    (¬ p ++ [e] <+: r.pstate.entries ∧ e.index.toNat = p.length + 1 ∧
      ∃ r', storeEntry r e p.length = (r', true) ∧ r'.pstate.entries = p ++ [e] ∧
        storeEntries prev r i (e :: es) = storeEntries prev r' (i + 1) es ∧
        StoreLoop prev l (p ++ [e]) es (i + 1) r') := by
  have hpe : p ++ [e] <+: l := prefix_of_append_cons h.isPrefix
  have hcons : p ++ [e] ++ es <+: l := by simpa using h.isPrefix
  have hlen : (p ++ [e]).length = prev.toNat + (i + 1) := by
    rw [List.length_append, List.length_singleton, h.length, Nat.add_assoc]
  have hle := hpe.length_le.trans h.length_le
  rw [hlen] at hle
  have hidx : e.index.toNat = p.length + 1 := h.dense _ e (getElem?_of_prefix_append hpe)
  have hexp : e.index = prev + .ofNat i + 1 := by
    rw [← UInt64.toNat_inj, hidx, toNat_expected (by omega), h.length]
  have hpos : (e.index - 1).toNat = p.length := by
    rw [toNat_sub_one (by omega), hidx, Nat.add_sub_cancel]
  have hmatch := h.matching.append_prefix_iff h.prior hpe
  by_cases hat : p ++ [e] <+: r.pstate.entries
  · have hturn := storeEntries_skip es hexp hpos (hmatch.mp hat)
    exact Or.inl ⟨hat, hturn, h.restorable, h.noFaults, h.matching, h.dense, h.length_le, hat,
      hcons, hlen⟩
  · have hnot := fun hc => hat (hmatch.mpr hc)
    obtain ⟨t, v, hk⟩ := h.restorable
    obtain ⟨hk', hl', he', hok⟩ := storeEntry_spec hk hidx (by simpa using h.prior.length_le)
    rcases hs : storeEntry r e p.length with ⟨r', ok⟩
    rw [hs] at hk' hl' he' hok
    obtain rfl : ok = true := hok h.noFaults (by rw [h.length]; omega)
    have hturn := storeEntries_store es hexp hpos hnot hs
    have hentries : r'.pstate.entries = p ++ [e] := by
      rw [he' rfl, ← List.prefix_iff_eq_take.mp h.prior]
    refine Or.inr ⟨hat, hidx, r', rfl, hentries, hturn, ⟨t, v, hk'⟩, (hl'.noFaults h.noFaults).1,
      ?_, h.dense, h.length_le, hentries ▸ List.prefix_rfl, hcons, hlen⟩
    rw [hentries]
    intro q x q' x' hq hq' hlq _
    have hle : (q ++ [x]).length = (q' ++ [x']).length := by simp [hlq]
    exact (List.prefix_of_prefix_length_le (hq.trans hpe) hq' hle.le).eq_of_length hle

/-- The loop grafts the entries of the request on the log. -/
theorem StoreLoop.graft {prev : UInt64} {l p es : List LogEntry} {i : Nat}
    (h : StoreLoop prev l p es i r) :
    (storeEntries prev r i es).2 = true ∧
      (storeEntries prev r i es).1.pstate.entries = Consensus.graft r.pstate.entries (p ++ es) := by
  induction es generalizing r p i with
  | nil => exact ⟨rfl, by rw [List.append_nil, graft_of_isPrefix h.prior]; rfl⟩
  | cons e es ih =>
    have hcons : p ++ [e] ++ es = p ++ e :: es := by simp
    rcases h.cons with ⟨-, he, h'⟩ | ⟨hat, -, r', -, hentries, he, h'⟩
    · rw [he, ← hcons]
      exact ih h'
    · obtain ⟨hok, hg⟩ := ih h'
      rw [he]
      refine ⟨hok, ?_⟩
      rw [hg, hentries, hcons, graft_of_not_isPrefix fun hp => hat (prefix_of_append_cons hp)]
      rcases graft_eq_or (p ++ [e]) (p ++ e :: es) with hg' | hg'
      · have hpre := hg' ▸ prefix_graft (p ++ [e]) (p ++ e :: es)
        rw [hg']
        exact (hpre.eq_of_length_le (by simp)).symm
      · exact hg'

/-! ## What the loop writes -/

/-- The file has got these records. -/
def Writes (r r' : RaftNode) (cs : List LogRecord) : Prop :=
  r'.logFile.content.getD [] = r.logFile.content.getD [] ++ cs.flatMap LogRecord.line

theorem Writes.refl (r : RaftNode) : Writes r r [] := by simp [Writes]

theorem Writes.trans {r'' : RaftNode} {cs cs' : List LogRecord} (h : Writes r r' cs)
    (h' : Writes r' r'' cs') : Writes r r'' (cs ++ cs') := by
  unfold Writes at *
  rw [h', h, List.flatMap_append, List.append_assoc]

theorem pushEntry_writes (r : RaftNode) (e : LogEntry) :
    ∃ cs, Writes r (pushEntry r e).1 cs ∧ ∀ k, LogRecord.truncate k ∉ cs := by
  unfold pushEntry
  split_ifs
  · exact ⟨[], .refl r, by simp⟩
  · unfold persistLogEntryLocked
    rcases r.logFile.write_cases (entryLine e) with ⟨f, hw, hf, -⟩ | ⟨f, hw, hf, -⟩
    · rw [hw]
      exact ⟨[.entry e], by simpa [Writes, LogRecord.line] using hf, by simp⟩
    · rw [hw]
      exact ⟨[], by simp [Writes, hf], by simp⟩

/-- Storing an entry cuts the log at its own index, if at all. -/
theorem storeEntry_writes (r : RaftNode) (e : LogEntry) (pos : Nat) :
    ∃ cs, Writes r (storeEntry r e pos).1 cs ∧ ∀ k, LogRecord.truncate k ∈ cs → k = e.index := by
  unfold storeEntry
  split_ifs
  · unfold persistTruncateLocked
    rcases r.logFile.write_cases (truncateLine e.index) with ⟨f, hw, hf, -⟩ | ⟨f, hw, hf, -⟩
    · rw [hw]
      obtain ⟨cs, hcs, hk⟩ := pushEntry_writes
        { r with logFile := f, pstate := r.pstate.truncate pos } e
      have hcut : Writes r { r with logFile := f, pstate := r.pstate.truncate pos }
          [.truncate e.index] := by simpa [Writes, LogRecord.line] using hf
      refine ⟨_, hcut.trans hcs, fun k hm => ?_⟩
      rcases List.mem_append.mp hm with hm | hm
      · simpa using hm
      · exact absurd hm (hk k)
    · rw [hw]
      exact ⟨[], by simp [Writes, hf], by simp⟩
  · obtain ⟨cs, hcs, hk⟩ := pushEntry_writes r e
    exact ⟨cs, hcs, fun k hm => absurd hm (hk k)⟩

/-- The loop cuts off no entry of a prefix that the log shares with `l`. -/
theorem StoreLoop.writes {prev : UInt64} {l p es : List LogEntry} {i n : Nat}
    (h : StoreLoop prev l p es i r) (hn : n ≤ r.pstate.logLen)
    (hl : r.pstate.entries.take n <+: l) :
    ∃ cs, Writes r (storeEntries prev r i es).1 cs ∧
      ∀ k, LogRecord.truncate k ∈ cs → n < k.toNat := by
  induction es generalizing r p i with
  | nil => exact ⟨[], .refl r, by simp⟩
  | cons e es ih =>
    rcases h.cons with ⟨-, he, h'⟩ | ⟨hat, hidx, r', hs, hentries, he, h'⟩
    · rw [he]
      exact ih h' hn hl
    · have hpe := prefix_of_append_cons h.isPrefix
      -- an entry of the shared prefix would have been at its place already
      have hpos : n ≤ p.length := by
        by_contra hlt
        have hle : (p ++ [e]).length ≤ (r.pstate.entries.take n).length := by simp; omega
        exact hat ((List.prefix_of_prefix_length_le hpe hl hle).trans (List.take_prefix _ _))
      have hlen : r'.pstate.logLen = p.length + 1 := by
        simpa using congrArg List.length hentries
      obtain ⟨cs, hcs, hk⟩ := storeEntry_writes r e p.length
      rw [hs] at hcs
      obtain ⟨cs', hcs', hk'⟩ := ih h' (by omega)
        (hentries ▸ (List.take_prefix _ _).trans hpe)
      rw [he]
      refine ⟨cs ++ cs', hcs.trans hcs', fun k hm => ?_⟩
      rcases List.mem_append.mp hm with hm | hm
      · rw [hk k hm, hidx]; omega
      · exact hk' k hm

end Corestack.Raft
