import Mathlib.Tactic.Common
import Corestack.Raft.Types
import Corestack.Text.Scan

/-! # The log file of a node

The three writers `persist_state_locked`, `persist_log_entry_locked` and
`persist_truncate_locked`, and the reader `restore_pstate`. A line that was
written is read back as the same record, so replaying a file is replaying its
records.
-/

namespace Corestack.Raft

open Text

/-! ## Writing -/

/-! The keywords that open a line. -/

def stateWord : List Char := ['S', 'T', 'A', 'T', 'E']
def entryWord : List Char := ['E', 'N', 'T', 'R', 'Y']
def truncateWord : List Char := ['T', 'R', 'U', 'N', 'C', 'A', 'T', 'E']

/-- `"STATE %" PRIu64 " %" PRIu64 "\n"` -/
def stateLine (term vote : UInt64) : List Char :=
  stateWord ++ ' ' :: (decimal term.toNat ++ ' ' :: (decimal vote.toNat ++ ['\n']))

/-- `"ENTRY %" PRIu64 " %" PRIu64 " %d %" PRIu64 " %" PRIu64 " %" PRIu32 "\n"` -/
def entryLine (e : LogEntry) : List Char :=
  entryWord ++ ' ' :: (decimal e.index.toNat ++ ' ' :: (decimal e.term.toNat ++
    ' ' :: (signedDecimal e.command.type.toBitVec.toInt ++
      ' ' :: (decimal e.command.roomKey.toNat ++ ' ' :: (decimal e.command.playerId.toNat ++
        ' ' :: (decimal e.command.input.toNat ++ ['\n']))))))

/-- `"TRUNCATE %" PRIu64 "\n"` -/
def truncateLine (from_ : UInt64) : List Char :=
  truncateWord ++ ' ' :: (decimal from_.toNat ++ ['\n'])

/-- A `dprintf` followed by `fdatasync`, and whether they succeeded. -/
def LogFile.write (f : LogFile) (line : List Char) : LogFile × Bool :=
  if f.isOpen then
    match f.faults with
    | true :: faults => ({ f with faults := faults }, false)
    | _ => ({ f with content := some (f.content.getD [] ++ line), faults := f.faults.tail }, true)
  else (f, false)

def persistStateLocked (r : RaftNode) : RaftNode × Bool :=
  let (f, ok) := r.logFile.write (stateLine r.pstate.currentTerm r.pstate.votedFor)
  ({ r with logFile := f }, ok)

def persistLogEntryLocked (r : RaftNode) (entry : LogEntry) : RaftNode × Bool :=
  let (f, ok) := r.logFile.write (entryLine entry)
  ({ r with logFile := f }, ok)

def persistTruncateLocked (r : RaftNode) (from_ : UInt64) : RaftNode × Bool :=
  let (f, ok) := r.logFile.write (truncateLine from_)
  ({ r with logFile := f }, ok)

/-! ## Reading -/

def stateFormat : List Directive :=
  literal stateWord ++ [.space, .unsigned 64, .space, .unsigned 64]

def truncateFormat : List Directive := literal truncateWord ++ [.space, .unsigned 64]

def entryFormat : List Directive :=
  literal entryWord ++ [.space, .unsigned 64, .space, .unsigned 64, .space, .signed 32,
    .space, .unsigned 64, .space, .unsigned 64, .space, .unsigned 32]

/-- One turn of the loop of `restore_pstate`; `none` is the exit with `-1`. -/
def restoreLine (p : PersistentState) (line : List Char) : Option PersistentState :=
  match sscanf stateFormat (cString line) with
  | [term, votedFor] => some { p with currentTerm := .ofNat term, votedFor := .ofNat votedFor }
  | _ =>
    match sscanf truncateFormat (cString line) with
    | [truncate] =>
      if truncate = 0 then none
      else if truncate ≤ p.logLen + 1 then some (p.truncate (truncate - 1))
      else some p
    | _ =>
      match sscanf entryFormat (cString line) with
      | [index, term, type, roomKey, playerId, input] =>
        if index ≠ p.logLen + 1 then none
        else if p.logLen ≥ raftLogCap then none
        else some (p.push
          { index := .ofNat index
            term := .ofNat term
            command := ⟨.ofNat type, .ofNat roomKey, .ofNat playerId, .ofNat input⟩ })
      | _ => some p

def restoreLines (p : PersistentState) : List (List Char) → PersistentState × Bool
  | [] => (p, true)
  | line :: lines =>
    match restoreLine p line with
    | some p => restoreLines p lines
    | none => (p, false)

/-- The buffer `char line[256]` holds 255 characters. -/
def lineCap : Nat := 255

/-- Read the file, if there is one, into the node; the flag is `false` on the exits with `-1`. -/
def restorePstate (r : RaftNode) : RaftNode × Bool :=
  match r.logFile.content with
  | none => (r, true)
  | some text =>
    let (p, ok) := restoreLines r.pstate (fgets lineCap text)
    ({ r with pstate := p }, ok)

/-! ## Records -/

/-- What one line of the file says. -/
inductive LogRecord where
  | state (term votedFor : UInt64)
  | entry (e : LogEntry)
  | truncate (from_ : UInt64)
  deriving DecidableEq, Repr

namespace LogRecord

def line : LogRecord → List Char
  | state term votedFor => stateLine term votedFor
  | entry e => entryLine e
  | truncate from_ => truncateLine from_

def replay (p : PersistentState) : LogRecord → Option PersistentState
  | state term votedFor => some { p with currentTerm := term, votedFor := votedFor }
  | entry e =>
    if e.index.toNat = p.logLen + 1 ∧ p.logLen < raftLogCap then some (p.push e) else none
  | truncate from_ =>
    if from_ = 0 then none
    else if from_.toNat ≤ p.logLen + 1 then some (p.truncate (from_.toNat - 1))
    else some p

end LogRecord

/-! ## A written line is read back as its record -/

namespace LogRecord

def word : LogRecord → List Char
  | state _ _ => stateWord
  | entry _ => entryWord
  | truncate _ => truncateWord

def format : LogRecord → List Directive
  | state _ _ => stateFormat
  | entry _ => entryFormat
  | truncate _ => truncateFormat

/-- The numbers of the line but the last one. -/
def fields : LogRecord → List Field
  | state term _ => [.unsigned 64 term.toNat]
  | entry e => [.unsigned 64 e.index.toNat, .unsigned 64 e.term.toNat,
      .signed 32 e.command.type.toBitVec.toInt, .unsigned 64 e.command.roomKey.toNat,
      .unsigned 64 e.command.playerId.toNat]
  | truncate _ => []

def last : LogRecord → Field
  | state _ votedFor => .unsigned 64 votedFor.toNat
  | entry e => .unsigned 32 e.command.input.toNat
  | truncate from_ => .unsigned 64 from_.toNat

theorem line_eq_fields (c : LogRecord) :
    c.line = c.word ++ (fieldsText (c.fields ++ [c.last]) ++ ['\n']) := by
  cases c <;> simp [line, word, fields, last, fieldsText, Field.text, stateLine, entryLine,
    truncateLine]

theorem format_eq (c : LogRecord) :
    c.format = literal c.word ++ fieldsFormat (c.fields ++ [c.last]) := by
  cases c <;> rfl

theorem fits (c : LogRecord) : ∀ f ∈ c.fields ++ [c.last], f.Fits := by
  have hw : ∀ t : UInt64, Field.Fits (.unsigned 64 t.toNat) := fun t => ⟨le_rfl, t.toNat_lt⟩
  cases c with
  | state t v => simp [fields, last, hw]
  | truncate i => simp [fields, last, hw]
  | entry e =>
    have hi : Field.Fits (.unsigned 32 e.command.input.toNat) :=
      ⟨by decide, e.command.input.toNat_lt⟩
    have ht : Field.Fits (.signed 32 e.command.type.toBitVec.toInt) := by
      have h₁ := e.command.type.toBitVec.le_toInt
      have h₂ := e.command.type.toBitVec.toInt_lt
      constructor <;> omega
    simp [fields, last, hw, hi, ht]

theorem sscanf_line (c : LogRecord) :
    sscanf c.format c.line = (c.fields ++ [c.last]).map Field.value := by
  have h := @sscanf_fields _ c.fits [] ['\n'] (by simp)
  rw [List.append_nil] at h
  rw [format_eq, line_eq_fields, sscanf_literal, h, sscanf, List.append_nil]

/-- A keyword is no other keyword. -/
theorem sscanf_of_word {c c' : LogRecord} {s : List Char} (h : c.word <+: s)
    (hne : c'.word.head? ≠ c.word.head?) : sscanf c'.format s = [] := by
  obtain ⟨t, rfl⟩ := h
  rw [format_eq]
  cases c <;> cases c' <;> simp_all [word, stateWord, entryWord, truncateWord, literal, sscanf]

/-- The word behind a command type is read back from its signed number. -/
theorem value_type (t : UInt32) : (t.toBitVec.toInt % 2 ^ 32).toNat = t.toNat := by
  have := t.toNat_lt
  rw [BitVec.toInt_eq_toNat_cond, UInt32.toNat_toBitVec]
  split <;> omega

/-- A text with the keyword and the numbers of a record is taken for that record. -/
theorem restoreLine_eq_replay (p : PersistentState) {s : List Char} {c : LogRecord}
    (hs : '\x00' ∉ s) (hw : c.word <+: s)
    (hv : sscanf c.format s = (c.fields ++ [c.last]).map Field.value) :
    restoreLine p s = c.replay p := by
  unfold restoreLine
  rw [cString_of_not_mem hs]
  cases c with
  | state t v =>
    have hv' : sscanf stateFormat s = [t.toNat, v.toNat] := hv
    simp [hv', replay]
  | truncate i =>
    have hst : sscanf stateFormat s = [] := @sscanf_of_word _ (.state 0 0) _ hw
      (by simp [word, stateWord, truncateWord])
    have hv' : sscanf truncateFormat s = [i.toNat] := hv
    simp [hst, hv', replay, ← UInt64.toNat_inj]
  | entry e =>
    have hst : sscanf stateFormat s = [] := @sscanf_of_word _ (.state 0 0) _ hw
      (by simp [word, stateWord, entryWord])
    have htr : sscanf truncateFormat s = [] := @sscanf_of_word _ (.truncate 0) _ hw
      (by simp [word, truncateWord, entryWord])
    have hv' : sscanf entryFormat s = [e.index.toNat, e.term.toNat, e.command.type.toNat,
        e.command.roomKey.toNat, e.command.playerId.toNat, e.command.input.toNat] := by
      rw [← value_type]
      exact hv
    simp only [hst, htr, hv', replay, UInt64.ofNat_toNat, UInt32.ofNat_toNat]
    by_cases hi : e.index.toNat = p.logLen + 1 <;> by_cases hl : p.logLen < raftLogCap
    · rw [if_neg (not_not.mpr hi), if_neg hl.not_ge, if_pos ⟨hi, hl⟩]
    · rw [if_neg (not_not.mpr hi), if_pos (not_lt.mp hl), if_neg (fun h => hl h.2)]
    · rw [if_pos hi, if_neg (fun h => hi h.1)]
    · rw [if_pos hi, if_neg (fun h => hi h.1)]

theorem nul_not_mem_line (c : LogRecord) : '\x00' ∉ c.line := by
  have hd : ∀ n, '\x00' ∉ decimal n := fun n => not_mem_decimal (by decide) n
  have hs : ∀ i, '\x00' ∉ signedDecimal i :=
    fun i => not_mem_signedDecimal (by decide) (by decide) i
  cases c <;> simp [line, stateLine, entryLine, truncateLine, stateWord, entryWord, truncateWord,
    hd, hs]

/-- A record is one line that fits the reader's buffer. -/
theorem line_eq (c : LogRecord) :
    ∃ l, c.line = l ++ ['\n'] ∧ '\n' ∉ l ∧ l.length < lineCap := by
  have hd : ∀ n, '\n' ∉ decimal n := fun n => not_mem_decimal (by decide) n
  have hs : ∀ i, '\n' ∉ signedDecimal i := fun i => not_mem_signedDecimal (by decide) (by decide) i
  have hw : ∀ t : UInt64, (decimal t.toNat).length ≤ 20 := fun t =>
    length_decimal_le (by decide) (by have := t.toNat_lt; omega)
  have hi : ∀ t : UInt32, (decimal t.toNat).length ≤ 10 := fun t =>
    length_decimal_le (by decide) (by have := t.toNat_lt; omega)
  have ht : ∀ t : UInt32, (signedDecimal t.toBitVec.toInt).length ≤ 11 := fun t =>
    length_signedDecimal_le (by decide) (by
      have h₁ := t.toBitVec.le_toInt
      have h₂ := t.toBitVec.toInt_lt
      omega)
  cases c with
  | state t v =>
    refine ⟨stateWord ++ ' ' :: (decimal t.toNat ++ ' ' :: decimal v.toNat), ?_, ?_, ?_⟩
    · simp [line, stateLine]
    · simp [stateWord, hd]
    · have := hw t; have := hw v
      simp [stateWord, lineCap]; omega
  | entry e =>
    refine ⟨entryWord ++ ' ' :: (decimal e.index.toNat ++ ' ' :: (decimal e.term.toNat ++
      ' ' :: (signedDecimal e.command.type.toBitVec.toInt ++
        ' ' :: (decimal e.command.roomKey.toNat ++ ' ' :: (decimal e.command.playerId.toNat ++
          ' ' :: decimal e.command.input.toNat))))), ?_, ?_, ?_⟩
    · simp [line, entryLine]
    · simp [entryWord, hd, hs]
    · have := hw e.index; have := hw e.term; have := ht e.command.type
      have := hw e.command.roomKey; have := hw e.command.playerId; have := hi e.command.input
      simp [entryWord, lineCap]; omega
  | truncate i =>
    refine ⟨truncateWord ++ ' ' :: decimal i.toNat, ?_, ?_, ?_⟩
    · simp [line, truncateLine]
    · simp [truncateWord, hd]
    · have := hw i
      simp [truncateWord, lineCap]; omega

/-- `restore_pstate` takes a written line for what it was written for. -/
theorem restoreLine_line (p : PersistentState) (c : LogRecord) :
    restoreLine p c.line = c.replay p := by
  apply restoreLine_eq_replay p c.nul_not_mem_line
  · exact c.line_eq_fields ▸ List.prefix_append _ _
  · exact c.sscanf_line

/-- The lines of a file that begins with records begin with those records. -/
theorem fgets_flatMap_line_append (cs : List LogRecord) (s : List Char) :
    fgets lineCap (cs.flatMap line ++ s) = cs.map line ++ fgets lineCap s := by
  induction cs with
  | nil => rfl
  | cons c cs ih =>
    obtain ⟨l, hl, hn, hlen⟩ := c.line_eq
    rw [List.flatMap_cons, hl, List.append_assoc, List.append_assoc, List.singleton_append,
      fgets_line hn hlen, ih, List.map_cons, hl, List.cons_append]

/-- The lines of a file of records are the records. -/
theorem fgets_flatMap_line (cs : List LogRecord) :
    fgets lineCap (cs.flatMap line) = cs.map line := by
  simpa using fgets_flatMap_line_append cs []

theorem restoreLines_map_line {p p' : PersistentState} {cs : List LogRecord}
    (h : cs.foldlM replay p = some p') (lines : List (List Char)) :
    restoreLines p (cs.map line ++ lines) = restoreLines p' lines := by
  induction cs generalizing p with
  | nil =>
    obtain rfl := Option.some.inj h
    rfl
  | cons c cs ih =>
    obtain ⟨q, hq, hqs⟩ := Option.bind_eq_some_iff.mp h
    rw [List.map_cons, List.cons_append, restoreLines, restoreLine_line, hq]
    exact ih hqs

theorem restoreLines_flatMap_line {p p' : PersistentState} {cs : List LogRecord}
    (h : cs.foldlM replay p = some p') :
    restoreLines p (fgets lineCap (cs.flatMap line)) = (p', true) := by
  have hl := restoreLines_map_line h []
  rwa [List.append_nil, ← fgets_flatMap_line] at hl

/-- No two records are written alike. -/
theorem line_injective : Function.Injective line := by
  intro c c' h
  have hv := congrArg (sscanf c.format) h
  rw [sscanf_line] at hv
  have hw : c'.word.head? = c.word.head? := by
    by_contra hne
    have hnil := sscanf_of_word (c'.line_eq_fields ▸ List.prefix_append _ _) (Ne.symm hne)
    simp [hnil] at hv
  have hfmt : c.format = c'.format := by
    cases c <;> cases c' <;> first
      | rfl
      | simp [word, stateWord, entryWord, truncateWord] at hw
  rw [hfmt, sscanf_line] at hv
  cases c with
  | state t v =>
    cases c' with
    | state t' v' => simp_all [fields, last, Field.value, UInt64.toNat_inj]
    | _ => simp [word, stateWord, entryWord, truncateWord] at hw
  | truncate i =>
    cases c' with
    | truncate i' => simp_all [fields, last, Field.value, UInt64.toNat_inj]
    | _ => simp [word, stateWord, entryWord, truncateWord] at hw
  | entry e =>
    cases c' with
    | entry e' =>
      rcases e with ⟨i, t, ⟨ty, rk, pl, inp⟩⟩
      rcases e' with ⟨i', t', ⟨ty', rk', pl', inp'⟩⟩
      simp only [fields, last, Field.value, value_type, List.cons_append, List.nil_append,
        List.map_cons, List.map_nil, List.cons.injEq, UInt64.toNat_inj, UInt32.toNat_inj,
        and_true] at hv
      obtain ⟨rfl, rfl, rfl, rfl, rfl, rfl⟩ := hv
      rfl
    | _ => simp [word, stateWord, entryWord, truncateWord] at hw

end LogRecord

end Corestack.Raft
