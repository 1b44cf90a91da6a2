import Corestack.Text.Words

/-! # The register of the daemons

`tmp/daemons.reg` has one line for each plant whose daemon was registered: its name, the
process of the daemon and the time. A line is read back as it was written if the plant
has a name; a line without one is not read at all.
-/

namespace Corestack.Plant

open Text

/-- An argument without white space, of at most 63 characters. -/
@[ext] structure PlantName where
  text : List Char
  isWord : ∀ c ∈ text, isSpace c = false ∧ c ≠ '\x00'
  length_le : text.length ≤ 63
  deriving DecidableEq

@[ext] structure Pid where
  val : Int
  nonneg : 0 ≤ val
  lt : val < 2 ^ 31
  deriving DecidableEq

/-- What `ctime` gives, up to its newline. -/
structure Timestamp where
  text : List Char
  isText : ∀ c ∈ text, c ≠ '\n' ∧ c ≠ '\x00'
  ne_nil : text ≠ []
  starts : ∀ c ∈ text.head?, isSpace c = false
  length_le : text.length ≤ 127

/-- A daemon and the plant that it tends. -/
structure Daemon where
  name : PlantName
  pid : Pid
  deriving DecidableEq

/-- A line of the register as it is read. -/
structure Entry where
  name : List Char
  pid : Int
  ts : List Char
  deriving DecidableEq, Repr

/-- `sscanf` with `%63s %d %127[^\n]`, where all three are there. -/
def scanEntry (line : List Char) : Option Entry :=
  match scanWord 63 (cString line) with
  | none => none
  | some (name, s) =>
    match scanNumber s with
    | none => none
    | some (neg, m, s) =>
      match scanLine 127 (s.dropWhile isSpace) with
      | none => none
      | some (ts, _) => some ⟨name, (strtol neg m).bmod (2 ^ 32), ts⟩

/-- The lines of the register that are read; the others are skipped. -/
def entries (reg : List Char) : List Entry := (fgets 255 reg).filterMap scanEntry

def isDaemonRegistered (reg : List Char) (name : PlantName) : Bool :=
  (entries reg).any fun e => e.name = name.text

/-- `alive` tells the processes that have a directory under `/proc`. -/
def isPlantRunning (reg : List Char) (alive : Int → Bool) (name : PlantName) : Bool :=
  (entries reg).any fun e => decide (e.name = name.text) && alive e.pid

/-- Output of `%s %d %s\n`. -/
def entryLine (d : Daemon) (ts : Timestamp) : List Char :=
  d.name.text ++ ' ' :: (signedDecimal d.pid.val ++ ' ' :: (ts.text ++ ['\n']))

/-- A plant that is registered is not recorded again, whatever its process is. -/
def daemonRegister (reg : List Char) (d : Daemon) (ts : Timestamp) : List Char :=
  if isDaemonRegistered reg d.name then reg else reg ++ entryLine d ts

theorem isDaemonRegistered_iff {reg : List Char} {name : PlantName} :
    isDaemonRegistered reg name = true ↔ ∃ e ∈ entries reg, e.name = name.text := by
  simp [isDaemonRegistered]

theorem isPlantRunning_iff {reg : List Char} {alive : Int → Bool} {name : PlantName} :
    isPlantRunning reg alive name = true ↔
      ∃ e ∈ entries reg, e.name = name.text ∧ alive e.pid = true := by
  simp [isPlantRunning]

/-! ## Reading a line -/

theorem scanEntry_name_ne_nil {line : List Char} {e : Entry} (h : scanEntry line = some e) :
    e.name ≠ [] := by
  unfold scanEntry at h
  split at h
  · cases h
  · rename_i name s hw
    split at h
    · cases h
    · split at h
      · cases h
      · cases h
        exact scanWord_ne_nil hw

theorem entries_name_ne_nil {reg : List Char} {e : Entry} (h : e ∈ entries reg) :
    e.name ≠ [] := by
  obtain ⟨line, -, hl⟩ := List.mem_filterMap.mp h
  exact scanEntry_name_ne_nil hl

theorem Pid.signedDecimal_val (pid : Pid) : signedDecimal pid.val = decimal pid.val.natAbs :=
  if_neg (Int.not_lt.mpr pid.nonneg)

/-- A process number is in the range of `int`. -/
theorem Pid.bmod_strtol (pid : Pid) : (strtol false pid.val.natAbs).bmod (2 ^ 32) = pid.val := by
  have h0 := pid.nonneg
  have hlt := pid.lt
  have hv : strtol false pid.val.natAbs = pid.val := by
    simp only [strtol, Bool.false_eq_true, if_false]
    omega
  rw [hv]
  apply Int.bmod_eq_of_le
  · omega
  · omega

/-- A word, as `%s` reads it. -/
def IsWord (w : List Char) : Prop := ∀ c ∈ w, isSpace c = false ∧ c ≠ '\x00'

/-- A word, a process and a time, before the newline. -/
def lineText (w : List Char) (pid : Pid) (ts : Timestamp) : List Char :=
  w ++ ' ' :: (signedDecimal pid.val ++ ' ' :: ts.text)

theorem not_mem_lineText {c : Char} {w : List Char} (hw : IsWord w) (pid : Pid) (ts : Timestamp)
    (hc : c = '\n' ∨ c = '\x00') : c ∉ lineText w pid ts := by
  have hword : c ∉ w := by
    intro h
    have hw := hw c h
    rcases hc with rfl | rfl
    · exact Bool.noConfusion hw.1
    · exact hw.2 rfl
  have hpid : c ∉ signedDecimal pid.val := by
    apply not_mem_signedDecimal
    · rcases hc with rfl | rfl <;> rfl
    · rcases hc with rfl | rfl <;> decide
  have hts : c ∉ ts.text := by
    intro h
    have ht := ts.isText c h
    rcases hc with rfl | rfl
    · exact ht.1 rfl
    · exact ht.2 rfl
  have hblank : c ≠ ' ' := by rcases hc with rfl | rfl <;> decide
  simp [lineText, hword, hpid, hts, hblank]

theorem length_lineText_le (w : List Char) (pid : Pid) (ts : Timestamp) :
    (lineText w pid ts).length ≤ w.length + 140 := by
  have hpid : (signedDecimal pid.val).length ≤ 11 :=
    length_signedDecimal_le (by decide) (by have h0 := pid.nonneg; have hlt := pid.lt; omega)
  have hts := ts.length_le
  simp only [lineText, List.length_append, List.length_cons]
  omega

theorem entryLine_eq (d : Daemon) (ts : Timestamp) :
    entryLine d ts = lineText d.name.text d.pid ts ++ ['\n'] := by
  simp [entryLine, lineText]

/-- A line is shorter than the smallest of the buffers that it is read into. -/
theorem fgets_entryLine {n : Nat} (hn : 255 ≤ n) (d : Daemon) (ts : Timestamp) (reg : List Char) :
    fgets n (entryLine d ts ++ reg) = entryLine d ts :: fgets n reg := by
  have hlen := length_lineText_le d.name.text d.pid ts
  have hname := d.name.length_le
  rw [entryLine_eq, List.append_assoc]
  exact fgets_line (not_mem_lineText d.name.isWord d.pid ts (Or.inl rfl)) (by omega) reg

/-- What was written of a plant with a name is read back. -/
theorem scanEntry_entryLine {d : Daemon} (hne : d.name.text ≠ []) (ts : Timestamp) :
    scanEntry (entryLine d ts) = some ⟨d.name.text, d.pid.val, ts.text⟩ := by
  have hnul : '\x00' ∉ entryLine d ts := by
    rw [entryLine_eq]
    simpa using not_mem_lineText d.name.isWord d.pid ts (Or.inr rfl)
  have hword := scanWord_append (fun c hc => (d.name.isWord c hc).1) hne d.name.length_le
    (show isSpace ' ' = true from rfl) (signedDecimal d.pid.val ++ ' ' :: (ts.text ++ ['\n']))
  have hpid : scanNumber (' ' :: (signedDecimal d.pid.val ++ ' ' :: (ts.text ++ ['\n']))) =
      some (false, d.pid.val.natAbs, ' ' :: (ts.text ++ ['\n'])) := by
    rw [d.pid.signedDecimal_val]
    exact scanNumber_blank ((endsNumber_cons _ _).mpr rfl)
  have hskip : (' ' :: (ts.text ++ ['\n'])).dropWhile isSpace = ts.text ++ ['\n'] := by
    obtain ⟨c, s, hs⟩ := List.exists_cons_of_ne_nil ts.ne_nil
    have hc : isSpace c = false := ts.starts c (by simp [hs])
    have hblank : (' ' :: (ts.text ++ ['\n'])).dropWhile isSpace =
        (ts.text ++ ['\n']).dropWhile isSpace := rfl
    rw [hblank, hs, List.cons_append, List.dropWhile_cons_of_neg (by simp [hc])]
  have hline := scanLine_append (fun h => (ts.isText _ h).1 rfl) ts.ne_nil ts.length_le []
  unfold scanEntry
  rw [cString_of_not_mem hnul]
  simp only [entryLine, hword, hpid, hskip, hline, d.pid.bmod_strtol]

theorem entries_entryLine {d : Daemon} (hne : d.name.text ≠ []) (ts : Timestamp)
    (reg : List Char) :
    entries (entryLine d ts ++ reg) = ⟨d.name.text, d.pid.val, ts.text⟩ :: entries reg := by
  unfold entries
  rw [fgets_entryLine (Nat.le_refl 255), List.filterMap_cons, scanEntry_entryLine hne ts]

end Corestack.Plant
