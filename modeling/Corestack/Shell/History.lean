import Corestack.Ring.Buffer
import Corestack.Runs
import Corestack.Shell.Scrollback

/-! # The history of the shell

`cmdline.c` keeps the last 128 lines in a ring. What `hist_up` and `hist_down` make of
it is scrolling back with a cursor, as long as nobody scrolls past the oldest line.
-/

namespace Corestack.Shell

open Corestack.Ring

/-- The static variables of the history. -/
structure Hist where
  hist : Nat → Option (List Char)
  hlen : Nat
  hhead : Nat
  hcur : Nat

namespace Hist

def init : Hist := ⟨fun _ => none, 0, 0, 0⟩

/-- An empty line is not kept. -/
def history (h : Hist) (line : List Char) : Hist :=
  if line = [] then h
  else
    { hist := Function.update h.hist h.hhead (some line)
      hlen := if h.hlen < 128 then h.hlen + 1 else h.hlen
      hhead := (h.hhead + 1) % 128
      hcur := (h.hhead + 1) % 128 }

def histUp (h : Hist) : Hist × Option (List Char) :=
  if h.hlen = 0 then (h, none)
  else if (h.hcur + 127) % 128 = h.hhead then (h, none)
  else ({ h with hcur := (h.hcur + 127) % 128 }, h.hist ((h.hcur + 127) % 128))

def histDown (h : Hist) : Hist × Option (List Char) :=
  if h.hcur = h.hhead then (h, none)
  else ({ h with hcur := (h.hcur + 1) % 128 },
    if (h.hcur + 1) % 128 = h.hhead then some [] else h.hist ((h.hcur + 1) % 128))

end Hist

inductive HistOp
  | line (line : List Char)
  | up
  | down

def Hist.call (h : Hist) : HistOp → Hist × Option (List Char)
  | .line line => (h.history line, none)
  | .up => h.histUp
  | .down => h.histDown

/-- What the calls should do: the last 128 lines that are not empty, and a cursor. -/
def Scrollback.call (s : Scrollback (List Char) 128) :
    HistOp → Scrollback (List Char) 128 × Option (List Char)
  | .line line => (if line = [] then s else s.push line, none)
  | .up => s.older
  | .down => s.newer []

/-- No `hist_up` at the oldest of fewer than 127 lines, nor at the oldest but one of 128. -/
def HistOp.Sound (s : Scrollback (List Char) 128) : HistOp → Prop
  | up => ¬ (0 < s.lines.length ∧ s.lines.length < 127 ∧ s.cursor = s.lines.length) ∧
      ¬ (s.lines.length = 128 ∧ s.cursor = 127)
  | _ => True

instance (s : Scrollback (List Char) 128) (op : HistOp) : Decidable (op.Sound s) := by
  cases op <;> unfold HistOp.Sound <;> infer_instance

/-- The ring holds the lines, counted back from its head, and its cursor is at the same line. -/
structure Follows (h : Hist) (s : Scrollback (List Char) 128) : Prop where
  hlen : h.hlen = s.lines.length
  hhead_lt : h.hhead < 128
  slot : ∀ d < s.lines.length, h.hist (back 128 h.hhead (d + 1)) = s.lines[d]?
  hcur : h.hcur = back 128 h.hhead s.cursor
  cursor_lt : s.cursor < 128

/-! ## One call -/

variable {h : Hist} {s : Scrollback (List Char) 128} {op : HistOp}

theorem init_follows : Follows Hist.init Scrollback.empty := by
  constructor
  · rfl
  · decide
  · exact fun d hd => absurd hd (Nat.not_lt_zero d)
  · rfl
  · decide

theorem Follows.history (hf : Follows h s) {line : List Char} (hne : line ≠ []) :
    Follows (h.history line) (s.push line) := by
  have hl := s.length_le
  have hlen := Scrollback.length_push (s := s) (x := line)
  rw [Hist.history, if_neg hne]
  constructor
  · rw [hlen]
    dsimp only
    rw [hf.hlen]
    split_ifs <;> omega
  · exact Nat.mod_lt _ (by decide)
  · intro d hd
    rw [hlen] at hd
    dsimp only
    rw [back_next hf.hhead_lt (by omega)]
    cases d with
    | zero =>
      rw [back_zero hf.hhead_lt, Function.update_self, Scrollback.getElem?_push_zero (by decide)]
    | succ d =>
      have hne' : back 128 h.hhead (d + 1) ≠ h.hhead := by
        rw [Ne, back_eq_head_iff hf.hhead_lt (by omega)]
        omega
      rw [Function.update_of_ne hne', Scrollback.getElem?_push_succ (by omega)]
      exact hf.slot d (by omega)
  · exact (back_zero (Nat.mod_lt _ (by decide))).symm
  · exact Nat.zero_lt_succ 127

theorem Follows.next_up (hf : Follows h s) :
    (h.hcur + 127) % 128 = back 128 h.hhead (s.cursor + 1) := by
  rw [hf.hcur]
  exact back_succ hf.hhead_lt hf.cursor_lt

/-- The ring ends 128 places back, whatever it holds. -/
theorem Follows.stops_iff (hf : Follows h s) :
    (h.hcur + 127) % 128 = h.hhead ↔ s.cursor = 127 := by
  have hc := hf.cursor_lt
  rw [hf.next_up, back_eq_head_iff hf.hhead_lt (by omega)]
  omega

theorem Follows.histUp (hf : Follows h s) (ho : HistOp.up.Sound s) :
    Follows h.histUp.1 s.older.1 ∧ h.histUp.2 = s.older.2 := by
  have hl := s.length_le
  have hle := s.cursor_le
  have hc := hf.cursor_lt
  obtain ⟨hold, hfull⟩ := ho
  by_cases hlt : s.cursor < s.lines.length
  · have hstop : ¬ (h.hcur + 127) % 128 = h.hhead := by
      rw [hf.stops_iff]
      omega
    have hne : ¬ h.hlen = 0 := by
      rw [hf.hlen]
      omega
    rw [Hist.histUp, if_neg hne, if_neg hstop, Scrollback.older_of_lt hlt, hf.next_up]
    refine ⟨⟨hf.hlen, hf.hhead_lt, hf.slot, rfl, ?_⟩, hf.slot _ hlt⟩
    dsimp only
    omega
  · rw [Scrollback.older_of_eq (by omega), Hist.histUp]
    split_ifs with h0 hstop
    · exact ⟨hf, rfl⟩
    · exact ⟨hf, rfl⟩
    · rw [hf.hlen] at h0
      rw [hf.stops_iff] at hstop
      omega

theorem Follows.histDown (hf : Follows h s) :
    Follows h.histDown.1 (s.newer []).1 ∧ h.histDown.2 = (s.newer []).2 := by
  have hle := s.cursor_le
  have hc := hf.cursor_lt
  have hhead : ∀ d < 128, back 128 h.hhead d = h.hhead ↔ d = 0 := by
    intro d hd
    rw [back_eq_head_iff hf.hhead_lt hd.le]
    omega
  rw [Hist.histDown, Scrollback.newer]
  by_cases h0 : s.cursor = 0
  · rw [if_pos h0, if_pos (by rw [hf.hcur, hhead _ hc]; exact h0)]
    exact ⟨hf, rfl⟩
  · have hnext : (h.hcur + 1) % 128 = back 128 h.hhead (s.cursor - 1) := by
      obtain ⟨c, hcur⟩ := Nat.exists_eq_succ_of_ne_zero h0
      rw [hf.hcur, hcur]
      exact back_add_one hf.hhead_lt (by omega)
    rw [if_neg h0, if_neg (by rw [hf.hcur, hhead _ hc]; exact h0), hnext]
    constructor
    · exact ⟨hf.hlen, hf.hhead_lt, hf.slot, rfl, Nat.lt_of_le_of_lt (Nat.sub_le _ _) hc⟩
    · dsimp only
      by_cases h1 : s.cursor = 1
      · rw [if_pos h1, if_pos ((hhead _ (by omega)).mpr (by omega))]
      · rw [if_neg h1, if_neg (by rw [hhead _ (by omega)]; omega)]
        have hs := hf.slot (s.cursor - 2) (by omega)
        have hpred : s.cursor - 2 + 1 = s.cursor - 1 := by omega
        rw [hpred] at hs
        exact hs

/-- A sound call keeps the ring and the lines together, and answers alike. -/
theorem Follows.call (hf : Follows h s) (ho : op.Sound s) :
    Follows (h.call op).1 (s.call op).1 ∧ (h.call op).2 = (s.call op).2 := by
  cases op with
  | line line =>
    by_cases hne : line = []
    · simp only [Hist.call, Scrollback.call, Hist.history, if_pos hne]
      exact ⟨hf, trivial⟩
    · simp only [Scrollback.call, if_neg hne]
      exact ⟨hf.history hne, rfl⟩
  | up => exact hf.histUp ho
  | down => exact hf.histDown

/-- A call that is not sound goes past the oldest line, or does not reach it. -/
theorem Follows.sound (hf : Follows h s) (ha : (h.call op).2 = (s.call op).2)
    (hc : (h.call op).1.hcur = back 128 (h.call op).1.hhead (s.call op).1.cursor) :
    op.Sound s := by
  cases op with
  | line line => trivial
  | down => trivial
  | up =>
    have hcl := hf.cursor_lt
    have hlen := hf.hlen
    simp only [Hist.call, Scrollback.call] at ha hc
    constructor
    · rintro ⟨hpos, hlt, hold⟩
      have hne : ¬ h.hlen = 0 := by omega
      have hstop : ¬ (h.hcur + 127) % 128 = h.hhead := by
        rw [hf.stops_iff]
        omega
      rw [Hist.histUp, if_neg hne, if_neg hstop, Scrollback.older_of_eq hold, hf.next_up] at hc
      have := back_inj hf.hhead_lt (by omega) hcl hc
      omega
    · rintro ⟨hfull, hcur⟩
      have hne : ¬ h.hlen = 0 := by omega
      have hlt : s.cursor < s.lines.length := by omega
      rw [Hist.histUp, if_neg hne, if_pos (hf.stops_iff.mpr hcur), Scrollback.older_of_lt hlt,
        List.getElem?_eq_getElem hlt] at ha
      cases ha

/-! ## Runs -/

/-- The state after the calls, and their answers. -/
def Hist.run (ops : List HistOp) : Hist × List (Option (List Char)) :=
  Runs.outputs Hist.call Hist.init ops

def Scrollback.run (ops : List HistOp) :
    Scrollback (List Char) 128 × List (Option (List Char)) :=
  Runs.outputs Scrollback.call Scrollback.empty ops

/-- The calls answer as scrolling back with a cursor does, and leave the cursor where it does, if
and only if none of them is made at the oldest of fewer than 127 lines or is to reach the oldest
of 128. -/
theorem history_refines_iff (ops : List HistOp) :
    (∀ pre, pre <+: ops → (Hist.run pre).2 = (Scrollback.run pre).2 ∧
      (Hist.run pre).1.hcur =
        back 128 (Hist.run pre).1.hhead (Scrollback.run pre).1.cursor) ↔
    ∀ pre op, pre ++ [op] <+: ops → op.Sound (Scrollback.run pre).1 := by
  apply Runs.forall_prefix_iff (I := fun pre =>
    Follows (Hist.run pre).1 (Scrollback.run pre).1 ∧ (Hist.run pre).2 = (Scrollback.run pre).2)
  · exact ⟨init_follows, rfl⟩
  · rintro pre op - ⟨hf, ha⟩ ho
    obtain ⟨hf', ha'⟩ := hf.call ho
    simp only [Hist.run, Scrollback.run, Runs.outputs_concat] at ha hf' ha' ⊢
    exact ⟨hf', by rw [ha, ha']⟩
  · rintro pre - ⟨hf, ha⟩
    exact ⟨ha, hf.hcur⟩
  · rintro pre op - ⟨hf, ha⟩ ⟨ha', hc⟩
    simp only [Hist.run, Scrollback.run, Runs.outputs_concat] at ha hf ha' hc ⊢
    rw [ha] at ha'
    exact hf.sound (by simpa using ha') hc

/-- Past the oldest of two lines and down again: the oldest comes once more. -/
theorem history_overscrolled :
    ¬ ∀ ops : List HistOp, (Hist.run ops).2 = (Scrollback.run ops).2 := by
  intro h
  have ha := h [.line ['a'], .line ['b'], .up, .up, .up, .down]
  exact absurd ha (by decide)

end Corestack.Shell
