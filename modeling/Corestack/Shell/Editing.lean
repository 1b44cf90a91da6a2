import Corestack.Shell.LineEditor
import Corestack.Text.Zipper

/-! # Editing a line

The line editor does to its buffer what the keys do to a text with a cursor, as long as no
line of `2 ^ 31` characters is taken from the history.
-/

namespace Corestack.Shell

open Text

structure Printable where
  val : Char
  isPrint_val : isPrint val = true

/-- A key. With `tab` comes what `tab_complete` finds, with `enter` the array that the next call of
`line_read` is given. -/
inductive Key (cap : Capacity)
  | char (c : Printable)
  | backspace (ctrlH : Bool)
  | delete
  | left
  | right
  | wordLeft
  | wordRight
  | up
  | down
  | tab (completion : Option Completion)
  | enter (next : Memory Char cap.val)

namespace Key

variable {cap : Capacity}

/-- What the terminal sends. -/
def bytes : Key cap → List Char
  | char c => [c.val]
  | backspace ctrlH => if ctrlH then ['\x08'] else ['\x7f']
  | delete => ['\x1b', '[', '3', '~']
  | left => ['\x1b', '[', 'D']
  | right => ['\x1b', '[', 'C']
  | wordLeft => ['\x1b', '[', '1', ';', '5', 'D']
  | wordRight => ['\x1b', '[', '1', ';', '5', 'C']
  | up => ['\x1b', '[', 'A']
  | down => ['\x1b', '[', 'B']
  | tab _ => ['\t']
  | enter _ => ['\n']

def completion : Key cap → Option Completion
  | tab completion => completion
  | _ => none

def stroke : Key cap → Stroke
  | char c => .char c.val
  | backspace _ => .backspace
  | delete => .delete
  | left => .left
  | right => .right
  | wordLeft => .wordLeft
  | wordRight => .wordRight
  | up => .up
  | down => .down
  | tab _ => .tab
  | enter _ => .newline

/-- The array of the next call, which has the given one until then. -/
def nextBuffer (buf : Memory Char cap.val) : Key cap → Memory Char cap.val
  | enter next => next
  | _ => buf

end Key

variable {cap : Capacity}

/-- A key is typed: `line_read` takes a turn, and is called again when it returns. -/
def Editor.type (e : Editor cap) (k : Key cap) : Option (Editor cap × Option (List Char × Nat)) :=
  match e.turn k.completion k.bytes with
  | none => none
  | some (.reading e', _) => some (e', none)
  | some (.returned hist line, _) => some (Editor.start hist (k.nextBuffer e.buf), line)

/-- The name of a directory ends with a slash. -/
def Completion.inserted (completion : Completion) : List Char :=
  completion.text ++ if completion.slash then ['/'] else []

/-- The text with its cursor, and the history. -/
structure Reference where
  zipper : Zipper Char
  hist : Hist

namespace Reference

/-- A text that does not fit is not inserted. -/
def insert (cap : Capacity) (r : Reference) (s : List Char) : Reference :=
  if r.zipper.text.length + s.length ≤ cap.val - 1 then { r with zipper := r.zipper.insert s }
  else r

/-- The text is replaced, if there is another. -/
def replace (r : Reference) (answer : Hist × Option (List Char)) : Reference :=
  match answer with
  | (hist, none) => { r with hist := hist }
  | (hist, some h) => ⟨Zipper.ofText h, hist⟩

def type (r : Reference) : Key cap → Reference × Option (List Char × Nat)
  | .char c => (r.insert cap [c.val], none)
  | .backspace _ => ({ r with zipper := r.zipper.backspace }, none)
  | .delete => ({ r with zipper := r.zipper.delete }, none)
  | .left => ({ r with zipper := r.zipper.left }, none)
  | .right => ({ r with zipper := r.zipper.right }, none)
  | .wordLeft =>
    ({ r with zipper := (r.zipper.left.leftWhile isAlnum).leftWhile fun c => !isAlnum c }, none)
  | .wordRight =>
    ({ r with zipper := (r.zipper.rightWhile isAlnum).rightWhile fun c => !isAlnum c }, none)
  | .up => (r.replace r.hist.histUp, none)
  | .down => (r.replace r.hist.histDown, none)
  | .tab none => (r, none)
  | .tab (some completion) => (r.insert cap completion.inserted, none)
  | .enter _ => (⟨Zipper.ofText [], r.hist.history r.zipper.text⟩,
      some (r.zipper.text, r.zipper.text.length))

end Reference

/-- No line of `2 ^ 31` characters is taken from the history. -/
def Key.Sound (r : Reference) : Key cap → Prop
  | up => ∀ h ∈ r.hist.histUp.2, h.length < 2 ^ 31
  | down => ∀ h ∈ r.hist.histDown.2, h.length < 2 ^ 31
  | _ => True

/-- The lines of the history were in the buffer. -/
def Hist.Fits (cap : Capacity) (h : Hist) : Prop :=
  ∀ i, ∀ line ∈ h.hist i, '\x00' ∉ line ∧ line.length < cap.val

/-- The text is at the start of the buffer, in two parts at the cursor. -/
structure Shows (e : Editor cap) (z : Zipper Char) : Prop where
  cells : ∃ junk, e.buf.cells = z.before.reverse ++ (z.after ++ junk)
  pos : e.pos = z.before.length
  len : e.len = z.before.length + z.after.length
  fits : z.before.length + z.after.length < cap.val
  isText : '\x00' ∉ z.text

/-- The editor has the text and the history. -/
structure Edits (e : Editor cap) (r : Reference) : Prop where
  shows : Shows e r.zipper
  hist : e.hist = r.hist
  fits : r.hist.Fits cap

/-! ## Keys -/

theorem readKey_char {c : Char} (hc : isPrint c = true) (s : List Char) :
    readKey (c :: s) = some (.char c, s) := by
  have hne : ∀ d, isPrint d = false → c ≠ d := by
    intro d hd h
    rw [← h, hc] at hd
    cases hd
  have hback : ¬ (c = '\x7f' ∨ c = '\x08') := by
    rintro (h | h)
    · exact hne '\x7f' rfl h
    · exact hne '\x08' rfl h
  rw [readKey, if_neg (hne '\n' rfl), if_neg hback, if_neg (hne '\x04' rfl),
    if_neg (hne '\x1b' rfl), if_neg (hne '\t' rfl)]

/-- The bytes of a key are read as that key. -/
theorem readKey_bytes (k : Key cap) (s : List Char) :
    readKey (k.bytes ++ s) = some (k.stroke, s) := by
  cases k with
  | char c => exact readKey_char c.isPrint_val s
  | backspace ctrlH => cases ctrlH <;> rfl
  | delete => rfl
  | left => rfl
  | right => rfl
  | wordLeft => rfl
  | wordRight => rfl
  | up => rfl
  | down => rfl
  | tab completion => rfl
  | enter next => rfl

theorem turn_bytes (e : Editor cap) (k : Key cap) :
    e.turn k.completion k.bytes = (e.stroke k.completion k.stroke).map fun p => (p, []) := by
  have hread := readKey_bytes k []
  rw [List.append_nil] at hread
  rw [Editor.turn, hread]

/-! ## One key -/

variable {e : Editor cap} {r : Reference} {z : Zipper Char}

theorem sub_add (a b : Nat) : sub (a + b) a = some b := by
  rw [sub, if_pos (Nat.le_add_right a b), Nat.add_sub_cancel_left]

theorem sub_one (n : Nat) : sub (n + 1) 1 = some n := by
  rw [Nat.add_comm]
  exact sub_add 1 n

theorem sub_eq {a b c : Nat} (h : a = b + c) : sub a b = some c := by
  rw [h, sub_add]

theorem Shows.backspace (hs : Shows e z) :
    ∃ e', e.backspace = some e' ∧ Shows e' z.backspace ∧ e'.hist = e.hist := by
  obtain ⟨⟨junk, hcells⟩, hpos, hlen, hfits, htext⟩ := hs
  have hsub := z.text_backspace_sublist
  obtain ⟨before, after⟩ := z
  cases before with
  | nil =>
    have h0 : ¬ 0 < e.pos := by simp [hpos]
    exact ⟨e, if_neg h0, ⟨⟨junk, hcells⟩, hpos, hlen, hfits, htext⟩, rfl⟩
  | cons c before =>
    simp only [List.length_cons] at hpos hlen hfits
    have h0 : 0 < e.pos := by omega
    have hmove : e.buf.cells = before.reverse ++ ([c] ++ (after ++ junk)) := by
      rw [hcells]
      simp
    obtain ⟨buf, junk', hm, hbuf⟩ := Memory.move_left hmove
    rw [List.length_reverse, List.length_singleton] at hm
    refine ⟨{ e with buf := buf, len := before.length + after.length, pos := before.length },
      ?_, ⟨⟨junk', hbuf⟩, rfl, rfl, ?_, ?_⟩, rfl⟩
    · rw [Editor.backspace, if_pos h0, sub_eq (c := before.length) (by omega),
        sub_eq (c := after.length) (by omega),
        sub_eq (c := before.length + after.length) (by omega)]
      simp only [Option.bind_eq_bind, Option.bind_some, hpos, hm]
    · dsimp only [Zipper.backspace, List.tail_cons]
      omega
    · exact fun h => htext (hsub.subset h)

theorem Shows.delete (hs : Shows e z) :
    ∃ e', e.delete = some e' ∧ Shows e' z.delete ∧ e'.hist = e.hist := by
  obtain ⟨⟨junk, hcells⟩, hpos, hlen, hfits, htext⟩ := hs
  have hsub := z.text_delete_sublist
  obtain ⟨before, after⟩ := z
  cases after with
  | nil =>
    have hend : ¬ e.pos < e.len := by simp [hpos, hlen]
    exact ⟨e, if_neg hend, ⟨⟨junk, hcells⟩, hpos, hlen, hfits, htext⟩, rfl⟩
  | cons c after =>
    simp only [List.length_cons] at hpos hlen hfits
    have hin : e.pos < e.len := by omega
    obtain ⟨buf, junk', hm, hbuf⟩ := Memory.move_left (x := [c]) hcells
    rw [List.length_reverse, List.length_singleton] at hm
    have hbuf' : buf.cells = (before.reverse ++ after) ++ junk' := by
      rw [hbuf, List.append_assoc]
    have hlen' : (before.reverse ++ after).length = before.length + after.length := by simp
    obtain ⟨buf', junk'', hw, hbuf'⟩ := Memory.write_behind hbuf' (by omega) '\x00'
    rw [hlen'] at hw
    rw [List.append_assoc] at hbuf'
    refine ⟨{ e with buf := buf', len := before.length + after.length },
      ?_, ⟨⟨_, hbuf'⟩, hpos, rfl, ?_, ?_⟩, rfl⟩
    · rw [Editor.delete, if_pos hin, sub_eq (c := after.length + 1) (by omega),
        sub_eq (c := before.length + after.length) (by omega)]
      simp only [Option.bind_eq_bind, Option.bind_some, sub_one, hpos, hm, hw]
    · dsimp only [Zipper.delete, List.tail_cons]
      omega
    · exact fun h => htext (hsub.subset h)

/-- The cursor is moved over the text. -/
theorem Shows.moved (hs : Shows e z) {z' : Zipper Char} (htext : z'.text = z.text) {pos : Nat}
    (hpos : pos = z'.before.length) : Shows { e with pos := pos } z' := by
  obtain ⟨⟨junk, hcells⟩, -, hlen, hfits, hisText⟩ := hs
  have hlength : z'.before.length + z'.after.length = z.before.length + z.after.length := by
    rw [← Zipper.length_text, htext, Zipper.length_text]
  refine ⟨⟨junk, ?_⟩, hpos, ?_, ?_, ?_⟩
  · rw [hcells, ← List.append_assoc, ← List.append_assoc]
    exact congrArg (fun s => s ++ junk) htext.symm
  · rw [hlength]
    exact hlen
  · rwa [hlength]
  · rwa [htext]

theorem Editor.left_eq (e : Editor cap) : e.left = { e with pos := e.pos - 1 } := by
  unfold Editor.left
  split
  · rfl
  · rename_i h0
    have hpos : e.pos - 1 = e.pos := by omega
    rw [hpos]

theorem Editor.right_eq (e : Editor cap) :
    e.right = { e with pos := if e.pos < e.len then e.pos + 1 else e.pos } := by
  unfold Editor.right
  split <;> rfl

theorem Shows.left (hs : Shows e z) : Shows e.left z.left := by
  rw [Editor.left_eq]
  apply hs.moved z.text_left
  rw [hs.pos, z.length_before_left]

theorem Shows.right (hs : Shows e z) : Shows e.right z.right := by
  rw [Editor.right_eq]
  apply hs.moved z.text_right
  rw [hs.pos, hs.len, ← z.length_text, z.length_before_right]

/-- A loop to the right ends where the cursor is. -/
theorem Shows.rightWhile (hs : Shows e z) (p : Char → Bool) :
    ∃ pos, e.buf.scanRight p (e.len - e.pos) e.pos = some pos ∧
      Shows { e with pos := pos } (z.rightWhile p) := by
  obtain ⟨junk, hcells⟩ := hs.cells
  have hscan := Memory.scanRight_eq (p := p) hcells
  have hsteps : e.len - e.pos = z.after.length := by
    rw [hs.len, hs.pos, Nat.add_sub_cancel_left]
  rw [List.length_reverse] at hscan
  rw [hsteps, hs.pos]
  refine ⟨_, hscan, hs.moved (z.text_rightWhile p) ?_⟩
  rw [Zipper.rightWhile, List.length_append, List.length_reverse, Nat.add_comm]

theorem Shows.leftWhile (hs : Shows e z) (p : Char → Bool) :
    ∃ pos, e.buf.scanLeft p e.pos = some pos ∧ Shows { e with pos := pos } (z.leftWhile p) := by
  obtain ⟨junk, hcells⟩ := hs.cells
  have hscan := Memory.scanLeft_eq (p := p) hcells
  rw [hs.pos]
  exact ⟨_, hscan, hs.moved (z.text_leftWhile p) rfl⟩

theorem Shows.wordRight (hs : Shows e z) :
    ∃ e', e.wordRight = some e' ∧
      Shows e' ((z.rightWhile isAlnum).rightWhile fun c => !isAlnum c) ∧ e'.hist = e.hist := by
  obtain ⟨pos, hscan, hs⟩ := hs.rightWhile isAlnum
  obtain ⟨pos', hscan', hs⟩ := hs.rightWhile fun c => !isAlnum c
  refine ⟨_, ?_, hs, rfl⟩
  simp only [Editor.wordRight, Option.bind_eq_bind, hscan, Option.bind_some, hscan']

theorem Shows.wordLeft (hs : Shows e z) :
    ∃ e', e.wordLeft = some e' ∧
      Shows e' ((z.left.leftWhile isAlnum).leftWhile fun c => !isAlnum c) ∧
      e'.hist = e.hist := by
  have hpos : (if 0 < e.pos then e.pos - 1 else e.pos) = e.pos - 1 := by
    split
    · rfl
    · omega
  have hleft := hs.left
  rw [Editor.left_eq] at hleft
  obtain ⟨pos, hscan, hs⟩ := hleft.leftWhile isAlnum
  obtain ⟨pos', hscan', hs⟩ := hs.leftWhile fun c => !isAlnum c
  refine ⟨_, ?_, hs, rfl⟩
  simp only [Editor.wordLeft, hpos, Option.bind_eq_bind, hscan, Option.bind_some, hscan']

/-- The text behind the cursor has made room, and what is inserted was written there. -/
theorem Shows.insert (hs : Shows e z) {s junk : List Char} {buf : Memory Char cap.val}
    (hbuf : buf.cells = z.before.reverse ++ (s ++ (z.after ++ junk))) (hisText : '\x00' ∉ s)
    (hroom : z.text.length + s.length < cap.val) :
    ∃ buf', buf.write (e.len + s.length) ['\x00'] = some buf' ∧
      Shows { e with buf := buf', len := e.len + s.length, pos := e.pos + s.length }
        (z.insert s) := by
  obtain ⟨-, hpos, hlen, hfits, htext⟩ := hs
  rw [Zipper.length_text] at hroom
  have hbuf' : buf.cells = (z.before.reverse ++ (s ++ z.after)) ++ junk := by
    rw [hbuf, List.append_assoc, List.append_assoc]
  have hlength : (z.before.reverse ++ (s ++ z.after)).length = e.len + s.length := by
    simp only [List.length_append, List.length_reverse]
    omega
  obtain ⟨buf', junk', hw, hcells⟩ := Memory.write_behind hbuf' (by omega) '\x00'
  rw [hlength] at hw
  refine ⟨buf', hw, ⟨'\x00' :: junk', ?_⟩, ?_, ?_, ?_, ?_⟩
  · dsimp only [Zipper.insert]
    rw [hcells, List.reverse_append, List.reverse_reverse]
    simp only [List.append_assoc]
  · simp only [Zipper.insert, List.length_append, List.length_reverse]
    omega
  · simp only [Zipper.insert, List.length_append, List.length_reverse]
    omega
  · simp only [Zipper.insert, List.length_append, List.length_reverse]
    omega
  · intro h
    rw [Zipper.text_insert] at h
    rw [Zipper.text, List.mem_append] at htext
    rcases List.mem_append.mp h with h | h
    · exact htext (Or.inl h)
    · rcases List.mem_append.mp h with h | h
      · exact hisText h
      · exact htext (Or.inr h)

/-- Room is made for so many characters. -/
theorem Shows.makeRoom (hs : Shows e z) {k : Nat} (hk : z.text.length + k < cap.val) :
    sub e.len e.pos = some z.after.length ∧
    ∃ buf g junk, e.buf.move (e.pos + k) e.pos z.after.length = some buf ∧
      buf.cells = z.before.reverse ++ (g ++ (z.after ++ junk)) ∧ g.length = k := by
  obtain ⟨⟨junk, hcells⟩, hpos, hlen, hfits, htext⟩ := hs
  refine ⟨sub_eq (by omega), ?_⟩
  have hlength := e.buf.length_eq
  rw [hcells] at hlength
  simp only [List.length_append, List.length_reverse] at hlength
  rw [Zipper.length_text] at hk
  have hmove := Memory.move_right hcells (k := k) (by omega)
  rwa [List.length_reverse, ← hpos] at hmove

theorem Shows.char (hs : Shows e z) (c : Printable) :
    ∃ e', e.char c.val = some e' ∧
      Shows e' (if z.text.length + 1 ≤ cap.val - 1 then z.insert [c.val] else z) ∧
      e'.hist = e.hist := by
  have hcap := cap.pos
  have hlen : e.len = z.text.length := by rw [Zipper.length_text, hs.len]
  by_cases hroom : z.text.length + 1 ≤ cap.val - 1
  · obtain ⟨hsub, buf, g, junk, hmove, hcells, hg⟩ := hs.makeRoom (k := 1) (by omega)
    obtain ⟨buf', hw, hcells'⟩ := Memory.write_eq (s := [c.val]) hcells (by rw [hg]; rfl)
    have hnul : '\x00' ∉ [c.val] := by
      rw [List.mem_singleton]
      intro h
      have hp := c.isPrint_val
      rw [← h] at hp
      exact absurd hp (by decide)
    obtain ⟨buf'', hw', hs'⟩ := hs.insert hcells' hnul (by simp; omega)
    rw [if_pos hroom]
    refine ⟨_, ?_, hs', rfl⟩
    rw [List.length_reverse, ← hs.pos] at hw
    rw [Editor.char, if_pos ⟨c.isPrint_val, by omega⟩]
    simp only [Option.bind_eq_bind, Option.bind_some, hsub, hmove, hw]
    rw [List.length_singleton] at hw'
    simp only [hw', Option.bind_some, List.length_singleton]
  · rw [if_neg hroom]
    exact ⟨e, if_neg fun h => hroom (by omega), hs, rfl⟩

theorem Completion.length_inserted (completion : Completion) :
    completion.inserted.length = completion.text.length + if completion.slash then 1 else 0 := by
  rw [inserted, List.length_append]
  split <;> rfl

theorem Completion.isText_inserted (completion : Completion) : '\x00' ∉ completion.inserted := by
  rw [inserted, List.mem_append]
  rintro (h | h)
  · exact completion.isText h
  · split at h
    · simp at h
    · simp at h

/-- The two writes of `tab_complete`, into the room that was made. -/
theorem write_inserted {buf : Memory Char cap.val} {a g b : List Char} (completion : Completion)
    (hbuf : buf.cells = a ++ (g ++ b)) (hg : g.length = completion.inserted.length) :
    ∃ buf' buf'', buf.write a.length completion.text = some buf' ∧
      Editor.writeSlash completion buf' (a.length + completion.text.length) = some buf'' ∧
      buf''.cells = a ++ (completion.inserted ++ b) := by
  rw [completion.length_inserted] at hg
  have hsplit := List.take_append_drop completion.text.length g
  have htake : (g.take completion.text.length).length = completion.text.length := by
    rw [List.length_take, hg]
    omega
  have hdrop : (g.drop completion.text.length).length = if completion.slash then 1 else 0 := by
    rw [List.length_drop, hg]
    omega
  rw [← hsplit, List.append_assoc] at hbuf
  obtain ⟨buf', hw, hcells⟩ := Memory.write_eq hbuf htake.symm
  refine ⟨buf', ?_⟩
  by_cases hslash : completion.slash = true
  · rw [if_pos hslash] at hdrop
    rw [← List.append_assoc] at hcells
    obtain ⟨buf'', hw', hcells'⟩ := Memory.write_eq (s := ['/']) hcells hdrop.symm
    rw [List.length_append] at hw'
    refine ⟨buf'', hw, by rw [Editor.writeSlash, if_pos hslash, hw'], ?_⟩
    rw [hcells', Completion.inserted, if_pos hslash]
    simp only [List.append_assoc]
  · rw [if_neg hslash] at hdrop
    refine ⟨buf', hw, if_neg hslash, ?_⟩
    rw [hcells, Completion.inserted, if_neg hslash, List.length_eq_zero_iff.mp hdrop]
    simp only [List.nil_append, List.append_nil]

theorem Shows.complete (hs : Shows e z) (completion : Completion) :
    ∃ e', e.complete completion = some e' ∧
      Shows e' (if z.text.length + completion.inserted.length ≤ cap.val - 1 then
        z.insert completion.inserted else z) ∧
      e'.hist = e.hist := by
  have hcap := cap.pos
  have hlen : e.len = z.text.length := by rw [Zipper.length_text, hs.len]
  have hextra := completion.length_inserted
  by_cases hroom : z.text.length + completion.inserted.length ≤ cap.val - 1
  · obtain ⟨hsub, buf, g, junk, hmove, hcells, hg⟩ :=
      hs.makeRoom (k := completion.inserted.length) (by omega)
    obtain ⟨buf', buf'', hw, hw', hcells'⟩ := write_inserted completion hcells hg
    obtain ⟨buf₃, hw'', hs'⟩ := hs.insert hcells' completion.isText_inserted (by omega)
    rw [List.length_reverse, ← hs.pos] at hw hw'
    rw [if_pos hroom]
    refine ⟨_, ?_, hs', rfl⟩
    rw [hextra] at hmove hw''
    rw [Editor.complete, if_neg (by omega)]
    simp only [Option.bind_eq_bind, Option.bind_some, hsub, hmove, hw, hw', hw'', hextra]
  · rw [if_neg hroom]
    exact ⟨e, if_pos (by omega), hs, rfl⟩

/-- A line of the history that fits is there whole. -/
theorem Editor.load_of_lt (e : Editor cap) {h : List Char} (hfits : h.length < cap.val)
    (hisText : '\x00' ∉ h) (hlt : h.length < 2 ^ 31) :
    ∃ e', e.load h = some e' ∧ Shows e' (Zipper.ofText h) ∧ e'.hist = e.hist := by
  have htake : h.take (cap.val - 1) = h := List.take_of_length_le (Nat.le_sub_one_of_lt hfits)
  have hlength := e.buf.length_eq
  have hsplit := List.take_append_drop (h.length + 1) e.buf.cells
  have hold : (h ++ ['\x00']).length = (e.buf.cells.take (h.length + 1)).length := by
    simp only [List.length_append, List.length_singleton, List.length_take]
    omega
  obtain ⟨buf, hw, hcells⟩ := Memory.write_eq (a := []) hsplit.symm hold
  have hresult : (snprintfResult h % 2 ^ 64).toNat = h.length := by
    rw [snprintfResult, if_pos hlt]
    omega
  refine ⟨⟨buf, h.length, h.length, e.hist⟩, ?_, ?_, rfl⟩
  · rw [Editor.load, htake, hresult]
    rw [List.length_nil] at hw
    simp only [Option.bind_eq_bind, hw, Option.bind_some]
  · refine ⟨⟨'\x00' :: e.buf.cells.drop (h.length + 1), ?_⟩, ?_, ?_, ?_, ?_⟩
    · rw [hcells]
      simp [Zipper.ofText]
    · exact (List.length_reverse).symm
    · simp [Zipper.ofText]
    · simpa [Zipper.ofText] using hfits
    · rwa [Zipper.text_ofText]

/-! ## The history -/

theorem Hist.hist_histUp (h : Hist) : h.histUp.1.hist = h.hist := by
  unfold Hist.histUp
  split_ifs <;> rfl

theorem Hist.hist_histDown (h : Hist) : h.histDown.1.hist = h.hist := by
  unfold Hist.histDown
  split_ifs <;> rfl

theorem Hist.Fits.histUp {h : Hist} (hf : h.Fits cap) :
    ∀ line ∈ h.histUp.2, '\x00' ∉ line ∧ line.length < cap.val := by
  intro line hline
  unfold Hist.histUp at hline
  split_ifs at hline
  · cases hline
  · cases hline
  · exact hf _ line hline

theorem Hist.Fits.histDown {h : Hist} (hf : h.Fits cap) :
    ∀ line ∈ h.histDown.2, '\x00' ∉ line ∧ line.length < cap.val := by
  intro line hline
  unfold Hist.histDown at hline
  split_ifs at hline
  · cases hline
  · obtain rfl : [] = line := by simpa using hline
    exact ⟨List.not_mem_nil, cap.pos⟩
  · exact hf _ line hline

theorem Hist.Fits.history {h : Hist} (hf : h.Fits cap) {line : List Char} (hisText : '\x00' ∉ line)
    (hlt : line.length < cap.val) : (h.history line).Fits cap := by
  unfold Hist.history
  split
  · exact hf
  · intro i l hl
    dsimp only at hl
    by_cases hi : i = h.hhead
    · subst hi
      rw [Function.update_self] at hl
      obtain rfl : line = l := by simpa using hl
      exact ⟨hisText, hlt⟩
    · rw [Function.update_of_ne hi] at hl
      exact hf i l hl

end Corestack.Shell
