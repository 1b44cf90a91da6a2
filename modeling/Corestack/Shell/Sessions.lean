import Corestack.Shell.Editing

/-! # Lines one after the other

A session is a run of keys. With each enter a line is returned and `line_read` is called
again, with the history of the lines before and with any array of the same size.
-/

namespace Corestack.Shell

open Text

variable {cap : Capacity} {e e' : Editor cap} {r : Reference} {z : Zipper Char} {k : Key cap}

/-! ## One key -/

theorem type_of_reading (h : e.stroke k.completion k.stroke = some (.reading e')) :
    e.type k = some (e', none) := by
  rw [Editor.type, turn_bytes, h]
  rfl

theorem type_of_returned {hist : Hist} {line : Option (List Char × Nat)}
    (h : e.stroke k.completion k.stroke = some (.returned hist line)) :
    e.type k = some (Editor.start hist (k.nextBuffer e.buf), line) := by
  rw [Editor.type, turn_bytes, h]
  rfl

theorem type_of_none (h : e.stroke k.completion k.stroke = none) : e.type k = none := by
  rw [Editor.type, turn_bytes, h]
  rfl

theorem Shows.newline (hs : Shows e z) :
    e.newline = some (.returned (e.hist.history z.text) (some (z.text, z.text.length))) := by
  obtain ⟨⟨junk, hcells⟩, hpos, hlen, hfits, htext⟩ := hs
  have hlen' : z.text.length = e.len := by rw [Zipper.length_text, hlen]
  have hcells' : e.buf.cells = z.text ++ junk := by rw [hcells, Zipper.text, List.append_assoc]
  obtain ⟨buf, junk', hw, hbuf⟩ := Memory.write_behind hcells' (by omega) '\x00'
  have hout : cString buf.cells = z.text := by
    have hne : ∀ c ∈ z.text, decide (c ≠ '\x00') = true := by
      intro c hc
      apply decide_eq_true
      rintro rfl
      exact htext hc
    rw [hbuf, cString, List.takeWhile_append_of_pos hne, List.takeWhile_cons_of_neg (by simp),
      List.append_nil]
  rw [hlen'] at hw
  simp only [Editor.newline, Option.bind_eq_bind, hw, Option.bind_some, hout, hlen']

theorem shows_start (hist : Hist) (buf : Memory Char cap.val) :
    Shows (Editor.start hist buf) (Zipper.ofText []) := by
  constructor
  · exact ⟨buf.cells, rfl⟩
  · rfl
  · rfl
  · exact cap.pos
  · exact List.not_mem_nil

theorem zipper_insert (r : Reference) (s : List Char) :
    (r.insert cap s).zipper =
      if r.zipper.text.length + s.length ≤ cap.val - 1 then r.zipper.insert s else r.zipper := by
  unfold Reference.insert
  split <;> rfl

theorem hist_insert (r : Reference) (s : List Char) : (r.insert cap s).hist = r.hist := by
  unfold Reference.insert
  split <;> rfl

/-- A key that does not touch the history. -/
theorem Edits.of_shows (he : Edits e r) {r' : Reference} (hs : Shows e' r'.zipper)
    (hhist : e'.hist = e.hist) (hr : r'.hist = r.hist) : Edits e' r' := by
  refine ⟨hs, ?_, ?_⟩
  · rw [hhist, he.hist, hr]
  · rw [hr]
    exact he.fits

/-- What comes from the history takes the place of the text. -/
theorem Edits.replace (he : Edits e r) {answer : Hist × Option (List Char)}
    (hhist : answer.1.hist = r.hist.hist)
    (hfits : ∀ line ∈ answer.2, '\x00' ∉ line ∧ line.length < cap.val)
    (hlt : ∀ line ∈ answer.2, line.length < 2 ^ 31) :
    ∃ e', e.answered answer = some e' ∧ Edits e' (r.replace answer) := by
  have hfits' : answer.1.Fits cap := by
    unfold Hist.Fits
    rw [hhist]
    exact he.fits
  obtain ⟨hist, line⟩ := answer
  obtain ⟨⟨hcells, hpos, hlen, hroom, htext⟩, -, -⟩ := he
  cases line with
  | none => exact ⟨{ e with hist := hist }, rfl, ⟨hcells, hpos, hlen, hroom, htext⟩, rfl, hfits'⟩
  | some line =>
    obtain ⟨hisText, hlen'⟩ := hfits line rfl
    obtain ⟨e', hload, hs, hh⟩ :=
      Editor.load_of_lt { e with hist := hist } hlen' hisText (hlt line rfl)
    exact ⟨e', hload, hs, hh, hfits'⟩

/-- A sound key does to the line what it does to the text, and returns the text with enter. -/
theorem Edits.type (he : Edits e r) (hk : k.Sound r) :
    ∃ e', e.type k = some (e', (r.type k).2) ∧ Edits e' (r.type k).1 := by
  have hs := he.shows
  cases k with
  | char c =>
    obtain ⟨e', hop, hs', hh⟩ := hs.char c
    refine ⟨e', type_of_reading (by simp [Editor.stroke, Key.stroke, hop]), ?_⟩
    apply he.of_shows _ hh (hist_insert r _)
    rw [zipper_insert]
    exact hs'
  | backspace ctrlH =>
    obtain ⟨e', hop, hs', hh⟩ := hs.backspace
    exact ⟨e', type_of_reading (by simp [Editor.stroke, Key.stroke, hop]), he.of_shows hs' hh rfl⟩
  | delete =>
    obtain ⟨e', hop, hs', hh⟩ := hs.delete
    exact ⟨e', type_of_reading (by simp [Editor.stroke, Key.stroke, hop]), he.of_shows hs' hh rfl⟩
  | left =>
    have hh : e.left.hist = e.hist := by rw [Editor.left_eq]
    exact ⟨e.left, type_of_reading rfl, he.of_shows hs.left hh rfl⟩
  | right =>
    have hh : e.right.hist = e.hist := by rw [Editor.right_eq]
    exact ⟨e.right, type_of_reading rfl, he.of_shows hs.right hh rfl⟩
  | wordLeft =>
    obtain ⟨e', hop, hs', hh⟩ := hs.wordLeft
    exact ⟨e', type_of_reading (by simp [Editor.stroke, Key.stroke, hop]), he.of_shows hs' hh rfl⟩
  | wordRight =>
    obtain ⟨e', hop, hs', hh⟩ := hs.wordRight
    exact ⟨e', type_of_reading (by simp [Editor.stroke, Key.stroke, hop]), he.of_shows hs' hh rfl⟩
  | up =>
    obtain ⟨e', hop, he'⟩ := he.replace r.hist.hist_histUp he.fits.histUp hk
    rw [← he.hist] at hop
    exact ⟨e', type_of_reading (by simp [Editor.stroke, Key.stroke, Editor.up, hop]), he'⟩
  | down =>
    obtain ⟨e', hop, he'⟩ := he.replace r.hist.hist_histDown he.fits.histDown hk
    rw [← he.hist] at hop
    exact ⟨e', type_of_reading (by simp [Editor.stroke, Key.stroke, Editor.down, hop]), he'⟩
  | tab completion =>
    cases completion with
    | none => exact ⟨e, type_of_reading rfl, he⟩
    | some completion =>
      obtain ⟨e', hop, hs', hh⟩ := hs.complete completion
      refine ⟨e', type_of_reading (by
        simp [Editor.stroke, Key.stroke, Key.completion, Editor.tabComplete, hop]), ?_⟩
      apply he.of_shows _ hh (hist_insert r _)
      rw [zipper_insert]
      exact hs'
  | enter next =>
    refine ⟨_, type_of_returned hs.newline, shows_start _ _, ?_, ?_⟩
    · rw [he.hist]
      rfl
    · have hlt : r.zipper.text.length < cap.val := by
        rw [Zipper.length_text]
        exact hs.fits
      exact he.fits.history hs.isText hlt

/-- After a line that is too long for an `int` the length is more than any array has. -/
theorem length_lt_of_answered {answer : Hist × Option (List Char)}
    (ha : e.answered answer = some e') (hlen : e'.len ≤ cap.val - 1) :
    ∀ h ∈ answer.2, h.length < 2 ^ 31 := by
  obtain ⟨hist, line⟩ := answer
  cases line with
  | none => exact fun h hh => absurd hh (by simp)
  | some line =>
    intro h hh
    obtain rfl : line = h := by simpa using hh
    obtain ⟨buf, -, hbuf⟩ := Option.bind_eq_some_iff.mp ha
    cases hbuf
    have hcap := cap.lt
    by_contra hlong
    simp only [snprintfResult, if_neg hlong] at hlen
    omega

/-- A key that keeps the length within the array is sound. -/
theorem Edits.sound (he : Edits e r) {line : Option (List Char × Nat)}
    (ht : e.type k = some (e', line)) (hlen : e'.len ≤ cap.val - 1) : k.Sound r := by
  cases k with
  | up =>
    cases hup : e.up with
    | none =>
      rw [type_of_none (by simp [Editor.stroke, Key.stroke, hup])] at ht
      cases ht
    | some e₁ =>
      have hread : e.type .up = some (e₁, none) :=
        type_of_reading (by simp [Editor.stroke, Key.stroke, hup])
      rw [hread] at ht
      cases ht
      rw [Key.Sound, ← he.hist]
      exact length_lt_of_answered hup hlen
  | down =>
    cases hdown : e.down with
    | none =>
      rw [type_of_none (by simp [Editor.stroke, Key.stroke, hdown])] at ht
      cases ht
    | some e₁ =>
      have hread : e.type .down = some (e₁, none) :=
        type_of_reading (by simp [Editor.stroke, Key.stroke, hdown])
      rw [hread] at ht
      cases ht
      rw [Key.Sound, ← he.hist]
      exact length_lt_of_answered hdown hlen
  | _ => trivial

/-! ## Sessions -/

/-- After an access that is not within the array there is nothing any more. -/
def Editor.step (s : Option (Editor cap)) (k : Key cap) :
    Option (Editor cap) × Option (List Char × Nat) :=
  match s.bind fun e => e.type k with
  | none => (none, none)
  | some (e, line) => (some e, line)

/-- The editor after the keys, and what each of them returned. -/
def Editor.session (buf : Memory Char cap.val) (ks : List (Key cap)) :
    Option (Editor cap) × List (Option (List Char × Nat)) :=
  Runs.outputs Editor.step (some (Editor.start Hist.init buf)) ks

def Reference.session (ks : List (Key cap)) :
    Reference × List (Option (List Char × Nat)) :=
  Runs.outputs Reference.type ⟨Zipper.ofText [], Hist.init⟩ ks

/-- All accesses were within the array, the cursor is in the line and the line in the array, and the
lines that were returned are the texts. -/
def Refines (buf : Memory Char cap.val) (ks : List (Key cap)) : Prop :=
  ∃ e, (Editor.session buf ks).1 = some e ∧ e.pos ≤ e.len ∧ e.len ≤ cap.val - 1 ∧
    (Editor.session buf ks).2 = (Reference.session ks).2

/-- The editor and the reference agree, and have returned the same. -/
def Agree (buf : Memory Char cap.val) (ks : List (Key cap)) : Prop :=
  ∃ e, (Editor.session buf ks).1 = some e ∧ Edits e (Reference.session ks).1 ∧
    (Editor.session buf ks).2 = (Reference.session ks).2

variable {buf : Memory Char cap.val} {ks : List (Key cap)}

theorem agree_nil (buf : Memory Char cap.val) : Agree buf [] := by
  refine ⟨Editor.start Hist.init buf, rfl, ⟨shows_start _ _, rfl, ?_⟩, rfl⟩
  intro i line hline
  cases hline

theorem session_concat (he : (Editor.session buf ks).1 = some e) {line : Option (List Char × Nat)}
    (ht : e.type k = some (e', line)) :
    Editor.session buf (ks ++ [k]) = (some e', (Editor.session buf ks).2 ++ [line]) := by
  have hstep : Editor.step (some e) k = (some e', line) := by
    rw [Editor.step, Option.bind_some, ht]
  rw [Editor.session, Runs.outputs_concat]
  rw [Editor.session] at he
  rw [he, hstep]
  rfl

theorem Agree.concat (ha : Agree buf ks) (hk : k.Sound (Reference.session ks).1) :
    Agree buf (ks ++ [k]) := by
  obtain ⟨e, hs, he, hout⟩ := ha
  obtain ⟨e', ht, he'⟩ := he.type hk
  have hrun := session_concat hs ht
  refine ⟨e', by rw [hrun], ?_, ?_⟩
  · rw [Reference.session, Runs.outputs_concat]
    exact he'
  · rw [hrun, hout, Reference.session, Reference.session, Runs.outputs_concat]

theorem Agree.refines (ha : Agree buf ks) : Refines buf ks := by
  obtain ⟨e, hs, he, hout⟩ := ha
  have hshows := he.shows
  refine ⟨e, hs, ?_, ?_, hout⟩
  · rw [hshows.pos, hshows.len]
    exact Nat.le_add_right _ _
  · rw [hshows.len]
    exact Nat.le_sub_one_of_lt hshows.fits

theorem Agree.sound (ha : Agree buf ks) (hr : Refines buf (ks ++ [k])) :
    k.Sound (Reference.session ks).1 := by
  obtain ⟨e, hs, he, -⟩ := ha
  obtain ⟨e', hs', -, hlen, -⟩ := hr
  cases ht : e.type k with
  | none =>
    have hstep : Editor.step (some e) k = (none, none) := by
      rw [Editor.step, Option.bind_some, ht]
    rw [Editor.session, Runs.outputs_concat] at hs'
    rw [Editor.session] at hs
    rw [hs, hstep] at hs'
    cases hs'
  | some out =>
    obtain ⟨e₁, line⟩ := out
    rw [session_concat hs ht] at hs'
    cases hs'
    exact he.sound ht hlen

/-- The line editor refines editing a text with a cursor all along a session, if and only if no
line of `2 ^ 31` characters is taken from the history. -/
theorem line_read_refines_iff (cap : Capacity) (buf : Memory Char cap.val) (ks : List (Key cap)) :
    (∀ pre, pre <+: ks → Refines buf pre) ↔
      ∀ pre k, pre ++ [k] <+: ks → k.Sound (Reference.session pre).1 := by
  apply Runs.forall_prefix_iff (I := Agree buf)
  · exact agree_nil buf
  · exact fun _ _ _ ha hk => ha.concat hk
  · exact fun _ _ ha => ha.refines
  · exact fun _ _ _ ha hr => ha.sound hr

/-- In an array of at most `2 ^ 31` characters no line is too long. -/
theorem Edits.sound_of_le (he : Edits e r) (hcap : cap.val ≤ 2 ^ 31) (k : Key cap) : k.Sound r := by
  cases k with
  | up => exact fun h hh => Nat.lt_of_lt_of_le (he.fits.histUp h hh).2 hcap
  | down => exact fun h hh => Nat.lt_of_lt_of_le (he.fits.histDown h hh).2 hcap
  | _ => trivial

theorem refines_of_le (hcap : cap.val ≤ 2 ^ 31) (buf : Memory Char cap.val) (ks : List (Key cap)) :
    ∀ pre, pre <+: ks → Refines buf pre := by
  have hagree : ∀ pre, pre <+: ks → Agree buf pre := by
    apply Runs.prefix_induction
    · exact agree_nil buf
    · intro pre k _ ha
      obtain ⟨e, hs, he, hout⟩ := ha
      exact Agree.concat ⟨e, hs, he, hout⟩ (he.sound_of_le hcap k)
  exact fun pre hp => (hagree pre hp).refines

/-! ## A line that is too long -/

/-- The key with the letter. -/
def letter (cap : Capacity) : Key cap := .char ⟨'a', rfl⟩

theorem session_letters {n : Nat} (hn : n ≤ cap.val - 1) :
    (Reference.session (List.replicate n (letter cap))).1 =
      ⟨⟨List.replicate n 'a', []⟩, Hist.init⟩ := by
  induction n with
  | zero => rfl
  | succ n ih =>
    have hprev := ih (by omega)
    rw [Reference.session] at hprev
    rw [List.replicate_succ', Reference.session, Runs.outputs_concat, hprev]
    have hfits :
        (Zipper.mk (List.replicate n 'a') []).text.length + ['a'].length ≤ cap.val - 1 := by
      simpa [Zipper.text] using hn
    simp only [letter, Reference.type, Reference.insert, if_pos hfits]
    rfl

theorem agree_letters (buf : Memory Char cap.val) (n : Nat) :
    Agree buf (List.replicate n (letter cap)) := by
  induction n with
  | zero => exact agree_nil buf
  | succ n ih =>
    rw [List.replicate_succ']
    exact ih.concat trivial

theorem histUp_history {line : List Char} (hne : line ≠ []) :
    (Hist.init.history line).histUp.2 = some line := by
  simp [Hist.history, if_neg hne, Hist.histUp, Hist.init]

/-- A line of that length is entered and asked for. -/
theorem not_refines_of_long (cap : Capacity) {n : Nat} (hn : 2 ^ 31 ≤ n) (hcap : cap.val = n + 1)
    (buf : Memory Char cap.val) :
    ¬ Refines buf (List.replicate n (letter cap) ++ [.enter buf] ++ [.up]) := by
  intro hr
  have hagree := (agree_letters buf n).concat (k := .enter buf) trivial
  have hsound := hagree.sound hr
  have hlast : (Reference.session (List.replicate n (letter cap) ++ [.enter buf])).1 =
      ⟨Zipper.ofText [], Hist.init.history (List.replicate n 'a')⟩ := by
    have hn : n ≤ cap.val - 1 := by omega
    have hletters := session_letters hn
    rw [Reference.session] at hletters
    rw [Reference.session, Runs.outputs_concat, hletters]
    simp [Reference.type, Zipper.text]
  rw [Key.Sound, hlast] at hsound
  have hne : List.replicate n 'a' ≠ [] := by
    rw [Ne, List.replicate_eq_nil_iff]
    omega
  have hlt := hsound _ (histUp_history hne)
  rw [List.length_replicate] at hlt
  omega

/-- An array of `2 ^ 31 + 1` characters. -/
theorem line_read_overlong :
    ¬ ∀ (cap : Capacity) (buf : Memory Char cap.val) (ks : List (Key cap))
        (next : Memory Char cap.val), ∀ pre, pre <+: ks ++ [.enter next] → Refines buf pre := by
  intro h
  have hlong := not_refines_of_long ⟨2 ^ 31 + 1, by omega, by omega⟩
    (Nat.le_refl (2 ^ 31)) rfl ⟨List.replicate (2 ^ 31 + 1) ' ', List.length_replicate⟩
  exact hlong (h _ _ _ ⟨List.replicate (2 ^ 31 + 1) ' ', List.length_replicate⟩ _
    (List.prefix_append _ _))

end Corestack.Shell
