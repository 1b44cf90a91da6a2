import Corestack.Text.Scan

/-! # Words and lines

The directives of `scanf` that read text: `%s` with a width reads a word, `%[^\n]` with a
width the rest of a line.
-/

namespace Text

/-- What `%s` reads, and the rest of the text. -/
def scanWord (width : Nat) (s : List Char) : Option (List Char × List Char) :=
  let s := s.dropWhile isSpace
  let word := (s.takeWhile fun c => !isSpace c).take width
  if word = [] then none else some (word, s.drop word.length)

/-- What `%[^\n]` reads, and the rest of the text. White space is not skipped. -/
def scanLine (width : Nat) (s : List Char) : Option (List Char × List Char) :=
  let line := (s.takeWhile fun c => decide (c ≠ '\n')).take width
  if line = [] then none else some (line, s.drop line.length)

theorem scanWord_ne_nil {width : Nat} {s w rest : List Char}
    (h : scanWord width s = some (w, rest)) : w ≠ [] := by
  unfold scanWord at h
  dsimp only at h
  split at h
  · cases h
  · cases h
    assumption

/-- A word up to a blank is read whole. -/
theorem scanWord_append {width : Nat} {w : List Char} {c : Char} (hw : ∀ c ∈ w, isSpace c = false)
    (hne : w ≠ []) (hlen : w.length ≤ width) (hc : isSpace c = true) (s : List Char) :
    scanWord width (w ++ c :: s) = some (w, c :: s) := by
  have hdrop : (w ++ c :: s).dropWhile isSpace = w ++ c :: s := by
    cases w with
    | nil => exact absurd rfl hne
    | cons d w => simp [hw d List.mem_cons_self]
  have htake : (w ++ c :: s).takeWhile (fun c => !isSpace c) = w := by
    have hnot : ∀ d ∈ w, (!isSpace d) = true := fun d hd => by rw [hw d hd]; rfl
    have hstop : ¬ (!isSpace c) = true := by rw [hc]; exact Bool.false_ne_true
    rw [List.takeWhile_append_of_pos hnot,
      List.takeWhile_cons_of_neg (p := fun c => !isSpace c) hstop, List.append_nil]
  simp only [scanWord, hdrop, htake, List.take_of_length_le hlen, if_neg hne, List.drop_left]

/-- A line is read up to its end. -/
theorem scanLine_append {width : Nat} {l : List Char} (hl : '\n' ∉ l) (hne : l ≠ [])
    (hlen : l.length ≤ width) (s : List Char) :
    scanLine width (l ++ '\n' :: s) = some (l, '\n' :: s) := by
  have htake : (l ++ '\n' :: s).takeWhile (fun c => decide (c ≠ '\n')) = l := by
    rw [List.takeWhile_append_of_pos fun d hd => by simp [ne_of_mem_of_not_mem hd hl],
      List.takeWhile_cons_of_neg (by simp), List.append_nil]
  simp only [scanLine, htake, List.take_of_length_le hlen, if_neg hne, List.drop_left]

/-- A number is read behind the blank before it. -/
theorem scanNumber_blank {n : Nat} {s : List Char} (hs : EndsNumber s) :
    scanNumber (' ' :: (decimal n ++ s)) = some (false, n, s) := by
  have hskip : scanNumber (' ' :: (decimal n ++ s)) = scanNumber (decimal n ++ s) := rfl
  rw [hskip, scanNumber_decimal hs]

end Text
