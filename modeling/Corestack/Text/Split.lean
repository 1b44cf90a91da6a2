import Mathlib.Data.List.TakeWhile

/-! # Words between separators

The words of a list are what is left when it is cut at its separators and nothing empty
is kept. Taking one word after the other from the front gives them all.
-/

namespace Text

variable {α : Type*} {p : α → Bool} {w s r : List α} {c : α}

/-- The words of a list that is cut wherever `p` holds. -/
def words (p : α → Bool) (s : List α) : List (List α) := (s.splitOnP p).filter fun w => !w.isEmpty

/-- No separator in it, and not empty. -/
structure IsWordOf (p : α → Bool) (w : List α) : Prop where
  ne_nil : w ≠ []
  not_sep : ∀ c ∈ w, p c = false

theorem words_nil : words p [] = [] := rfl

theorem words_cons (hc : p c = true) (s : List α) : words p (c :: s) = words p s := by
  simp [words, List.splitOnP_cons_eq_if_modifyHead, hc]

theorem IsWordOf.words_append (hw : IsWordOf p w) (hc : p c = true) (s : List α) :
    words p (w ++ c :: s) = w :: words p s := by
  have hne : w.isEmpty = false := by simpa using hw.ne_nil
  simp [words, List.splitOnP_append_cons_of_forall_mem hw.not_sep c hc, hne]

theorem IsWordOf.words_eq (hw : IsWordOf p w) : words p w = [w] := by
  have hne : w.isEmpty = false := by simpa using hw.ne_nil
  simp [words, List.splitOnP_eq_singleton hw.not_sep, hne]

theorem words_dropWhile (s : List α) : words p (s.dropWhile p) = words p s := by
  induction s with
  | nil => rfl
  | cons c s ih =>
    by_cases hc : p c = true
    · rw [List.dropWhile_cons_of_pos hc, ih, words_cons hc]
    · rw [List.dropWhile_cons_of_neg hc]

/-- Words that are joined by a separator are found again. -/
theorem words_intercalate (hc : p c = true) {ws : List (List α)} (hws : ∀ w ∈ ws, IsWordOf p w) :
    words p ([c].intercalate ws) = ws := by
  induction ws with
  | nil => rfl
  | cons w ws ih =>
    have hw := hws w List.mem_cons_self
    cases ws with
    | nil => rw [List.intercalate_singleton, hw.words_eq]
    | cons w' ws =>
      have hrest := ih fun v hv => hws v (List.mem_cons_of_mem _ hv)
      rw [List.intercalate_cons_cons, List.append_assoc, List.singleton_append,
        hw.words_append hc, hrest]

/-! ## One word at a time -/

/-- The next word, and what is behind the separator that ends it. -/
def nextWord (p : α → Bool) (s : List α) : Option (List α × List α) :=
  match s.dropWhile p with
  | [] => none
  | c :: s => some (c :: s.takeWhile fun c => !p c, (s.dropWhile fun c => !p c).tail)

theorem eq_false_of_dropWhile (h : s.dropWhile p = c :: r) : p c = false := by
  have hhead := List.head?_dropWhile_not p s
  rwa [h] at hhead

theorem words_of_nextWord_none (h : nextWord p s = none) : words p s = [] := by
  unfold nextWord at h
  split at h
  · rename_i hs
    rw [← words_dropWhile, hs, words_nil]
  · cases h

theorem words_of_nextWord_some (h : nextWord p s = some (w, r)) : words p s = w :: words p r := by
  unfold nextWord at h
  split at h
  · cases h
  · rename_i c t hs
    cases h
    have hword : IsWordOf p (c :: t.takeWhile fun c => !p c) := by
      constructor
      · exact List.cons_ne_nil _ _
      · intro d hd
        rcases List.mem_cons.mp hd with rfl | hd
        · exact eq_false_of_dropWhile hs
        · simpa using List.mem_takeWhile_imp hd
    have hsplit := List.takeWhile_append_dropWhile (p := fun c => !p c) (l := t)
    rw [← words_dropWhile, hs]
    cases ht : t.dropWhile fun c => !p c with
    | nil =>
      rw [ht, List.append_nil] at hsplit
      rw [hsplit] at hword ⊢
      rw [hword.words_eq, List.tail_nil, words_nil]
    | cons d r =>
      have hd : p d = true := by simpa using eq_false_of_dropWhile ht
      rw [ht] at hsplit
      have hwhole := hword.words_append hd r
      rw [List.cons_append, hsplit] at hwhole
      rw [hwhole, List.tail_cons]

end Text
