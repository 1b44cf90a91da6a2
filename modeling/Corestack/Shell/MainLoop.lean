import Corestack.Shell.Alias

/-! # The main loop of the shell

A line is cut into words, its first word is expanded, and the words are handed to the
built-in functions or to a new process. `expand_alias` refuses a line that is too long;
`tokenise` drops what is too much of it.
-/

namespace Corestack.Shell

open Text

/-- What `bi_call` and `fork_child` are given for a line, if anything. -/
def handLine (l : Aliases) (line : List Char) : Option (List (List Char)) :=
  let argv := tokenise line 128
  if argv.length = 0 then none
  else
    let expanded := expandAlias l argv 128
    if expanded.1 = 0 then none else some expanded.2

/-- All words of the line, the first of them replaced by the words of its alias. -/
def expandedWords (l : Aliases) (line : List Char) : List (List Char) :=
  match words isBlank line with
  | [] => []
  | cmd :: args =>
    match aliasLookup l cmd with
    | none => cmd :: args
    | some v => words isBlank v.text ++ args

/-- At most 127 words, or the first of them stands for two or more. -/
def NothingDropped (l : Aliases) (line : List Char) : Prop :=
  (words isBlank line).length ≤ 127 ∨
    ∃ v, (words isBlank line).head?.bind (aliasLookup l) = some v ∧
      2 ≤ (words isBlank v.text).length

variable {l : Aliases} {line cmd : List Char} {args : List (List Char)} {v : Value}

theorem tokenise_of_words (h : words isBlank line = cmd :: args) :
    tokenise line 128 = cmd :: args.take 126 := by
  rw [tokenise_eq, h]
  rfl

theorem take_eq_self_iff (args : List (List Char)) : args.take 126 = args ↔ args.length ≤ 126 := by
  constructor
  · intro h
    have hlen := List.length_take_le 126 args
    rwa [h] at hlen
  · exact List.take_of_length_le

theorem handLine_none (h : words isBlank line = cmd :: args) (hl : aliasLookup l cmd = none) :
    handLine l line = some (cmd :: args.take 126) := by
  simp only [handLine, tokenise_of_words h, expandAlias_none hl]
  rw [if_neg (by simp), if_neg (by simp)]

/-- The words that are left are handed over if there is room for those of the alias. -/
theorem handLine_some (h : words isBlank line = cmd :: args) (hl : aliasLookup l cmd = some v) :
    handLine l line =
      if (words isBlank v.text).length + (args.take 126).length < 128 ∧
          (words isBlank v.text).length < 127 then
        if (words isBlank v.text).length + (args.take 126).length = 0 then none
        else some (words isBlank v.text ++ args.take 126)
      else none := by
  simp only [handLine, tokenise_of_words h, expandAlias_some hl]
  rw [if_neg (by simp)]
  split <;> rfl

/-- A line is handed over with all its words or is rejected, if and only if it has at most 127
words or its first word stands for two or more. -/
theorem handLine_iff (l : Aliases) (line : List Char) :
    handLine l line = none ∨ handLine l line = some (expandedWords l line) ↔
      NothingDropped l line := by
  cases hw : words isBlank line with
  | nil =>
    have hnone : handLine l line = none := by
      simp only [handLine, tokenise_eq, hw, List.take_nil]
      rfl
    constructor
    · exact fun _ => Or.inl (by simp [hw])
    · exact fun _ => Or.inl hnone
  | cons cmd args =>
    have hlen : (words isBlank line).length ≤ 127 ↔ args.length ≤ 126 := by
      rw [hw, List.length_cons]
      omega
    have hhead : (words isBlank line).head?.bind (aliasLookup l) = aliasLookup l cmd := by
      rw [hw]
      rfl
    rw [NothingDropped, hlen, hhead, ← take_eq_self_iff]
    cases hl : aliasLookup l cmd with
    | none => simp [handLine_none hw hl, expandedWords, hw, hl]
    | some v =>
      have htake : (args.take 126).length = min 126 args.length := List.length_take
      have hself := take_eq_self_iff args
      rw [handLine_some hw hl]
      simp only [expandedWords, hw, hl, Option.some.injEq, exists_eq_left']
      split
      · rename_i hfit
        split
        · rename_i h0
          exact ⟨fun _ => Or.inl (hself.mpr (by omega)), fun _ => Or.inl rfl⟩
        · rename_i h0
          simp only [reduceCtorEq, Option.some.injEq, List.append_cancel_left_eq, false_or]
          constructor
          · exact Or.inl
          · rintro (hall | htwo)
            · exact hall
            · exact hself.mpr (by omega)
      · rename_i hfit
        exact ⟨fun _ => Or.inr (by omega), fun _ => Or.inl rfl⟩

/-- The last of 128 words is lost. -/
theorem handLine_drops :
    ¬ ∀ (l : Aliases) (line : List Char), line.length ≤ 1023 →
      handLine l line = none ∨ handLine l line = some (expandedWords l line) := by
  intro h
  have hline := h [] (List.replicate 128 ['a', ' ']).flatten (by decide +kernel)
  exact absurd hline (by decide +kernel)

end Corestack.Shell
