import Corestack.Assoc
import Corestack.Text.Split

/-! # Words and aliases

The shell cuts a line into at most 127 words. `alias` puts the words of a quoted value
together again, and the value is cut again where the alias is used.
-/

namespace Corestack.Shell

open Text Corestack.Assoc

def isBlank (c : Char) : Bool := c = ' ' || c = '\t'

/-- The loop of `tokenise`, while there is room for so many words. -/
def tokeniseUpTo : Nat → List Char → List (List Char)
  | 0, _ => []
  | room + 1, line =>
    match nextWord isBlank line with
    | none => []
    | some (tok, rest) => tok :: tokeniseUpTo room rest

/-- One of the `cap` places is for the null pointer behind the words. -/
def tokenise (line : List Char) (cap : Nat) : List (List Char) := tokeniseUpTo (cap - 1) line

/-- What fits into `rhs`, with its terminator. -/
@[ext] structure Value where
  text : List Char
  length_lt : text.length < 1024

namespace Value

/-- `strncpy` into the buffer. -/
def copy (s : List Char) : Value :=
  ⟨s.take 1023, Nat.lt_of_le_of_lt (List.length_take_le _ _) (by decide)⟩

def tail (v : Value) : Value :=
  ⟨v.text.tail, Nat.lt_of_le_of_lt (by simp) v.length_lt⟩

def dropLast (v : Value) : Value :=
  ⟨v.text.dropLast, Nat.lt_of_le_of_lt (by simp) v.length_lt⟩

/-- The next word behind a blank. -/
def join (v : Value) (arg : List Char) (h : v.text.length + arg.length + 2 < 1024) : Value :=
  ⟨v.text ++ ' ' :: arg, by simp; omega⟩

end Value

/-- The list of the aliases, the newest first. -/
abbrev Aliases := List (Σ _ : List Char, Value)

def aliasLookup (l : Aliases) (name : List Char) : Option Value := l.dlookup name

def isQuote (c : Char) : Bool := c = '\'' || c = '"'

/-- The loops of `bi_alias`, with the list and the answer. The inner loop has a name, a quote that
is open and what is there of the value. -/
def biAliasLoop (l : Aliases) :
    Option (List Char × Char × Value) → List (List Char) → Aliases × Nat
  | none, [] => (l, 0)
  | some _, [] => (l, 1)
  | none, arg :: args =>
    if '=' ∉ arg then biAliasLoop l none args
    else
      let name := arg.takeWhile fun c => decide (c ≠ '=')
      let rhs := Value.copy (arg.dropWhile fun c => decide (c ≠ '=')).tail
      match rhs.text.head? with
      | none => biAliasLoop (put name rhs l) none args
      | some quote =>
        if isQuote quote then
          if rhs.tail.text.getLast? = some quote then
            biAliasLoop (put name rhs.tail.dropLast l) none args
          else biAliasLoop l (some (name, quote, rhs.tail)) args
        else biAliasLoop (put name rhs l) none args
  | some (name, quote, rhs), arg :: args =>
    if h : rhs.text.length + arg.length + 2 < 1024 then
      if arg.getLast? = some quote then biAliasLoop (put name (rhs.join arg h).dropLast l) none args
      else biAliasLoop l (some (name, quote, rhs.join arg h)) args
    else (l, 1)

/-- Without an argument the aliases are listed. -/
def biAlias (l : Aliases) (argv : List (List Char)) : Aliases × Nat := biAliasLoop l none argv.tail

def biUnalias (l : Aliases) (argv : List (List Char)) : Aliases × Nat :=
  match argv with
  | [_, name] => if (aliasLookup l name).isSome then (l.kerase name, 0) else (l, 1)
  | _ => (l, 1)

/-- The number of words and the words. They stay if the expansion is too long. -/
def expandAlias (l : Aliases) (argv : List (List Char)) (cap : Nat) : Nat × List (List Char) :=
  match argv.head?.bind (aliasLookup l) with
  | none => (argv.length, argv)
  | some exp =>
    let v := tokenise (exp.text.take 1023) 128
    if cap ≤ v.length + argv.length - 1 ∨ 127 ≤ v.length then (0, argv)
    else (v.length + argv.tail.length, v ++ argv.tail)

/-! ## The words of a line -/

/-- The words are those of the line, as far as there is room for them. -/
theorem tokeniseUpTo_eq (room : Nat) (line : List Char) :
    tokeniseUpTo room line = (words isBlank line).take room := by
  induction room generalizing line with
  | zero => rw [tokeniseUpTo, List.take_zero]
  | succ room ih =>
    rw [tokeniseUpTo]
    cases hnext : nextWord isBlank line with
    | none => rw [words_of_nextWord_none hnext, List.take_nil]
    | some next =>
      obtain ⟨tok, rest⟩ := next
      rw [words_of_nextWord_some hnext, List.take_succ_cons, ← ih]

theorem tokenise_eq (line : List Char) (cap : Nat) :
    tokenise line cap = (words isBlank line).take (cap - 1) := tokeniseUpTo_eq _ line

theorem tokenise_of_lt {line : List Char} {cap : Nat} (h : (words isBlank line).length < cap) :
    tokenise line cap = words isBlank line := by
  rw [tokenise_eq]
  exact List.take_of_length_le (Nat.le_sub_one_of_lt h)

/-- The text of an alias is in the buffer of `expand_alias` whole. -/
theorem Value.take_text (v : Value) : v.text.take 1023 = v.text :=
  List.take_of_length_le (Nat.le_of_lt_succ v.length_lt)

theorem expandAlias_none {l : Aliases} {cmd : List Char} (h : aliasLookup l cmd = none)
    (args : List (List Char)) (cap : Nat) :
    expandAlias l (cmd :: args) cap = ((cmd :: args).length, cmd :: args) := by
  simp only [expandAlias, List.head?_cons, Option.bind_some, h]

/-- The words of the alias take the place of its name if there is room for all words. -/
theorem expandAlias_some {l : Aliases} {cmd : List Char} {exp : Value}
    (h : aliasLookup l cmd = some exp) (args : List (List Char)) :
    expandAlias l (cmd :: args) 128 =
      if (words isBlank exp.text).length + args.length < 128 ∧
          (words isBlank exp.text).length < 127 then
        ((words isBlank exp.text).length + args.length, words isBlank exp.text ++ args)
      else (0, cmd :: args) := by
  simp only [expandAlias, List.head?_cons, Option.bind_some, h, exp.take_text, List.tail_cons,
    List.length_cons]
  by_cases hlen : (words isBlank exp.text).length < 127
  · rw [tokenise_of_lt (Nat.lt_trans hlen (by decide))]
    by_cases hfit : (words isBlank exp.text).length + args.length < 128
    · rw [if_neg (by omega), if_pos ⟨hfit, hlen⟩]
    · rw [if_pos (by omega), if_neg fun hc => hfit hc.1]
  · have hfull : (tokenise exp.text 128).length = 127 := by
      rw [tokenise_eq, List.length_take]
      omega
    rw [if_pos (Or.inr (by omega)), if_neg fun hc => hlen hc.2]

end Corestack.Shell
