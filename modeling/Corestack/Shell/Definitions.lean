import Mathlib.Data.List.Induction
import Corestack.Shell.Alias

/-! # Definitions of aliases

A run of command lines that define aliases and take them back. The list of the aliases
has the words of the latest definition of every name.
-/

namespace Corestack.Shell

open Text Corestack.Assoc

structure AliasName where
  text : List Char
  ne_nil : text ≠ []
  clean : ∀ c ∈ text, isBlank c = false ∧ c ≠ '=' ∧ isQuote c = false

structure AliasWord where
  text : List Char
  ne_nil : text ≠ []
  clean : ∀ c ∈ text, isBlank c = false ∧ isQuote c = false

inductive Quote
  | single
  | double

def Quote.char : Quote → Char
  | single => '\''
  | double => '"'

/-- The words with a blank between them. -/
def joined (ws : List AliasWord) : List Char := [' '].intercalate (ws.map AliasWord.text)

inductive AliasCommand
  | define (name : AliasName) (quote : Quote) (ws : List AliasWord)
  | unalias (name : AliasName)

def AliasCommand.text : AliasCommand → List Char
  | define name quote ws =>
    ['a', 'l', 'i', 'a', 's', ' '] ++
      (name.text ++ '=' :: quote.char :: (joined ws ++ [quote.char]))
  | unalias name => ['u', 'n', 'a', 'l', 'i', 'a', 's', ' '] ++ name.text

/-- A command that fits the buffer of the line and the list of its words. -/
structure CommandLine where
  command : AliasCommand
  length_le : command.text.length ≤ 1023
  words_lt : (words isBlank command.text).length < 128

/-- The two built-in functions, on the words of a line. -/
def runLine (l : Aliases) (line : List Char) : Aliases :=
  let argv := tokenise line 128
  if argv.head? = some ['a', 'l', 'i', 'a', 's'] then (biAlias l argv).1
  else if argv.head? = some ['u', 'n', 'a', 'l', 'i', 'a', 's'] then (biUnalias l argv).1
  else l

def runLines (cs : List CommandLine) : Aliases :=
  cs.foldl (fun l c => runLine l c.command.text) []

/-- What the names stand for. -/
abbrev Meaning := List Char → Option (List AliasWord)

def AliasCommand.apply (m : Meaning) : AliasCommand → Meaning
  | define name _ ws => Function.update m name.text (some ws)
  | unalias name => Function.update m name.text none

/-- The latest definition of each name, unless it was taken back. -/
def meaning (cs : List CommandLine) : Meaning :=
  cs.foldl (fun m c => c.command.apply m) fun _ => none

/-- The list is without a name twice, and it has the definitions. -/
structure Holds (l : Aliases) (m : Meaning) : Prop where
  nodupKeys : l.NodupKeys
  lookup : ∀ name, (aliasLookup l name).map Value.text = (m name).map joined
  length_lt : ∀ name, ∀ ws ∈ m name, ws.length < 127

/-! ## Words -/

variable {name : AliasName} {quote : Quote} {ws : List AliasWord} {l : Aliases} {m : Meaning}

theorem AliasWord.isWordOf (w : AliasWord) : IsWordOf isBlank w.text :=
  ⟨w.ne_nil, fun c hc => (w.clean c hc).1⟩

theorem AliasName.isWordOf (name : AliasName) : IsWordOf isBlank name.text :=
  ⟨name.ne_nil, fun c hc => (name.clean c hc).1⟩

theorem Quote.isBlank_char (quote : Quote) : isBlank quote.char = false := by cases quote <;> rfl

theorem Quote.isQuote_char (quote : Quote) : isQuote quote.char = true := by cases quote <;> rfl

/-- The value is cut into its words where it is used. -/
theorem words_joined (ws : List AliasWord) : words isBlank (joined ws) = ws.map AliasWord.text := by
  apply words_intercalate rfl
  intro w hw
  obtain ⟨v, -, rfl⟩ := List.mem_map.mp hw
  exact v.isWordOf

theorem joined_cons_cons (w w' : AliasWord) (ws : List AliasWord) :
    joined (w :: w' :: ws) = w.text ++ ' ' :: joined (w' :: ws) := by
  simp [joined]

/-- The arguments from one with the given text on, the last of them with the quote. -/
def closing (quote : Quote) : List Char → List AliasWord → List (List Char)
  | u, [] => [u ++ [quote.char]]
  | u, w :: ws => u :: closing quote w.text ws

theorem words_closing (quote : Quote) {u : List Char} (hu : IsWordOf isBlank u)
    (ws : List AliasWord) :
    words isBlank ([' '].intercalate (u :: ws.map AliasWord.text) ++ [quote.char]) =
      closing quote u ws := by
  induction ws generalizing u with
  | nil =>
    have hq : IsWordOf isBlank (u ++ [quote.char]) := by
      constructor
      · exact List.append_ne_nil_of_left_ne_nil hu.ne_nil _
      · intro c hc
        rcases List.mem_append.mp hc with h | h
        · exact hu.not_sep c h
        · rw [List.mem_singleton.mp h]
          exact quote.isBlank_char
    rw [List.map_nil, List.intercalate_singleton, hq.words_eq, closing]
  | cons w ws ih =>
    rw [List.map_cons, List.intercalate_cons_cons, List.append_assoc, List.append_assoc,
      List.singleton_append, hu.words_append rfl, ih w.isWordOf, closing]

/-- The argument with the name, the sign and the quote. -/
def opening (name : AliasName) (quote : Quote) (w : List Char) : List Char :=
  name.text ++ '=' :: quote.char :: w

theorem isWordOf_opening {w : List Char} (hw : ∀ c ∈ w, isBlank c = false) :
    IsWordOf isBlank (opening name quote w) := by
  constructor
  · exact List.append_ne_nil_of_left_ne_nil name.ne_nil _
  · intro c hc
    rcases List.mem_append.mp hc with h | h
    · exact (name.clean c h).1
    · rcases List.mem_cons.mp h with rfl | h
      · rfl
      · rcases List.mem_cons.mp h with rfl | h
        · exact quote.isBlank_char
        · exact hw c h

/-- The arguments of a definition. -/
def arguments (name : AliasName) (quote : Quote) : List AliasWord → List (List Char)
  | [] => closing quote (opening name quote []) []
  | w :: ws => closing quote (opening name quote w.text) ws

theorem words_define (name : AliasName) (quote : Quote) (ws : List AliasWord) :
    words isBlank (AliasCommand.define name quote ws).text =
      ['a', 'l', 'i', 'a', 's'] :: arguments name quote ws := by
  have hcmd : IsWordOf isBlank ['a', 'l', 'i', 'a', 's'] := ⟨by simp, by simp [isBlank]⟩
  have hline := hcmd.words_append (c := ' ') rfl
    (name.text ++ '=' :: quote.char :: (joined ws ++ [quote.char]))
  refine hline.trans (congrArg _ ?_)
  cases ws with
  | nil =>
    rw [arguments, ← words_closing quote (isWordOf_opening (by simp))]
    simp [opening, joined]
  | cons w ws =>
    rw [arguments, ← words_closing quote (isWordOf_opening w.isWordOf.not_sep)]
    cases ws with
    | nil => simp [opening, joined]
    | cons w' ws => simp [opening, joined]

theorem words_unalias (name : AliasName) :
    words isBlank (AliasCommand.unalias name).text =
      [['u', 'n', 'a', 'l', 'i', 'a', 's'], name.text] := by
  have hcmd : IsWordOf isBlank ['u', 'n', 'a', 'l', 'i', 'a', 's'] := ⟨by simp, by simp [isBlank]⟩
  have hline := hcmd.words_append (c := ' ') rfl name.text
  exact hline.trans (congrArg _ name.isWordOf.words_eq)

theorem length_closing (quote : Quote) (u : List Char) (ws : List AliasWord) :
    (closing quote u ws).length = ws.length + 1 := by
  induction ws generalizing u with
  | nil => rfl
  | cons w ws ih => rw [closing, List.length_cons, ih, List.length_cons]

theorem length_lt_of_words_lt
    (h : (words isBlank (AliasCommand.define name quote ws).text).length < 128) :
    ws.length < 127 := by
  rw [words_define, List.length_cons] at h
  cases ws with
  | nil => decide
  | cons w ws =>
    rw [arguments, length_closing] at h
    rw [List.length_cons]
    omega

/-! ## Putting the words together -/

/-- The argument of a definition is taken apart at its sign. -/
theorem takeWhile_opening (w : List Char) :
    (opening name quote w).takeWhile (fun c => decide (c ≠ '=')) = name.text := by
  have hne : ∀ c ∈ name.text, decide (c ≠ '=') = true :=
    fun c hc => decide_eq_true (name.clean c hc).2.1
  rw [opening, List.takeWhile_append_of_pos hne, List.takeWhile_cons_of_neg (by simp),
    List.append_nil]

theorem dropWhile_opening (w : List Char) :
    ((opening name quote w).dropWhile fun c => decide (c ≠ '=')).tail = quote.char :: w := by
  have hne : ∀ c ∈ name.text, decide (c ≠ '=') = true :=
    fun c hc => decide_eq_true (name.clean c hc).2.1
  rw [opening, List.dropWhile_append_of_pos hne, List.dropWhile_cons_of_neg (by simp),
    List.tail_cons]

theorem AliasWord.getLast_ne (w : AliasWord) (quote : Quote) :
    w.text.getLast? ≠ some quote.char := by
  intro h
  have hc := (w.clean _ (List.mem_of_getLast? h)).2
  rw [quote.isQuote_char] at hc
  exact Bool.noConfusion hc

/-- The inner loop reads up to the quote. -/
theorem biAliasLoop_closing (l : Aliases) (n : List Char) (quote : Quote) (rhs v : Value)
    (w : AliasWord) (ws : List AliasWord) (hv : v.text = rhs.text ++ ' ' :: joined (w :: ws))
    (hlen : v.text.length + 2 < 1024) :
    biAliasLoop l (some (n, quote.char, rhs)) (closing quote w.text ws) = (put n v l, 0) := by
  induction ws generalizing w rhs with
  | nil =>
    have hjoined : joined [w] = w.text := by simp [joined]
    rw [hjoined] at hv
    have hfit : rhs.text.length + (w.text ++ [quote.char]).length + 2 < 1024 := by
      rw [hv] at hlen
      simp at hlen ⊢
      omega
    have hval : (rhs.join (w.text ++ [quote.char]) hfit).dropLast = v := by
      ext1
      rw [hv, Value.dropLast, Value.join]
      dsimp only
      rw [← List.cons_append, ← List.append_assoc, List.dropLast_concat]
    rw [closing, biAliasLoop, dif_pos hfit, if_pos (by simp), hval, biAliasLoop]
  | cons w' ws ih =>
    rw [joined_cons_cons] at hv
    have hfit : rhs.text.length + w.text.length + 2 < 1024 := by
      rw [hv] at hlen
      simp at hlen
      omega
    rw [closing, biAliasLoop, dif_pos hfit, if_neg (w.getLast_ne quote)]
    apply ih
    rw [hv]
    simp [Value.join]

theorem Value.text_copy {s : List Char} (h : s.length ≤ 1023) : (copy s).text = s :=
  List.take_of_length_le h

/-- The outer loop at an argument with a quote that is closed there, or is not. -/
theorem biAliasLoop_opening (l : Aliases) {w : List Char} (hw : w.length < 1023)
    (args : List (List Char)) :
    biAliasLoop l none (opening name quote w :: args) =
      if w.getLast? = some quote.char then
        biAliasLoop (put name.text (Value.copy (quote.char :: w)).tail.dropLast l) none args
      else
        biAliasLoop l (some (name.text, quote.char, (Value.copy (quote.char :: w)).tail)) args := by
  have hsign : ¬ '=' ∉ opening name quote w := by simp [opening]
  have htext : (Value.copy (quote.char :: w)).text = quote.char :: w := Value.text_copy hw
  have htail : (Value.copy (quote.char :: w)).tail.text = w := by
    rw [Value.tail]
    dsimp only
    rw [htext, List.tail_cons]
  rw [biAliasLoop, if_neg hsign]
  simp only [takeWhile_opening, dropWhile_opening, htext, htail, List.head?_cons,
    quote.isQuote_char, if_true]

/-- A definition puts its value under its name. -/
theorem biAliasLoop_arguments (l : Aliases) (name : AliasName) (quote : Quote) {v : Value}
    (hv : v.text = joined ws) (hlen : v.text.length + 2 < 1024) :
    biAliasLoop l none (arguments name quote ws) = (put name.text v l, 0) := by
  have hval : ∀ u : List Char, v.text = u → u.length + 2 < 1024 →
      (Value.copy (quote.char :: (u ++ [quote.char]))).tail.dropLast = v := by
    intro u hu hlt
    have htext : (Value.copy (quote.char :: (u ++ [quote.char]))).text =
        quote.char :: (u ++ [quote.char]) := Value.text_copy (by simp; omega)
    ext1
    simp only [Value.dropLast, Value.tail, htext, List.tail_cons, List.dropLast_concat, hu]
  have hclosed : ∀ u : List Char, v.text = u →
      biAliasLoop l none (closing quote (opening name quote u) []) = (put name.text v l, 0) := by
    intro u hu
    have hlt : u.length + 2 < 1024 := by rwa [← hu]
    have hopen : opening name quote u ++ [quote.char] = opening name quote (u ++ [quote.char]) := by
      simp [opening]
    rw [closing, hopen, biAliasLoop_opening l (by simp; omega), if_pos (by simp), hval u hu hlt,
      biAliasLoop]
  cases ws with
  | nil => exact hclosed [] hv
  | cons w ws =>
    cases ws with
    | nil => exact hclosed w.text (by simpa [joined] using hv)
    | cons w' ws =>
      rw [joined_cons_cons] at hv
      have hlt : w.text.length < 1023 := by
        rw [hv] at hlen
        simp at hlen
        omega
      rw [arguments, closing, biAliasLoop_opening l hlt, if_neg (w.getLast_ne quote)]
      apply biAliasLoop_closing
      · rw [Value.tail]
        dsimp only
        rw [Value.text_copy (s := quote.char :: w.text) hlt, List.tail_cons, hv]
      · exact hlen

/-! ## One line -/

/-- The line of a definition has room for its name and its value. -/
theorem length_joined_lt (h : (AliasCommand.define name quote ws).text.length ≤ 1023) :
    (joined ws).length + 2 < 1024 := by
  simp only [AliasCommand.text, List.length_append, List.length_cons, List.length_nil] at h
  omega

theorem runLine_define (l : Aliases) (hlen : (AliasCommand.define name quote ws).text.length ≤ 1023)
    (hwords : (words isBlank (AliasCommand.define name quote ws).text).length < 128) :
    ∃ v : Value, v.text = joined ws ∧
      runLine l (AliasCommand.define name quote ws).text = put name.text v l := by
  have hlt := length_joined_lt hlen
  refine ⟨⟨joined ws, by omega⟩, rfl, ?_⟩
  have htok := tokenise_of_lt hwords
  rw [words_define] at htok
  have hloop := biAliasLoop_arguments l name quote (v := ⟨joined ws, by omega⟩) rfl hlt
  simp only [runLine, htok, List.head?_cons, if_true, biAlias, List.tail_cons, hloop]

theorem runLine_unalias (l : Aliases) (name : AliasName) :
    runLine l (AliasCommand.unalias name).text = l.kerase name.text := by
  have hwords := words_unalias name
  have htok : tokenise (AliasCommand.unalias name).text 128 =
      [['u', 'n', 'a', 'l', 'i', 'a', 's'], name.text] := by
    rw [tokenise_of_lt (by simp [hwords]), hwords]
  have hne : ¬ some ['u', 'n', 'a', 'l', 'i', 'a', 's'] = some ['a', 'l', 'i', 'a', 's'] := by
    simp
  simp only [runLine, htok, List.head?_cons, if_neg hne, if_true, biUnalias]
  by_cases h : (aliasLookup l name.text).isSome = true
  · rw [if_pos h]
  · rw [if_neg h]
    rw [aliasLookup, List.dlookup_isSome] at h
    exact (List.kerase_of_notMem_keys h).symm

theorem Holds.define (hh : Holds l m) {v : Value} (hv : v.text = joined ws)
    (hlen : ws.length < 127) :
    Holds (put name.text v l) (Function.update m name.text (some ws)) := by
  constructor
  · exact nodupKeys_put hh.nodupKeys _ _
  · intro n
    rw [aliasLookup, dlookup_put]
    by_cases h : n = name.text
    · rw [h, Function.update_self, Function.update_self, Option.map_some, Option.map_some, hv]
    · rw [Function.update_of_ne h, Function.update_of_ne h]
      exact hh.lookup n
  · intro n us hus
    by_cases h : n = name.text
    · rw [h, Function.update_self] at hus
      cases hus
      exact hlen
    · rw [Function.update_of_ne h] at hus
      exact hh.length_lt n us hus

theorem Holds.unalias (hh : Holds l m) (n : List Char) :
    Holds (l.kerase n) (Function.update m n none) := by
  constructor
  · exact hh.nodupKeys.kerase n
  · intro n'
    rw [aliasLookup, dlookup_kerase_eq_update hh.nodupKeys]
    by_cases h : n' = n
    · rw [h, Function.update_self, Function.update_self]
      rfl
    · rw [Function.update_of_ne h, Function.update_of_ne h]
      exact hh.lookup n'
  · intro n' us hus
    by_cases h : n' = n
    · rw [h, Function.update_self] at hus
      cases hus
    · rw [Function.update_of_ne h] at hus
      exact hh.length_lt n' us hus

/-- A line keeps the list and the definitions together. -/
theorem Holds.runLine (hh : Holds l m) (c : CommandLine) :
    Holds (runLine l c.command.text) (c.command.apply m) := by
  obtain ⟨command, hlen, hwords⟩ := c
  cases command with
  | define name quote ws =>
    obtain ⟨v, hv, hrun⟩ := runLine_define l hlen hwords
    rw [hrun]
    exact hh.define hv (length_lt_of_words_lt hwords)
  | unalias name =>
    rw [runLine_unalias]
    exact hh.unalias name.text

/-! ## Runs -/

theorem holds_runLines (cs : List CommandLine) : Holds (runLines cs) (meaning cs) := by
  induction cs using List.reverseRecOn with
  | nil =>
    constructor
    · exact List.nodupKeys_nil
    · exact fun _ => rfl
    · exact fun _ _ h => absurd h (by simp [meaning])
  | append_singleton cs c ih =>
    have hrun := ih.runLine c
    simpa only [runLines, meaning, List.foldl_append, List.foldl_cons, List.foldl_nil] using hrun

/-- No name is there twice, every name stands for its latest definition, and where it is used the
words of the definition take its place. -/
theorem aliases_survive (cs : List CommandLine) :
    (runLines cs).keys.Nodup ∧
    (∀ name, (aliasLookup (runLines cs) name).map Value.text = (meaning cs name).map joined) ∧
    ∀ name args, expandAlias (runLines cs) (name :: args) 128 =
      match meaning cs name with
      | none => (args.length + 1, name :: args)
      | some ws =>
        if ws.length + args.length < 128 then
          (ws.length + args.length, ws.map AliasWord.text ++ args)
        else (0, name :: args) := by
  have hh := holds_runLines cs
  refine ⟨hh.nodupKeys, hh.lookup, ?_⟩
  intro name args
  have hlookup := hh.lookup name
  cases hm : meaning cs name with
  | none =>
    rw [hm, Option.map_none, Option.map_eq_none_iff] at hlookup
    exact expandAlias_none hlookup args 128
  | some ws =>
    rw [hm, Option.map_some, Option.map_eq_some_iff] at hlookup
    obtain ⟨v, hv, htext⟩ := hlookup
    have hlt := hh.length_lt name ws hm
    rw [expandAlias_some hv, htext, words_joined, List.length_map]
    simp only [hlt, and_true]

end Corestack.Shell
