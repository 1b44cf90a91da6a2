import Corestack.Shell.Commands

/-! # Aliases and variables of a session

The start-up file and the lines of a session define aliases and set variables, in any
order. The aliases are those of the latest definitions and the variables have the latest
values, whatever became of the others.
-/

namespace Corestack.Shell

open Text Corestack.Assoc

structure VariableName where
  text : List Char
  ne_nil : text ≠ []
  clean : ∀ c ∈ text, isNameChar c = true

/-- The words of `setenv` end at blanks, and so does a value. -/
structure VariableValue where
  text : List Char
  clean : ∀ c ∈ text, isBlank c = false

/-- How a value is typed. It may be put in quotes, and has to be if it is in quotes itself. -/
inductive Typed
  | plain (v : VariableValue) (bare : ∀ (q : Quote) u, v.text ≠ q.char :: (u ++ [q.char]))
  | quoted (quote : Quote) (v : VariableValue)

namespace Typed

def value : Typed → List Char
  | plain v _ => v.text
  | quoted _ v => v.text

def text : Typed → List Char
  | plain v _ => v.text
  | quoted quote v => quote.char :: (v.text ++ [quote.char])

end Typed

inductive EnvCommand
  | set (name : VariableName) (typed : Typed)
  | unset (first : VariableName) (names : List VariableName)

def EnvCommand.text : EnvCommand → List Char
  | set name typed => "setenv".toList ++ ' ' :: (name.text ++ '=' :: typed.text)
  | unset first names =>
    "unsetenv".toList ++ ' ' :: [' '].intercalate ((first :: names).map VariableName.text)

inductive ShellCommand
  | ofAlias (c : AliasCommand)
  | ofEnv (c : EnvCommand)

def ShellCommand.text : ShellCommand → List Char
  | ofAlias c => c.text
  | ofEnv c => c.text

/-- A command that fits the buffer of the line and the list of its words. -/
structure ShellLine where
  command : ShellCommand
  length_le : command.text.length ≤ 1023
  words_lt : (words isBlank command.text).length < 128

def ShellLine.text (l : ShellLine) : List Char := l.command.text

/-- What the names stand for, and the values of the variables. -/
structure Tables where
  meaning : Meaning
  settings : List Char → Option (List Char)

def EnvCommand.apply (settings : List Char → Option (List Char)) :
    EnvCommand → List Char → Option (List Char)
  | set name typed => Function.update settings name.text (some typed.value)
  | unset first names =>
    fun n => if n ∈ (first :: names).map VariableName.text then none else settings n

def ShellCommand.apply (t : Tables) : ShellCommand → Tables
  | ofAlias c => { t with meaning := c.apply t.meaning }
  | ofEnv c => { t with settings := c.apply t.settings }

def Tables.run (t : Tables) (ls : List ShellLine) : Tables :=
  ls.foldl (fun t l => l.command.apply t) t

/-- The first words of the commands. -/
def commandNames : List (List Char) :=
  ["alias".toList, "unalias".toList, "setenv".toList, "unsetenv".toList]

/-- No alias takes the name of one of the commands. -/
def ShellCommand.Fair : ShellCommand → Prop
  | ofAlias (.define name _ _) => name.text ∉ commandNames
  | _ => True

/-- The shell has what the tables say. -/
structure Has (sh : Tetrish) (t : Tables) : Prop where
  aliases : Holds sh.aliases t.meaning
  free : ∀ cmd ∈ commandNames, t.meaning cmd = none
  environ : getenv sh.environ = t.settings
  wellFormed : sh.environ.WellFormed

/-! ## Words -/

variable {name : VariableName} {typed : Typed} {sh : Tetrish} {t : Tables} {dirs : Directories}
  {env : Environ}

theorem isBlank_of_isNameChar {c : Char} (h : isNameChar c = true) : isBlank c = false := by
  unfold isBlank
  rw [Bool.or_eq_false_iff, decide_eq_false_iff_not, decide_eq_false_iff_not]
  constructor <;> (rintro rfl; exact absurd h (by decide))

theorem VariableName.sign_notMem (name : VariableName) : '=' ∉ name.text := by
  intro h
  exact absurd (name.clean '=' h) (by decide)

theorem VariableName.badName_text (name : VariableName) : badName name.text = false := by
  simp only [badName, Bool.or_eq_false_iff, decide_eq_false_iff_not, List.any_eq_false]
  exact ⟨⟨name.ne_nil, name.sign_notMem⟩, fun c hc => by simp [name.clean c hc]⟩

theorem VariableName.isWordOf (name : VariableName) : IsWordOf isBlank name.text :=
  ⟨name.ne_nil, fun c hc => isBlank_of_isNameChar (name.clean c hc)⟩

theorem Typed.clean (typed : Typed) : ∀ c ∈ typed.text, isBlank c = false := by
  cases typed with
  | plain v bare => exact v.clean
  | quoted quote v =>
    intro c hc
    rcases List.mem_cons.mp hc with rfl | hc
    · exact quote.isBlank_char
    · rcases List.mem_append.mp hc with hc | hc
      · exact v.clean c hc
      · exact List.mem_singleton.mp hc ▸ quote.isBlank_char

theorem exists_quote {c : Char} (h : isQuote c = true) : ∃ quote : Quote, quote.char = c := by
  unfold isQuote at h
  rw [Bool.or_eq_true, decide_eq_true_eq, decide_eq_true_eq] at h
  rcases h with rfl | rfl
  · exact ⟨.single, rfl⟩
  · exact ⟨.double, rfl⟩

/-- Whatever is typed for a value, the variable gets that value. -/
theorem stripQuotes_text (typed : Typed) : stripQuotes typed.text = typed.value := by
  cases typed with
  | quoted quote v =>
    simp only [Typed.text, Typed.value, stripQuotes, quote.isQuote_char, Bool.true_and]
    rw [if_pos (by simp), List.dropLast_concat]
  | plain v bare =>
    simp only [Typed.text, Typed.value]
    cases hv : v.text with
    | nil => rfl
    | cons c rest =>
      refine if_neg ?_
      rw [Bool.and_eq_true, decide_eq_true_eq]
      rintro ⟨hq, hlast⟩
      obtain ⟨quote, rfl⟩ := exists_quote hq
      obtain ⟨u, hu⟩ := List.getLast?_eq_some_iff.mp hlast
      exact bare quote u (hv.trans (by rw [hu]))

theorem words_set (name : VariableName) (typed : Typed) :
    words isBlank (EnvCommand.set name typed).text =
      ["setenv".toList, name.text ++ '=' :: typed.text] := by
  have hcmd : IsWordOf isBlank "setenv".toList := ⟨by simp, by simp [isBlank]⟩
  have harg : IsWordOf isBlank (name.text ++ '=' :: typed.text) := by
    constructor
    · exact List.append_ne_nil_of_left_ne_nil name.ne_nil _
    · intro c hc
      rcases List.mem_append.mp hc with hc | hc
      · exact name.isWordOf.not_sep c hc
      · rcases List.mem_cons.mp hc with rfl | hc
        · rfl
        · exact typed.clean c hc
  exact (hcmd.words_append rfl _).trans (congrArg _ harg.words_eq)

theorem words_unset (first : VariableName) (names : List VariableName) :
    words isBlank (EnvCommand.unset first names).text =
      "unsetenv".toList :: (first :: names).map VariableName.text := by
  have hcmd : IsWordOf isBlank "unsetenv".toList := ⟨by simp, by simp [isBlank]⟩
  refine (hcmd.words_append rfl _).trans (congrArg _ (words_intercalate rfl ?_))
  intro w hw
  obtain ⟨v, -, rfl⟩ := List.mem_map.mp hw
  exact v.isWordOf

/-! ## The commands -/

theorem biSetenvLoop_set (env : Environ) (name : VariableName) (typed : Typed) :
    biSetenvLoop env [name.text ++ '=' :: typed.text] =
      (setenv env name.text typed.value, 0) := by
  have hne : ∀ c ∈ name.text, decide (c ≠ '=') = true :=
    fun c hc => decide_eq_true fun he => name.sign_notMem (he ▸ hc)
  have hname : argName (name.text ++ '=' :: typed.text) = name.text := by
    rw [argName, List.takeWhile_append_of_pos hne, List.takeWhile_cons_of_neg (by simp),
      List.append_nil]
  have hvalue : argValue (name.text ++ '=' :: typed.text) = typed.text := by
    rw [argValue, List.dropWhile_append_of_pos hne, List.dropWhile_cons_of_neg (by simp),
      List.tail_cons]
  have hbad : ¬ badName name.text = true := by simp [name.badName_text]
  rw [biSetenvLoop, if_neg (by simp), hname, if_neg hbad, hvalue, stripQuotes_text]
  rfl

theorem WellFormed.setenv (hw : env.WellFormed) (name : VariableName) (value : List Char) :
    (setenv env name.text value).WellFormed := by
  refine ⟨nodupKeys_setenv hw.nodupKeys _ _, fun n hn => ?_⟩
  rcases List.mem_append.mp (keys_setenv_subset env name.text value hn) with h | h
  · exact hw.names n h
  · exact List.mem_singleton.mp h ▸ name.sign_notMem

theorem biUnsetenv_unset (env : Environ) (first : VariableName) (names : List VariableName) :
    biUnsetenv env ("unsetenv".toList :: (first :: names).map VariableName.text) =
      (((first :: names).map VariableName.text).foldl unsetenv env, 0) := by
  have hgood : ((first :: names).map VariableName.text).any badName = false := by
    rw [List.any_eq_false]
    intro n hn
    obtain ⟨v, -, rfl⟩ := List.mem_map.mp hn
    exact Bool.eq_false_iff.mp v.badName_text
  have hbad := Bool.eq_false_iff.mp hgood
  rw [biUnsetenv, if_neg (by simp), List.tail_cons, if_neg hbad]

/-- The words that a command is called with. -/
def ShellCommand.argv (c : ShellCommand) : List (List Char) := words isBlank c.text

/-- A command does to the shell what it does to the tables. -/
theorem Has.call (dirs : Directories) (hh : Has sh t) (l : ShellLine) (hf : l.command.Fair) :
    ∃ sh', sh.biCall dirs l.command.argv = .returned sh' ∧ Has sh' (l.command.apply t) ∧
      sh'.cwd = sh.cwd := by
  obtain ⟨command, hlen, hwords⟩ := l
  cases command with
  | ofAlias c =>
    have hrun := hh.aliases.runLine ⟨c, hlen, hwords⟩
    have htok : tokenise c.text 128 = words isBlank c.text := tokenise_of_lt hwords
    have hfree : ∀ cmd ∈ commandNames, c.apply t.meaning cmd = none := by
      intro cmd hcmd
      cases c with
      | define name quote ws =>
        have hne : cmd ≠ name.text := fun h => hf (h ▸ hcmd)
        exact (Function.update_of_ne hne _ _).trans (hh.free cmd hcmd)
      | unalias name =>
        by_cases hn : cmd = name.text
        · exact hn ▸ Function.update_self _ _ _
        · exact (Function.update_of_ne hn _ _).trans (hh.free cmd hcmd)
    refine ⟨{ sh with aliases := runLine sh.aliases c.text }, ?_,
      ⟨hrun, hfree, hh.environ, hh.wellFormed⟩, rfl⟩
    unfold runLine
    rw [htok]
    cases c with
    | define name quote ws =>
      simp only [ShellCommand.argv, ShellCommand.text, words_define]
      rfl
    | unalias name =>
      simp only [ShellCommand.argv, ShellCommand.text, words_unalias]
      rfl
  | ofEnv c =>
    cases c with
    | set name typed =>
      refine ⟨{ sh with environ := setenv sh.environ name.text typed.value }, ?_,
        ⟨hh.aliases, hh.free, ?_, WellFormed.setenv hh.wellFormed name _⟩, rfl⟩
      · simp only [ShellCommand.argv, ShellCommand.text, words_set]
        have henv := congrArg Prod.fst (biSetenvLoop_set sh.environ name typed)
        dsimp only at henv
        rw [← henv]
        rfl
      · dsimp only
        rw [getenv_setenv, hh.environ]
        rfl
    | unset first names =>
      obtain ⟨hw, hkeys, hget⟩ := foldl_unsetenv_kept hh.wellFormed.nodupKeys
        ((first :: names).map VariableName.text)
      refine ⟨{ sh with
          environ := ((first :: names).map VariableName.text).foldl unsetenv sh.environ }, ?_,
        ⟨hh.aliases, hh.free, ?_, hw, fun n hn => hh.wellFormed.names n (hkeys hn)⟩, rfl⟩
      · simp only [ShellCommand.argv, ShellCommand.text, words_unset]
        have henv := congrArg Prod.fst (biUnsetenv_unset sh.environ first names)
        dsimp only at henv
        rw [← henv]
        rfl
      · funext n
        exact (hget n).trans (by rw [hh.environ]; rfl)

/-- A command starts with its name. -/
theorem exists_argv (c : ShellCommand) :
    ∃ cmd args, cmd ∈ commandNames ∧ words isBlank c.text = cmd :: args := by
  cases c with
  | ofAlias c =>
    cases c with
    | define name quote ws => exact ⟨_, _, by decide, words_define name quote ws⟩
    | unalias name => exact ⟨_, _, by decide, words_unalias name⟩
  | ofEnv c =>
    cases c with
    | set name typed => exact ⟨_, _, by decide, words_set name typed⟩
    | unset first names => exact ⟨_, _, by decide, words_unset first names⟩

theorem Has.turn (dirs : Directories) (hh : Has sh t) (l : ShellLine) (hf : l.command.Fair) :
    ∃ sh', sh.turn dirs l.text = some sh' ∧ Has sh' (l.command.apply t) ∧ sh'.cwd = sh.cwd := by
  obtain ⟨sh', hcall, hh', hcwd⟩ := hh.call dirs l hf
  refine ⟨sh', ?_, hh', hcwd⟩
  obtain ⟨cmd, args, hcmd, hwords⟩ := exists_argv l.command
  have hnone : aliasLookup sh.aliases cmd = none := by
    have h := hh.aliases.lookup cmd
    rw [hh.free cmd hcmd, Option.map_none] at h
    exact Option.map_eq_none_iff.mp h
  have hlt := l.words_lt
  rw [hwords, List.length_cons] at hlt
  have hhand : handLine sh.aliases l.text = some l.command.argv := by
    rw [ShellLine.text, handLine_none hwords hnone, ShellCommand.argv, hwords,
      List.take_of_length_le (by omega)]
  simp only [Tetrish.turn, hhand, hcall, Tetrish.after]

theorem Has.rcLine (dirs : Directories) (hh : Has sh t) (l : ShellLine) (hf : l.command.Fair) :
    ∃ sh', sh.rcLine dirs l.text = some sh' ∧ Has sh' (l.command.apply t) ∧
      sh'.cwd = sh.cwd := by
  obtain ⟨sh', hcall, hh', hcwd⟩ := hh.call dirs l hf
  refine ⟨sh', ?_, hh', hcwd⟩
  have hhead : ∃ c rest, l.text = c :: rest ∧ isBlank c = false ∧ c ≠ '#' := by
    unfold ShellLine.text
    cases l.command with
    | ofAlias c =>
      cases c with
      | define name quote ws => exact ⟨_, _, rfl, by decide, by decide⟩
      | unalias name => exact ⟨_, _, rfl, by decide, by decide⟩
    | ofEnv c =>
      cases c with
      | set name typed => exact ⟨_, _, rfl, by decide, by decide⟩
      | unset first names => exact ⟨_, _, rfl, by decide, by decide⟩
  obtain ⟨c, rest, htext, hblank, hhash⟩ := hhead
  have hdrop : l.text.dropWhile isBlank = l.text := by
    rw [htext, List.dropWhile_cons_of_neg (by simp [hblank])]
  have hskip : ¬ (l.text = [] ∨ l.text.head? = some '#') := by
    rw [htext]
    simpa using hhash
  have htok : tokenise l.text 128 = l.command.argv := tokenise_of_lt l.words_lt
  simp only [Tetrish.rcLine, hdrop, if_neg hskip, htok, hcall, Tetrish.after]

/-! ## Sessions -/

theorem Has.foldlM (step : Tetrish → List Char → Option Tetrish)
    (hstep : ∀ {sh : Tetrish} {t : Tables} (l : ShellLine), Has sh t → l.command.Fair →
      ∃ sh', step sh l.text = some sh' ∧ Has sh' (l.command.apply t) ∧ sh'.cwd = sh.cwd)
    (hh : Has sh t) (ls : List ShellLine) (hf : ∀ l ∈ ls, l.command.Fair) :
    ∃ sh', (ls.map ShellLine.text).foldlM step sh = some sh' ∧ Has sh' (t.run ls) ∧
      sh'.cwd = sh.cwd := by
  induction ls generalizing sh t with
  | nil => exact ⟨sh, rfl, hh, rfl⟩
  | cons l ls ih =>
    obtain ⟨sh₁, hfirst, hh₁, hcwd₁⟩ := hstep l hh (hf l List.mem_cons_self)
    obtain ⟨sh₂, hrest, hh₂, hcwd₂⟩ := ih hh₁ fun l' hl' => hf l' (List.mem_cons_of_mem _ hl')
    refine ⟨sh₂, ?_, hh₂, hcwd₂.trans hcwd₁⟩
    rw [List.map_cons, List.foldlM_cons, hfirst]
    exact hrest

end Corestack.Shell
