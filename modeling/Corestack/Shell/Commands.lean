import Corestack.Shell.Environment
import Corestack.Shell.MainLoop

/-! # The shell at work

The shell reads its start-up file and then lines, expands the aliases of the lines, and
calls its built-in functions; what is none of them is run by another process, which
leaves the shell as it is.
-/

namespace Corestack.Shell

open Text Corestack.Assoc

instance : DecidableEq Value := fun _ _ => decidable_of_iff _ Value.ext_iff.symm

structure Tetrish where
  aliases : Aliases
  environ : Environ
  cwd : List Char
deriving DecidableEq

/-- The directory that `chdir` leads to from another one, if it succeeds. -/
abbrev Directories := List Char → List Char → Option (List Char)

def home : List Char := "HOME".toList

def oldpwd : List Char := "OLDPWD".toList

namespace Tetrish

variable (dirs : Directories)

/-- Where `cd` is told to go. -/
def destination (sh : Tetrish) (argv : List (List Char)) : Option (List Char) :=
  match argv.tail with
  | [] => getenv sh.environ home
  | arg :: _ => if arg = ['-'] then getenv sh.environ oldpwd else some arg

def biCd (sh : Tetrish) (argv : List (List Char)) : Tetrish :=
  match (sh.destination argv).bind (dirs sh.cwd) with
  | none => sh
  | some cwd => { sh with environ := setenv sh.environ oldpwd sh.cwd, cwd := cwd }

/-- What `bi_call` comes to. -/
inductive Call
  | returned (sh : Tetrish)
  | exited
  | unknown

/-- The functions of `lookup_bifn`. Four of them only print. -/
def biCall (sh : Tetrish) (argv : List (List Char)) : Call :=
  match argv.head? with
  | none => .unknown
  | some cmd =>
    if cmd = "exit".toList then .exited
    else if cmd = "cd".toList then .returned (sh.biCd dirs argv)
    else if cmd = "help".toList ∨ cmd = "usage".toList ∨ cmd = "env".toList then .returned sh
    else if cmd = "setenv".toList then
      .returned { sh with environ := (biSetenv sh.environ argv).1 }
    else if cmd = "unsetenv".toList then
      .returned { sh with environ := (biUnsetenv sh.environ argv).1 }
    else if cmd = "alias".toList then .returned { sh with aliases := (biAlias sh.aliases argv).1 }
    else if cmd = "unalias".toList then
      .returned { sh with aliases := (biUnalias sh.aliases argv).1 }
    else if cmd = "bins".toList then .returned sh
    else .unknown

/-- The shell goes on, unless it has exited. -/
def after (sh : Tetrish) : Call → Option Tetrish
  | .returned sh' => some sh'
  | .exited => none
  | .unknown => some sh

/-- A line of the start-up file. Its aliases are not expanded. -/
def rcLine (sh : Tetrish) (line : List Char) : Option Tetrish :=
  let s := line.dropWhile isBlank
  if s = [] ∨ s.head? = some '#' then some sh
  else sh.after (sh.biCall dirs (tokenise s 128))

/-- A line that was typed. -/
def turn (sh : Tetrish) (line : List Char) : Option Tetrish :=
  match handLine sh.aliases line with
  | none => some sh
  | some argv => sh.after (sh.biCall dirs argv)

def runRc (sh : Tetrish) (lines : List (List Char)) : Option Tetrish :=
  lines.foldlM (rcLine dirs) sh

def session (sh : Tetrish) (lines : List (List Char)) : Option Tetrish :=
  lines.foldlM (turn dirs) sh

end Tetrish

variable {dirs : Directories} {sh sh' : Tetrish} {argv : List (List Char)} {line name : List Char}
  {lines : List (List Char)}

/-! ## What a command can do -/

/-- The words are those of a `cd` that does not fail; one that fails leaves the shell as it is. -/
def Moves (dirs : Directories) (sh : Tetrish) (argv : List (List Char)) : Prop :=
  argv.head? = some "cd".toList ∧ ((sh.destination argv).bind (dirs sh.cwd)).isSome

/-- The words of a command that may change the variable. -/
def Touches (dirs : Directories) (sh : Tetrish) (name : List Char) (argv : List (List Char)) :
    Prop :=
  (argv.head? = some "setenv".toList ∧ name ∈ argv.tail.map argName) ∨
    (argv.head? = some "unsetenv".toList ∧ name ∈ argv.tail) ∨
    Moves dirs sh argv ∧ name = oldpwd

/-- What a command leaves of the shell. -/
structure Keeps (dirs : Directories) (argv : List (List Char)) (sh sh' : Tetrish) : Prop where
  nodupKeys : sh'.environ.NodupKeys
  names : NamesFrom sh.environ sh'.environ
  getenv : ∀ name, ¬ Touches dirs sh name argv →
    getenv sh'.environ name = getenv sh.environ name
  cwd : ¬ Moves dirs sh argv → sh'.cwd = sh.cwd

theorem Keeps.refl (hw : sh.environ.NodupKeys) : Keeps dirs argv sh sh :=
  ⟨hw, .refl _, fun _ _ => rfl, fun _ => rfl⟩

theorem badName_oldpwd : badName oldpwd = false := by decide

theorem keeps_biCd (hw : sh.environ.NodupKeys) (hcmd : argv.head? = some "cd".toList) :
    Keeps dirs argv sh (sh.biCd dirs argv) := by
  unfold Tetrish.biCd
  cases hdest : (sh.destination argv).bind (dirs sh.cwd) with
  | none => exact .refl hw
  | some cwd =>
    have hmoves : Moves dirs sh argv := ⟨hcmd, by rw [hdest]; rfl⟩
    refine ⟨nodupKeys_setenv hw _ _, namesFrom_setenv _ badName_oldpwd _, ?_, ?_⟩
    · intro name hname
      have hne : name ≠ oldpwd := fun h => hname (Or.inr (Or.inr ⟨hmoves, h⟩))
      dsimp only
      rw [getenv_setenv, Function.update_of_ne hne]
    · exact fun hno => absurd hmoves hno

theorem keeps_biSetenv (hw : sh.environ.NodupKeys) (hcmd : argv.head? = some "setenv".toList) :
    Keeps dirs argv sh { sh with environ := (biSetenv sh.environ argv).1 } := by
  unfold biSetenv
  split_ifs
  · exact .refl hw
  · obtain ⟨hw', hnames, hsame⟩ := biSetenvLoop_kept hw argv.tail
    exact ⟨hw', hnames, fun name hname => hsame name fun h => hname (Or.inl ⟨hcmd, h⟩),
      fun _ => rfl⟩

theorem keeps_biUnsetenv (hw : sh.environ.NodupKeys) (hcmd : argv.head? = some "unsetenv".toList) :
    Keeps dirs argv sh { sh with environ := (biUnsetenv sh.environ argv).1 } := by
  unfold biUnsetenv
  split_ifs
  · exact .refl hw
  · exact .refl hw
  · obtain ⟨hw', hkeys, hget⟩ := foldl_unsetenv_kept hw argv.tail
    refine ⟨hw', fun name h => Or.inl (hkeys h), ?_, fun _ => rfl⟩
    intro name hname
    exact (hget name).trans (if_neg fun h => hname (Or.inr (Or.inl ⟨hcmd, h⟩)))

theorem keeps_biCall (hw : sh.environ.NodupKeys) (h : sh.after (sh.biCall dirs argv) = some sh') :
    Keeps dirs argv sh sh' := by
  unfold Tetrish.biCall at h
  cases hcmd : argv.head? with
  | none =>
    rw [hcmd] at h
    obtain rfl := Option.some.inj h
    exact .refl hw
  | some cmd =>
    simp only [hcmd] at h
    split_ifs at h with hexit hcd hprint hset hunset halias hunalias hbins
    · cases h
    · obtain rfl := Option.some.inj h
      exact keeps_biCd hw (hcd ▸ hcmd)
    · obtain rfl := Option.some.inj h
      exact .refl hw
    · obtain rfl := Option.some.inj h
      exact keeps_biSetenv hw (hset ▸ hcmd)
    · obtain rfl := Option.some.inj h
      exact keeps_biUnsetenv hw (hunset ▸ hcmd)
    all_goals
      obtain rfl := Option.some.inj h
      exact ⟨hw, .refl _, fun _ _ => rfl, fun _ => rfl⟩

theorem keeps_turn (hw : sh.environ.NodupKeys) (h : sh.turn dirs line = some sh') :
    Keeps dirs ((handLine sh.aliases line).getD []) sh sh' := by
  unfold Tetrish.turn at h
  cases hline : handLine sh.aliases line with
  | none =>
    rw [hline] at h
    obtain rfl := Option.some.inj h
    exact .refl hw
  | some argv =>
    rw [hline] at h
    exact keeps_biCall hw h

theorem keeps_rcLine (hw : sh.environ.NodupKeys) (h : sh.rcLine dirs line = some sh') :
    ∃ argv, Keeps dirs argv sh sh' := by
  unfold Tetrish.rcLine at h
  dsimp only at h
  split_ifs at h
  · obtain rfl := Option.some.inj h
    exact ⟨[], .refl hw⟩
  · exact ⟨_, keeps_biCall hw h⟩

/-! ## Sessions -/

theorem session_cons (line : List Char) (lines : List (List Char)) :
    sh.session dirs (line :: lines) = (sh.turn dirs line).bind fun sh' => sh'.session dirs lines :=
  rfl

/-- What all steps keep holds at the end. -/
theorem foldlM_kept {step : Tetrish → List Char → Option Tetrish}
    (hstep : ∀ {sh sh' : Tetrish} {line}, sh.environ.NodupKeys → step sh line = some sh' →
      ∃ argv, Keeps dirs argv sh sh')
    (hw : sh.environ.NodupKeys) (h : lines.foldlM step sh = some sh') :
    sh'.environ.NodupKeys ∧ NamesFrom sh.environ sh'.environ := by
  induction lines generalizing sh with
  | nil =>
    obtain rfl := Option.some.inj h
    exact ⟨hw, .refl _⟩
  | cons line lines ih =>
    rw [List.foldlM_cons, Option.bind_eq_bind, Option.bind_eq_some_iff] at h
    obtain ⟨sh₁, hfirst, hrest⟩ := h
    obtain ⟨argv, hk⟩ := hstep hw hfirst
    obtain ⟨hw', hnames⟩ := ih hk.nodupKeys hrest
    exact ⟨hw', hk.names.trans hnames⟩

/-- Whatever is in the start-up file and is typed, no variable is there twice if none was at the
start, and every name that was not there before consists of letters, digits and underscores. -/
theorem environ_names (dirs : Directories) (rc lines : List (List Char)) (sh sh₁ sh₂ : Tetrish)
    (hw : sh.environ.NodupKeys) (hrc : sh.runRc dirs rc = some sh₁)
    (hlines : sh₁.session dirs lines = some sh₂) :
    sh₂.environ.NodupKeys ∧ ∀ name ∈ sh₂.environ.keys, name ∈ sh.environ.keys ∨
      name ≠ [] ∧ ∀ c ∈ name, isNameChar c = true := by
  obtain ⟨hw₁, hnames₁⟩ := foldlM_kept keeps_rcLine hw hrc
  obtain ⟨hw₂, hnames₂⟩ := foldlM_kept (fun hw h => ⟨_, keeps_turn hw h⟩) hw₁ hlines
  refine ⟨hw₂, fun name hmem => ?_⟩
  rcases hnames₁.trans hnames₂ name hmem with h | h
  · exact Or.inl h
  · simp only [badName, Bool.or_eq_false_iff, decide_eq_false_iff_not, List.any_eq_false] at h
    exact Or.inr ⟨h.1.1, fun c hc => by simpa using h.2 c hc⟩

theorem environ_names_lang : ∃ sh₂,
    Tetrish.session (fun _ d => some d) ⟨[], [], ['/']⟩ ["setenv LANG=C A-B=C".toList] = some sh₂ ∧
      ∀ name ∈ sh₂.environ.keys, name ∈ List.keys ([] : Environ) ∨
        name ≠ [] ∧ ∀ c ∈ name, isNameChar c = true := by
  refine ⟨⟨[], [⟨"LANG".toList, ['C']⟩], ['/']⟩, by decide +kernel, ?_⟩
  exact (environ_names (fun _ d => some d) [] ["setenv LANG=C A-B=C".toList] ⟨[], [], ['/']⟩ _ _
    List.nodupKeys_nil rfl (by decide +kernel)).2

/-- No command that is handed over in the session changes the directory or names the variable. -/
inductive Leaves (dirs : Directories) (name : List Char) : Tetrish → List (List Char) → Prop
  | nil (sh : Tetrish) : Leaves dirs name sh []
  | cons {sh : Tetrish} {line : List Char} {lines : List (List Char)} :
      (∀ argv ∈ handLine sh.aliases line, ¬ Moves dirs sh argv ∧ ¬ Touches dirs sh name argv) →
      (∀ sh' ∈ sh.turn dirs line, Leaves dirs name sh' lines) → Leaves dirs name sh (line :: lines)

theorem Leaves.kept (hl : Leaves dirs name sh lines) (hw : sh.environ.NodupKeys)
    (h : sh.session dirs lines = some sh') :
    sh'.environ.NodupKeys ∧ getenv sh'.environ name = getenv sh.environ name ∧
      sh'.cwd = sh.cwd := by
  induction hl with
  | nil sh =>
    obtain rfl := Option.some.inj h
    exact ⟨hw, rfl, rfl⟩
  | @cons sh line lines hline _ ih =>
    rw [session_cons, Option.bind_eq_some_iff] at h
    obtain ⟨sh₁, hfirst, hrest⟩ := h
    have hk := keeps_turn hw hfirst
    have hfree : ¬ Moves dirs sh ((handLine sh.aliases line).getD []) ∧
        ¬ Touches dirs sh name ((handLine sh.aliases line).getD []) := by
      cases hhand : handLine sh.aliases line with
      | none => simp [Touches, Moves]
      | some argv => exact hline argv hhand
    obtain ⟨hw', hget, hcwd⟩ := ih sh₁ hfirst hk.nodupKeys hrest
    exact ⟨hw', hget.trans (hk.getenv name hfree.2), hcwd.trans (hk.cwd hfree.1)⟩

end Corestack.Shell
