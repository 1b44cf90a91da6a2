import Corestack.Shell.Definitions
import Corestack.Shell.LineEditor

/-! # The environment of the shell

`setenv` and `unsetenv` change the environment, and `env` shows it. What `setenv` takes for
the value is a word, without the quotes around it.
-/

namespace Corestack.Shell

open Text Corestack.Assoc

/-- The strings of `environ`, each cut at its first sign. -/
abbrev Environ := List (Σ _ : List Char, List Char)

def getenv (env : Environ) (name : List Char) : Option (List Char) := env.dlookup name

/-- A variable that is there keeps its place. -/
def setenv (env : Environ) (name value : List Char) : Environ :=
  if (getenv env name).isSome then env.kreplace name value else env ++ [⟨name, value⟩]

def unsetenv (env : Environ) (name : List Char) : Environ := env.kerase name

def isNameChar (c : Char) : Bool := isAlnum c || c = '_'

def badName (s : List Char) : Bool := s = [] || '=' ∈ s || s.any fun c => !isNameChar c

def stripQuotes (value : List Char) : List Char :=
  match value with
  | [] => []
  | c :: rest =>
    if isQuote c && decide (rest.getLast? = some c) then rest.dropLast else value

/-- An argument is cut at its first sign. -/
def argName (arg : List Char) : List Char := arg.takeWhile fun c => decide (c ≠ '=')

def argValue (arg : List Char) : List Char := (arg.dropWhile fun c => decide (c ≠ '=')).tail

/-- The loop of `bi_setenv`, which stops at the first argument that is wrong. -/
def biSetenvLoop (env : Environ) : List (List Char) → Environ × Nat
  | [] => (env, 0)
  | arg :: args =>
    if '=' ∉ arg then (env, 1)
    else if badName (argName arg) then (env, 1)
    else biSetenvLoop (setenv env (argName arg) (stripQuotes (argValue arg))) args

def biSetenv (env : Environ) (argv : List (List Char)) : Environ × Nat :=
  if argv.length < 2 then (env, 1) else biSetenvLoop env argv.tail

/-- Nothing is removed if one of the names is wrong. -/
def biUnsetenv (env : Environ) (argv : List (List Char)) : Environ × Nat :=
  if argv.length < 2 then (env, 1)
  else if argv.tail.any badName then (env, 1)
  else (argv.tail.foldl unsetenv env, 0)

/-! ## Looking it up -/

variable {env : Environ} {name name' value : List Char}

/-- No name twice, and no sign in a name. -/
structure Environ.WellFormed (env : Environ) : Prop where
  nodupKeys : env.NodupKeys
  names : ∀ name ∈ env.keys, '=' ∉ name

theorem getenv_setenv (env : Environ) (name value : List Char) :
    getenv (setenv env name value) = Function.update (getenv env) name (some value) := by
  funext name'
  unfold setenv getenv
  by_cases hn : name' = name
  · subst hn
    rw [Function.update_self]
    split_ifs with h
    · exact dlookup_kreplace (List.dlookup_isSome.mp h)
    · rw [List.dlookup_append, Option.not_isSome_iff_eq_none.mp h, Option.none_or, dlookup_cons,
        if_pos rfl]
  · rw [Function.update_of_ne hn]
    split_ifs with h
    · exact dlookup_kreplace_ne hn
    · rw [List.dlookup_append, dlookup_cons, if_neg hn, List.dlookup_nil, Option.or_none]

theorem getenv_unsetenv (hw : env.NodupKeys) (name : List Char) :
    getenv (unsetenv env name) = Function.update (getenv env) name none :=
  funext fun name' => dlookup_kerase_eq_update hw name name'

theorem keys_setenv_subset (env : Environ) (name value : List Char) :
    (setenv env name value).keys ⊆ env.keys ++ [name] := by
  unfold setenv
  split_ifs
  · rw [List.keys_kreplace]
    exact List.subset_append_left _ _
  · rw [List.keys_append]
    exact List.Subset.refl _

theorem nodupKeys_setenv (hw : env.NodupKeys) (name value : List Char) :
    (setenv env name value).NodupKeys := by
  unfold setenv
  split_ifs with h
  · exact (List.kreplace_nodupKeys name value).mpr hw
  · rw [List.NodupKeys, List.keys_append, List.nodup_append]
    refine ⟨hw, List.nodup_singleton _, ?_⟩
    rintro a ha b hb rfl
    obtain rfl : a = name := by simpa using hb
    exact h (List.dlookup_isSome.mpr ha)

/-- The names of an environment are those of another one, or good ones. -/
def NamesFrom (env env' : Environ) : Prop :=
  ∀ name ∈ env'.keys, name ∈ env.keys ∨ badName name = false

theorem NamesFrom.refl (env : Environ) : NamesFrom env env := fun _ h => Or.inl h

theorem NamesFrom.trans {env' env'' : Environ} (h₁ : NamesFrom env env')
    (h₂ : NamesFrom env' env'') : NamesFrom env env'' := by
  intro name hname
  rcases h₂ name hname with h | h
  · exact h₁ name h
  · exact Or.inr h

theorem namesFrom_setenv (env : Environ) (hname : badName name = false) (value : List Char) :
    NamesFrom env (setenv env name value) := by
  intro n hn
  rcases List.mem_append.mp (keys_setenv_subset env name value hn) with h | h
  · exact Or.inl h
  · exact Or.inr (List.mem_singleton.mp h ▸ hname)

theorem biSetenvLoop_kept (hw : env.NodupKeys) (args : List (List Char)) :
    (biSetenvLoop env args).1.NodupKeys ∧ NamesFrom env (biSetenvLoop env args).1 ∧
      ∀ n, n ∉ args.map argName → getenv (biSetenvLoop env args).1 n = getenv env n := by
  induction args generalizing env with
  | nil => exact ⟨hw, .refl env, fun _ _ => rfl⟩
  | cons arg args ih =>
    unfold biSetenvLoop
    split_ifs with hsign hbad
    · exact ⟨hw, .refl env, fun _ _ => rfl⟩
    · obtain ⟨hw', hnames, hsame⟩ := ih (nodupKeys_setenv hw (argName arg) _)
      refine ⟨hw', (namesFrom_setenv env ((Bool.not_eq_true _).mp hbad) _).trans hnames, ?_⟩
      intro n hn
      rw [List.map_cons, List.mem_cons, not_or] at hn
      rw [hsame n hn.2, getenv_setenv, Function.update_of_ne hn.1]
    · exact ⟨hw, .refl env, fun _ _ => rfl⟩

theorem foldl_unsetenv_kept (hw : env.NodupKeys) (names : List (List Char)) :
    (names.foldl unsetenv env).NodupKeys ∧ (names.foldl unsetenv env).keys ⊆ env.keys ∧
      ∀ n, getenv (names.foldl unsetenv env) n = if n ∈ names then none else getenv env n := by
  induction names generalizing env with
  | nil => exact ⟨hw, List.Subset.refl _, fun n => (if_neg List.not_mem_nil).symm⟩
  | cons name names ih =>
    obtain ⟨hw', hkeys, hget⟩ := ih (hw.kerase name)
    refine ⟨hw', List.Subset.trans hkeys (List.kerase_keys_subset _ _), fun n => ?_⟩
    rw [List.foldl_cons]
    refine (hget n).trans ?_
    rw [show env.kerase name = unsetenv env name from rfl, getenv_unsetenv hw]
    by_cases hn : n = name
    · subst hn
      rw [Function.update_self]
      simp
    · rw [Function.update_of_ne hn]
      simp [hn]

end Corestack.Shell
