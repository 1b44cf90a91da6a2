import Mathlib.Data.Char
import Mathlib.Data.List.Lex
import Corestack.Repeats
import Corestack.Shell.Editing
import Corestack.Text.Split

/-! # Completing a word

`tab_complete` looks for what the word before the cursor can be the start of: commands for
the first word of a line, and files for any other. At most 64 of them are held; they are
sorted, and if there is just one the rest of it is inserted.
-/

namespace Corestack.Shell

open Text

/-- A row of `matches`. -/
@[ext] structure Match where
  text : List Char
  isText : '\x00' ∉ text
  length_lt : text.length < 512
  deriving DecidableEq

/-- `strcmp` compares the texts. -/
instance : LinearOrder Match :=
  LinearOrder.lift' Match.text fun _ _ h => Match.ext h

/-- The name of an entry of a directory. -/
structure FileName where
  text : List Char
  isText : '\x00' ∉ text
  length_le : text.length ≤ 255
  deriving DecidableEq

def FileName.row (name : FileName) : Match :=
  ⟨name.text, name.isText, Nat.lt_of_le_of_lt name.length_le (by decide)⟩

/-- What the shell sees of the system. `readdir` gives the entries of a directory that can be
opened, in the order in which they are read. -/
structure Surroundings where
  path : Option (List Char)
  projectBin : List Char
  readdir : List Char → Option (List FileName)
  isDir : List Char → Bool

/-- The names that `builtin.c` exports. -/
def builtins : List FileName :=
  [⟨"exit".toList, by decide, by decide⟩, ⟨"cd".toList, by decide, by decide⟩,
    ⟨"help".toList, by decide, by decide⟩, ⟨"usage".toList, by decide, by decide⟩,
    ⟨"env".toList, by decide, by decide⟩, ⟨"setenv".toList, by decide, by decide⟩,
    ⟨"unsetenv".toList, by decide, by decide⟩, ⟨"alias".toList, by decide, by decide⟩,
    ⟨"unalias".toList, by decide, by decide⟩, ⟨"bins".toList, by decide, by decide⟩]

def isDots (name : FileName) : Bool := name.text = ['.'] || name.text = ['.', '.']

/-- A loop over names that stops when all rows are taken. `pick` makes the row of a name, or skips
it. -/
def collect (pick : List Match → FileName → Option Match) :
    List Match → List FileName → List Match
  | ms, [] => ms
  | ms, name :: names =>
    if ms.length < 64 then
      match pick ms name with
      | none => collect pick ms names
      | some m => collect pick (ms ++ [m]) names
    else ms

def pickBuiltin (token : List Char) (_ : List Match) (name : FileName) : Option Match :=
  if token.isPrefixOf name.text then some name.row else none

/-- What is there already is skipped. -/
def pickExecutable (token : List Char) (ms : List Match) (name : FileName) : Option Match :=
  if token.isPrefixOf name.text && !ms.contains name.row then some name.row else none

def pickBinary (token : List Char) (_ : List Match) (name : FileName) : Option Match :=
  if isDots name then none
  else if token.isPrefixOf name.text then some name.row
  else none

/-- With the directory before it, a name may be too long. No part of a string has its terminator. -/
def pickFile (dirPart basePart : List Char) (_ : List Match) (name : FileName) : Option Match :=
  if isDots name then none
  else if basePart.isPrefixOf name.text then
    if h : '\x00' ∉ dirPart ∧ (dirPart ++ name.text).length < 512 then
      some ⟨dirPart ++ name.text, by simp [h.1, name.isText], h.2⟩
    else none
  else none

/-- The loop over the directories of `PATH`. -/
def addPath (s : Surroundings) (token : List Char) : List Match → List (List Char) → List Match
  | ms, [] => ms
  | ms, dir :: dirs =>
    if ms.length < 64 then
      match s.readdir dir with
      | none => addPath s token ms dirs
      | some names => addPath s token (collect (pickExecutable token) ms names) dirs
    else ms

/-- A word up to its last slash, and what is behind it. -/
def dirPart (token : List Char) : List Char := (token.reverse.dropWhile fun c => c ≠ '/').reverse

def basePart (token : List Char) : List Char := (token.reverse.takeWhile fun c => c ≠ '/').reverse

/-- A word without a slash is looked for in the current directory. -/
def addDirMatches (s : Surroundings) (ms : List Match) (token : List Char) : List Match :=
  match s.readdir (if '/' ∈ token then dirPart token else ['.']) with
  | none => ms
  | some names => collect (pickFile (dirPart token) (basePart token)) ms names

def addPathMatches (s : Surroundings) (ms : List Match) (token : List Char) : List Match :=
  match s.path with
  | none => ms
  | some path => addPath s token ms (words (fun c => c = ':') path)

def addBinMatches (s : Surroundings) (ms : List Match) (token : List Char) : List Match :=
  if ms.length < 64 ∧ s.projectBin ≠ [] then
    match s.readdir s.projectBin with
    | none => ms
    | some names => collect (pickBinary token) ms names
  else ms

/-- The rows, before they are sorted. -/
def found (s : Surroundings) (isFirstWord : Bool) (token : List Char) : List Match :=
  if isFirstWord then
    addBinMatches s (addPathMatches s (collect (pickBuiltin token) [] builtins) token) token
  else addDirMatches s [] token

/-- The rows that are shown. -/
def offered (s : Surroundings) (isFirstWord : Bool) (token : List Char) : List Match :=
  Repeats.dropRepeats ((found s isFirstWord token).mergeSort fun a b => decide (a ≤ b))

/-- The rest of the only match. -/
def theCompletion (s : Surroundings) (token : List Char) : List Match → Option Completion
  | [m] =>
    some
      { text := m.text.drop token.length
        slash := s.isDir m.text
        isText := fun h => m.isText (List.mem_of_mem_drop h)
        length_lt := Nat.lt_of_le_of_lt (List.length_drop ▸ Nat.sub_le _ _) m.length_lt }
  | _ => none

variable {cap : Capacity}

namespace Editor

/-- What `tab_complete` finds for the word before the cursor. It is a first word if there is no
white space before it. -/
def search (s : Surroundings) (e : Editor cap) : Option (Option Completion) := do
  let start ← e.buf.scanLeft (fun c => !isSpace c) e.pos
  let n ← sub e.pos start
  if 512 ≤ n then some none
  else
    let token := cString ((e.buf.cells.drop start).take n)
    let isFirstWord := !(e.buf.cells.take start).any isSpace
    some (theCompletion s token (offered s isFirstWord token))

/-- The `tab` key. -/
def tab (s : Surroundings) (e : Editor cap) : Option (Editor cap) := do
  let completion ← e.search s
  e.tabComplete completion

end Editor

/-! ## What is found -/

/-- The directory has an entry of that name. -/
def Surroundings.Has (s : Surroundings) (dir : List Char) (name : FileName) : Prop :=
  ∃ names, s.readdir dir = some names ∧ name ∈ names

/-- What a word can be the start of. -/
inductive Candidate (s : Surroundings) : Bool → List Char → Match → Prop
  | builtin {token : List Char} {name : FileName} : name ∈ builtins → token <+: name.text →
      Candidate s true token name.row
  | executable {token path dir : List Char} {name : FileName} : s.path = some path →
      dir ∈ words (fun c => c = ':') path → s.Has dir name → token <+: name.text →
      Candidate s true token name.row
  | binary {token : List Char} {name : FileName} : s.projectBin ≠ [] → s.Has s.projectBin name →
      isDots name = false → token <+: name.text → Candidate s true token name.row
  | file {token : List Char} {name : FileName} {m : Match} :
      s.Has (if '/' ∈ token then dirPart token else ['.']) name → isDots name = false →
      basePart token <+: name.text → m.text = dirPart token ++ name.text →
      Candidate s false token m

variable {s : Surroundings} {token : List Char} {ms : List Match} {names : List FileName}
  {m : Match} {first : Bool} {pick : List Match → FileName → Option Match}

theorem prefix_collect (pick : List Match → FileName → Option Match) (ms : List Match)
    (names : List FileName) : ms <+: collect pick ms names := by
  induction names generalizing ms with
  | nil => exact List.prefix_refl _
  | cons name names ih =>
    unfold collect
    split_ifs
    · cases pick ms name with
      | none => exact ih ms
      | some m => exact (List.prefix_append ms [m]).trans (ih (ms ++ [m]))
    · exact List.prefix_refl _

theorem mem_of_mem_collect (h : m ∈ collect pick ms names) :
    m ∈ ms ∨ ∃ name ∈ names, ∃ ms', pick ms' name = some m := by
  induction names generalizing ms with
  | nil => exact Or.inl h
  | cons name names ih =>
    unfold collect at h
    split_ifs at h
    · cases hpick : pick ms name with
      | none =>
        rw [hpick] at h
        rcases ih h with hold | ⟨name', hmem, hnew⟩
        · exact Or.inl hold
        · exact Or.inr ⟨name', List.mem_cons_of_mem _ hmem, hnew⟩
      | some m' =>
        rw [hpick] at h
        rcases ih h with hold | ⟨name', hmem, hnew⟩
        · rcases List.mem_append.mp hold with hold | hm
          · exact Or.inl hold
          · obtain rfl := List.mem_singleton.mp hm
            exact Or.inr ⟨name, List.mem_cons_self, ms, hpick⟩
        · exact Or.inr ⟨name', List.mem_cons_of_mem _ hmem, hnew⟩
    · exact Or.inl h

/-- Unless the rows run out, a name that is not skipped has its row. -/
theorem mem_collect (hlen : (collect pick ms names).length < 64) {name : FileName}
    (hmem : name ∈ names) (hpick : ∀ ms', pick ms' name = some m ∨ m ∈ ms') :
    m ∈ collect pick ms names := by
  induction names generalizing ms with
  | nil => cases hmem
  | cons name' names ih =>
    unfold collect at hlen ⊢
    split_ifs at hlen ⊢ with hroom
    · rcases List.mem_cons.mp hmem with rfl | hmem
      · rcases hpick ms with hsome | hold
        · rw [hsome]
          exact (prefix_collect pick _ names).subset (by simp)
        · cases pick ms name with
          | none => exact (prefix_collect pick ms names).subset hold
          | some m' =>
            exact (prefix_collect pick _ names).subset (List.mem_append_left [m'] hold)
      · cases hp : pick ms name' with
        | none =>
          rw [hp] at hlen
          exact ih hlen hmem
        | some m' =>
          rw [hp] at hlen
          exact ih hlen hmem
    · exact absurd hlen hroom

theorem prefix_addPath (s : Surroundings) (token : List Char) (ms : List Match)
    (dirs : List (List Char)) : ms <+: addPath s token ms dirs := by
  induction dirs generalizing ms with
  | nil => exact List.prefix_refl _
  | cons dir dirs ih =>
    unfold addPath
    split_ifs
    · cases s.readdir dir with
      | none => exact ih ms
      | some names => exact (prefix_collect _ ms names).trans (ih _)
    · exact List.prefix_refl _

theorem pickExecutable_some {name : FileName} (h : pickExecutable token ms name = some m) :
    token <+: name.text ∧ m = name.row := by
  unfold pickExecutable at h
  split_ifs at h with hp
  obtain rfl := Option.some.inj h
  rw [Bool.and_eq_true, List.isPrefixOf_iff_prefix] at hp
  exact ⟨hp.1, rfl⟩

theorem pickExecutable_or {name : FileName} (hp : token <+: name.text) (ms' : List Match) :
    pickExecutable token ms' name = some name.row ∨ name.row ∈ ms' := by
  by_cases hmem : name.row ∈ ms'
  · exact Or.inr hmem
  · refine Or.inl (if_pos ?_)
    rw [Bool.and_eq_true, List.isPrefixOf_iff_prefix]
    exact ⟨hp, by simpa using hmem⟩

theorem mem_of_mem_addPath {dirs : List (List Char)} (h : m ∈ addPath s token ms dirs) :
    m ∈ ms ∨ ∃ dir ∈ dirs, ∃ name, s.Has dir name ∧ token <+: name.text ∧ m = name.row := by
  induction dirs generalizing ms with
  | nil => exact Or.inl h
  | cons dir dirs ih =>
    unfold addPath at h
    split_ifs at h
    · cases hdir : s.readdir dir with
      | none =>
        rw [hdir] at h
        rcases ih h with hold | ⟨dir', hmem, hnew⟩
        · exact Or.inl hold
        · exact Or.inr ⟨dir', List.mem_cons_of_mem _ hmem, hnew⟩
      | some names =>
        rw [hdir] at h
        rcases ih h with hold | ⟨dir', hmem, hnew⟩
        · rcases mem_of_mem_collect hold with hold | ⟨name, hname, ms', hpick⟩
          · exact Or.inl hold
          · exact Or.inr ⟨dir, List.mem_cons_self, name, ⟨names, hdir, hname⟩,
              pickExecutable_some hpick⟩
        · exact Or.inr ⟨dir', List.mem_cons_of_mem _ hmem, hnew⟩
    · exact Or.inl h

theorem mem_addPath {dirs : List (List Char)} (hlen : (addPath s token ms dirs).length < 64)
    {dir : List Char} {name : FileName} (hmem : dir ∈ dirs) (hhas : s.Has dir name)
    (hp : token <+: name.text) : name.row ∈ addPath s token ms dirs := by
  induction dirs generalizing ms with
  | nil => cases hmem
  | cons dir' dirs ih =>
    unfold addPath at hlen ⊢
    split_ifs at hlen ⊢ with hroom
    · rcases List.mem_cons.mp hmem with rfl | hmem
      · obtain ⟨names, hdir, hname⟩ := hhas
        rw [hdir] at hlen ⊢
        have hpre := prefix_addPath s token (collect (pickExecutable token) ms names) dirs
        have hlen' := Nat.lt_of_le_of_lt hpre.length_le hlen
        exact hpre.subset (mem_collect hlen' hname (pickExecutable_or hp))
      · cases hdir : s.readdir dir' with
        | none =>
          rw [hdir] at hlen
          exact ih hlen hmem
        | some names =>
          rw [hdir] at hlen
          exact ih hlen hmem
    · exact absurd hlen hroom

/-- A word is put together from its two parts. -/
theorem dirPart_append_basePart (token : List Char) : dirPart token ++ basePart token = token := by
  rw [dirPart, basePart, ← List.reverse_append, List.takeWhile_append_dropWhile,
    List.reverse_reverse]

theorem pickBuiltin_iff {name : FileName} :
    pickBuiltin token ms name = some m ↔ token <+: name.text ∧ name.row = m := by
  unfold pickBuiltin
  rw [← List.isPrefixOf_iff_prefix]
  split_ifs with hp <;> simp [hp]

theorem pickBinary_iff {name : FileName} :
    pickBinary token ms name = some m ↔
      isDots name = false ∧ token <+: name.text ∧ name.row = m := by
  unfold pickBinary
  rw [← List.isPrefixOf_iff_prefix]
  split_ifs with hdots hp
  · simp [hdots]
  · simp [hdots, hp]
  · simp [hdots, hp]

theorem pickFile_iff {dir base : List Char} {name : FileName} :
    pickFile dir base ms name = some m ↔
      isDots name = false ∧ base <+: name.text ∧ m.text = dir ++ name.text := by
  unfold pickFile
  rw [← List.isPrefixOf_iff_prefix]
  split_ifs with hdots hbase hfits
  · simp [hdots]
  · constructor
    · intro h
      obtain rfl := Option.some.inj h
      exact ⟨Bool.eq_false_iff.mpr hdots, hbase, rfl⟩
    · rintro ⟨-, -, htext⟩
      exact congrArg some (Match.ext htext.symm)
  · constructor
    · exact fun h => nomatch h
    · rintro ⟨-, -, htext⟩
      refine absurd ⟨fun hnul => m.isText ?_, htext ▸ m.length_lt⟩ hfits
      rw [htext]
      exact List.mem_append_left _ hnul
  · simp [hbase]

theorem prefix_addPathMatches (s : Surroundings) (ms : List Match) (token : List Char) :
    ms <+: addPathMatches s ms token := by
  unfold addPathMatches
  cases s.path with
  | none => exact List.prefix_refl _
  | some path => exact prefix_addPath s token ms _

theorem prefix_addBinMatches (s : Surroundings) (ms : List Match) (token : List Char) :
    ms <+: addBinMatches s ms token := by
  unfold addBinMatches
  split_ifs
  · cases s.readdir s.projectBin with
    | none => exact List.prefix_refl _
    | some names => exact prefix_collect _ ms names
  · exact List.prefix_refl _

/-- Nothing is found that the word is not the start of. -/
theorem candidate_of_mem_found (h : m ∈ found s first token) : Candidate s first token m := by
  cases first with
  | false =>
    simp only [found, Bool.false_eq_true, if_false, addDirMatches] at h
    cases hdir : s.readdir (if '/' ∈ token then dirPart token else ['.']) with
    | none => simp [hdir] at h
    | some names =>
      rw [hdir] at h
      rcases mem_of_mem_collect h with hold | ⟨name, hname, ms', hpick⟩
      · cases hold
      · obtain ⟨hdots, hbase, htext⟩ := pickFile_iff.mp hpick
        exact .file ⟨names, hdir, hname⟩ hdots hbase htext
  | true =>
    have hbuiltin : ∀ m ∈ collect (pickBuiltin token) [] builtins, Candidate s true token m := by
      intro m hm
      rcases mem_of_mem_collect hm with hold | ⟨name, hname, ms', hpick⟩
      · cases hold
      · obtain ⟨hp, rfl⟩ := pickBuiltin_iff.mp hpick
        exact .builtin hname hp
    have hpath : ∀ m ∈ addPathMatches s (collect (pickBuiltin token) [] builtins) token,
        Candidate s true token m := by
      intro m hm
      unfold addPathMatches at hm
      cases hpath : s.path with
      | none =>
        rw [hpath] at hm
        exact hbuiltin m hm
      | some path =>
        rw [hpath] at hm
        rcases mem_of_mem_addPath hm with hold | ⟨dir, hdir, name, hhas, hp, rfl⟩
        · exact hbuiltin m hold
        · exact .executable hpath hdir hhas hp
    simp only [found, if_true, addBinMatches] at h
    split_ifs at h with hbin
    · cases hdir : s.readdir s.projectBin with
      | none =>
        simp only [hdir] at h
        exact hpath m h
      | some names =>
        simp only [hdir] at h
        rcases mem_of_mem_collect h with hold | ⟨name, hname, ms', hpick⟩
        · exact hpath m hold
        · obtain ⟨hdots, hp, rfl⟩ := pickBinary_iff.mp hpick
          exact .binary hbin.2 ⟨names, hdir, hname⟩ hdots hp
    · exact hpath m h

/-- All of that is found, unless the rows run out. -/
theorem mem_found_of_candidate (hlen : (found s first token).length < 64)
    (h : Candidate s first token m) : m ∈ found s first token := by
  cases h with
  | file hhas hdots hbase htext =>
    obtain ⟨names, hdir, hname⟩ := hhas
    simp only [found, Bool.false_eq_true, if_false, addDirMatches, hdir] at hlen ⊢
    exact mem_collect hlen hname fun ms' => Or.inl (pickFile_iff.mpr ⟨hdots, hbase, htext⟩)
  | builtin hname hp =>
    have hpre := (prefix_addPathMatches s (collect (pickBuiltin token) [] builtins) token).trans
      (prefix_addBinMatches s _ token)
    have hlen' := Nat.lt_of_le_of_lt hpre.length_le hlen
    exact hpre.subset (mem_collect hlen' hname fun ms' => Or.inl (pickBuiltin_iff.mpr ⟨hp, rfl⟩))
  | executable hpath hdir hhas hp =>
    have hpre := prefix_addBinMatches s
      (addPathMatches s (collect (pickBuiltin token) [] builtins) token) token
    have hlen' := Nat.lt_of_le_of_lt hpre.length_le hlen
    refine hpre.subset ?_
    simp only [addPathMatches, hpath] at hlen' ⊢
    exact mem_addPath hlen' hdir hhas hp
  | binary hbin hhas hdots hp =>
    obtain ⟨names, hdir, hname⟩ := hhas
    have hpre := prefix_addBinMatches s
      (addPathMatches s (collect (pickBuiltin token) [] builtins) token) token
    have hroom := Nat.lt_of_le_of_lt hpre.length_le hlen
    simp only [found, if_true, addBinMatches] at hlen ⊢
    rw [if_pos ⟨hroom, hbin⟩, hdir] at hlen ⊢
    exact mem_collect hlen hname fun ms' => Or.inl (pickBinary_iff.mpr ⟨hdots, hp, rfl⟩)

/-- What is shown is in order and without repeats; the word before the cursor is the start of all
of it, and nothing else that it is the start of and that fits a row is left out unless the rows have
run out. -/
theorem offered_candidates (s : Surroundings) (first : Bool) (token : List Char) :
    (offered s first token).Pairwise (· < ·) ∧
      (∀ m ∈ offered s first token, Candidate s first token m) ∧
      ((found s first token).length < 64 →
        ∀ m, Candidate s first token m → m ∈ offered s first token) := by
  have hsorted : ((found s first token).mergeSort fun a b => decide (a ≤ b)).Pairwise (· ≤ ·) := by
    have htrans : ∀ a b c : Match, decide (a ≤ b) = true → decide (b ≤ c) = true →
        decide (a ≤ c) = true := by
      simpa using fun a b c => le_trans
    have htotal : ∀ a b : Match, (decide (a ≤ b) || decide (b ≤ a)) = true := by
      simpa using le_total
    simpa using List.pairwise_mergeSort htrans htotal (found s first token)
  obtain ⟨hlt, hmem⟩ := Repeats.dropRepeats_sorted hsorted
  have hiff : ∀ m, m ∈ offered s first token ↔ m ∈ found s first token :=
    fun m => (hmem m).trans List.mem_mergeSort
  refine ⟨hlt, ?_, ?_⟩
  · exact fun m hm => candidate_of_mem_found ((hiff m).mp hm)
  · exact fun hlen m hm => (hiff m).mpr (mem_found_of_candidate hlen hm)

/-- The word is the start of the whole row. -/
theorem Candidate.prefix_text (h : Candidate s first token m) : token <+: m.text := by
  cases h with
  | builtin _ hp => exact hp
  | executable _ _ _ hp => exact hp
  | binary _ _ _ hp => exact hp
  | file _ _ hbase htext =>
    obtain ⟨rest, hrest⟩ := hbase
    refine ⟨rest, ?_⟩
    rw [htext, ← hrest, ← List.append_assoc, dirPart_append_basePart]

/-! ## The word before the cursor -/

/-- The word before the cursor, and what is before that. -/
def wordBefore (z : Zipper Char) : List Char := (z.before.takeWhile fun c => !isSpace c).reverse

def beforeWord (z : Zipper Char) : List Char := z.before.dropWhile fun c => !isSpace c

/-- The only match takes the place of the word, if there is room for it. -/
def completed (s : Surroundings) (cap : Capacity) (z : Zipper Char) : Zipper Char :=
  if 512 ≤ (wordBefore z).length then z
  else
    match offered s (beforeWord z).isEmpty (wordBefore z) with
    | [m] =>
      let name := m.text ++ if s.isDir m.text then ['/'] else []
      if (beforeWord z).length + name.length + z.after.length ≤ cap.val - 1 then
        ⟨name.reverse ++ beforeWord z, z.after⟩
      else z
    | _ => z

variable {e : Editor cap} {z : Zipper Char}

theorem before_eq (z : Zipper Char) : z.before = (wordBefore z).reverse ++ beforeWord z := by
  rw [wordBefore, List.reverse_reverse, beforeWord, List.takeWhile_append_dropWhile]

/-- There is a blank before the word, if there is anything. -/
theorem any_beforeWord (z : Zipper Char) :
    (!(beforeWord z).reverse.any isSpace) = (beforeWord z).isEmpty := by
  rw [beforeWord]
  cases hw : z.before.dropWhile fun c => !isSpace c with
  | nil => rfl
  | cons c rest =>
    have hc : isSpace c = true := by
      have h := List.head?_dropWhile_not (fun c => !isSpace c) z.before
      rw [hw] at h
      simpa using h
    simp [hc]

theorem Shows.search (hs : Shows e z) (s : Surroundings) :
    e.search s = some (if 512 ≤ (wordBefore z).length then none
      else theCompletion s (wordBefore z)
        (offered s (beforeWord z).isEmpty (wordBefore z))) := by
  obtain ⟨⟨junk, hcells⟩, hpos, -, -, htext⟩ := hs
  have hscan : e.buf.scanLeft (fun c => !isSpace c) z.before.length =
      some (beforeWord z).length := Memory.scanLeft_eq hcells
  have hlen : z.before.length = (beforeWord z).length + (wordBefore z).length := by
    conv_lhs => rw [before_eq z]
    rw [List.length_append, List.length_reverse, Nat.add_comm]
  have hcells' : e.buf.cells = (beforeWord z).reverse ++ (wordBefore z ++ (z.after ++ junk)) := by
    rw [hcells, before_eq z, List.reverse_append, List.reverse_reverse, List.append_assoc]
  have htake : e.buf.cells.take (beforeWord z).length = (beforeWord z).reverse := by
    rw [hcells']
    exact List.take_left' List.length_reverse
  have htoken : (e.buf.cells.drop (beforeWord z).length).take (wordBefore z).length =
      wordBefore z := by
    rw [hcells', List.drop_left' List.length_reverse, List.take_left]
  have hnul : '\x00' ∉ wordBefore z := by
    intro h
    apply htext
    rw [Zipper.text, before_eq z]
    simp [h]
  unfold Editor.search
  simp only [Option.bind_eq_bind]
  rw [hpos, hscan, Option.bind_some, hlen, sub_add, Option.bind_some, htake, htoken,
    cString_of_not_mem hnul, any_beforeWord]
  split_ifs <;> rfl

/-- The `tab` key completes the word before the cursor if just one name was found for it and there
is room, with a slash behind a directory, and else leaves the line alone. -/
theorem tab_completes (s : Surroundings) (e : Editor cap) (z : Zipper Char) (hs : Shows e z) :
    ∃ e', e.tab s = some e' ∧ e'.hist = e.hist ∧ Shows e' (completed s cap z) := by
  have hsame : e.tabComplete none = some e := rfl
  unfold Editor.tab completed
  rw [hs.search s, Option.bind_eq_bind, Option.bind_some]
  split_ifs with hlong
  · exact ⟨e, hsame, rfl, hs⟩
  · obtain ⟨-, hcand, -⟩ := offered_candidates s (beforeWord z).isEmpty (wordBefore z)
    rcases hms : offered s (beforeWord z).isEmpty (wordBefore z) with _ | ⟨m, _ | ⟨m', ms⟩⟩
    · exact ⟨e, hsame, rfl, hs⟩
    · obtain ⟨rest, hrest⟩ := (hcand m (by rw [hms]; exact List.mem_singleton_self m)).prefix_text
      obtain ⟨completion, hcompletion⟩ :
          ∃ c, theCompletion s (wordBefore z) [m] = some c := ⟨_, rfl⟩
      have hinserted : completion.inserted = rest ++ if s.isDir m.text then ['/'] else [] := by
        obtain rfl := Option.some.inj hcompletion
        have hdrop : m.text.drop (wordBefore z).length = rest := by
          rw [← hrest, List.drop_left]
        exact congrArg (· ++ if s.isDir m.text then ['/'] else []) hdrop
      obtain ⟨e', hcomplete, hs', hhist⟩ := hs.complete completion
      refine ⟨e', ?_, hhist, ?_⟩
      · rw [hcompletion]
        exact hcomplete
      · have hlen : z.text.length + completion.inserted.length = (beforeWord z).length +
            (m.text ++ if s.isDir m.text then ['/'] else []).length + z.after.length := by
          rw [Zipper.length_text, hinserted, ← hrest]
          conv_lhs => rw [before_eq z]
          simp only [List.length_append, List.length_reverse]
          omega
        have hzip : z.insert completion.inserted =
            ⟨(m.text ++ if s.isDir m.text then ['/'] else []).reverse ++ beforeWord z,
              z.after⟩ := by
          rw [Zipper.insert, hinserted]
          conv_lhs => rw [before_eq z]
          rw [← hrest]
          simp only [List.reverse_append, List.append_assoc]
        rw [hlen, hzip] at hs'
        exact hs'
    · exact ⟨e, hsame, rfl, hs⟩

/-- No directory can be opened. -/
def Surroundings.bare : Surroundings := ⟨none, [], fun _ => none, fun _ => false⟩

/-- `he` is the start of `help`. -/
theorem tab_completes_help :
    let e : Editor ⟨8, by decide, by decide⟩ :=
      ⟨⟨['h', 'e', '\x00', ' ', ' ', ' ', ' ', ' '], rfl⟩, 2, 2, Hist.init⟩
    ∃ e', e.tab .bare = some e' ∧ e'.hist = Hist.init ∧ Shows e' (Zipper.ofText "help".toList) := by
  intro e
  have hs : Shows e ⟨['e', 'h'], []⟩ := by
    refine ⟨⟨['\x00', ' ', ' ', ' ', ' ', ' '], rfl⟩, rfl, rfl, by decide, by decide⟩
  have hfound : found .bare true ['h', 'e'] =
      [⟨['h', 'e', 'l', 'p'], by decide, by decide⟩] := by decide +kernel
  have hoffered : offered .bare true ['h', 'e'] =
      [⟨['h', 'e', 'l', 'p'], by decide, by decide⟩] := by
    rw [offered, hfound, List.mergeSort_singleton, Repeats.dropRepeats_eq]
    rfl
  have hline : completed .bare ⟨8, by decide, by decide⟩ ⟨['e', 'h'], []⟩ =
      Zipper.ofText "help".toList := by
    have hword : wordBefore ⟨['e', 'h'], []⟩ = ['h', 'e'] := by decide
    have hrest : beforeWord ⟨['e', 'h'], []⟩ = [] := by decide
    simp only [completed, hword, hrest, List.isEmpty_nil, hoffered]
    rfl
  obtain ⟨e', htab, hhist, hs'⟩ := tab_completes .bare e _ hs
  exact ⟨e', htab, hhist, hline ▸ hs'⟩

end Corestack.Shell
