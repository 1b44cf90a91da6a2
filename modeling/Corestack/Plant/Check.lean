import Corestack.Plant.Deaths

/-! # One register for four programs

`dplant` and `dspawn` add lines to the register and `dkill` empties it; `dplant`, `dkill`
and `dcheck` read it, with other buffers and other widths each. They see the same lines,
and the names on them differ as long as no plant has a name that `dspawn` could give. The
names of plants have 1 to 63 characters: `dplant` and `dkill` read no more of a name, and
one of 128 does not fit the array of `dcheck`.
-/

namespace Corestack.Plant

open Text

/-! ## The programs -/

namespace Dspawn

/-- What `snprintf` leaves in `modified_name`. -/
def modifiedName (name : List Char) (count : Nat) : List Char :=
  if count = 0 then name.take 63 else (name ++ '.' :: decimal count).take 63

/-- Lines of the name are counted in the register as `add_to_graveyard` counts them. -/
def daemonRegister (reg name : List Char) (pid : Pid) (ts : Timestamp) : List Char :=
  reg ++ graveLine (modifiedName name (graveCount reg name)) pid ts

/-- The name that `main` passes on. -/
def mainName : List Char := "dspawnowo".toList

end Dspawn

namespace Dcheck

/-- `sscanf` with `%s %d %[^\n]`, if the arrays of 128 characters have room for what it reads. A
line that does not match is skipped. -/
def scanRow (line : List Char) : Option (Option Entry) :=
  let s := cString line
  match scanWord s.length s with
  | none => some none
  | some (name, s) =>
    if 128 ≤ name.length then none
    else
      match scanNumber s with
      | none => some none
      | some (neg, m, s) =>
        match scanLine s.length (s.dropWhile isSpace) with
        | none => some none
        | some (ts, _) =>
          if 128 ≤ ts.length then none else some (some ⟨name, (strtol neg m).bmod (2 ^ 32), ts⟩)

/-- The loop over the lines. -/
def scanRows : List (List Char) → Option (List Entry)
  | [] => some []
  | line :: lines =>
    match scanRow line with
    | none => none
    | some none => scanRows lines
    | some (some e) => (scanRows lines).map (e :: ·)

/-- A line of the output: whether the process is there, and what the register says. -/
structure Row where
  check : Bool
  entry : Entry
  deriving DecidableEq

/-- The rows, and the number of active daemons. -/
def dcheck (alive : Int → Bool) (reg : List Char) : Option (List Row × Nat) :=
  (scanRows (fgets 1023 reg)).map fun es =>
    (es.map fun e => ⟨alive e.pid, e⟩, es.countP fun e => alive e.pid)

/-- The graves, and their number. -/
def dcheckGraveyard (cematary : List Char) : Option (List Entry × Nat) :=
  (scanRows (fgets 1023 cematary)).map fun es => (es, es.length)

end Dcheck

/-! ## Reading lines -/

variable {w : List Char} {conv : IntConversion} {f : Farm} {rs : List Record} {gs : List Grave}
  {c : Chore}

/-- What was written of a word is read back, whoever wrote it. -/
theorem scanRow_graveLine (hw : IsWord w) (hne : w ≠ []) (hlen : w.length ≤ 127) (pid : Pid)
    (ts : Timestamp) :
    Dcheck.scanRow (graveLine w pid ts) = some (some ⟨w, pid.val, ts.text⟩) := by
  set rest := signedDecimal pid.val ++ ' ' :: (ts.text ++ ['\n']) with hrest
  have hwidth : w.length ≤ (graveLine w pid ts).length := by simp [graveLine]
  have hword : scanWord (graveLine w pid ts).length (graveLine w pid ts) =
      some (w, ' ' :: rest) :=
    scanWord_append (fun c hc => (hw c hc).1) hne hwidth (show isSpace ' ' = true from rfl) rest
  have hpid : scanNumber (' ' :: rest) =
      some (false, pid.val.natAbs, ' ' :: (ts.text ++ ['\n'])) := by
    rw [hrest, pid.signedDecimal_val]
    exact scanNumber_blank ((endsNumber_cons _ _).mpr rfl)
  have hskip : (' ' :: (ts.text ++ ['\n'])).dropWhile isSpace = ts.text ++ ['\n'] := by
    obtain ⟨c, s, hs⟩ := List.exists_cons_of_ne_nil ts.ne_nil
    have hc : isSpace c = false := ts.starts c (by simp [hs])
    have hblank : (' ' :: (ts.text ++ ['\n'])).dropWhile isSpace =
        (ts.text ++ ['\n']).dropWhile isSpace := rfl
    rw [hblank, hs, List.cons_append, List.dropWhile_cons_of_neg (by simp [hc])]
  have hline : scanLine (' ' :: (ts.text ++ ['\n'])).length (ts.text ++ ['\n']) =
      some (ts.text, ['\n']) := by
    apply scanLine_append (fun h => (ts.isText _ h).1 rfl) ts.ne_nil
    simp
    omega
  unfold Dcheck.scanRow
  rw [cString_graveLine hw]
  simp only [hword, hpid, hskip, hline, pid.bmod_strtol]
  rw [if_neg (by omega), if_neg (by have := ts.length_le; omega)]

theorem text_injective : Function.Injective PlantName.text := fun _ _ h => PlantName.ext h

theorem Record.line_eq (r : Record) : r.line = graveLine r.daemon.name.text r.daemon.pid r.ts := rfl

theorem scanRows_records (rs : List Record) :
    Dcheck.scanRows (fgets 1023 (rs.flatMap Record.line)) = some (rs.map Record.entry) := by
  induction rs with
  | nil => rfl
  | cons r rs ih =>
    have hlen := r.daemon.name.length_le
    rw [List.flatMap_cons, r.line_eq, fgets_graveLine r.daemon.name.isWord (by omega),
      Dcheck.scanRows, scanRow_graveLine r.daemon.name.isWord r.named (by omega)]
    simp only [ih]
    rfl

theorem scanRows_graves (gs : List Grave) (hne : ∀ g ∈ gs, g.name.text ≠ []) :
    Dcheck.scanRows (fgets 1023 (gs.flatMap Grave.line)) =
      some (gs.map fun g => ⟨g.epitaph, g.pid.val, g.ts.text⟩) := by
  rw [fgets_graves]
  induction gs with
  | nil => rfl
  | cons g gs ih =>
    obtain ⟨hg, hgs⟩ := List.forall_mem_cons.mp hne
    have hnamed : g.epitaph ≠ [] := by
      intro h
      unfold Grave.epitaph modifiedName at h
      split_ifs at h
      · rcases List.take_eq_nil_iff.mp h with h | h
        · cases h
        · exact hg h
      · rcases List.take_eq_nil_iff.mp h with h | h
        · cases h
        · exact List.append_ne_nil_of_right_ne_nil _ (List.cons_ne_nil _ _) h
    rw [List.map_cons, Dcheck.scanRows, Grave.line,
      scanRow_graveLine g.isWord_epitaph hnamed (length_modifiedName_le _ _)]
    simp only [ih hgs]
    rfl

/-! ## The lines that are written -/

/-- What is done to the register. -/
inductive Registration
  | plant (d : Daemon) (ts : Timestamp) (named : d.name.text ≠ [])
  | spawn (pid : Pid) (ts : Timestamp)
  | emptied

def Registration.write (reg : List Char) : Registration → List Char
  | plant d ts _ => daemonRegister reg d ts
  | spawn pid ts => Dspawn.daemonRegister reg Dspawn.mainName pid ts
  | emptied => []

theorem isWord_mainName : IsWord Dspawn.mainName := by
  intro c hc
  have hall : Dspawn.mainName.all (fun c => !isSpace c && c != '\x00') = true := by decide
  simpa using List.all_eq_true.mp hall c hc

theorem isWord_modified (count : Nat) : IsWord (Dspawn.modifiedName Dspawn.mainName count) := by
  intro c hc
  unfold Dspawn.modifiedName at hc
  split_ifs at hc
  · exact isWord_mainName c (List.mem_of_mem_take hc)
  · exact isWord_suffix isWord_mainName count c (List.mem_of_mem_take hc)

theorem length_modified_le (count : Nat) :
    (Dspawn.modifiedName Dspawn.mainName count).length ≤ 63 := by
  unfold Dspawn.modifiedName
  split_ifs
  · exact List.length_take_le _ _
  · exact List.length_take_le _ _

/-- The name that a process of `dspawn` gets when so many lines are counted. -/
def spawnedName (count : Nat) : PlantName :=
  ⟨Dspawn.modifiedName Dspawn.mainName count, isWord_modified count, length_modified_le count⟩

theorem spawnedName_ne_nil (count : Nat) : (spawnedName count).text ≠ [] := by
  intro h
  change Dspawn.modifiedName Dspawn.mainName count = [] at h
  unfold Dspawn.modifiedName at h
  split_ifs at h
  · cases h
  · rcases List.take_eq_nil_iff.mp h with h | h
    · cases h
    · cases h

/-- The names that `dspawn` counts. -/
def Spawned (name : PlantName) : Prop :=
  name.text = Dspawn.mainName ∨ Dspawn.mainName ++ ['.'] <+: name.text

instance : DecidablePred Spawned := fun name => by
  unfold Spawned
  infer_instance

/-- What the register then has on its lines. -/
def Registration.record (rs : List Record) : Registration → List Record
  | plant d ts named => if ∃ r ∈ rs, r.daemon.name = d.name then rs else rs ++ [⟨d, ts, named⟩]
  | spawn pid ts =>
    rs ++ [⟨⟨spawnedName (rs.countP fun r => Spawned r.daemon.name), pid⟩, ts,
      spawnedName_ne_nil _⟩]
  | emptied => []

/-- The register after what was done to it, from an empty one. -/
def register (es : List Registration) : List Char := es.foldl Registration.write []

def table (es : List Registration) : List Record := es.foldl Registration.record []

theorem fgets_records (rs : List Record) :
    fgets 1023 (rs.flatMap Record.line) = rs.map Record.line := by
  induction rs with
  | nil => rfl
  | cons r rs ih =>
    rw [List.flatMap_cons, List.map_cons, ← ih]
    exact fgets_entryLine (by decide) r.daemon r.ts _

theorem graveCount_records (rs : List Record) :
    graveCount (rs.flatMap Record.line) Dspawn.mainName =
      rs.countP fun r => Spawned r.daemon.name := by
  rw [graveCount, fgets_records, List.countP_map]
  apply List.countP_congr
  intro r _
  rw [Function.comp_apply, r.line_eq, cString_graveLine r.daemon.name.isWord,
    decide_eq_true_eq]
  exact isGrave_append isWord_mainName r.daemon.name.isWord _

theorem Registration.write_records (e : Registration) (rs : List Record) :
    e.write (rs.flatMap Record.line) = (e.record rs).flatMap Record.line := by
  cases e with
  | plant d ts named =>
    have hreg : isDaemonRegistered (rs.flatMap Record.line) d.name = true ↔
        ∃ r ∈ rs, r.daemon.name = d.name := by
      rw [isDaemonRegistered_iff, entries_records]
      simp [Record.entry, PlantName.ext_iff]
    simp only [write, record, daemonRegister, hreg]
    split_ifs
    · rfl
    · simp [Record.line]
  | spawn pid ts =>
    simp only [write, record, Dspawn.daemonRegister, graveCount_records]
    simp [Record.line_eq, spawnedName]
  | emptied => rfl

theorem register_eq (es : List Registration) : register es = (table es).flatMap Record.line := by
  induction es using List.reverseRecOn with
  | nil => rfl
  | append_singleton es e ih =>
    unfold register table at ih ⊢
    rw [List.foldl_append, List.foldl_append, ih]
    exact e.write_records _

/-- Whatever is done to the register, for plants with names of 1 to 63 characters, the three
programs that read it see the lines of one table, and no line is too long for `dcheck`. -/
theorem readers_agree (es : List Registration) (alive : Int → Bool) :
    entries (register es) = (table es).map Record.entry ∧
      registered (register es) = (table es).map Record.entry ∧
      Dcheck.dcheck alive (register es) =
        some ((table es).map fun r => ⟨alive r.daemon.pid.val, r.entry⟩,
          (table es).countP fun r => alive r.daemon.pid.val) := by
  rw [register_eq]
  refine ⟨entries_records _, registered_records _, ?_⟩
  rw [Dcheck.dcheck, scanRows_records, Option.map_some, List.map_map, List.countP_map]
  rfl

/-! ## Names -/

/-- The name of the plant is none that `dspawn` counts. -/
def Registration.Free : Registration → Prop
  | plant d _ _ => ¬ Spawned d.name
  | _ => True

theorem spawnedName_text {n : Nat} (hn : n < 2 ^ 31) :
    (spawnedName n).text =
      if n = 0 then Dspawn.mainName else Dspawn.mainName ++ '.' :: decimal n := by
  have hlen : (decimal n).length ≤ 10 := length_decimal_le (by decide) (by omega)
  have hmain : Dspawn.mainName.length = 9 := rfl
  change Dspawn.modifiedName Dspawn.mainName n = _
  unfold Dspawn.modifiedName
  split_ifs
  · rfl
  · apply List.take_of_length_le
    simp only [List.length_append, List.length_cons]
    omega

theorem spawned_spawnedName {n : Nat} (hn : n < 2 ^ 31) : Spawned (spawnedName n) := by
  unfold Spawned
  rw [spawnedName_text hn]
  split_ifs
  · exact Or.inl rfl
  · exact Or.inr ⟨decimal n, by simp⟩

theorem spawnedName_inj {m n : Nat} (hm : m < 2 ^ 31) (hn : n < 2 ^ 31)
    (h : spawnedName m = spawnedName n) : m = n := by
  have hlen : ∀ k, Dspawn.mainName ≠ Dspawn.mainName ++ '.' :: decimal k := by
    intro k heq
    have hlen := congrArg List.length heq
    simp at hlen
  have htext := congrArg PlantName.text h
  rw [spawnedName_text hm, spawnedName_text hn] at htext
  split_ifs at htext with hm0 hn0 hn0
  · exact hm0.trans hn0.symm
  · exact absurd htext (hlen n)
  · exact absurd htext.symm (hlen m)
  · exact (suffix_inj htext).2

/-- No two lines have one name, and `dspawn` has given each of its numbers once. -/
structure Distinct (rs : List Record) : Prop where
  nodup : (rs.map fun r => r.daemon.name).Nodup
  numbered : ∀ r ∈ rs, Spawned r.daemon.name →
    ∃ k < rs.countP fun r => Spawned r.daemon.name, r.daemon.name = spawnedName k

theorem nodup_names_concat {r : Record} (hn : (rs.map fun r => r.daemon.name).Nodup)
    (hnew : r.daemon.name ∉ rs.map (·.daemon.name)) :
    ((rs ++ [r]).map fun r => r.daemon.name).Nodup := by
  rw [List.map_append, List.map_singleton, ← List.concat_eq_append]
  exact hn.concat hnew

theorem Distinct.add (hd : Distinct rs) {r : Record} (hnew : r.daemon.name ∉ rs.map (·.daemon.name))
    (hk : Spawned r.daemon.name →
      r.daemon.name = spawnedName (rs.countP fun r => Spawned r.daemon.name)) :
    Distinct (rs ++ [r]) := by
  constructor
  · exact nodup_names_concat hd.nodup hnew
  · intro r' hm hs
    rw [List.countP_append]
    rcases List.mem_append.mp hm with hm | hm
    · obtain ⟨k, hk, hname⟩ := hd.numbered r' hm hs
      exact ⟨k, by omega, hname⟩
    · obtain rfl := List.mem_singleton.mp hm
      refine ⟨_, ?_, hk hs⟩
      rw [List.countP_singleton, if_pos (decide_eq_true hs)]
      omega

theorem Distinct.record (hd : Distinct rs) {e : Registration} (he : e.Free)
    (hlen : rs.length < 2 ^ 31) : Distinct (e.record rs) := by
  cases e with
  | plant d ts named =>
    simp only [Registration.record]
    split_ifs with hex
    · exact hd
    · exact hd.add (mt List.mem_map.mp hex) fun hs => absurd hs he
  | spawn pid ts =>
    refine hd.add ?_ fun _ => rfl
    intro hmem
    obtain ⟨r, hm, hname⟩ := List.mem_map.mp hmem
    have hcount : (rs.countP fun r => Spawned r.daemon.name) < 2 ^ 31 :=
      List.countP_le_length.trans_lt hlen
    have hs : Spawned r.daemon.name := hname ▸ spawned_spawnedName hcount
    obtain ⟨k, hk, hname'⟩ := hd.numbered r hm hs
    have heq := spawnedName_inj (hk.trans hcount) hcount (hname'.symm.trans hname)
    exact absurd heq hk.ne
  | emptied => exact ⟨List.nodup_nil, fun r hm => absurd hm List.not_mem_nil⟩

theorem Registration.length_record_le (e : Registration) (rs : List Record) :
    (e.record rs).length ≤ rs.length + 1 := by
  cases e with
  | plant d ts named =>
    simp only [record]
    split_ifs
    · exact Nat.le_succ _
    · rw [List.length_append]
      exact le_rfl
  | spawn pid ts =>
    rw [record, List.length_append]
    exact le_rfl
  | emptied => exact Nat.zero_le _

theorem distinct_table (es : List Registration) (hfree : ∀ e ∈ es, e.Free)
    (hlen : es.length < 2 ^ 31) : Distinct (table es) ∧ (table es).length ≤ es.length := by
  induction es using List.reverseRecOn with
  | nil => exact ⟨⟨List.nodup_nil, fun r hm => absurd hm List.not_mem_nil⟩, le_rfl⟩
  | append_singleton es e ih =>
    rw [List.length_append, List.length_singleton] at hlen
    obtain ⟨hd, hle⟩ := ih (fun e' hm => hfree e' (List.mem_append_left _ hm)) (by omega)
    have htable : table (es ++ [e]) = e.record (table es) := by
      rw [table, List.foldl_append]
      rfl
    rw [htable, List.length_append, List.length_singleton]
    constructor
    · exact hd.record (hfree e (by simp)) (by omega)
    · exact (e.length_record_le _).trans (by omega)

/-- No two lines of the register have one name, whichever daemons register in which order, as long
as the names of plants have 1 to 63 characters and are none that `dspawn` counts. -/
theorem names_distinct (es : List Registration) (hfree : ∀ e ∈ es, e.Free)
    (hlen : es.length < 2 ^ 31) : ((registered (register es)).map Entry.name).Nodup := by
  have hd := (distinct_table es hfree hlen).1.nodup
  rw [register_eq, registered_records, List.map_map]
  have hmap : (table es).map (Entry.name ∘ Record.entry) =
      ((table es).map fun r => r.daemon.name).map PlantName.text := by
    rw [List.map_map]
    rfl
  rw [hmap]
  exact hd.map text_injective

/-- Two processes of `dspawn`, and a plant between them. -/
theorem names_distinct_basil :
    ((registered (register [.spawn ⟨100, by decide, by decide⟩ epoch,
      .plant ⟨basil, 101, by decide, by decide⟩ epoch (by decide),
      .spawn ⟨102, by decide, by decide⟩ epoch])).map Entry.name).Nodup := by
  apply names_distinct
  · intro e he
    rcases he with _ | ⟨_, _ | ⟨_, _ | ⟨_, he⟩⟩⟩
    · exact trivial
    · unfold Registration.Free
      decide
    · exact trivial
    · cases he
  · decide

/-- A plant takes the name that the next process of `dspawn` gets. -/
example : ¬ ((registered (register [
    .plant ⟨⟨"dspawnowo.1".toList, by simp [isSpace], by decide⟩, 100, by decide, by decide⟩ epoch
      (by decide),
    .spawn ⟨101, by decide, by decide⟩ epoch])).map Entry.name).Nodup := by
  decide +kernel

/-! ## What is shown of a farm -/

/-- No plant is named by nothing. -/
def Chore.Named : Chore → Prop
  | .dplant d _ _ _ _ => d.name.text ≠ []
  | _ => True

/-- The graves are of daemons with names. -/
def Graved (cematary : List Char) : Prop :=
  ∃ gs : List Grave, cematary = gs.flatMap Grave.line ∧ ∀ g ∈ gs, g.name.text ≠ []

theorem Graved.add {cematary : List Char} (hg : Graved cematary) (r : Record) (pid : Pid)
    (ts : Timestamp) : Graved (addToGraveyard cematary r.daemon.name.text pid ts) := by
  obtain ⟨gs, rfl, hne⟩ := hg
  let b : Burial := ⟨r.daemon.name, pid, ts⟩
  refine ⟨gs ++ [b.grave gs], ?_, ?_⟩
  · rw [List.flatMap_append, List.flatMap_singleton]
    rfl
  · intro g hm
    rcases List.mem_append.mp hm with hm | hm
    · exact hne g hm
    · rw [List.mem_singleton.mp hm]
      exact r.named

theorem Graved.attempt {a : Aftermath} (hg : Graved a.cematary) (h : System) (i : Nat)
    {e : Entry} (he : e ∈ rs.map Record.entry) : Graved (a.attempt h i e).cematary := by
  obtain ⟨r, -, rfl⟩ := List.mem_map.mp he
  unfold Aftermath.attempt
  split_ifs
  · exact hg.add r h.getpid (h.ctime i)
  · exact hg

theorem Graved.killEach {ds : List Entry} (h : System) (hds : ds ⊆ rs.map Record.entry)
    {a : Aftermath} (hg : Graved a.cematary) (i : Nat) :
    Graved (killEach h i ds a).cematary := by
  induction ds generalizing i a with
  | nil => exact hg
  | cons d ds ih =>
    obtain ⟨hd, hds⟩ := List.cons_subset.mp hds
    exact ih hds (hg.attempt h i hd) (i + 1)

theorem Graved.dkillAutoEach {ds : List Entry} (h : System) (name : List Char)
    (hds : ds ⊆ rs.map Record.entry) {a : Aftermath} (hg : Graved a.cematary) (i : Nat) :
    Graved (dkillAutoEach h name i ds a).cematary := by
  induction ds generalizing i a with
  | nil => exact hg
  | cons d ds ih =>
    obtain ⟨hd, hrest⟩ := List.cons_subset.mp hds
    obtain ⟨r, -, rfl⟩ := List.mem_map.mp hd
    unfold Plant.dkillAutoEach
    split_ifs
    · exact ih hrest hg i
    · exact hg
    · exact ih hrest (hg.add r _ _) (i + 1)
    · exact ih hrest hg (i + 1)

/-- The two files as they are written. -/
structure Written (f : Farm) (rs : List Record) : Prop where
  reg : f.host.reg = rs.flatMap Record.line
  nodup : (rs.map fun r => r.daemon.name).Nodup
  graved : Graved f.cematary

theorem Written.scanned (hw : Written f rs) (alive : Int → Bool) :
    scanActive alive 0 (fgets 1023 f.host.reg) ⊆ rs.map Record.entry := by
  intro e he
  rw [scanActive_fgets, hw.reg] at he
  have hmem := List.mem_of_mem_filter (List.mem_of_mem_take he)
  rwa [registered_records] at hmem

/-- A daemon registers, or its name is registered. -/
theorem Written.register (hw : Written f rs) {d : Daemon} (hne : d.name.text ≠ [])
    (ts : Timestamp) : ∃ rs' : List Record,
      daemonRegister f.host.reg d ts = rs'.flatMap Record.line ∧
        (rs'.map fun r => r.daemon.name).Nodup := by
  refine ⟨(Registration.plant d ts hne).record rs, ?_, ?_⟩
  · rw [hw.reg]
    exact (Registration.plant d ts hne).write_records rs
  · simp only [Registration.record]
    split_ifs with hex
    · exact hw.nodup
    · exact nodup_names_concat hw.nodup (mt List.mem_map.mp hex)

theorem Written.dplant (hw : Written f rs) (d : Daemon) (arg : Option (List Char)) (locked : Bool)
    (ts : Timestamp) (now : Int) (hne : d.name.text ≠ []) :
    ∃ rs', Written (f.dplant d arg locked ts now) rs' := by
  have hsame : ∀ f' : Farm, f'.host = f.host → f'.cematary = f.cematary →
      ∃ rs', Written f' rs' := fun f' hh hc => ⟨rs, hh ▸ hw.reg, hw.nodup, hc ▸ hw.graved⟩
  obtain ⟨rs', hreg, hnodup⟩ := hw.register hne ts
  have hspawn : ∃ rs', Written { f with host := f.host.spawnPlant d ts } rs' :=
    ⟨rs', hreg, hnodup, hw.graved⟩
  cases arg with
  | none =>
    simp only [Farm.dplant, Host.startPlant]
    split_ifs
    · exact hsame _ rfl rfl
    · exact hsame _ rfl rfl
    · exact hspawn
    · exact hsame _ rfl rfl
  | some arg =>
    simp only [Farm.dplant, Host.respawnPlant, Farm.plantWater]
    split_ifs
    · exact hsame _ rfl rfl
    · exact hsame _ rfl rfl
    · exact hsame _ rfl rfl
    · exact hspawn
    · cases f.files d.name
      · exact hsame _ rfl rfl
      · exact hsame _ rfl rfl
    · exact hsame _ rfl rfl

theorem Written.daemonWork (hw : Written f rs) (h : System) (pid : Pid) (now now' : Int) :
    Written (f.daemonWork conv h pid now now') rs := by
  unfold Farm.daemonWork
  cases f.host.daemons.find? (·.pid = pid) with
  | none => exact hw
  | some d =>
    cases f.copies pid with
    | none =>
      dsimp only
      unfold Farm.load
      cases f.files d.name
      · exact ⟨hw.reg, hw.nodup, hw.graved⟩
      · exact ⟨hw.reg, hw.nodup, hw.graved⟩
    | some plant =>
      dsimp only
      unfold Farm.cycle
      split_ifs
      · refine ⟨(register_dkillAutoEach _ _ _ _ _).trans hw.reg, hw.nodup, ?_⟩
        exact Graved.dkillAutoEach _ _ (hw.scanned _) hw.graved 0
      · exact ⟨hw.reg, hw.nodup, hw.graved⟩

theorem Written.dkill (hw : Written f rs) (h : System) (input : List Char) :
    ∃ rs', Written (f.dkill h input) rs' := by
  have hscan := hw.scanned f.host.alive
  unfold Farm.dkill Plant.dkill
  dsimp only
  split_ifs with hnone hall hidx
  · exact ⟨rs, hw.reg, hw.nodup, hw.graved⟩
  · exact ⟨[], rfl, List.nodup_nil, Graved.killEach _ hscan hw.graved 0⟩
  · split
    · rename_i d hd
      refine ⟨rs, (register_attempt 0).trans hw.reg, hw.nodup, ?_⟩
      exact hw.graved.attempt _ 0 (hscan (List.mem_of_getElem? hd))
    · exact ⟨rs, hw.reg, hw.nodup, hw.graved⟩
  · exact ⟨rs, hw.reg, hw.nodup, hw.graved⟩

theorem Written.step (hw : Written f rs) (hn : c.Named) : ∃ rs', Written (f.step conv c) rs' := by
  cases c with
  | dplant d arg locked ts now => exact hw.dplant d arg locked ts now hn
  | turn h pid now now' => exact ⟨rs, hw.daemonWork h pid now now'⟩
  | dkill h input => exact hw.dkill h input
  | exit pid => exact ⟨rs, hw.reg, hw.nodup, hw.graved⟩

theorem written_run (conv : IntConversion) (cs : List Chore) (hn : ∀ c ∈ cs, c.Named) :
    ∃ rs, Written (Farm.bare.run conv cs) rs := by
  induction cs using List.reverseRecOn with
  | nil => exact ⟨[], rfl, List.nodup_nil, [], rfl, fun g hm => absurd hm List.not_mem_nil⟩
  | append_singleton cs c ih =>
    obtain ⟨rs, hw⟩ := ih fun c' hm => hn c' (List.mem_append_left _ hm)
    rw [Farm.run_concat]
    exact hw.step (hn c (by simp))

theorem Written.registered_iff (hw : Written f rs) (name : PlantName) :
    f.host.registered name = true ↔ ∃ r ∈ rs, r.daemon.name = name := by
  rw [Host.registered, isDaemonRegistered_iff, hw.reg, entries_records]
  simp [Record.entry, PlantName.ext_iff]

theorem Written.running_iff (hw : Written f rs) (name : PlantName) :
    f.host.running name = true ↔
      ∃ r ∈ rs, r.daemon.name = name ∧ f.host.alive r.daemon.pid.val = true := by
  rw [Host.running, isPlantRunning_iff, hw.reg, entries_records]
  simp [Record.entry, PlantName.ext_iff]

/-- Whatever is done on a host, to plants with names of 1 to 63 characters, `dcheck` reads both
files to their ends. It shows every plant that is registered once, as active just if `dplant` takes
it for running, and counts those. -/
theorem dcheck_shows (conv : IntConversion) (cs : List Chore) (hn : ∀ c ∈ cs, c.Named) :
    ∃ rows graves,
      Dcheck.dcheck (Farm.bare.run conv cs).host.alive (Farm.bare.run conv cs).host.reg =
        some (rows, rows.countP Dcheck.Row.check) ∧
      Dcheck.dcheckGraveyard (Farm.bare.run conv cs).cematary = some (graves, graves.length) ∧
      (rows.map fun row => row.entry.name).Nodup ∧
      ∀ name : PlantName,
        ((Farm.bare.run conv cs).host.registered name = true ↔
          ∃ row ∈ rows, row.entry.name = name.text) ∧
        ((Farm.bare.run conv cs).host.running name = true ↔
          ∃ row ∈ rows, row.entry.name = name.text ∧ row.check = true) := by
  obtain ⟨rs, hw⟩ := written_run conv cs hn
  generalize Farm.bare.run conv cs = f at hw
  obtain ⟨gs, hgs, hne⟩ := hw.graved
  refine ⟨rs.map fun r => ⟨f.host.alive r.daemon.pid.val, r.entry⟩,
    gs.map fun g => ⟨g.epitaph, g.pid.val, g.ts.text⟩, ?_, ?_, ?_, ?_⟩
  · rw [Dcheck.dcheck, hw.reg, scanRows_records, Option.map_some, List.map_map, List.countP_map,
      List.countP_map]
    rfl
  · rw [Dcheck.dcheckGraveyard, hgs, scanRows_graves gs hne, Option.map_some]
  · have hnames := hw.nodup.map text_injective
    rw [List.map_map] at hnames ⊢
    exact hnames
  · intro name
    rw [hw.registered_iff, hw.running_iff]
    simp [Record.entry, PlantName.ext_iff]

/-- A plant dies and is respawned, and its daemon has no line. -/
theorem dcheck_shows_revived : ∃ rows graves,
    Dcheck.dcheck (Farm.bare.run .exact (withered ++ revived)).host.alive
        (Farm.bare.run .exact (withered ++ revived)).host.reg =
      some (rows, rows.countP Dcheck.Row.check) ∧
    Dcheck.dcheckGraveyard (Farm.bare.run .exact (withered ++ revived)).cematary =
      some (graves, graves.length) ∧
    (rows.map fun row => row.entry.name).Nodup := by
  obtain ⟨rows, graves, hrows, hgraves, hnodup, -⟩ := dcheck_shows .exact (withered ++ revived) (by
    intro c hc
    have hplain := undisturbed_revived.plain c hc
    cases c with
    | dplant d arg locked ts now => exact hplain
    | _ => exact trivial)
  exact ⟨rows, graves, hrows, hgraves, hnodup⟩

end Corestack.Plant
