import Mathlib.Data.List.Nodup
import Corestack.Plant.Register
import Corestack.Runs

/-! # The graveyard

A daemon that is killed gets a line in `tmp/cematary.reg`. If there are graves of its
name already, or of its name with a suffix, their number becomes a suffix of its name.
The name with that suffix may be in the graveyard already, as the name of a daemon.
-/

namespace Corestack.Plant

open Text

/-- The `strncmp` of `add_to_graveyard`, and its look at the character behind the name. -/
def isGrave (name l : List Char) : Bool :=
  name.isPrefixOf l && (l[name.length]? = some ' ' || l[name.length]? = some '.')

/-- The count of the loop over the graveyard, which is an `int`. -/
def graveCount (cematary name : List Char) : Nat :=
  (fgets 1023 cematary).countP fun line => isGrave name (cString line)

/-- What `snprintf` leaves in `modified_name`. -/
def modifiedName (name : List Char) (count : Nat) : List Char :=
  if count = 0 then name.take 127 else (name ++ '.' :: decimal count).take 127

/-- Output of `%s %d %s\n`. -/
def graveLine (name : List Char) (pid : Pid) (ts : Timestamp) : List Char :=
  name ++ ' ' :: (signedDecimal pid.val ++ ' ' :: (ts.text ++ ['\n']))

/-- The process that is written is that of `dkill` in one program, that of the daemon in another. -/
def addToGraveyard (cematary name : List Char) (pid : Pid) (ts : Timestamp) : List Char :=
  cematary ++ graveLine (modifiedName name (graveCount cematary name)) pid ts

/-! ## One line -/

variable {name w : List Char} {pid : Pid} {ts : Timestamp}

/-- A grave of a name has the name, or the name and a suffix. -/
theorem isGrave_append (hn : IsWord name) (hw : IsWord w) (rest : List Char) :
    isGrave name (w ++ ' ' :: rest) = true ↔ w = name ∨ name ++ ['.'] <+: w := by
  simp only [isGrave, Bool.and_eq_true, Bool.or_eq_true, decide_eq_true_eq,
    List.isPrefixOf_iff_prefix]
  constructor
  · rintro ⟨hp, hc⟩
    have hpw : name <+: w := by
      rcases isPrefix_append_cases hp with h | ⟨t, rfl, ht⟩
      · exact h
      · cases t with
        | nil => simp
        | cons c t =>
          obtain ⟨rfl, -⟩ := List.cons_prefix_cons.mp ht
          exact absurd (hn ' ' (by simp)).1 (by decide)
    obtain ⟨u, rfl⟩ := hpw
    rw [List.append_assoc, List.getElem?_append_right (Nat.le_refl _), Nat.sub_self] at hc
    cases u with
    | nil => exact Or.inl (List.append_nil _)
    | cons c u =>
      simp only [List.cons_append, List.getElem?_cons_zero, Option.some.injEq] at hc
      rcases hc with rfl | rfl
      · exact absurd (hw ' ' (by simp)).1 (by decide)
      · exact Or.inr ⟨u, by simp⟩
  · rintro (rfl | ⟨u, rfl⟩)
    · exact ⟨List.prefix_append _ _, Or.inl (by simp)⟩
    · refine ⟨⟨'.' :: (u ++ ' ' :: rest), by simp⟩, Or.inr ?_⟩
      simp

theorem graveLine_eq (w : List Char) (pid : Pid) (ts : Timestamp) :
    graveLine w pid ts = lineText w pid ts ++ ['\n'] := by
  simp [graveLine, lineText]

theorem fgets_graveLine (hw : IsWord w) (hlen : w.length ≤ 127) (pid : Pid) (ts : Timestamp)
    (cematary : List Char) :
    fgets 1023 (graveLine w pid ts ++ cematary) = graveLine w pid ts :: fgets 1023 cematary := by
  have hle := length_lineText_le w pid ts
  rw [graveLine_eq, List.append_assoc]
  exact fgets_line (not_mem_lineText hw pid ts (Or.inl rfl)) (by omega) cematary

theorem cString_graveLine (hw : IsWord w) (pid : Pid) (ts : Timestamp) :
    cString (graveLine w pid ts) = graveLine w pid ts := by
  apply cString_of_not_mem
  rw [graveLine_eq]
  simpa using not_mem_lineText hw pid ts (Or.inr rfl)

theorem takeWhile_graveLine (hw : IsWord w) (pid : Pid) (ts : Timestamp) :
    (graveLine w pid ts).takeWhile (fun c => decide (c ≠ ' ')) = w := by
  have hne : ∀ c ∈ w, decide (c ≠ ' ') = true := by
    intro c hc
    apply decide_eq_true
    rintro rfl
    exact absurd (hw ' ' hc).1 (by decide)
  rw [graveLine, List.takeWhile_append_of_pos hne, List.takeWhile_cons_of_neg (by simp),
    List.append_nil]

/-! ## A number as a suffix -/

/-- The number behind the last dot, and what is before it, are known from the whole. -/
theorem suffix_inj {a b : List Char} {m n : Nat}
    (h : a ++ '.' :: decimal m = b ++ '.' :: decimal n) : a = b ∧ m = n := by
  have hdot : ∀ k, '.' ∉ decimal k := not_mem_decimal rfl
  have htail : ∀ {c d : List Char} {k l : Nat}, d ++ '.' :: decimal k = c ++ '.' :: decimal l →
      d <+: c → d = c ∧ k = l := by
    rintro c d k l h ⟨t, rfl⟩
    rw [List.append_assoc, List.append_cancel_left_eq] at h
    cases t with
    | nil =>
      have hd : decimal k = decimal l := (List.cons.inj h).2
      have hkl : k = l := by rw [← ofDigitChars_decimal k, hd, ofDigitChars_decimal l]
      exact ⟨(List.append_nil _).symm, hkl⟩
    | cons x t =>
      have hmem : '.' ∈ decimal k := by
        rw [(List.cons.inj h).2]
        simp
      exact absurd hmem (hdot k)
  have ha : a <+: b ++ '.' :: decimal n := ⟨_, h⟩
  rcases List.prefix_or_prefix_of_prefix ha (List.prefix_append b _) with hab | hba
  · exact htail h hab
  · obtain ⟨rfl, hnm⟩ := htail h.symm hba
    exact ⟨rfl, hnm.symm⟩

theorem isWord_suffix (hw : IsWord w) (n : Nat) : IsWord (w ++ '.' :: decimal n) := by
  intro c hc
  rcases List.mem_append.mp hc with h | h
  · exact hw c h
  · rcases List.mem_cons.mp h with rfl | h
    · decide
    · have hd := isDigit_of_mem_decimal h
      refine ⟨not_isSpace_of_isDigit hd, ?_⟩
      rintro rfl
      exact absurd hd (by decide)

theorem isWord_modifiedName (hw : IsWord w) (n : Nat) : IsWord (modifiedName w n) := by
  intro c hc
  unfold modifiedName at hc
  split at hc
  · exact hw c (List.mem_of_mem_take hc)
  · exact isWord_suffix hw n c (List.mem_of_mem_take hc)

theorem length_modifiedName_le (w : List Char) (n : Nat) : (modifiedName w n).length ≤ 127 := by
  unfold modifiedName
  split <;> exact List.length_take_le _ _

/-- The buffer has room for the name of a plant and an `int`. -/
theorem modifiedName_eq (name : PlantName) {n : Nat} (hn : n < 2 ^ 31) :
    modifiedName name.text n = if n = 0 then name.text else name.text ++ '.' :: decimal n := by
  have hname := name.length_le
  have hlen : (decimal n).length ≤ 10 := length_decimal_le (by decide) (by omega)
  unfold modifiedName
  split
  · exact List.take_of_length_le (by omega)
  · apply List.take_of_length_le
    simp only [List.length_append, List.length_cons]
    omega

/-! ## The graves -/

/-- Whom a grave is for, and how many graves of that name were found before it. -/
structure Grave where
  name : PlantName
  count : Nat
  pid : Pid
  ts : Timestamp

namespace Grave

def epitaph (g : Grave) : List Char := modifiedName g.name.text g.count

def line (g : Grave) : List Char := graveLine g.epitaph g.pid g.ts

theorem isWord_epitaph (g : Grave) : IsWord g.epitaph := isWord_modifiedName g.name.isWord g.count

theorem epitaph_eq {g : Grave} (hc : g.count < 2 ^ 31) :
    g.epitaph = if g.count = 0 then g.name.text else g.name.text ++ '.' :: decimal g.count :=
  modifiedName_eq g.name hc

/-- A grave is found again under the name that it was dug for. -/
theorem isGrave_self {g : Grave} (hc : g.count < 2 ^ 31) : isGrave g.name.text g.line = true := by
  apply (isGrave_append g.name.isWord g.isWord_epitaph _).mpr
  rw [epitaph_eq hc]
  split
  · exact Or.inl rfl
  · exact Or.inr ⟨decimal g.count, by simp⟩

theorem isGrave_of_epitaph_eq {g : Grave} {name : PlantName} (h : g.epitaph = name.text) :
    isGrave name.text g.line = true :=
  (isGrave_append name.isWord g.isWord_epitaph _).mpr (Or.inl h)

end Grave

/-- The name on each line. -/
def graveNames (cematary : List Char) : List (List Char) :=
  (fgets 1023 cematary).map fun line => line.takeWhile fun c => decide (c ≠ ' ')

theorem fgets_graves (gs : List Grave) :
    fgets 1023 (gs.flatMap Grave.line) = gs.map Grave.line := by
  induction gs with
  | nil => rfl
  | cons g gs ih =>
    rw [List.flatMap_cons, List.map_cons, ← ih]
    exact fgets_graveLine g.isWord_epitaph (length_modifiedName_le _ _) g.pid g.ts _

theorem graveNames_graves (gs : List Grave) :
    graveNames (gs.flatMap Grave.line) = gs.map Grave.epitaph := by
  rw [graveNames, fgets_graves, List.map_map]
  apply List.map_congr_left
  intro g _
  exact takeWhile_graveLine g.isWord_epitaph g.pid g.ts

theorem graveCount_graves (gs : List Grave) (name : List Char) :
    graveCount (gs.flatMap Grave.line) name = gs.countP fun g => isGrave name g.line := by
  rw [graveCount, fgets_graves, List.countP_map]
  apply List.countP_congr
  intro g _
  rw [Function.comp_apply, Grave.line, cString_graveLine g.isWord_epitaph]

/-! ## Burials -/

structure Burial where
  name : PlantName
  pid : Pid
  ts : Timestamp

/-- The file after the calls, from an empty one. -/
def cematary (bs : List Burial) : List Char :=
  bs.foldl (fun cem b => addToGraveyard cem b.name.text b.pid b.ts) []

/-- The grave that the next call digs. -/
def Burial.grave (b : Burial) (gs : List Grave) : Grave :=
  ⟨b.name, graveCount (gs.flatMap Grave.line) b.name.text, b.pid, b.ts⟩

def graves (bs : List Burial) : List Grave := bs.foldl (fun gs b => gs ++ [b.grave gs]) []

theorem graves_concat (bs : List Burial) (b : Burial) :
    graves (bs ++ [b]) = graves bs ++ [b.grave (graves bs)] := by
  simp only [graves, List.foldl_append, List.foldl_cons, List.foldl_nil]

/-- The file has the graves one after the other. -/
theorem cematary_eq (bs : List Burial) : cematary bs = (graves bs).flatMap Grave.line := by
  induction bs using List.reverseRecOn with
  | nil => rfl
  | append_singleton bs b ih =>
    have hcem : cematary (bs ++ [b]) = addToGraveyard (cematary bs) b.name.text b.pid b.ts := by
      simp only [cematary, List.foldl_append, List.foldl_cons, List.foldl_nil]
    rw [hcem, ih, graves_concat, List.flatMap_append, List.flatMap_cons, List.flatMap_nil,
      List.append_nil]
    rfl

/-- The name with the number is not that of a daemon that was the first of its name. -/
def Burial.Sound (b : Burial) (gs : List Grave) : Prop :=
  (b.grave gs).count < 2 ^ 31 ∧
    ((b.grave gs).count ≠ 0 → ∀ g ∈ gs, g.count = 0 →
      g.name.text ≠ b.name.text ++ '.' :: decimal (b.grave gs).count)

/-- Every grave has fewer before it than there are of its name. -/
structure Distinguishable (gs : List Grave) : Prop where
  nodup : (gs.map Grave.epitaph).Nodup
  inRange : ∀ g ∈ gs, g.count < 2 ^ 31
  counted : ∀ g ∈ gs, g.count < gs.countP fun h => isGrave g.name.text h.line

variable {gs : List Grave} {b : Burial}

theorem count_grave (b : Burial) (gs : List Grave) :
    (b.grave gs).count = gs.countP fun g => isGrave b.name.text g.line :=
  graveCount_graves gs b.name.text

/-- The name that is written next is on no grave. -/
theorem Distinguishable.fresh (hd : Distinguishable gs) (hs : b.Sound gs) :
    (b.grave gs).epitaph ∉ gs.map Grave.epitaph := by
  obtain ⟨hrange, hs⟩ := hs
  intro hmem
  obtain ⟨g, hg, heq⟩ := List.mem_map.mp hmem
  rw [Grave.epitaph_eq hrange] at heq
  by_cases h0 : (b.grave gs).count = 0
  · -- a grave with the bare name would have been counted
    rw [if_pos h0] at heq
    have hpos : 0 < gs.countP fun g => isGrave b.name.text g.line :=
      List.countP_pos_iff.mpr ⟨g, hg, g.isGrave_of_epitaph_eq heq⟩
    rw [← count_grave, h0] at hpos
    exact Nat.lt_irrefl 0 hpos
  · rw [if_neg h0, Grave.epitaph_eq (hd.inRange g hg)] at heq
    split at heq
    · rename_i hg0
      exact hs h0 g hg hg0 heq
    · -- the other grave has the same name and number, but there are more of its name
      obtain ⟨hname, hcount⟩ := suffix_inj heq
      have hlt := hd.counted g hg
      rw [hname, hcount, count_grave] at hlt
      exact Nat.lt_irrefl _ hlt

theorem Distinguishable.bury (hd : Distinguishable gs) (hs : b.Sound gs) :
    Distinguishable (gs ++ [b.grave gs]) := by
  constructor
  · rw [List.map_append, List.map_cons, List.map_nil, ← List.concat_eq_append]
    exact List.Nodup.concat (hd.fresh hs) hd.nodup
  · intro g hg
    rcases List.mem_append.mp hg with h | h
    · exact hd.inRange g h
    · rw [List.mem_singleton.mp h]
      exact hs.1
  · intro g hg
    rw [List.countP_append]
    rcases List.mem_append.mp hg with h | h
    · exact Nat.lt_of_lt_of_le (hd.counted g h) (Nat.le_add_right _ _)
    · rw [List.mem_singleton.mp h]
      have hself : [b.grave gs].countP (fun h => isGrave (b.grave gs).name.text h.line) = 1 := by
        rw [List.countP_singleton, if_pos (Grave.isGrave_self hs.1)]
      rw [hself]
      exact Nat.lt_succ_of_le (Nat.le_of_eq (count_grave b gs))

/-- The daemon that was the first of its name is found under the name that is written. -/
theorem sound_of_nodup (hn : ((gs ++ [b.grave gs]).map Grave.epitaph).Nodup)
    (hrange : (b.grave gs).count < 2 ^ 31) : b.Sound gs := by
  refine ⟨hrange, ?_⟩
  intro h0 g hg hg0 heq
  have hg31 : g.count < 2 ^ 31 := by omega
  have hsame : g.epitaph = (b.grave gs).epitaph := by
    rw [Grave.epitaph_eq hrange, if_neg h0, Grave.epitaph_eq hg31, if_pos hg0, heq]
    rfl
  rw [List.map_append, List.nodup_append] at hn
  exact hn.2.2 g.epitaph (List.mem_map_of_mem hg) (b.grave gs).epitaph (by simp) hsame

/-- The names in the graveyard are distinct all along a run, and its counts are in the range of
`int`, if and only if no call adds a number to a name that gives the name of a daemon that was
buried as the first of its name, and no call finds `2 ^ 31` graves. -/
theorem graves_distinguishable_iff (bs : List Burial) :
    (∀ pre, pre <+: bs → (graveNames (cematary pre)).Nodup ∧
      ∀ g ∈ graves pre, g.count < 2 ^ 31) ↔
    ∀ pre b, pre ++ [b] <+: bs → b.Sound (graves pre) := by
  apply Runs.forall_prefix_iff (I := fun pre => Distinguishable (graves pre))
  · constructor
    · exact List.nodup_nil
    · exact fun g hg => absurd hg List.not_mem_nil
    · exact fun g hg => absurd hg List.not_mem_nil
  · intro pre b _ hd hs
    rw [graves_concat]
    exact hd.bury hs
  · intro pre _ hd
    rw [cematary_eq, graveNames_graves]
    exact ⟨hd.nodup, hd.inRange⟩
  · intro pre b _ _ ⟨hn, hrange⟩
    rw [cematary_eq, graveNames_graves, graves_concat] at hn
    rw [graves_concat] at hrange
    exact sound_of_nodup hn (hrange _ (by simp))

/-- The newest of two daemons is killed first. -/
theorem graves_mistaken :
    ¬ ∀ bs : List Burial, (∀ b ∈ bs, b.name.text ≠ []) → (graveNames (cematary bs)).Nodup := by
  intro h
  have hn := h
    [⟨⟨['a', '.', '1'], by simp [isSpace], by decide⟩, ⟨7, by decide, by decide⟩,
      ⟨['t'], by simp, by simp, by simp [isSpace], by simp⟩⟩,
    ⟨⟨['a'], by simp [isSpace], by decide⟩, ⟨8, by decide, by decide⟩,
      ⟨['t'], by simp, by simp, by simp [isSpace], by simp⟩⟩] (by simp)
  exact absurd hn (by decide)

end Corestack.Plant
