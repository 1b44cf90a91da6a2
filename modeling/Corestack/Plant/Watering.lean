import Mathlib.Algebra.Group.Int.Defs
import Mathlib.Data.Int.Order.Basic

/-! # Watering a plant

`plant_water` changes the state file of a plant. The daemon of the plant reads the
file once, then works on a copy of its own and writes that over the file: what has
been watered in between is lost.
-/

namespace Corestack.Plant

/-- The state of a plant. What the program writes stays far from the bounds of `int`. -/
structure PlantStats where
  waterlevel : Int
  health : Int
  level : Int
  lastWatered : Int
  lastUpdated : Int
  deriving DecidableEq, Repr

/-- The conversion of a `double` to `int`, of which nothing is known outside the range of `int`. -/
structure IntConversion where
  toInt : Int → Int
  toInt_eq : ∀ {d}, -2 ^ 31 ≤ d → d < 2 ^ 31 → toInt d = d

/-- The state file, and the copy of a daemon that lives. `watered` says that `plant_water` has run
since the daemon last read or wrote the file. -/
structure Garden where
  file : PlantStats
  daemon : Option PlantStats
  watered : Bool

/-- A new plant; the clock is read twice. -/
def plantInitState (lastWatered lastUpdated : Int) : PlantStats :=
  ⟨100, 100, 1, lastWatered, lastUpdated⟩

/-- A daemon starts on the file, or on a new plant if there is none. -/
def daemonStart (file : Option PlantStats) (now now' : Int) : Garden :=
  match file with
  | some plant => ⟨plant, some plant, false⟩
  | none => ⟨plantInitState now now', some (plantInitState now now'), false⟩

/-- What `plant_water` makes of the file. -/
def plantWater (plant : PlantStats) (now : Int) : PlantStats :=
  { plant with
    waterlevel := if plant.waterlevel + 20 > 99 then 100 else plant.waterlevel + 20
    lastWatered := now
    lastUpdated := now }

/-- The water that is left after `seconds`. -/
def decay (waterlevel seconds : Int) : Int :=
  if waterlevel - seconds.tdiv 60 * 5 < 0 then 0 else waterlevel - seconds.tdiv 60 * 5

/-- The health of a plant at this level. -/
def healthRule (health waterlevel : Int) : Int :=
  if waterlevel = 0 then health - 5
  else if waterlevel > 80 ∧ health < 100 then health + 1
  else health

/-- What one cycle makes of the daemon's copy. -/
def grow (plant : PlantStats) (now seconds : Int) : PlantStats :=
  let waterlevel := decay plant.waterlevel seconds
  let health := healthRule plant.health waterlevel
  { waterlevel := waterlevel
    health := health
    level := if health > 95 ∧ waterlevel > 95 then plant.level + 1 else plant.level
    lastWatered := plant.lastWatered
    lastUpdated := now }

def secondsPassed (conv : IntConversion) (plant : PlantStats) (now : Int) : Int :=
  conv.toInt (now - plant.lastUpdated)

/-- One turn of the loop of `daemon_work`. A plant without health dies, and its daemon exits. -/
def daemonWork (conv : IntConversion) (g : Garden) (now : Int) : Garden :=
  match g.daemon with
  | none => g
  | some plant =>
    if secondsPassed conv plant now ≥ 60 then
      let plant := grow plant now (secondsPassed conv plant now)
      ⟨plant, if plant.health ≤ 0 then none else some plant, false⟩
    else { g with daemon := if plant.health ≤ 0 then none else some plant }

inductive Event
  | water (now : Int)
  | cycle (now : Int)

def Event.time : Event → Int
  | water now => now
  | cycle now => now

def Garden.step (conv : IntConversion) (g : Garden) : Event → Garden
  | .water now => { g with file := plantWater g.file now, watered := true }
  | .cycle now => daemonWork conv g now

def Garden.run (conv : IntConversion) (g : Garden) (es : List Event) : Garden :=
  es.foldl (Garden.step conv) g

/-- The cycle takes the level of the file down, and the health with it. -/
structure Applies (seconds : Int) (before after : PlantStats) : Prop where
  waterlevel : after.waterlevel = max 0 (before.waterlevel - seconds.tdiv 60 * 5)
  lastWatered : after.lastWatered = before.lastWatered
  health : after.health =
    healthRule before.health (max 0 (before.waterlevel - seconds.tdiv 60 * 5))

/-- Nothing has been watered behind the daemon's back, or nothing that counts: the file was
watered in the second that the daemon knows of, and the level is the same or falls to 0. As long as
the copy is in order, the first is a case of the second; it stands here because it is about the
calls alone. -/
def Known (seconds : Int) (g : Garden) (plant : PlantStats) : Prop :=
  g.watered = false ∨ g.file.lastWatered = plant.lastWatered ∧
    (g.file.waterlevel = plant.waterlevel ∨
      g.file.waterlevel ≤ seconds.tdiv 60 * 5 ∧ plant.waterlevel ≤ seconds.tdiv 60 * 5)

/-! ## One cycle -/

variable {conv : IntConversion} {g : Garden} {plant : PlantStats} {now : Int}

theorem decay_eq_max (waterlevel seconds : Int) :
    decay waterlevel seconds = max 0 (waterlevel - seconds.tdiv 60 * 5) := by
  unfold decay
  split_ifs <;> omega

/-- The copy of the daemon has the health of the file, and all of the file unless it was watered. -/
structure Copied (g : Garden) (plant : PlantStats) : Prop where
  health : g.file.health = plant.health
  eq : g.watered = false → g.file = plant

theorem daemonWork_file (hd : g.daemon = some plant) (hs : 60 ≤ secondsPassed conv plant now) :
    (daemonWork conv g now).file = grow plant now (secondsPassed conv plant now) := by
  unfold daemonWork
  rw [hd]
  dsimp only
  rw [if_pos hs]

/-- Two levels leave the same water exactly if they are the same, or all of it goes. -/
theorem max_sub_eq_iff {v w d : Int} :
    max 0 (v - d) = max 0 (w - d) ↔ w = v ∨ w ≤ d ∧ v ≤ d := by
  omega

/-- A cycle takes down the level that the daemon knows. -/
theorem daemonWork_applies_iff (h : Copied g plant) (hd : g.daemon = some plant)
    (hs : 60 ≤ secondsPassed conv plant now) :
    Applies (secondsPassed conv plant now) g.file (daemonWork conv g now).file ↔
      Known (secondsPassed conv plant now) g plant := by
  rw [daemonWork_file hd hs]
  constructor
  · intro ha
    apply Or.inr
    constructor
    · exact ha.lastWatered.symm
    · have hw := ha.waterlevel
      simp only [grow, decay_eq_max] at hw
      exact max_sub_eq_iff.mp hw
  · intro hk
    -- what counts of the file is what the daemon knows
    have hlast : g.file.lastWatered = plant.lastWatered := by
      cases hk with
      | inl hw => rw [h.eq hw]
      | inr hk => exact hk.1
    have hmax : max 0 (plant.waterlevel - (secondsPassed conv plant now).tdiv 60 * 5) =
        max 0 (g.file.waterlevel - (secondsPassed conv plant now).tdiv 60 * 5) := by
      cases hk with
      | inl hw => rw [h.eq hw]
      | inr hk => exact max_sub_eq_iff.mpr hk.2
    constructor
    · simp only [grow, decay_eq_max]
      exact hmax
    · exact hlast.symm
    · simp only [grow, decay_eq_max]
      rw [hmax, h.health]

/-! ## Runs -/

theorem daemonStart_copied (file : Option PlantStats) (now now' : Int) :
    ∀ plant, (daemonStart file now now').daemon = some plant →
      Copied (daemonStart file now now') plant := by
  intro plant hd
  cases file with
  | none => cases hd; exact ⟨rfl, fun _ => rfl⟩
  | some stats => cases hd; exact ⟨rfl, fun _ => rfl⟩

/-- A watering leaves the health alone, and a cycle writes the copy. -/
theorem step_copied (e : Event) (h : ∀ plant, g.daemon = some plant → Copied g plant) :
    ∀ plant, (g.step conv e).daemon = some plant → Copied (g.step conv e) plant := by
  intro plant hd
  cases e with
  | water now => exact ⟨(h plant hd).health, fun hw => Bool.noConfusion hw⟩
  | cycle now =>
    simp only [Garden.step, daemonWork] at hd ⊢
    cases hg : g.daemon with
    | none =>
      simp only [hg] at hd
      cases hd
    | some old =>
      simp only [hg] at hd ⊢
      split_ifs at hd ⊢ with hs hh hh
      · cases hd
        exact ⟨rfl, fun _ => rfl⟩
      · cases hd
        exact ⟨(h plant hg).health, (h plant hg).eq⟩

theorem run_copied (conv : IntConversion) (es : List Event)
    (h : ∀ plant, g.daemon = some plant → Copied g plant) :
    ∀ plant, (g.run conv es).daemon = some plant → Copied (g.run conv es) plant := by
  induction es generalizing g with
  | nil => exact h
  | cons e es ih => exact ih (step_copied e h)

/-- A cycle after a run takes down the level of the file exactly if the daemon knows it. -/
theorem run_applies_iff (conv : IntConversion) (file : Option PlantStats) (now now' : Int)
    (es : List Event) (t : Int) (hd : ((daemonStart file now now').run conv es).daemon = some plant)
    (hs : 60 ≤ secondsPassed conv plant t) :
    Applies (secondsPassed conv plant t) ((daemonStart file now now').run conv es).file
        ((daemonStart file now now').run conv (es ++ [.cycle t])).file ↔
      Known (secondsPassed conv plant t) ((daemonStart file now now').run conv es) plant := by
  have hc := run_copied conv es (daemonStart_copied file now now') plant hd
  simp only [Garden.run, List.foldl_append, List.foldl_cons, List.foldl_nil] at hc hd ⊢
  exact daemonWork_applies_iff hc hd hs

/-- All cycles of a run take down the level of the file exactly if the daemon knows it each time. -/
theorem cycles_apply_iff (conv : IntConversion) (file : Option PlantStats) (now now' : Int)
    (es : List Event) :
    (∀ pre t plant, pre ++ [.cycle t] <+: es →
      ((daemonStart file now now').run conv pre).daemon = some plant →
      60 ≤ secondsPassed conv plant t →
      Applies (secondsPassed conv plant t) ((daemonStart file now now').run conv pre).file
        ((daemonStart file now now').run conv (pre ++ [.cycle t])).file) ↔
    ∀ pre t plant, pre ++ [.cycle t] <+: es →
      ((daemonStart file now now').run conv pre).daemon = some plant →
      60 ≤ secondsPassed conv plant t →
      Known (secondsPassed conv plant t) ((daemonStart file now now').run conv pre) plant := by
  constructor
  · intro ha pre t plant hp hd hs
    exact (run_applies_iff conv file now now' pre t hd hs).mp (ha pre t plant hp hd hs)
  · intro hk pre t plant hp hd hs
    exact (run_applies_iff conv file now now' pre t hd hs).mpr (hk pre t plant hp hd hs)

/-- The plant is watered ten seconds after a cycle: the next one takes its 5 from the 95 of the
daemon and not from the 100 of the file, and the file forgets the watering. -/
theorem watering_lost :
    ¬ ∀ (conv : IntConversion) (file : Option PlantStats) (now now' : Int) (es : List Event),
      (now :: now' :: es.map Event.time).Pairwise (· ≤ ·) →
      ∀ pre t plant, pre ++ [.cycle t] <+: es →
        ((daemonStart file now now').run conv pre).daemon = some plant →
        60 ≤ secondsPassed conv plant t →
        Applies (secondsPassed conv plant t) ((daemonStart file now now').run conv pre).file
          ((daemonStart file now now').run conv (pre ++ [.cycle t])).file := by
  intro h
  have ha := h ⟨fun d => d, fun _ _ => rfl⟩ none 0 0 [.cycle 60, .water 70, .cycle 130]
    (by decide) [.cycle 60, .water 70] 130 ⟨95, 100, 1, 0, 60⟩ (List.prefix_refl _) rfl (by decide)
  exact absurd ha.lastWatered (by decide)

end Corestack.Plant
