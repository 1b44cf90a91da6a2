import Corestack.Plant.Daemons
import Corestack.Plant.Kill
import Corestack.Plant.Watering

/-! # The plants of a host

`dplant` starts, respawns and waters plants, each daemon looks after a copy of its own,
and `dkill` ends daemons; all of them work on the same files. A daemon whose plant dies
kills all daemons of that name, and is one of them.
-/

namespace Corestack.Plant

open Text

/-- The host with the graveyard, the state files and what the daemons have loaded of them. Each name
has a state file of its own, as names without a slash have. -/
structure Farm where
  host : Host
  cematary : List Char
  files : PlantName → Option PlantStats
  copies : Pid → Option PlantStats

/-- The process in the line of a daemon that lives. -/
def Entry.process (e : Entry) : Pid where
  val := e.pid % 2 ^ 31
  nonneg := Int.emod_nonneg _ (by decide)
  lt := Int.emod_lt_of_pos _ (by decide)

/-- The loop of `dkill_auto` over the daemons that were found; `h.getpid` runs it. -/
def dkillAutoEach (h : System) (name : List Char) : Nat → List Entry → Aftermath → Aftermath
  | _, [], a => a
  | i, d :: ds, a =>
    if d.name ≠ name then dkillAutoEach h name i ds a
    else if h.kill i then
      -- the signal is delivered before `kill` returns to the process that sent it to itself
      if d.pid = h.getpid.val then { a with signalled := a.signalled ++ [d.pid] }
      else
        dkillAutoEach h name (i + 1) ds
          { a with
            cematary := addToGraveyard a.cematary d.name d.process (h.ctime i)
            signalled := a.signalled ++ [d.pid] }
    else dkillAutoEach h name (i + 1) ds a

def dkillAuto (h : System) (register cematary name : List Char) : Aftermath :=
  dkillAutoEach h name 0 (scanActive h.alive 0 (fgets 1023 register)) ⟨register, cematary, []⟩

namespace Farm

/-- No daemon handles the signal. -/
def aftermath (f : Farm) (a : Aftermath) : Farm :=
  { f with
    host := ⟨a.register, f.host.daemons.filter fun d => d.pid.val ∉ a.signalled⟩
    cematary := a.cematary
    copies := fun pid => if pid.val ∈ a.signalled then none else f.copies pid }

def exit (f : Farm) (pid : Pid) : Farm :=
  { f with
    host := f.host.exit pid
    copies := Function.update f.copies pid none }

/-- The processes are those of the farm. -/
def dkill (f : Farm) (h : System) (input : List Char) : Farm :=
  f.aftermath (Plant.dkill { h with alive := f.host.alive } f.host.reg f.cematary input)

/-- The process exits, be it on the signal or after it. -/
def plantDied (f : Farm) (h : System) (d : Daemon) : Farm :=
  (f.aftermath (dkillAuto { h with alive := f.host.alive, getpid := d.pid } f.host.reg f.cematary
    d.name.text)).exit d.pid

def plantWater (f : Farm) (name : PlantName) (now : Int) : Farm :=
  match f.files name with
  | none => f
  | some plant =>
    { f with files := Function.update f.files name (some (Plant.plantWater plant now)) }

/-- `main` with the name of `d`, which is the daemon that is left behind if it comes to that, and
another argument or none. `stats`, and what is no command, only print. -/
def dplant (f : Farm) (d : Daemon) (arg : Option (List Char)) (locked : Bool) (ts : Timestamp)
    (now : Int) : Farm :=
  match arg with
  | some arg =>
    if !f.host.running d.name && decide (arg ≠ "respawn".toList) then f
    else if arg = "respawn".toList then { f with host := f.host.respawnPlant d ts }
    else if arg = "water".toList then f.plantWater d.name now
    else f
  | none => { f with host := f.host.startPlant d locked ts }

/-- The first lines of `daemon_work`; a new plant reads the clock twice. -/
def load (f : Farm) (d : Daemon) (now now' : Int) : Farm :=
  match f.files d.name with
  | some plant => { f with copies := Function.update f.copies d.pid (some plant) }
  | none =>
    { f with
      files := Function.update f.files d.name (some (plantInitState now now'))
      copies := Function.update f.copies d.pid (some (plantInitState now now')) }

/-- A turn of the loop leaves the plant alone for a minute. -/
def tend (conv : IntConversion) (plant : PlantStats) (now : Int) : PlantStats :=
  if secondsPassed conv plant now ≥ 60 then grow plant now (secondsPassed conv plant now) else plant

/-- What a turn writes. -/
def save (conv : IntConversion) (f : Farm) (d : Daemon) (plant : PlantStats) (now : Int) : Farm :=
  { f with
    files :=
      if secondsPassed conv plant now ≥ 60 then
        Function.update f.files d.name (some (tend conv plant now))
      else f.files
    copies := Function.update f.copies d.pid (some (tend conv plant now)) }

/-- One turn of the loop of `daemon_work`. -/
def cycle (conv : IntConversion) (f : Farm) (h : System) (d : Daemon) (plant : PlantStats)
    (now : Int) : Farm :=
  if (tend conv plant now).health ≤ 0 then (f.save conv d plant now).plantDied h d
  else f.save conv d plant now

/-- A daemon loads its plant, and from then on goes round its loop. -/
def daemonWork (conv : IntConversion) (f : Farm) (h : System) (pid : Pid) (now now' : Int) : Farm :=
  match f.host.daemons.find? (·.pid = pid) with
  | none => f
  | some d =>
    match f.copies pid with
    | none => f.load d now now'
    | some plant => f.cycle conv h d plant now

end Farm

/-- What happens on a farm. -/
inductive Chore
  | dplant (d : Daemon) (arg : Option (List Char)) (locked : Bool) (ts : Timestamp) (now : Int)
  | turn (h : System) (pid : Pid) (now now' : Int)
  | dkill (h : System) (input : List Char)
  | exit (pid : Pid)

/-- The processes that a chore may leave behind. -/
def Chore.pids : Chore → List Pid
  | dplant d _ _ _ _ => [d.pid]
  | turn _ _ _ _ => []
  | dkill _ _ => []
  | exit _ => []

def Farm.step (conv : IntConversion) (f : Farm) : Chore → Farm
  | .dplant d arg locked ts now => f.dplant d arg locked ts now
  | .turn h pid now now' => f.daemonWork conv h pid now now'
  | .dkill h input => f.dkill h input
  | .exit pid => f.exit pid

/-- Nothing has been planted. -/
def Farm.bare : Farm := ⟨⟨[], []⟩, [], fun _ => none, fun _ => none⟩

def Farm.run (conv : IntConversion) (f : Farm) (cs : List Chore) : Farm :=
  cs.foldl (Farm.step conv) f

variable {conv : IntConversion} {f : Farm} {h : System} {plant : PlantStats} {pid : Pid}
  {d : Daemon} {name : PlantName} {now now' : Int} {c : Chore} {cs : List Chore}

theorem Farm.run_append (cs cs' : List Chore) :
    f.run conv (cs ++ cs') = (f.run conv cs).run conv cs' := List.foldl_append

theorem Farm.run_concat (cs : List Chore) (c : Chore) :
    f.run conv (cs ++ [c]) = (f.run conv cs).step conv c := Farm.run_append cs [c]

/-! ## What a plant can be -/

structure InRange (plant : PlantStats) : Prop where
  waterlevel_nonneg : 0 ≤ plant.waterlevel
  waterlevel_le : plant.waterlevel ≤ 100
  health_le : plant.health ≤ 100
  level_eq : plant.level = 1

theorem inRange_plantInitState (now now' : Int) : InRange (plantInitState now now') :=
  ⟨Int.zero_le_ofNat 100, Int.le_refl 100, Int.le_refl 100, rfl⟩

theorem InRange.plantWater (hr : InRange plant) (now : Int) : InRange (plantWater plant now) := by
  have h0 := hr.waterlevel_nonneg
  constructor
  · simp only [Plant.plantWater]
    split_ifs <;> omega
  · simp only [Plant.plantWater]
    split_ifs <;> omega
  · exact hr.health_le
  · exact hr.level_eq

/-- The water that is left after a minute or more. -/
theorem decay_le {waterlevel seconds : Int} (hs : 60 ≤ seconds) (hw : 0 ≤ waterlevel) :
    decay waterlevel seconds ≤ max 0 (waterlevel - 5) := by
  have hmin : 1 ≤ seconds.tdiv 60 := by
    rw [Int.tdiv_eq_ediv_of_nonneg (by omega)]
    omega
  rw [decay_eq_max]
  omega

theorem decay_nonneg (waterlevel seconds : Int) : 0 ≤ decay waterlevel seconds := by
  rw [decay_eq_max]
  exact Int.le_max_left _ _

theorem healthRule_le {health waterlevel : Int} (hh : health ≤ 100) :
    healthRule health waterlevel ≤ 100 := by
  unfold healthRule
  split_ifs <;> omega

/-- No plant that loses its 5 has the water that another level takes. -/
theorem InRange.grow (hr : InRange plant) {seconds : Int} (hs : 60 ≤ seconds) :
    InRange (grow plant now seconds) := by
  have hle := decay_le hs hr.waterlevel_nonneg
  have hw := hr.waterlevel_le
  constructor
  · exact decay_nonneg _ _
  · exact hle.trans (by omega)
  · exact healthRule_le hr.health_le
  · exact (if_neg fun hcond => by omega).trans hr.level_eq

theorem InRange.tend (hr : InRange plant) : InRange (Farm.tend conv plant now) := by
  unfold Farm.tend
  split_ifs with hs
  · exact hr.grow hs
  · exact hr

namespace Farm

/-- The state files, and what the daemons have of them. -/
structure AllInRange (f : Farm) : Prop where
  files : ∀ name plant, f.files name = some plant → InRange plant
  copies : ∀ pid plant, f.copies pid = some plant → InRange plant

theorem copies_of_aftermath {a : Aftermath} (hc : (f.aftermath a).copies pid = some plant) :
    f.copies pid = some plant := by
  simp only [aftermath] at hc
  split_ifs at hc
  exact hc

theorem copies_of_exit {pid' : Pid} (hc : (f.exit pid').copies pid = some plant) :
    f.copies pid = some plant := by
  simp only [exit, Function.update_apply] at hc
  split_ifs at hc
  exact hc

theorem AllInRange.aftermath (hf : f.AllInRange) (a : Aftermath) : (f.aftermath a).AllInRange :=
  ⟨hf.files, fun pid plant hc => hf.copies pid plant (copies_of_aftermath hc)⟩

theorem AllInRange.exit (hf : f.AllInRange) (pid : Pid) : (f.exit pid).AllInRange :=
  ⟨hf.files, fun pid plant hc => hf.copies pid plant (copies_of_exit hc)⟩

theorem AllInRange.plantWater (hf : f.AllInRange) (name : PlantName) (now : Int) :
    (f.plantWater name now).AllInRange := by
  unfold Farm.plantWater
  cases hfile : f.files name with
  | none => exact hf
  | some plant =>
    refine ⟨?_, hf.copies⟩
    intro name' plant' h
    simp only [Function.update_apply] at h
    split_ifs at h
    · exact Option.some.inj h ▸ (hf.files name plant hfile).plantWater now
    · exact hf.files name' plant' h

theorem AllInRange.dplant (hf : f.AllInRange) (d : Daemon) (arg : Option (List Char))
    (locked : Bool) (ts : Timestamp) (now : Int) : (f.dplant d arg locked ts now).AllInRange := by
  cases arg with
  | none => exact ⟨hf.files, hf.copies⟩
  | some arg =>
    simp only [Farm.dplant]
    split_ifs
    · exact hf
    · exact ⟨hf.files, hf.copies⟩
    · exact hf.plantWater d.name now
    · exact hf

theorem AllInRange.load (hf : f.AllInRange) (d : Daemon) (now now' : Int) :
    (f.load d now now').AllInRange := by
  unfold Farm.load
  cases hfile : f.files d.name with
  | some plant =>
    refine ⟨hf.files, ?_⟩
    intro pid' plant' h
    simp only [Function.update_apply] at h
    split_ifs at h
    · exact Option.some.inj h ▸ hf.files d.name plant hfile
    · exact hf.copies pid' plant' h
  | none =>
    constructor
    · intro name' plant' h
      simp only [Function.update_apply] at h
      split_ifs at h
      · exact Option.some.inj h ▸ inRange_plantInitState now now'
      · exact hf.files name' plant' h
    · intro pid' plant' h
      simp only [Function.update_apply] at h
      split_ifs at h
      · exact Option.some.inj h ▸ inRange_plantInitState now now'
      · exact hf.copies pid' plant' h

theorem AllInRange.save (hf : f.AllInRange) (hr : InRange plant) (d : Daemon) (now : Int) :
    (f.save conv d plant now).AllInRange := by
  constructor
  · intro name' plant' hfile
    simp only [Farm.save] at hfile
    split_ifs at hfile
    · simp only [Function.update_apply] at hfile
      split_ifs at hfile
      · exact Option.some.inj hfile ▸ hr.tend
      · exact hf.files name' plant' hfile
    · exact hf.files name' plant' hfile
  · intro pid' plant' hcopy
    simp only [Farm.save, Function.update_apply] at hcopy
    split_ifs at hcopy
    · exact Option.some.inj hcopy ▸ hr.tend
    · exact hf.copies pid' plant' hcopy

theorem AllInRange.cycle (conv : IntConversion) (hf : f.AllInRange) (hr : InRange plant)
    (h : System) (d : Daemon) (now : Int) : (f.cycle conv h d plant now).AllInRange := by
  have hsave : (f.save conv d plant now).AllInRange := hf.save hr d now
  unfold Farm.cycle
  split_ifs
  · exact (hsave.aftermath _).exit d.pid
  · exact hsave

theorem AllInRange.step (hf : f.AllInRange) (c : Chore) : (f.step conv c).AllInRange := by
  cases c with
  | dplant d arg locked ts now => exact hf.dplant d arg locked ts now
  | turn h pid now now' =>
    simp only [Farm.step, Farm.daemonWork]
    cases f.host.daemons.find? (·.pid = pid) with
    | none => exact hf
    | some d =>
      cases hcopy : f.copies pid with
      | none => exact hf.load d now now'
      | some plant => exact hf.cycle conv (hf.copies pid plant hcopy) h d now
  | dkill h input => exact hf.aftermath _
  | exit pid => exact hf.exit pid

theorem AllInRange.run (hf : f.AllInRange) (cs : List Chore) : (f.run conv cs).AllInRange := by
  induction cs generalizing f with
  | nil => exact hf
  | cons c cs ih => exact ih (hf.step c)

/-! ## How long a plant lives -/

def Lives (f : Farm) (pid : Pid) : Prop := ∃ d ∈ f.host.daemons, d.pid = pid

instance (f : Farm) (pid : Pid) : Decidable (f.Lives pid) :=
  inferInstanceAs (Decidable (∃ d ∈ f.host.daemons, d.pid = pid))

/-- The daemon takes its plant a minute or more further. -/
def savedAt (conv : IntConversion) (f : Farm) (pid : Pid) : Chore → Bool
  | .turn _ p now _ =>
    decide (p = pid ∧ f.Lives pid) &&
      (f.copies pid).any fun plant => secondsPassed conv plant now ≥ 60
  | _ => false

/-- How often it does that. -/
def saves (conv : IntConversion) (pid : Pid) : Farm → List Chore → Nat
  | _, [] => 0
  | f, c :: cs => (f.savedAt conv pid c).toNat + saves conv pid (f.step conv c) cs

theorem saves_append (cs : List Chore) (c : Chore) :
    f.saves conv pid (cs ++ [c]) =
      f.saves conv pid cs + ((f.run conv cs).savedAt conv pid c).toNat := by
  induction cs generalizing f with
  | nil => simp [saves, Farm.run]
  | cons c' cs ih =>
    rw [List.cons_append, saves, saves, ih, Nat.add_assoc]
    rfl

theorem find?_of_lives (hl : f.Lives pid) :
    ∃ d, f.host.daemons.find? (·.pid = pid) = some d ∧ d.pid = pid := by
  obtain ⟨d, hd, hpid⟩ := hl
  cases hfind : f.host.daemons.find? (·.pid = pid) with
  | none => exact absurd hpid (by simpa using List.find?_eq_none.mp hfind d hd)
  | some d' => exact ⟨d', rfl, by simpa using List.find?_some hfind⟩

theorem not_lives_exit (f : Farm) (pid : Pid) : ¬ (f.exit pid).Lives pid := by
  rintro ⟨d, hd, rfl⟩
  simp [exit, Host.exit] at hd

theorem lives_of_exit {pid' : Pid} (hl : (f.exit pid').Lives pid) : f.Lives pid := by
  obtain ⟨d, hd, hpid⟩ := hl
  exact ⟨d, List.mem_of_mem_filter hd, hpid⟩

theorem copies_exit {pid' : Pid} (hl : (f.exit pid').Lives pid) :
    (f.exit pid').copies pid = f.copies pid := by
  have hne : pid ≠ pid' := by
    rintro rfl
    exact not_lives_exit f pid hl
  exact Function.update_of_ne hne _ _

theorem lives_of_aftermath {a : Aftermath} (hl : (f.aftermath a).Lives pid) : f.Lives pid := by
  obtain ⟨d, hd, hpid⟩ := hl
  exact ⟨d, List.mem_of_mem_filter hd, hpid⟩

theorem copies_aftermath {a : Aftermath} (hl : (f.aftermath a).Lives pid) :
    (f.aftermath a).copies pid = f.copies pid := by
  obtain ⟨d, hd, rfl⟩ := hl
  have hnot : d.pid.val ∉ a.signalled := of_decide_eq_true (List.mem_filter.mp hd).2
  exact if_neg hnot

theorem copies_plantDied (hl : (f.plantDied h d).Lives pid) :
    (f.plantDied h d).copies pid = f.copies pid :=
  (copies_exit hl).trans (copies_aftermath (lives_of_exit hl))

theorem copies_dplant (arg : Option (List Char)) (locked : Bool) (ts : Timestamp) :
    (f.dplant d arg locked ts now).copies = f.copies := by
  cases arg with
  | none => rfl
  | some arg =>
    simp only [Farm.dplant]
    split_ifs
    · rfl
    · rfl
    · unfold Farm.plantWater
      cases f.files d.name <;> rfl
    · rfl

theorem not_lives_step (hp : pid ∉ c.pids) (hl : ¬ f.Lives pid) : ¬ (f.step conv c).Lives pid := by
  cases c with
  | dplant d arg locked ts now =>
    have hne : d.pid ≠ pid := fun he => hp (by simp [Chore.pids, he])
    have hspawn : ¬ ∃ d' ∈ (f.host.spawnPlant d ts).daemons, d'.pid = pid := by
      rintro ⟨d', hd', hpid⟩
      rcases List.mem_append.mp hd' with hd' | hd'
      · exact hl ⟨d', hd', hpid⟩
      · exact hne (List.mem_singleton.mp hd' ▸ hpid)
    cases arg with
    | none =>
      simp only [Farm.step, Farm.dplant, Host.startPlant]
      split_ifs <;> assumption
    | some arg =>
      simp only [Farm.step, Farm.dplant, Host.respawnPlant]
      split_ifs
      · exact hl
      · exact hl
      · exact hl
      · exact hspawn
      · unfold Farm.plantWater
        cases f.files d.name <;> exact hl
      · exact hl
  | turn h pid' now now' =>
    simp only [Farm.step, Farm.daemonWork]
    cases f.host.daemons.find? (·.pid = pid') with
    | none => exact hl
    | some d =>
      cases f.copies pid' with
      | none =>
        simp only [Farm.load]
        cases f.files d.name <;> exact hl
      | some plant =>
        simp only [Farm.cycle]
        split_ifs
        · exact fun hl' => hl (lives_of_aftermath (lives_of_exit hl'))
        · exact hl
  | dkill h input => exact fun hl' => hl (lives_of_aftermath hl')
  | exit pid' => exact fun hl' => hl (lives_of_exit hl')

theorem not_lives_run (hp : ∀ c ∈ cs, pid ∉ c.pids) (hl : ¬ f.Lives pid) :
    ¬ (f.run conv cs).Lives pid := by
  induction cs generalizing f with
  | nil => exact hl
  | cons c cs ih =>
    exact ih (fun c' hc' => hp c' (List.mem_cons_of_mem _ hc'))
      (not_lives_step (hp c List.mem_cons_self) hl)

theorem savedAt_of_not_lives (hl : ¬ f.Lives pid) : f.savedAt conv pid c = false := by
  cases c <;> simp [savedAt, hl]

theorem saves_of_not_lives (hp : ∀ c ∈ cs, pid ∉ c.pids) (hl : ¬ f.Lives pid) :
    f.saves conv pid cs = 0 := by
  induction cs generalizing f with
  | nil => rfl
  | cons c cs ih =>
    rw [saves, savedAt_of_not_lives hl, ih (fun c' hc' => hp c' (List.mem_cons_of_mem _ hc'))
      (not_lives_step (hp c List.mem_cons_self) hl)]
    rfl

/-- A daemon that lives on has the copy that it had, or has made one of its turns and the plant
lives. -/
theorem step_copies (hl : (f.step conv c).Lives pid) (hcopy : f.copies pid = some plant) :
    ((∃ h now now', c = .turn h pid now now' ∧ 0 < (tend conv plant now).health ∧
        (f.step conv c).copies pid = some (tend conv plant now) ∧
        f.savedAt conv pid c = decide (secondsPassed conv plant now ≥ 60)) ∨
      f.savedAt conv pid c = false ∧ (f.step conv c).copies pid = some plant) := by
  cases c with
  | dplant d arg locked ts now =>
    exact Or.inr ⟨rfl, by rw [Farm.step, copies_dplant, hcopy]⟩
  | dkill h input => exact Or.inr ⟨rfl, (copies_aftermath hl).trans hcopy⟩
  | exit pid' => exact Or.inr ⟨rfl, (copies_exit hl).trans hcopy⟩
  | turn h pid' now now' =>
    by_cases hpid : pid' = pid
    · subst hpid
      have hlives : f.Lives pid' := by
        by_contra hno
        exact not_lives_step (c := .turn h pid' now now') List.not_mem_nil hno hl
      obtain ⟨d, hfind, rfl⟩ := find?_of_lives hlives
      have hstep : f.step conv (.turn h d.pid now now') = f.cycle conv h d plant now := by
        simp only [Farm.step, Farm.daemonWork, hfind, hcopy]
      rw [hstep] at hl ⊢
      unfold Farm.cycle at hl ⊢
      split_ifs at hl ⊢ with hdead
      · exact absurd hl (not_lives_exit _ d.pid)
      · refine Or.inl ⟨h, now, now', rfl, Int.not_le.mp hdead, Function.update_self _ _ _, ?_⟩
        simp [savedAt, hlives, hcopy]
    · have hfalse : f.savedAt conv pid (.turn h pid' now now') = false := by
        simp [savedAt, hpid]
      refine Or.inr ⟨hfalse, ?_⟩
      simp only [Farm.step, Farm.daemonWork] at hl ⊢
      cases hfind : f.host.daemons.find? (·.pid = pid') with
      | none => exact hcopy
      | some d =>
        have hd : d.pid = pid' := by simpa using List.find?_some hfind
        have hne : pid ≠ d.pid := fun he => hpid (hd.symm.trans he.symm)
        cases hcopy' : f.copies pid' with
        | none =>
          simp only [Farm.load]
          cases f.files d.name <;> exact (Function.update_of_ne hne _ _).trans hcopy
        | some plant' =>
          simp only [hfind, hcopy', Farm.cycle] at hl ⊢
          have hsave : (f.save conv d plant' now).copies pid = some plant :=
            (Function.update_of_ne hne _ _).trans hcopy
          split_ifs at hl ⊢
          · exact (copies_plantDied hl).trans hsave
          · exact hsave

/-- How often a plant can be saved at most. -/
def lifetime (plant : PlantStats) : Int :=
  if 0 < plant.waterlevel then (plant.waterlevel + 4) / 5 + 19
  else max 1 ((plant.health + 4) / 5)

theorem lifetime_pos (plant : PlantStats) : 1 ≤ lifetime plant := by
  unfold lifetime
  split_ifs <;> omega

theorem lifetime_le (hr : InRange plant) : lifetime plant ≤ 39 := by
  have hw := hr.waterlevel_le
  have hh := hr.health_le
  unfold lifetime
  split_ifs <;> omega

theorem healthRule_ge (health waterlevel : Int) : health - 5 ≤ healthRule health waterlevel := by
  unfold healthRule
  split_ifs <;> omega

/-- A plant that lives on has less time left. The water goes first, and then the health, of which
there is no more than 95 when the last of the water has gone. -/
theorem lifetime_grow (hr : InRange plant) {seconds : Int} (hs : 60 ≤ seconds)
    (hh : 0 < (grow plant now seconds).health) :
    lifetime (grow plant now seconds) + 1 ≤ lifetime plant := by
  have hle := decay_le hs hr.waterlevel_nonneg
  have h0 := decay_nonneg plant.waterlevel seconds
  have hw := hr.waterlevel_nonneg
  have hmax := hr.health_le
  have hlife : lifetime (grow plant now seconds) =
      if 0 < decay plant.waterlevel seconds then (decay plant.waterlevel seconds + 4) / 5 + 19
      else max 1 (((grow plant now seconds).health + 4) / 5) := rfl
  rw [hlife, lifetime]
  by_cases hdry : decay plant.waterlevel seconds = 0
  · have hhealth : (grow plant now seconds).health = plant.health - 5 := if_pos hdry
    rw [hhealth] at hh ⊢
    rw [if_neg (by omega)]
    split_ifs <;> omega
  · rw [if_pos (by omega), if_pos (by omega)]
    omega

theorem saves_le_lifetime (conv : IntConversion) (hp : ∀ c ∈ cs, pid ∉ c.pids) (hr : InRange plant)
    (hcopy : f.copies pid = some plant) : (f.saves conv pid cs : Int) ≤ lifetime plant := by
  induction cs generalizing f plant with
  | nil =>
    have hpos := lifetime_pos plant
    simp only [saves]
    omega
  | cons c cs ih =>
    have hp' : ∀ c' ∈ cs, pid ∉ c'.pids := fun c' hc' => hp c' (List.mem_cons_of_mem _ hc')
    have hpos := lifetime_pos plant
    rw [saves]
    by_cases hl : (f.step conv c).Lives pid
    · rcases step_copies hl hcopy with ⟨h, now, now', -, hh, hnext, hsaved⟩ | ⟨hsaved, hnext⟩
      · have hle := ih hp' hr.tend hnext
        rw [hsaved]
        unfold tend at hh hle
        split_ifs at hh hle with hs
        · have hless := lifetime_grow hr hs hh
          simp only [hs, decide_true, Bool.toNat_true]
          omega
        · simp only [hs, decide_false, Bool.toNat_false]
          omega
      · have hle := ih hp' hr hnext
        rw [hsaved, Bool.toNat_false]
        omega
    · rw [saves_of_not_lives hp' hl]
      have hone := Bool.toNat_le (f.savedAt conv pid c)
      omega

theorem tend_health (conv : IntConversion) (plant : PlantStats) (now : Int) :
    plant.health - 5 * ((decide (secondsPassed conv plant now ≥ 60)).toNat : Int) ≤
      (tend conv plant now).health := by
  unfold tend
  split_ifs with hs
  · have hge := healthRule_ge plant.health (decay plant.waterlevel (secondsPassed conv plant now))
    simp only [hs, decide_true, Bool.toNat_true, grow]
    omega
  · simp only [hs, decide_false, Bool.toNat_false]
    omega

/-- What a plant has lost it has lost 5 at a time. -/
theorem health_run (hp : ∀ c ∈ cs, pid ∉ c.pids) (hcopy : f.copies pid = some plant)
    (hl : (f.run conv cs).Lives pid) :
    ∃ plant', (f.run conv cs).copies pid = some plant' ∧
      plant.health - 5 * (f.saves conv pid cs : Int) ≤ plant'.health := by
  induction cs generalizing f plant with
  | nil => exact ⟨plant, hcopy, by simp [saves]⟩
  | cons c cs ih =>
    have hp' : ∀ c' ∈ cs, pid ∉ c'.pids := fun c' hc' => hp c' (List.mem_cons_of_mem _ hc')
    have hlives : (f.step conv c).Lives pid := by
      by_contra hno
      exact not_lives_run hp' hno hl
    rw [saves]
    rcases step_copies hlives hcopy with ⟨h, now, now', -, -, hnext, hsaved⟩ | ⟨hsaved, hnext⟩
    · obtain ⟨plant', hrun, hle⟩ := ih hp' hnext hl
      have htend : plant.health - _ ≤ _ := tend_health conv plant now
      refine ⟨plant', hrun, ?_⟩
      rw [hsaved]
      omega
    · obtain ⟨plant', hrun, hle⟩ := ih hp' hnext hl
      refine ⟨plant', hrun, ?_⟩
      rw [hsaved, Bool.toNat_false]
      omega

end Farm

variable (conv)

/-- Whatever is done to the plants of a host, in whatever order and at whatever times, all of them
stay within these bounds, in their files and with their daemons. None gets beyond level 1. -/
theorem farm_in_range (cs : List Chore) :
    (∀ name plant, (Farm.bare.run conv cs).files name = some plant → InRange plant) ∧
      ∀ pid plant, (Farm.bare.run conv cs).copies pid = some plant → InRange plant := by
  have hbare : Farm.bare.AllInRange := by
    constructor
    · intro name plant h
      cases h
    · intro pid plant h
      cases h
  exact ⟨(hbare.run cs).files, (hbare.run cs).copies⟩

/-- Once a daemon has loaded its plant it saves it 39 times at most, and it does not let it die
before the 5 of each time add up to its health, however much it is watered. -/
theorem lifespan (before cs : List Chore) {pid : Pid} {plant : PlantStats}
    (hcopy : (Farm.bare.run conv before).copies pid = some plant)
    (hp : ∀ c ∈ cs, pid ∉ c.pids) :
    (Farm.bare.run conv before).saves conv pid cs ≤ 39 ∧
      ∀ h now now', ((Farm.bare.run conv before).run conv cs).Lives pid →
        ¬ ((Farm.bare.run conv before).run conv (cs ++ [.turn h pid now now'])).Lives pid →
        plant.health ≤
          5 * (Farm.bare.run conv before).saves conv pid (cs ++ [.turn h pid now now']) := by
  set f := Farm.bare.run conv before with hf
  constructor
  · have hr := (farm_in_range conv before).2 pid plant hcopy
    have hle := (Farm.saves_le_lifetime conv hp hr hcopy).trans (Farm.lifetime_le hr)
    omega
  · intro h now now' hl hdead
    obtain ⟨plant', hrun, hle⟩ := Farm.health_run hp hcopy hl
    obtain ⟨d, hfind, rfl⟩ := Farm.find?_of_lives hl
    have hstep : f.run conv (cs ++ [.turn h d.pid now now']) =
        (f.run conv cs).cycle conv h d plant' now := by
      simp only [Farm.run_concat, Farm.step, Farm.daemonWork, hfind, hrun]
    have hhealth : (Farm.tend conv plant' now).health ≤ 0 := by
      by_contra hgt
      rw [hstep, Farm.cycle, if_neg hgt] at hdead
      exact hdead hl
    have htend : plant'.health - _ ≤ _ := Farm.tend_health conv plant' now
    have hsaved : (f.run conv cs).savedAt conv d.pid (.turn h d.pid now now') =
        decide (secondsPassed conv plant' now ≥ 60) := by
      simp [Farm.savedAt, hl, hrun]
    rw [Farm.saves_append, hsaved]
    omega

/-- A clock that is never read beyond the range of `int`. -/
def IntConversion.exact : IntConversion := ⟨fun d => d, fun _ _ => rfl⟩

/-- No signal can be sent. -/
def System.idle : System :=
  ⟨fun _ => false, fun _ => false, ⟨7, by decide, by decide⟩, fun _ => epoch⟩

/-- A new plant, watered between two turns. -/
theorem lifespan_basil :
    let pid : Pid := ⟨100, by decide, by decide⟩
    let other : Pid := ⟨101, by decide, by decide⟩
    let planted := [.dplant ⟨basil, pid⟩ none true epoch 0, .turn .idle pid 0 0]
    let tended :=
      [.turn .idle pid 60 60, .dplant ⟨basil, other⟩ (some "water".toList) true epoch 70]
    (Farm.bare.run .exact planted).saves .exact pid tended ≤ 39 ∧
      ∀ h now now', ((Farm.bare.run .exact planted).run .exact tended).Lives pid →
        ¬ ((Farm.bare.run .exact planted).run .exact (tended ++ [.turn h pid now now'])).Lives pid →
        (plantInitState 0 0).health ≤ 5 * (Farm.bare.run .exact planted).saves .exact pid
          (tended ++ [.turn h pid now now']) :=
  lifespan .exact _ _ (by decide +kernel) (by decide)

end Corestack.Plant
