import Corestack.Plant.Farm

/-! # Dead plants

As long as nobody runs `dkill`, the first daemon of a plant is the only one that is in
the register, and while it lives the plant has no other. So a daemon whose plant dies
finds no daemon but itself to kill, which ends it before it has dug a grave; and there is
no daemon that a plant could be watered for any more.
-/

namespace Corestack.Plant

open Text

/-- A chore other than `dkill`, for a plant with a name. -/
def Chore.Plain : Chore → Prop
  | dplant d _ _ _ _ => d.name.text ≠ []
  | turn _ _ _ _ => True
  | dkill _ _ => False
  | exit _ => True

instance : DecidablePred Chore.Plain
  | .dplant d _ _ _ _ => inferInstanceAs (Decidable (d.name.text ≠ []))
  | .turn _ _ _ _ => .isTrue trivial
  | .dkill _ _ => .isFalse id
  | .exit _ => .isTrue trivial

/-- The register has a line for each plant. A daemon that has the line of its plant is the only one
of the plant. -/
structure Rolled (h : Host) (used : List Pid) (rs : List Record) : Prop where
  reg : h.reg = rs.flatMap Record.line
  recorded : ∀ r ∈ rs, r.daemon.pid ∈ used
  living : ∀ d ∈ h.daemons, d.pid ∈ used
  pids : ∀ d ∈ h.daemons, ∀ d' ∈ h.daemons, d.pid = d'.pid → d = d'
  known : ∀ d ∈ h.daemons, ∃ r ∈ rs, r.daemon.name = d.name
  own : ∀ r ∈ rs, ∀ d ∈ h.daemons, d.pid = r.daemon.pid → d = r.daemon
  sole : ∀ r ∈ rs, r.daemon ∈ h.daemons → ∀ d ∈ h.daemons, d.name = r.daemon.name → d = r.daemon

/-- A plant that has no health has no water. -/
def Drained (plant : PlantStats) : Prop := plant.health ≤ 0 → plant.waterlevel = 0

/-- A state file is that of a plant in the register, and the plant has health as long as the daemon
that has its line lives. -/
structure FileOk (daemons : List Daemon) (rs : List Record) (name : PlantName)
    (plant : PlantStats) : Prop where
  known : ∃ r ∈ rs, r.daemon.name = name
  drained : Drained plant
  alive : ∀ r ∈ rs, r.daemon.name = name → r.daemon ∈ daemons → 0 < plant.health

structure CopyOk (daemons : List Daemon) (used : List Pid) (rs : List Record) (pid : Pid)
    (plant : PlantStats) : Prop where
  used : pid ∈ used
  drained : Drained plant
  alive : ∀ r ∈ rs, r.daemon.pid = pid → r.daemon ∈ daemons → 0 < plant.health

structure Orderly (f : Farm) (used : List Pid) (rs : List Record) : Prop where
  rolled : Rolled f.host used rs
  inRange : f.AllInRange
  files : ∀ name plant, f.files name = some plant → FileOk f.host.daemons rs name plant
  copies : ∀ pid plant, f.copies pid = some plant → CopyOk f.host.daemons used rs pid plant

variable {conv : IntConversion} {f : Farm} {host : Host} {h : System} {used : List Pid}
  {rs : List Record} {name : PlantName} {plant : PlantStats} {d : Daemon} {pid : Pid}
  {now now' : Int} {c : Chore} {cs : List Chore}

/-! ## The register -/

theorem registered_records (rs : List Record) :
    registered (rs.flatMap Record.line) = rs.map Record.entry := by
  induction rs with
  | nil => rfl
  | cons r rs ih =>
    have hline : fgets 1023 (r.line ++ rs.flatMap Record.line) =
        r.line :: fgets 1023 (rs.flatMap Record.line) :=
      fgets_entryLine (by decide) r.daemon r.ts _
    have hscan : scanEntry r.line = some r.entry := scanEntry_entryLine r.named r.ts
    rw [registered] at ih ⊢
    rw [List.flatMap_cons, hline, List.filterMap_cons, hscan, ih]
    rfl

namespace Rolled

theorem registered_iff (hr : Rolled host used rs) :
    host.registered name = true ↔ ∃ r ∈ rs, r.daemon.name = name := by
  rw [Host.registered, isDaemonRegistered_iff, hr.reg, entries_records]
  simp [Record.entry, PlantName.ext_iff]

theorem alive_iff (hr : Rolled host used rs) {r : Record} (hm : r ∈ rs) :
    host.alive r.daemon.pid.val = true ↔ r.daemon ∈ host.daemons := by
  rw [Host.alive_iff]
  constructor
  · rintro ⟨d, hd, hpid⟩
    exact hr.own r hm d hd hpid ▸ hd
  · intro hd
    exact ⟨r.daemon, hd, rfl⟩

theorem running_iff (hr : Rolled host used rs) :
    host.running name = true ↔ ∃ r ∈ rs, r.daemon.name = name ∧ r.daemon ∈ host.daemons := by
  rw [Host.running, isPlantRunning_iff, hr.reg, entries_records]
  constructor
  · rintro ⟨e, he, hname, halive⟩
    obtain ⟨r, hm, rfl⟩ := List.mem_map.mp he
    exact ⟨r, hm, PlantName.ext hname, (hr.alive_iff hm).mp halive⟩
  · rintro ⟨r, hm, rfl, hd⟩
    exact ⟨r.entry, List.mem_map_of_mem hm, rfl, (hr.alive_iff hm).mpr hd⟩

theorem mono (hr : Rolled host used rs) (pids : List Pid) : Rolled host (used ++ pids) rs :=
  ⟨hr.reg, fun r hm => List.mem_append_left _ (hr.recorded r hm),
    fun d hd => List.mem_append_left _ (hr.living d hd), hr.pids, hr.known, hr.own, hr.sole⟩

theorem shrink (hr : Rolled host used rs) {daemons : List Daemon} (hs : daemons ⊆ host.daemons) :
    Rolled ⟨host.reg, daemons⟩ used rs :=
  ⟨hr.reg, hr.recorded, fun d hd => hr.living d (hs hd),
    fun d hd d' hd' => hr.pids d (hs hd) d' (hs hd'), fun d hd => hr.known d (hs hd),
    fun r hm d hd => hr.own r hm d (hs hd),
    fun r hm hrd d hd => hr.sole r hm (hs hrd) d (hs hd)⟩

/-- A new process has a number of its own. -/
theorem pids_append (hr : Rolled host used rs) (hp : d.pid ∉ used) :
    ∀ d₁ ∈ host.daemons ++ [d], ∀ d₂ ∈ host.daemons ++ [d], d₁.pid = d₂.pid → d₁ = d₂ := by
  intro d₁ h₁ d₂ h₂ hpid
  rcases List.mem_append.mp h₁ with h₁ | h₁ <;> rcases List.mem_append.mp h₂ with h₂ | h₂
  · exact hr.pids d₁ h₁ d₂ h₂ hpid
  · rw [List.mem_singleton.mp h₂] at hpid
    exact absurd (hpid ▸ hr.living d₁ h₁) hp
  · rw [List.mem_singleton.mp h₁] at hpid
    exact absurd (hpid ▸ hr.living d₂ h₂) hp
  · rw [List.mem_singleton.mp h₁, List.mem_singleton.mp h₂]

/-- The first daemon of a plant. -/
theorem spawnNew (hr : Rolled host used rs) {r : Record}
    (hreg : host.registered r.daemon.name = false) (hp : r.daemon.pid ∉ used) :
    Rolled (host.spawnPlant r.daemon r.ts) (used ++ [r.daemon.pid]) (rs ++ [r]) := by
  have hname : ∀ r' ∈ rs, r'.daemon.name ≠ r.daemon.name := by
    intro r' hm he
    rw [hr.registered_iff.mpr ⟨r', hm, he⟩] at hreg
    cases hreg
  have hdname : ∀ d ∈ host.daemons, d.name ≠ r.daemon.name := by
    intro d hd
    obtain ⟨r', hm, he⟩ := hr.known d hd
    exact he ▸ hname r' hm
  have hreg' : daemonRegister host.reg r.daemon r.ts = host.reg ++ r.line := by
    rw [Host.registered] at hreg
    rw [daemonRegister, hreg]
    rfl
  constructor
  · rw [Host.spawnPlant, hreg', hr.reg, List.flatMap_append, List.flatMap_singleton]
  · intro r' hm
    rcases List.mem_append.mp hm with hm | hm
    · exact List.mem_append_left _ (hr.recorded r' hm)
    · rw [List.mem_singleton.mp hm]
      exact List.mem_append_right _ (List.mem_singleton_self _)
  · intro d hd
    rcases List.mem_append.mp hd with hd | hd
    · exact List.mem_append_left _ (hr.living d hd)
    · rw [List.mem_singleton.mp hd]
      exact List.mem_append_right _ (List.mem_singleton_self _)
  · exact hr.pids_append hp
  · intro d hd
    rcases List.mem_append.mp hd with hd | hd
    · obtain ⟨r', hm, he⟩ := hr.known d hd
      exact ⟨r', List.mem_append_left _ hm, he⟩
    · exact ⟨r, List.mem_append_right _ (List.mem_singleton_self r),
        by rw [List.mem_singleton.mp hd]⟩
  · intro r' hm d hd hpid
    rcases List.mem_append.mp hm with hm | hm <;> rcases List.mem_append.mp hd with hd | hd
    · exact hr.own r' hm d hd hpid
    · rw [List.mem_singleton.mp hd] at hpid
      exact absurd (hpid ▸ hr.recorded r' hm) hp
    · rw [List.mem_singleton.mp hm] at hpid
      exact absurd (hpid ▸ hr.living d hd) hp
    · rw [List.mem_singleton.mp hm, List.mem_singleton.mp hd]
  · intro r' hm hrd d hd he
    rcases List.mem_append.mp hm with hm | hm
    · have hd' : d ∈ host.daemons := by
        rcases List.mem_append.mp hd with hd | hd
        · exact hd
        · rw [List.mem_singleton.mp hd] at he
          exact absurd he.symm (hname r' hm)
      rcases List.mem_append.mp hrd with hrd | hrd
      · exact hr.sole r' hm hrd d hd' he
      · exact absurd (congrArg Daemon.name (List.mem_singleton.mp hrd)) (hname r' hm)
    · rw [List.mem_singleton.mp hm] at he ⊢
      rcases List.mem_append.mp hd with hd | hd
      · exact absurd he (hdname d hd)
      · exact List.mem_singleton.mp hd

/-- Another daemon of a plant whose first one is gone. -/
theorem spawnAgain (hr : Rolled host used rs) {ts : Timestamp}
    (hrun : host.running d.name = false) (hreg : host.registered d.name = true)
    (hp : d.pid ∉ used) : Rolled (host.spawnPlant d ts) (used ++ [d.pid]) rs := by
  have hspawn : host.spawnPlant d ts = ⟨host.reg, host.daemons ++ [d]⟩ := by
    rw [Host.spawnPlant, daemonRegister, show isDaemonRegistered host.reg d.name = true from hreg]
    rfl
  have hgone : ∀ r ∈ rs, r.daemon.name = d.name → r.daemon ∉ host.daemons := by
    intro r hm he hrd
    rw [hr.running_iff.mpr ⟨r, hm, he, hrd⟩] at hrun
    cases hrun
  have hne : ∀ r ∈ rs, d.pid ≠ r.daemon.pid := by
    intro r hm hpid
    exact hp (hpid ▸ hr.recorded r hm)
  rw [hspawn]
  constructor
  · exact hr.reg
  · exact fun r hm => List.mem_append_left _ (hr.recorded r hm)
  · intro d' hd
    rcases List.mem_append.mp hd with hd | hd
    · exact List.mem_append_left _ (hr.living d' hd)
    · rw [List.mem_singleton.mp hd]
      exact List.mem_append_right _ (List.mem_singleton_self _)
  · exact hr.pids_append hp
  · intro d' hd
    rcases List.mem_append.mp hd with hd | hd
    · exact hr.known d' hd
    · rw [List.mem_singleton.mp hd]
      exact hr.registered_iff.mp hreg
  · intro r hm d' hd hpid
    rcases List.mem_append.mp hd with hd | hd
    · exact hr.own r hm d' hd hpid
    · rw [List.mem_singleton.mp hd] at hpid
      exact absurd hpid (hne r hm)
  · intro r hm hrd d' hd he
    have hold : r.daemon ∈ host.daemons := by
      rcases List.mem_append.mp hrd with hrd | hrd
      · exact hrd
      · exact absurd (congrArg Daemon.pid (List.mem_singleton.mp hrd)).symm (hne r hm)
    rcases List.mem_append.mp hd with hd | hd
    · exact hr.sole r hm hold d' hd he
    · rw [List.mem_singleton.mp hd] at he
      exact absurd hold (hgone r hm he.symm)

end Rolled

/-! ## The daemon of a plant that dies -/

theorem register_dkillAutoEach (h : System) (name : List Char) (i : Nat) (ds : List Entry)
    (a : Aftermath) : (dkillAutoEach h name i ds a).register = a.register := by
  induction ds generalizing i a with
  | nil => rfl
  | cons d ds ih =>
    unfold dkillAutoEach
    split_ifs <;> simp [ih]

/-- Whoever finds no other daemon of the name than itself digs no grave. -/
theorem cematary_dkillAutoEach {name : List Char} {ds : List Entry} (i : Nat) (a : Aftermath)
    (hself : ∀ e ∈ ds, e.name = name → e.pid = h.getpid.val) :
    (dkillAutoEach h name i ds a).cematary = a.cematary := by
  induction ds generalizing i a with
  | nil => rfl
  | cons d ds ih =>
    have htail : ∀ e ∈ ds, e.name = name → e.pid = h.getpid.val :=
      fun e he => hself e (List.mem_cons_of_mem _ he)
    unfold dkillAutoEach
    split_ifs with hname hkill hpid
    · exact ih i a htail
    · rfl
    · exact absurd (hself d List.mem_cons_self (Decidable.not_not.mp hname)) hpid
    · exact ih (i + 1) a htail

theorem Rolled.dkillAuto_cematary (hr : Rolled host used rs) (hd : d ∈ host.daemons) (h : System)
    (cematary : List Char) :
    (dkillAuto { h with alive := host.alive, getpid := d.pid } host.reg cematary
      d.name.text).cematary = cematary := by
  apply cematary_dkillAutoEach
  intro e he hname
  rw [scanActive_fgets] at he
  obtain ⟨hmem, halive⟩ := List.mem_filter.mp (List.mem_of_mem_take he)
  rw [hr.reg, registered_records] at hmem
  obtain ⟨r, hm, rfl⟩ := List.mem_map.mp hmem
  have hrd := (hr.alive_iff hm).mp halive
  exact congrArg (fun d => d.pid.val) (hr.sole r hm hrd d hd (PlantName.ext hname.symm)).symm

theorem Rolled.plantDied (hr : Rolled f.host used rs) (h : System) (d : Daemon) :
    Rolled (f.plantDied h d).host used rs := by
  have hreg : (dkillAuto { h with alive := f.host.alive, getpid := d.pid } f.host.reg f.cematary
      d.name.text).register = f.host.reg := register_dkillAutoEach _ _ _ _ _
  have hs : (f.plantDied h d).host.daemons ⊆ f.host.daemons := fun d' hd' =>
    List.mem_of_mem_filter (List.mem_of_mem_filter hd')
  have hshrunk := hr.shrink hs
  rw [← hreg] at hshrunk
  exact hshrunk

theorem not_mem_plantDied (f : Farm) (h : System) (d : Daemon) :
    d ∉ (f.plantDied h d).host.daemons := by
  intro hd
  exact Farm.not_lives_exit _ d.pid ⟨d, hd, rfl⟩

theorem daemons_plantDied : (f.plantDied h d).host.daemons ⊆ f.host.daemons :=
  fun _ hd => List.mem_of_mem_filter (List.mem_of_mem_filter hd)

theorem cematary_plantDied (hr : Rolled f.host used rs) (hd : d ∈ f.host.daemons) :
    (f.plantDied h d).cematary = f.cematary :=
  hr.dkillAuto_cematary hd h f.cematary

/-! ## What the chores keep -/

theorem FileOk.mono {daemons daemons' : List Daemon} (hk : FileOk daemons rs name plant)
    (hs : daemons' ⊆ daemons) : FileOk daemons' rs name plant :=
  ⟨hk.known, hk.drained, fun r hm he hd => hk.alive r hm he (hs hd)⟩

theorem CopyOk.mono {daemons daemons' : List Daemon} (hk : CopyOk daemons used rs pid plant)
    (hs : daemons' ⊆ daemons) : CopyOk daemons' used rs pid plant :=
  ⟨hk.used, hk.drained, fun r hm he hd => hk.alive r hm he (hs hd)⟩

/-- The last health goes when there is no water. -/
theorem Drained.tend (hk : Drained plant) (hr : InRange plant) :
    Drained (Farm.tend conv plant now) := by
  unfold Farm.tend
  split_ifs with hs
  · intro hh
    by_contra hwet
    have hle := decay_le hs hr.waterlevel_nonneg
    have h0 := decay_nonneg plant.waterlevel (secondsPassed conv plant now)
    have hkept : plant.health ≤ (grow plant now (secondsPassed conv plant now)).health := by
      simp only [grow] at hwet ⊢
      unfold healthRule
      rw [if_neg hwet]
      split_ifs <;> omega
    have hdry := hk (hkept.trans hh)
    simp only [grow] at hwet
    omega
  · exact hk

theorem drained_of_pos (hh : 0 < plant.health) : Drained plant :=
  fun hle => absurd hh (Int.not_lt.mpr hle)

/-- A plant in the register stays there, and gets no first daemon again. -/
def Lasting (host host' : Host) : Prop :=
  ∀ name, host.registered name = true →
    host'.registered name = true ∧ (host'.running name = true → host.running name = true)

theorem Lasting.refl (host : Host) : Lasting host host := fun _ hreg => ⟨hreg, id⟩

theorem Lasting.trans {host' host'' : Host} (h₁ : Lasting host host')
    (h₂ : Lasting host' host'') : Lasting host host'' := by
  intro name hreg
  obtain ⟨hreg', hrun⟩ := h₁ name hreg
  obtain ⟨hreg'', hrun'⟩ := h₂ name hreg'
  exact ⟨hreg'', fun hr => hrun (hrun' hr)⟩

theorem Rolled.lasting {host' : Host} {used' : List Pid} {rs' : List Record}
    (hr : Rolled host used rs) (hr' : Rolled host' used' rs') (hrs : rs ⊆ rs')
    (hnew : ∀ r ∈ rs', r.daemon ∈ host'.daemons → (∃ r' ∈ rs, r'.daemon.name = r.daemon.name) →
      r ∈ rs ∧ r.daemon ∈ host.daemons) : Lasting host host' := by
  intro name hreg
  obtain ⟨r, hm, he⟩ := hr.registered_iff.mp hreg
  constructor
  · exact hr'.registered_iff.mpr ⟨r, hrs hm, he⟩
  · intro hrun
    obtain ⟨r', hm', rfl, hd⟩ := hr'.running_iff.mp hrun
    obtain ⟨hmem, hold⟩ := hnew r' hm' hd ⟨r, hm, he⟩
    exact hr.running_iff.mpr ⟨r', hmem, rfl, hold⟩

/-- What comes out of a chore: all is in order, nothing was forgotten, no grave was dug. -/
structure Kept (f f' : Farm) (used : List Pid) : Prop where
  orderly : ∃ rs, Orderly f' used rs
  lasting : Lasting f.host f'.host
  cematary : f'.cematary = f.cematary

theorem Orderly.kept (ho : Orderly f used rs) {f' : Farm} (hr : f'.AllInRange)
    (hreg : f'.host.reg = f.host.reg) (hd : f'.host.daemons ⊆ f.host.daemons)
    (hfiles : ∀ name plant, f'.files name = some plant →
      FileOk f'.host.daemons rs name plant ∨ f.files name = some plant)
    (hcopies : ∀ pid plant, f'.copies pid = some plant →
      CopyOk f'.host.daemons used rs pid plant ∨ f.copies pid = some plant)
    (hcem : f'.cematary = f.cematary) (pids : List Pid) : Kept f f' (used ++ pids) := by
  have hrolled : Rolled f'.host used rs := by
    have hs := ho.rolled.shrink hd
    rw [← hreg] at hs
    exact hs
  refine ⟨⟨rs, hrolled.mono pids, hr, ?_, ?_⟩, ?_, hcem⟩
  · intro name plant hfile
    rcases hfiles name plant hfile with hk | hold
    · exact hk
    · exact (ho.files name plant hold).mono hd
  · intro pid plant hcopy
    have hk : CopyOk f'.host.daemons used rs pid plant := by
      rcases hcopies pid plant hcopy with hk | hold
      · exact hk
      · exact (ho.copies pid plant hold).mono hd
    exact ⟨List.mem_append_left _ hk.used, hk.drained, hk.alive⟩
  · exact ho.rolled.lasting hrolled (List.Subset.refl rs) fun r hm hrd _ => ⟨hm, hd hrd⟩

theorem Orderly.same (ho : Orderly f used rs) (pids : List Pid) : Kept f f (used ++ pids) :=
  ho.kept ho.inRange rfl (List.Subset.refl _) (fun _ _ h => Or.inr h) (fun _ _ h => Or.inr h) rfl
    pids

theorem Orderly.spawn (ho : Orderly f used rs) {ts : Timestamp} {rs' : List Record}
    (hr : Rolled (f.host.spawnPlant d ts) (used ++ [d.pid]) rs') (hp : d.pid ∉ used)
    (hrs : rs ⊆ rs') (hnew : ∀ r ∈ rs', r ∈ rs ∨ f.host.registered r.daemon.name = false ∧
      r.daemon = d) : Kept f { f with host := f.host.spawnPlant d ts } (used ++ [d.pid]) := by
  have hold : ∀ r ∈ rs, r.daemon ∈ (f.host.spawnPlant d ts).daemons →
      r.daemon ∈ f.host.daemons := by
    intro r hm hrd
    rcases List.mem_append.mp hrd with hrd | hrd
    · exact hrd
    · have hpid := congrArg Daemon.pid (List.mem_singleton.mp hrd)
      exact absurd (hpid ▸ ho.rolled.recorded r hm) hp
  have hfresh : ∀ name, f.host.registered name = false → ¬ ∃ r ∈ rs, r.daemon.name = name := by
    intro name hno hex
    rw [ho.rolled.registered_iff.mpr hex] at hno
    cases hno
  refine ⟨⟨rs', hr, ⟨ho.inRange.files, ho.inRange.copies⟩, ?_, ?_⟩, ?_, rfl⟩
  · intro name plant hfile
    have hk := ho.files name plant hfile
    obtain ⟨r, hm, he⟩ := hk.known
    refine ⟨⟨r, hrs hm, he⟩, hk.drained, ?_⟩
    intro r' hm' he' hrd
    rcases hnew r' hm' with hmem | ⟨hno, -⟩
    · exact hk.alive r' hmem he' (hold r' hmem hrd)
    · exact absurd ⟨r, hm, he.trans he'.symm⟩ (hfresh _ hno)
  · intro pid plant hcopy
    have hk := ho.copies pid plant hcopy
    refine ⟨List.mem_append_left _ hk.used, hk.drained, ?_⟩
    intro r' hm' he' hrd
    rcases hnew r' hm' with hmem | ⟨-, rfl⟩
    · exact hk.alive r' hmem he' (hold r' hmem hrd)
    · exact absurd (he' ▸ hk.used) hp
  · apply ho.rolled.lasting hr hrs
    intro r hm hrd hex
    rcases hnew r hm with hmem | ⟨hno, -⟩
    · exact ⟨hmem, hold r hmem hrd⟩
    · exact absurd hex (hfresh _ hno)

theorem Orderly.dplant (ho : Orderly f used rs) (arg : Option (List Char)) (locked : Bool)
    (ts : Timestamp) (hname : d.name.text ≠ []) (hp : d.pid ∉ used) :
    Kept f (f.dplant d arg locked ts now) (used ++ [d.pid]) := by
  cases arg with
  | none =>
    simp only [Farm.dplant, Host.startPlant]
    split_ifs with hrun hlock hreg
    · exact ho.same _
    · exact ho.same _
    · have hno : f.host.registered d.name = false := by simpa using hreg
      let r : Record := ⟨d, ts, hname⟩
      refine ho.spawn (ho.rolled.spawnNew (r := r) hno hp) hp (List.subset_append_left _ _) ?_
      intro r' hm
      rcases List.mem_append.mp hm with hm | hm
      · exact Or.inl hm
      · obtain rfl := List.mem_singleton.mp hm
        exact Or.inr ⟨hno, rfl⟩
    · exact ho.same _
  | some arg =>
    simp only [Farm.dplant, Host.respawnPlant]
    split_ifs with hidle hre hrun hreg hwater
    · exact ho.same _
    · exact ho.same _
    · exact ho.same _
    · exact ho.spawn (ho.rolled.spawnAgain (by simpa using hrun) (by simpa using hreg) hp) hp
        (List.Subset.refl rs) fun r hm => Or.inl hm
    · have hruns : f.host.running d.name = true := by
        by_contra hno
        exact hidle (by rw [(Bool.not_eq_true _).mp hno, decide_eq_true hre]; rfl)
      obtain ⟨r, hm, he, hrd⟩ := ho.rolled.running_iff.mp hruns
      have hr := ho.inRange.plantWater d.name now
      unfold Farm.plantWater at hr ⊢
      cases hfile : f.files d.name with
      | none => exact ho.same _
      | some plant =>
        simp only [hfile] at hr
        have hk := ho.files d.name plant hfile
        have halive := hk.alive r hm he hrd
        refine ho.kept hr rfl (List.Subset.refl _) ?_ (fun _ _ h => Or.inr h) rfl _
        intro name plant' hfile'
        simp only [Function.update_apply] at hfile'
        split_ifs at hfile' with hn
        · obtain rfl := Option.some.inj hfile'
          subst hn
          exact Or.inl ⟨hk.known, drained_of_pos halive, fun r' hm' he' hrd' =>
            hk.alive r' hm' he' hrd'⟩
        · exact Or.inr hfile'
    · exact ho.same _

theorem Orderly.load (ho : Orderly f used rs) (hd : d ∈ f.host.daemons) (now now' : Int) :
    Kept f (f.load d now now') used := by
  have hr := ho.inRange.load d now now'
  have hknown := ho.rolled.known d hd
  have hused := ho.rolled.living d hd
  have hpos : 0 < (plantInitState now now').health := show (0 : Int) < 100 by decide
  rw [← List.append_nil used]
  unfold Farm.load at hr ⊢
  cases hfile : f.files d.name with
  | some plant =>
    simp only [hfile] at hr
    have hk := ho.files d.name plant hfile
    refine ho.kept hr rfl (List.Subset.refl _) (fun _ _ h => Or.inr h) ?_ rfl _
    intro pid plant' hcopy
    simp only [Function.update_apply] at hcopy
    split_ifs at hcopy with hpid
    · obtain rfl := Option.some.inj hcopy
      refine Or.inl ⟨hpid ▸ hused, hk.drained, ?_⟩
      intro r hm he hrd
      exact hk.alive r hm (ho.rolled.own r hm d hd (hpid ▸ he.symm) ▸ rfl) hrd
    · exact Or.inr hcopy
  | none =>
    simp only [hfile] at hr
    refine ho.kept hr rfl (List.Subset.refl _) ?_ ?_ rfl _
    · intro name plant' hfile'
      simp only [Function.update_apply] at hfile'
      split_ifs at hfile' with hn
      · obtain rfl := Option.some.inj hfile'
        exact Or.inl ⟨hn ▸ hknown, drained_of_pos hpos, fun _ _ _ _ => hpos⟩
      · exact Or.inr hfile'
    · intro pid plant' hcopy
      simp only [Function.update_apply] at hcopy
      split_ifs at hcopy with hpid
      · obtain rfl := Option.some.inj hcopy
        exact Or.inl ⟨hpid ▸ hused, drained_of_pos hpos, fun _ _ _ _ => hpos⟩
      · exact Or.inr hcopy

theorem Orderly.cycle (ho : Orderly f used rs) (hd : d ∈ f.host.daemons)
    (hcopy : f.copies d.pid = some plant) (h : System) (now : Int) :
    Kept f (f.cycle conv h d plant now) used := by
  have hr := ho.inRange.cycle conv (ho.inRange.copies _ _ hcopy) h d now
  have hdrained : Drained (Farm.tend conv plant now) :=
    (ho.copies _ _ hcopy).drained.tend (ho.inRange.copies _ _ hcopy)
  have hknown := ho.rolled.known d hd
  have hfile : ∀ name plant', (f.save conv d plant now).files name = some plant' →
      name = d.name ∧ plant' = Farm.tend conv plant now ∨ f.files name = some plant' := by
    intro name plant' hfile
    simp only [Farm.save] at hfile
    split_ifs at hfile
    · simp only [Function.update_apply] at hfile
      split_ifs at hfile with hn
      · exact Or.inl ⟨hn, (Option.some.inj hfile).symm⟩
      · exact Or.inr hfile
    · exact Or.inr hfile
  rw [← List.append_nil used]
  unfold Farm.cycle at hr ⊢
  split_ifs at hr ⊢ with hdead
  · refine ho.kept hr (register_dkillAutoEach _ _ _ _ _) daemons_plantDied ?_ ?_
      (cematary_plantDied (f := f.save conv d plant now) ho.rolled hd) _
    · intro name plant' hnew
      rcases hfile name plant' hnew with ⟨rfl, rfl⟩ | hold
      · refine Or.inl ⟨hknown, hdrained, ?_⟩
        intro r hm he hrd
        -- the daemon that has the line would be the one that has exited
        obtain rfl := ho.rolled.sole r hm (daemons_plantDied hrd) d hd he.symm
        exact absurd hrd (not_mem_plantDied _ h _)
      · exact Or.inr hold
    · intro pid plant' hnew
      have hne : pid ≠ d.pid := by
        rintro rfl
        simp [Farm.plantDied, Farm.exit] at hnew
      have hsave := Farm.copies_of_aftermath (Farm.copies_of_exit hnew)
      exact Or.inr ((Function.update_of_ne hne _ _).symm.trans hsave)
  · have hpos := Int.not_le.mp hdead
    refine ho.kept hr rfl (List.Subset.refl _) ?_ ?_ rfl _
    · intro name plant' hnew
      rcases hfile name plant' hnew with ⟨rfl, rfl⟩ | hold
      · exact Or.inl ⟨hknown, hdrained, fun _ _ _ _ => hpos⟩
      · exact Or.inr hold
    · intro pid plant' hnew
      simp only [Farm.save, Function.update_apply] at hnew
      split_ifs at hnew with hpid
      · obtain rfl := Option.some.inj hnew
        exact Or.inl ⟨hpid ▸ ho.rolled.living d hd, hdrained, fun _ _ _ _ => hpos⟩
      · exact Or.inr hnew

theorem Orderly.step (conv : IntConversion) (ho : Orderly f used rs) (hc : c.Plain)
    (hp : ∀ pid ∈ c.pids, pid ∉ used) :
    Kept f (f.step conv c) (used ++ c.pids) := by
  cases c with
  | dplant d arg locked ts now => exact ho.dplant arg locked ts hc (hp d.pid List.mem_cons_self)
  | turn h pid now now' =>
    simp only [Chore.pids, List.append_nil, Farm.step, Farm.daemonWork]
    cases hfind : f.host.daemons.find? (·.pid = pid) with
    | none => simpa using ho.same []
    | some d =>
      have hd := List.mem_of_find?_eq_some hfind
      obtain rfl : d.pid = pid := by simpa using List.find?_some hfind
      cases hcopy : f.copies d.pid with
      | none => exact ho.load hd now now'
      | some plant => exact ho.cycle hd hcopy h now
  | dkill h input => exact hc.elim
  | exit pid =>
    exact ho.kept (ho.inRange.exit pid) rfl (List.filter_subset_self _) (fun _ _ h => Or.inr h)
      (fun _ _ h => Or.inr (Farm.copies_of_exit h)) rfl _

/-! ## Runs -/

/-- No `dkill`, no plant without a name, and no process number twice. -/
structure Undisturbed (cs : List Chore) : Prop where
  plain : ∀ c ∈ cs, c.Plain
  pids : (cs.flatMap Chore.pids).Nodup

theorem Undisturbed.fresh {cs' : List Chore} (hu : Undisturbed (cs ++ cs')) :
    ∀ c ∈ cs', ∀ pid ∈ c.pids, pid ∉ cs.flatMap Chore.pids := by
  intro c hc pid hpid hold
  have hn := hu.pids
  rw [List.flatMap_append, List.nodup_append] at hn
  exact hn.2.2 pid hold pid (List.mem_flatMap.mpr ⟨c, hc, hpid⟩) rfl

theorem orderly_bare : Orderly Farm.bare [] [] := by
  refine ⟨⟨rfl, ?_, ?_, ?_, ?_, ?_, ?_⟩, ⟨?_, ?_⟩, ?_, ?_⟩
  all_goals simp [Farm.bare]

theorem Orderly.run (conv : IntConversion) (ho : Orderly f used rs) (hc : ∀ c ∈ cs, c.Plain)
    (hn : (cs.flatMap Chore.pids).Nodup) (hp : ∀ c ∈ cs, ∀ pid ∈ c.pids, pid ∉ used) :
    Kept f (f.run conv cs) (used ++ cs.flatMap Chore.pids) := by
  induction cs generalizing f used rs with
  | nil => exact ho.same []
  | cons c cs ih =>
    rw [List.flatMap_cons, List.nodup_append] at hn
    have hfirst := ho.step conv (hc c List.mem_cons_self) (hp c List.mem_cons_self)
    obtain ⟨rs', ho'⟩ := hfirst.orderly
    have hrest := ih ho' (fun c' hc' => hc c' (List.mem_cons_of_mem _ hc')) hn.2.1 ?_
    · rw [List.append_assoc] at hrest
      exact ⟨hrest.orderly, hfirst.lasting.trans hrest.lasting,
        hrest.cematary.trans hfirst.cematary⟩
    · intro c' hc' pid hpid hold
      rcases List.mem_append.mp hold with hold | hold
      · exact hp c' (List.mem_cons_of_mem _ hc') pid hpid hold
      · exact hn.2.2 pid hold pid (List.mem_flatMap.mpr ⟨c', hc', hpid⟩) rfl

theorem Undisturbed.kept (hu : Undisturbed cs) (conv : IntConversion) :
    Kept Farm.bare (Farm.bare.run conv cs) (cs.flatMap Chore.pids) :=
  orderly_bare.run conv hu.plain hu.pids fun _ _ _ _ => List.not_mem_nil

theorem Undisturbed.left {cs' : List Chore} (hu : Undisturbed (cs ++ cs')) : Undisturbed cs := by
  constructor
  · exact fun c hc => hu.plain c (List.mem_append_left _ hc)
  · have hn := hu.pids
    rw [List.flatMap_append, List.nodup_append] at hn
    exact hn.1

/-- What comes after the first chores. -/
theorem Undisturbed.kept_after {cs' : List Chore} (hu : Undisturbed (cs ++ cs'))
    (conv : IntConversion) :
    Kept (Farm.bare.run conv cs) (Farm.bare.run conv (cs ++ cs'))
      (cs.flatMap Chore.pids ++ cs'.flatMap Chore.pids) := by
  obtain ⟨rs, ho⟩ := (hu.left.kept conv).orderly
  have hn := hu.pids
  rw [List.flatMap_append, List.nodup_append] at hn
  rw [Farm.run_append]
  exact ho.run conv (fun c hc => hu.plain c (List.mem_append_right _ hc)) hn.2.1 hu.fresh

/-! ## Nobody brings a plant back -/

/-- A plant that has neither health nor water does not recover. -/
theorem tend_of_drained (hh : plant.health ≤ 0) (hk : Drained plant) :
    (Farm.tend conv plant now).health ≤ 0 := by
  unfold Farm.tend
  split_ifs with hs
  · have hdry : decay plant.waterlevel (secondsPassed conv plant now) = 0 := by
      have hmin : 1 ≤ (secondsPassed conv plant now).tdiv 60 := by
        rw [Int.tdiv_eq_ediv_of_nonneg (by omega)]
        omega
      rw [decay_eq_max, hk hh]
      omega
    have hhealth : (grow plant now (secondsPassed conv plant now)).health = plant.health - 5 :=
      if_pos hdry
    omega
  · exact hh

theorem daemons_dplant (arg : Option (List Char)) (locked : Bool) (ts : Timestamp) :
    (f.dplant d arg locked ts now).host.daemons ⊆ f.host.daemons ++ [d] := by
  cases arg with
  | none =>
    simp only [Farm.dplant, Host.startPlant]
    split_ifs <;> simp [Host.spawnPlant]
  | some arg =>
    simp only [Farm.dplant, Host.respawnPlant, Farm.plantWater]
    split_ifs <;> first | simp [Host.spawnPlant] | (cases f.files d.name <;> simp)

theorem health_dplant (d : Daemon) (now : Int) (arg : Option (List Char)) (locked : Bool)
    (ts : Timestamp) (hfile : f.files name = some plant) :
    ∃ plant', (f.dplant d arg locked ts now).files name = some plant' ∧
      plant'.health = plant.health := by
  cases arg with
  | none => exact ⟨plant, hfile, rfl⟩
  | some arg =>
    simp only [Farm.dplant]
    split_ifs
    · exact ⟨plant, hfile, rfl⟩
    · exact ⟨plant, hfile, rfl⟩
    · unfold Farm.plantWater
      by_cases hn : name = d.name
      · subst hn
        rw [hfile]
        exact ⟨plantWater plant now, Function.update_self _ _ _, rfl⟩
      · cases f.files d.name with
        | none => exact ⟨plant, hfile, rfl⟩
        | some plant' => exact ⟨plant, (Function.update_of_ne hn _ _).trans hfile, rfl⟩
    · exact ⟨plant, hfile, rfl⟩

/-- A plant without health, of which no daemon knows better. -/
structure Gone (f : Farm) (name : PlantName) : Prop where
  file : ∃ plant, f.files name = some plant ∧ plant.health ≤ 0
  copies : ∀ d ∈ f.host.daemons, d.name = name → ∀ plant, f.copies d.pid = some plant →
    plant.health ≤ 0

theorem Gone.shrink (hg : Gone f name) {f' : Farm} (hfiles : f'.files = f.files)
    (hd : f'.host.daemons ⊆ f.host.daemons)
    (hcopies : ∀ pid plant, f'.copies pid = some plant → f.copies pid = some plant) :
    Gone f' name :=
  ⟨hfiles ▸ hg.file, fun d hm hname plant hcopy =>
    hg.copies d (hd hm) hname plant (hcopies _ _ hcopy)⟩

theorem Gone.dplant (hg : Gone f name) (ho : Orderly f used rs) (arg : Option (List Char))
    (locked : Bool) (ts : Timestamp) (hp : d.pid ∉ used) :
    Gone (f.dplant d arg locked ts now) name := by
  obtain ⟨plant, hfile, hh⟩ := hg.file
  constructor
  · obtain ⟨plant', hfile', he⟩ := health_dplant d now arg locked ts hfile
    exact ⟨plant', hfile', he ▸ hh⟩
  · intro d' hd' hname plant' hcopy
    rw [Farm.copies_dplant] at hcopy
    rcases List.mem_append.mp (daemons_dplant arg locked ts hd') with hold | hnew
    · exact hg.copies d' hold hname plant' hcopy
    · rw [List.mem_singleton.mp hnew] at hcopy
      exact absurd (ho.copies _ _ hcopy).used hp

theorem Gone.load (hg : Gone f name) (ho : Orderly f used rs) (hd : d ∈ f.host.daemons) :
    Gone (f.load d now now') name := by
  obtain ⟨plant, hfile, hh⟩ := hg.file
  unfold Farm.load
  cases hfile' : f.files d.name with
  | some plant' =>
    refine ⟨hg.file, ?_⟩
    intro d' hd' hname plant'' hcopy
    simp only [Function.update_apply] at hcopy
    split_ifs at hcopy with hpid
    · obtain rfl := Option.some.inj hcopy
      obtain rfl := ho.rolled.pids d' hd' d hd hpid
      rw [hname, hfile] at hfile'
      exact Option.some.inj hfile' ▸ hh
    · exact hg.copies d' hd' hname plant'' hcopy
  | none =>
    have hne : name ≠ d.name := by
      rintro rfl
      rw [hfile] at hfile'
      cases hfile'
    refine ⟨⟨plant, (Function.update_of_ne hne _ _).trans hfile, hh⟩, ?_⟩
    intro d' hd' hname plant'' hcopy
    simp only [Function.update_apply] at hcopy
    split_ifs at hcopy with hpid
    · exact absurd (hname ▸ congrArg Daemon.name (ho.rolled.pids d' hd' d hd hpid)) hne
    · exact hg.copies d' hd' hname plant'' hcopy

theorem Gone.save (hg : Gone f name) (ho : Orderly f used rs) (hd : d ∈ f.host.daemons)
    (hcopy : f.copies d.pid = some plant) : Gone (f.save conv d plant now) name := by
  have htend : d.name = name → (Farm.tend conv plant now).health ≤ 0 := fun hname =>
    tend_of_drained (hg.copies d hd hname plant hcopy) (ho.copies _ _ hcopy).drained
  constructor
  · obtain ⟨plant', hfile, hh⟩ := hg.file
    simp only [Farm.save]
    split_ifs
    · by_cases hname : name = d.name
      · exact ⟨_, hname ▸ Function.update_self _ _ _, htend hname.symm⟩
      · exact ⟨plant', (Function.update_of_ne hname _ _).trans hfile, hh⟩
    · exact ⟨plant', hfile, hh⟩
  · intro d' hd' hname plant' hcopy'
    simp only [Farm.save, Function.update_apply] at hcopy'
    split_ifs at hcopy' with hpid
    · obtain rfl := Option.some.inj hcopy'
      exact htend (ho.rolled.pids d' hd' d hd hpid ▸ hname)
    · exact hg.copies d' hd' hname plant' hcopy'

theorem Gone.step (hg : Gone f name) (ho : Orderly f used rs) (hc : c.Plain)
    (hp : ∀ pid ∈ c.pids, pid ∉ used) : Gone (f.step conv c) name := by
  cases c with
  | dplant d arg locked ts now => exact hg.dplant ho arg locked ts (hp d.pid List.mem_cons_self)
  | turn h pid now now' =>
    simp only [Farm.step, Farm.daemonWork]
    cases hfind : f.host.daemons.find? (·.pid = pid) with
    | none => exact hg
    | some d =>
      have hd := List.mem_of_find?_eq_some hfind
      obtain rfl : d.pid = pid := by simpa using List.find?_some hfind
      cases hcopy : f.copies d.pid with
      | none => exact hg.load ho hd
      | some plant =>
        have hsave : Gone (f.save conv d plant now) name := hg.save ho hd hcopy
        simp only [Farm.cycle]
        split_ifs
        · exact hsave.shrink rfl daemons_plantDied fun _ _ h =>
            Farm.copies_of_aftermath (Farm.copies_of_exit h)
        · exact hsave
  | dkill h input => exact hc.elim
  | exit pid =>
    exact hg.shrink rfl (List.filter_subset_self _) fun _ _ h => Farm.copies_of_exit h

theorem Gone.run (conv : IntConversion) (hg : Gone f name) (ho : Orderly f used rs)
    (hc : ∀ c ∈ cs, c.Plain) (hn : (cs.flatMap Chore.pids).Nodup)
    (hp : ∀ c ∈ cs, ∀ pid ∈ c.pids, pid ∉ used) :
    Gone (f.run conv cs) name := by
  induction cs using List.reverseRecOn with
  | nil => exact hg
  | append_singleton cs c ih =>
    rw [List.flatMap_append, List.nodup_append] at hn
    have hc' : ∀ c' ∈ cs, c'.Plain := fun c' hm => hc c' (List.mem_append_left _ hm)
    have hp' : ∀ c' ∈ cs, ∀ pid ∈ c'.pids, pid ∉ used :=
      fun c' hm => hp c' (List.mem_append_left _ hm)
    obtain ⟨rs', ho'⟩ := (ho.run conv hc' hn.1 hp').orderly
    rw [Farm.run_concat]
    refine (ih hc' hn.1 hp').step ho' (hc c (by simp)) ?_
    intro pid hpid hold
    rcases List.mem_append.mp hold with hold | hold
    · exact hp c (by simp) pid hpid hold
    · exact hn.2.2 pid hold pid (by simpa using hpid) rfl

/-- However the daemons of a host take their turns, are started and exit, no plant that dies gets
a grave, if nobody runs `dkill` and no process number is used again. -/
theorem no_grave (conv : IntConversion) (cs : List Chore) (hu : Undisturbed cs) :
    (Farm.bare.run conv cs).cematary = [] :=
  (hu.kept conv).cematary

/-- A plant that is left alone until its last water has gone, and then dies of thirst. -/
def withered : List Chore :=
  [.dplant ⟨basil, 100, by decide, by decide⟩ none true epoch 0,
      .turn .idle ⟨100, by decide, by decide⟩ 0 0] ++
    (List.range 20).map fun i => .turn .idle ⟨100, by decide, by decide⟩ (6000 + 60 * i) 0

/-- Its daemon is respawned. -/
def revived : List Chore :=
  [.dplant ⟨basil, 101, by decide, by decide⟩ (some "respawn".toList) true epoch 8000,
    .turn .idle ⟨101, by decide, by decide⟩ 8000 8000]

theorem undisturbed_revived : Undisturbed (withered ++ revived) :=
  ⟨by decide, by decide⟩

theorem no_grave_withered : (Farm.bare.run .exact (withered ++ revived)).cematary = [] :=
  no_grave .exact _ undisturbed_revived

/-- A plant whose first daemon is gone is never watered again, whatever is respawned, if nobody runs
`dkill` and no process number is used again. -/
theorem never_watered_again (conv : IntConversion) (cs cs' : List Chore)
    (hu : Undisturbed (cs ++ cs')) (name : PlantName)
    (hreg : (Farm.bare.run conv cs).host.registered name = true)
    (hgone : (Farm.bare.run conv cs).host.running name = false) :
    (Farm.bare.run conv (cs ++ cs')).host.running name = false ∧
      ∀ pid locked ts now,
        (Farm.bare.run conv (cs ++ cs')).step conv
          (.dplant ⟨name, pid⟩ (some "water".toList) locked ts now) =
          Farm.bare.run conv (cs ++ cs') := by
  obtain ⟨-, hrun⟩ := (hu.kept_after conv).lasting name hreg
  have hgone' : (Farm.bare.run conv (cs ++ cs')).host.running name = false := by
    by_contra hno
    rw [hgone] at hrun
    exact Bool.noConfusion (hrun ((Bool.not_eq_false _).mp hno))
  refine ⟨hgone', fun pid locked ts now => ?_⟩
  simp only [Farm.step, Farm.dplant, hgone']
  rw [if_pos (by decide)]

theorem never_watered_again_withered :
    (Farm.bare.run .exact (withered ++ revived)).host.running basil = false ∧
      ∀ pid locked ts now,
        (Farm.bare.run .exact (withered ++ revived)).step .exact
          (.dplant ⟨basil, pid⟩ (some "water".toList) locked ts now) =
          Farm.bare.run .exact (withered ++ revived) :=
  never_watered_again .exact _ _ undisturbed_revived basil (by decide +kernel) (by decide +kernel)

/-- A plant that has lost its health, with no daemon left, is dead for good if nobody runs `dkill` and
no process number is used again: the file says so after whatever `dplant` does, and a daemon that is
respawned on it goes in its first turn. -/
theorem death_final (conv : IntConversion) (cs cs' : List Chore)
    (hu : Undisturbed (cs ++ cs')) (name : PlantName) (plant : PlantStats)
    (hfile : (Farm.bare.run conv cs).files name = some plant) (hh : plant.health ≤ 0)
    (hnone : ∀ d ∈ (Farm.bare.run conv cs).host.daemons, d.name ≠ name) :
    (∃ plant', (Farm.bare.run conv (cs ++ cs')).files name = some plant' ∧ plant'.health ≤ 0) ∧
      ∀ d ∈ (Farm.bare.run conv (cs ++ cs')).host.daemons, d.name = name →
        (Farm.bare.run conv (cs ++ cs')).copies d.pid ≠ none → ∀ h now now',
          ¬ ((Farm.bare.run conv (cs ++ cs')).step conv (.turn h d.pid now now')).Lives d.pid := by
  obtain ⟨rs, ho⟩ := (hu.left.kept conv).orderly
  obtain ⟨rs', ho'⟩ := (hu.kept_after conv).orderly
  have hg : Gone (Farm.bare.run conv cs) name :=
    ⟨⟨plant, hfile, hh⟩, fun d hd hname => absurd hname (hnone d hd)⟩
  have hn := hu.pids
  rw [List.flatMap_append, List.nodup_append] at hn
  have hg' := hg.run conv ho (fun c hc => hu.plain c (List.mem_append_right _ hc)) hn.2.1
    hu.fresh
  rw [← Farm.run_append] at hg'
  refine ⟨hg'.file, fun d hd hname hloaded h now now' => ?_⟩
  obtain ⟨plant', hcopy⟩ := Option.ne_none_iff_exists'.mp hloaded
  obtain ⟨d', hfind, hpid⟩ := Farm.find?_of_lives ⟨d, hd, rfl⟩
  have hdead : (Farm.tend conv plant' now).health ≤ 0 :=
    tend_of_drained (hg'.copies d hd hname plant' hcopy) (ho'.copies _ _ hcopy).drained
  simp only [Farm.step, Farm.daemonWork, hfind, hcopy, Farm.cycle, if_pos hdead]
  rw [← hpid]
  exact Farm.not_lives_exit _ _

theorem death_final_withered :
    (∃ plant, (Farm.bare.run .exact (withered ++ revived)).files basil = some plant ∧
        plant.health ≤ 0) ∧
      ∀ d ∈ (Farm.bare.run .exact (withered ++ revived)).host.daemons, d.name = basil →
        (Farm.bare.run .exact (withered ++ revived)).copies d.pid ≠ none → ∀ h now now',
          ¬ ((Farm.bare.run .exact (withered ++ revived)).step .exact
            (.turn h d.pid now now')).Lives d.pid :=
  death_final .exact _ _ undisturbed_revived basil ⟨0, 0, 1, 0, 7140⟩ (by decide +kernel)
    (by decide) (by decide +kernel)

end Corestack.Plant
