import Mathlib.Data.List.Nodup
import Corestack.Plant.Register
import Corestack.Runs

/-! # One daemon for each plant

A plant is started and its daemon recorded; later its daemon exits, and may be started
again with `respawn`. The register and the daemons agree until then: what is registered
is not recorded again, and the second daemon of a plant is in no line of the register.
-/

namespace Corestack.Plant

/-- The register, and the daemons that live. -/
structure Host where
  reg : List Char
  daemons : List Daemon

namespace Host

/-- Whether `/proc` has a directory for the process. It is asked for the processes of the register,
which have been daemons, and no other process has the number of one of them. -/
def alive (h : Host) (pid : Int) : Bool := h.daemons.any fun d => d.pid.val = pid

def running (h : Host) (name : PlantName) : Bool := isPlantRunning h.reg h.alive name

def registered (h : Host) (name : PlantName) : Bool := isDaemonRegistered h.reg name

/-- `spawn_plant` leaves a new process behind, which then registers. -/
def spawnPlant (h : Host) (d : Daemon) (ts : Timestamp) : Host :=
  ⟨daemonRegister h.reg d ts, h.daemons ++ [d]⟩

def respawnPlant (h : Host) (d : Daemon) (ts : Timestamp) : Host :=
  if h.running d.name then h
  else if !h.registered d.name then h
  else h.spawnPlant d ts

/-- `main` with a name alone; `locked` is the outcome of `plant_lock`. The lock does not outlast
`spawn_plant`, which closes all files. -/
def startPlant (h : Host) (d : Daemon) (locked : Bool) (ts : Timestamp) : Host :=
  if h.running d.name then h
  else if !locked then h
  else if !h.registered d.name then h.spawnPlant d ts
  else h

def exit (h : Host) (pid : Pid) : Host := { h with daemons := h.daemons.filter (·.pid ≠ pid) }

end Host

/-- What happens on the host. An invocation comes with the daemon that it leaves behind if it gets
that far. -/
inductive Action
  | start (d : Daemon) (locked : Bool) (ts : Timestamp)
  | respawn (d : Daemon) (ts : Timestamp)
  | exit (pid : Pid)

def Action.pids : Action → List Pid
  | start d _ _ => [d.pid]
  | respawn d _ => [d.pid]
  | exit _ => []

def Host.step (h : Host) : Action → Host
  | .start d locked ts => h.startPlant d locked ts
  | .respawn d ts => h.respawnPlant d ts
  | .exit pid => h.exit pid

/-- The host after the actions, from an empty register. -/
def Host.run (as : List Action) : Host := as.foldl Host.step ⟨[], []⟩

/-- At most one daemon lives for each plant, and the register tells for which. -/
structure Consistent (h : Host) : Prop where
  unique : (h.daemons.map Daemon.name).Nodup
  running : ∀ name, h.running name = true ↔ ∃ d ∈ h.daemons, d.name = name

/-- No plant is started without a name, and none is respawned when its daemon has exited. -/
def Sound (h : Host) : Action → Prop
  | .start d locked _ => d.name.text = [] → locked = false
  | .respawn d _ => h.registered d.name = true → ∃ d' ∈ h.daemons, d'.name = d.name
  | .exit _ => True

/-! ## The lines of the register -/

/-- A line of the register with a name. -/
structure Record where
  daemon : Daemon
  ts : Timestamp
  named : daemon.name.text ≠ []

def Record.line (r : Record) : List Char := entryLine r.daemon r.ts

def Record.entry (r : Record) : Entry := ⟨r.daemon.name.text, r.daemon.pid.val, r.ts.text⟩

theorem entries_records (rs : List Record) :
    entries (rs.flatMap Record.line) = rs.map Record.entry := by
  induction rs with
  | nil => rfl
  | cons r rs ih => rw [List.flatMap_cons, Record.line, entries_entryLine r.named, ih]; rfl

/-- The register has a line for each daemon that lives, no two of one name or one process. -/
structure Recorded (h : Host) (used : List Pid) (rs : List Record) : Prop where
  reg : h.reg = rs.flatMap Record.line
  daemons : h.daemons.Sublist (rs.map Record.daemon)
  names : (rs.map fun r => r.daemon.name).Nodup
  pids : (rs.map fun r => r.daemon.pid).Nodup
  used : ∀ r ∈ rs, r.daemon.pid ∈ used

variable {h : Host} {used : List Pid} {rs : List Record} {name : PlantName}

theorem Host.alive_iff {pid : Pid} : h.alive pid.val = true ↔ ∃ d ∈ h.daemons, d.pid = pid := by
  simp [Host.alive, Pid.ext_iff]

/-- A plant without a name is in no line that is read. -/
theorem Host.running_nameless (hn : name.text = []) : h.running name = false := by
  rw [← Bool.not_eq_true, Host.running, isPlantRunning_iff]
  rintro ⟨e, he, hname, -⟩
  exact entries_name_ne_nil he (hname.trans hn)

theorem Host.registered_nameless (hn : name.text = []) : h.registered name = false := by
  rw [← Bool.not_eq_true, Host.registered, isDaemonRegistered_iff]
  rintro ⟨e, he, hname⟩
  exact entries_name_ne_nil he (hname.trans hn)

namespace Recorded

theorem registered_iff (hr : Recorded h used rs) :
    h.registered name = true ↔ ∃ r ∈ rs, r.daemon.name = name := by
  rw [Host.registered, isDaemonRegistered_iff, hr.reg, entries_records]
  simp [Record.entry, PlantName.ext_iff]

theorem running_iff (hr : Recorded h used rs) (alive : Int → Bool) :
    isPlantRunning h.reg alive name = true ↔
      ∃ r ∈ rs, r.daemon.name = name ∧ alive r.daemon.pid.val = true := by
  rw [isPlantRunning_iff, hr.reg, entries_records]
  simp [Record.entry, PlantName.ext_iff]

/-- The line of a daemon that lives is the line of its process. -/
theorem daemon_eq (hr : Recorded h used rs) {r : Record} {d : Daemon} (hm : r ∈ rs)
    (hd : d ∈ h.daemons) (hp : d.pid = r.daemon.pid) : d = r.daemon := by
  obtain ⟨r', hr', rfl⟩ := List.mem_map.mp (hr.daemons.subset hd)
  rw [List.inj_on_of_nodup_map hr.pids hr' hm hp]

theorem consistent (hr : Recorded h used rs) : Consistent h := by
  constructor
  · have hs := (hr.daemons.map Daemon.name)
    rw [List.map_map] at hs
    exact hr.names.sublist hs
  · intro name
    rw [Host.running, hr.running_iff]
    constructor
    · rintro ⟨r, hm, rfl, ha⟩
      obtain ⟨d, hd, hp⟩ := Host.alive_iff.mp ha
      exact ⟨d, hd, by rw [hr.daemon_eq hm hd hp]⟩
    · rintro ⟨d, hd, rfl⟩
      obtain ⟨r, hm, rfl⟩ := List.mem_map.mp (hr.daemons.subset hd)
      exact ⟨r, hm, rfl, Host.alive_iff.mpr ⟨r.daemon, hd, rfl⟩⟩

/-! ## One action -/

theorem mono (hr : Recorded h used rs) (pids : List Pid) : Recorded h (used ++ pids) rs :=
  ⟨hr.reg, hr.daemons, hr.names, hr.pids, fun r hm => List.mem_append_left _ (hr.used r hm)⟩

/-- A plant that is not registered yet is recorded with its daemon. -/
theorem spawnPlant (hr : Recorded h used rs) {r : Record}
    (hreg : h.registered r.daemon.name = false) (hp : r.daemon.pid ∉ used) :
    Recorded (h.spawnPlant r.daemon r.ts) (used ++ [r.daemon.pid]) (rs ++ [r]) := by
  have hname : ∀ r' ∈ rs, r'.daemon.name ≠ r.daemon.name := by
    intro r' hm he
    rw [hr.registered_iff.mpr ⟨r', hm, he⟩] at hreg
    cases hreg
  constructor
  · have hnew : daemonRegister h.reg r.daemon r.ts = h.reg ++ r.line := by
      rw [Host.registered] at hreg
      rw [daemonRegister, hreg]
      rfl
    rw [Host.spawnPlant, hnew, hr.reg, List.flatMap_append, List.flatMap_singleton]
  · simpa [Host.spawnPlant] using hr.daemons.append_right [r.daemon]
  · rw [List.map_append, List.nodup_append]
    refine ⟨hr.names, List.nodup_singleton _, ?_⟩
    simpa using hname
  · rw [List.map_append, List.nodup_append]
    refine ⟨hr.pids, List.nodup_singleton _, ?_⟩
    rintro pid hpid _ hmem rfl
    obtain ⟨r', hm, rfl⟩ := List.mem_map.mp hpid
    rw [List.map_singleton, List.mem_singleton] at hmem
    exact hp (hmem ▸ hr.used r' hm)
  · intro r' hm
    rcases List.mem_append.mp hm with hm | hm
    · exact List.mem_append_left _ (hr.used r' hm)
    · rw [List.mem_singleton.mp hm]
      exact List.mem_append_right _ (List.mem_singleton_self _)

theorem exit (hr : Recorded h used rs) (pid : Pid) : Recorded (h.exit pid) used rs :=
  ⟨hr.reg, List.filter_sublist.trans hr.daemons, hr.names, hr.pids, hr.used⟩

/-- A sound action keeps the register and the daemons together. -/
theorem step (hr : Recorded h used rs) {a : Action} (hs : Sound h a)
    (hp : ∀ pid ∈ a.pids, pid ∉ used) : ∃ rs', Recorded (h.step a) (used ++ a.pids) rs' := by
  cases a with
  | start d locked ts =>
    simp only [Host.step, Host.startPlant]
    split
    · exact ⟨rs, hr.mono _⟩
    · split
      · exact ⟨rs, hr.mono _⟩
      · rename_i hl
        split
        · rename_i hreg
          have hn : d.name.text ≠ [] := by
            intro hn
            rw [hs hn] at hl
            exact hl rfl
          have hr' := hr.spawnPlant (r := ⟨d, ts, hn⟩) (by simpa using hreg)
            (hp _ List.mem_cons_self)
          exact ⟨_, hr'⟩
        · exact ⟨rs, hr.mono _⟩
  | respawn d ts =>
    have hstay : h.step (.respawn d ts) = h := by
      simp only [Host.step, Host.respawnPlant]
      split
      · rfl
      · rename_i hrun
        split
        · rfl
        · rename_i hreg
          exact absurd ((hr.consistent.running _).mpr (hs (by simpa using hreg))) hrun
    rw [hstay]
    exact ⟨rs, hr.mono _⟩
  | exit pid =>
    rw [Action.pids, List.append_nil]
    exact ⟨rs, hr.exit pid⟩

/-- An action that is not sound leaves a daemon behind that no line of the register tells. -/
theorem sound_of_consistent (hr : Recorded h used rs) {a : Action}
    (hp : ∀ pid ∈ a.pids, pid ∉ used) (hc : Consistent (h.step a)) : Sound h a := by
  cases a with
  | start d locked ts =>
    intro hn
    cases locked with
    | false => rfl
    | true =>
      have hspawn : h.step (.start d true ts) = h.spawnPlant d ts := by
        simp [Host.step, Host.startPlant, Host.running_nameless hn, Host.registered_nameless hn]
      rw [hspawn] at hc
      have hrun := (hc.running d.name).mpr
        ⟨d, List.mem_append_right _ (List.mem_singleton_self d), rfl⟩
      rw [Host.running_nameless hn] at hrun
      cases hrun
  | respawn d ts =>
    intro hreg
    by_contra hno
    have hrun : h.running d.name = false := by
      rw [← Bool.not_eq_true, hr.consistent.running]
      exact hno
    have hspawn : h.step (.respawn d ts) = ⟨h.reg, h.daemons ++ [d]⟩ := by
      simp only [Host.registered] at hreg
      simp [Host.step, Host.respawnPlant, Host.spawnPlant, Host.registered, daemonRegister, hrun,
        hreg]
    rw [hspawn] at hc
    have hnew := (hc.running d.name).mpr
      ⟨d, List.mem_append_right _ (List.mem_singleton_self d), rfl⟩
    obtain ⟨r, hm, hn, ha⟩ := (hr.running_iff _).mp hnew
    obtain ⟨d', hd, hpid⟩ := Host.alive_iff.mp ha
    rcases List.mem_append.mp hd with hd | hd
    · exact hno ⟨d', hd, by rw [hr.daemon_eq hm hd hpid, hn]⟩
    · rw [List.mem_singleton.mp hd] at hpid
      exact hp d.pid List.mem_cons_self (hpid ▸ hr.used r hm)
  | exit pid => trivial

end Recorded

/-! ## Runs -/

theorem Host.run_append (as : List Action) (a : Action) :
    Host.run (as ++ [a]) = (Host.run as).step a := by
  simp only [Host.run, List.foldl_append, List.foldl_cons, List.foldl_nil]

/-- All along a run at most one daemon lives for each plant and the register tells for which,
exactly if no plant is respawned after its daemon has exited, and none without a name started. -/
theorem one_daemon_iff (as : List Action) (hp : (as.flatMap Action.pids).Nodup) :
    (∀ pre, pre <+: as → Consistent (Host.run pre)) ↔
      ∀ pre a, pre ++ [a] <+: as → Sound (Host.run pre) a := by
  have hfresh : ∀ pre a, pre ++ [a] <+: as → ∀ pid ∈ a.pids, pid ∉ pre.flatMap Action.pids := by
    rintro pre a ⟨post, rfl⟩ pid hpid hold
    rw [List.flatMap_append, List.flatMap_append, List.append_assoc, List.nodup_append] at hp
    exact hp.2.2 pid hold pid (by simp [hpid]) rfl
  apply Runs.forall_prefix_iff
    (I := fun pre => ∃ rs, Recorded (Host.run pre) (pre.flatMap Action.pids) rs)
  · exact ⟨[], rfl, List.Sublist.refl _, List.nodup_nil, List.nodup_nil, by simp⟩
  · rintro pre a hpre ⟨rs, hr⟩ hs
    rw [Host.run_append, List.flatMap_append, List.flatMap_singleton]
    exact hr.step hs (hfresh pre a hpre)
  · rintro pre - ⟨rs, hr⟩
    exact hr.consistent
  · rintro pre a hpre ⟨rs, hr⟩ hc
    rw [Host.run_append] at hc
    exact hr.sound_of_consistent (hfresh pre a hpre) hc

def basil : PlantName := ⟨['b', 'a', 's', 'i', 'l'], by simp [Text.isSpace], by decide⟩

def fern : PlantName := ⟨['f', 'e', 'r', 'n'], by simp [Text.isSpace], by decide⟩

def epoch : Timestamp :=
  ⟨"Thu Jan  1 00:00:00 1970".toList, by simp, by simp, by simp [Text.isSpace], by simp⟩

theorem one_daemon_iff_fern :
    Consistent (Host.run [.start ⟨basil, 100, by decide, by decide⟩ true epoch,
      .exit ⟨100, by decide, by decide⟩,
      .start ⟨fern, 101, by decide, by decide⟩ true epoch]) := by
  refine (one_daemon_iff _ (by decide)).mpr ?_ _ (List.prefix_refl _)
  rintro pre a hp
  have hm := hp.subset (List.mem_append_right _ (List.mem_singleton_self a))
  simp only [List.mem_cons, List.not_mem_nil, or_false] at hm
  rcases hm with rfl | rfl | rfl
  · exact fun hn => absurd hn (by decide)
  · trivial
  · exact fun hn => absurd hn (by decide)

/-- The plant is respawned after its daemon has exited. Its second daemon is not in the register,
and so a third one is respawned beside it. -/
theorem respawned_twice :
    ¬ ∀ as : List Action, (as.flatMap Action.pids).Nodup →
      ∀ pre, pre <+: as → Consistent (Host.run pre) := by
  intro h
  have hc := h [.start ⟨basil, 100, by decide, by decide⟩ true epoch,
    .exit ⟨100, by decide, by decide⟩, .respawn ⟨basil, 101, by decide, by decide⟩ epoch,
    .respawn ⟨basil, 102, by decide, by decide⟩ epoch] (by decide) _ (List.prefix_refl _)
  exact absurd hc.unique (by decide +kernel)

end Corestack.Plant
