import Corestack.Plant.Graveyard

/-! # Killing the daemons

`dkill` looks for the live processes of the register, of which it holds 64, and asks for
one of them or for all. The register is emptied when all were asked for, also of those
that were not among the 64 and of those that could not be killed.
-/

namespace Corestack.Plant

open Text

/-- What the system tells `dkill`; the calls of `kill` and `ctime` are numbered. -/
structure System where
  alive : Int → Bool
  kill : Nat → Bool
  getpid : Pid
  ctime : Nat → Timestamp

/-- The two files, and the processes that were sent the signal. -/
structure Aftermath where
  register : List Char
  cematary : List Char
  signalled : List Int

/-- The loop over the lines; `count` entries are held already. -/
def scanActive (alive : Int → Bool) : Nat → List (List Char) → List Entry
  | _, [] => []
  | count, line :: lines =>
    if count < 64 then
      match scanEntry line with
      | none => scanActive alive count lines
      | some e =>
        if alive e.pid then e :: scanActive alive (count + 1) lines
        else scanActive alive count lines
    else []

/-- A daemon is killed, or it is not and nothing is noted. -/
def Aftermath.attempt (a : Aftermath) (h : System) (i : Nat) (d : Entry) : Aftermath :=
  if h.kill i then
    { a with
      cematary := addToGraveyard a.cematary d.name h.getpid (h.ctime i)
      signalled := a.signalled ++ [d.pid] }
  else a

/-- The loop over the daemons. -/
def killEach (h : System) : Nat → List Entry → Aftermath → Aftermath
  | _, [], a => a
  | i, d :: ds, a => killEach h (i + 1) ds (a.attempt h i d)

def answersAll (input : List Char) : Bool := input.head?.map Char.toLower = some 'a'

def atoi (s : List Char) : Int :=
  match scanNumber (cString s) with
  | none => 0
  | some (neg, m, _) => (strtol neg m).bmod (2 ^ 32)

/-- `input` is what `fgets` leaves of the answer. -/
def dkill (h : System) (register cematary input : List Char) : Aftermath :=
  let daemons := scanActive h.alive 0 (fgets 1023 register)
  let a : Aftermath := ⟨register, cematary, []⟩
  if daemons.length = 0 then a
  else if answersAll input then { killEach h 0 daemons a with register := [] }
  else
    let idx := atoi input - 1
    if 0 ≤ idx then
      match daemons[idx.toNat]? with
      | some d => a.attempt h 0 d
      | none => a
    else a

/-! ## What is asked of it -/

/-- The lines of the register that are read. -/
def registered (register : List Char) : List Entry := (fgets 1023 register).filterMap scanEntry

/-- The lines of live processes. -/
def active (alive : Int → Bool) (register : List Char) : List Entry :=
  (registered register).filter fun e => alive e.pid

/-- Every live process has a line among the first 64 of live processes for which the signal can
be sent. -/
def EachKilled (h : System) (register : List Char) : Prop :=
  ∀ e ∈ active h.alive register, ∃ i, ∃ d,
    ((active h.alive register).take 64)[i]? = some d ∧ d.pid = e.pid ∧ h.kill i = true

/-! ## The two loops -/

variable {h : System} {register cematary input : List Char} {a : Aftermath} {d e : Entry}
  {pid : Int}

theorem scanActive_eq (alive : Int → Bool) (count : Nat) (lines : List (List Char)) :
    scanActive alive count lines =
      ((lines.filterMap scanEntry).filter fun e => alive e.pid).take (64 - count) := by
  induction lines generalizing count with
  | nil => simp [scanActive]
  | cons line lines ih =>
    unfold scanActive
    split
    · rename_i hlt
      have hroom : 64 - count = (64 - (count + 1)) + 1 := by omega
      cases hl : scanEntry line with
      | none => simpa [hl] using ih count
      | some e =>
        by_cases ha : alive e.pid = true
        · simp [hl, ha, ih, hroom]
        · simpa [hl, ha] using ih count
    · rename_i hge
      have hfull : 64 - count = 0 := by omega
      rw [hfull, List.take_zero]

theorem scanActive_fgets (alive : Int → Bool) (register : List Char) :
    scanActive alive 0 (fgets 1023 register) = (active alive register).take 64 :=
  scanActive_eq alive 0 (fgets 1023 register)

theorem attempt_of_kill {i : Nat} (hk : h.kill i = true) :
    a.attempt h i d = ⟨a.register, addToGraveyard a.cematary d.name h.getpid (h.ctime i),
      a.signalled ++ [d.pid]⟩ := if_pos hk

theorem attempt_of_not_kill {i : Nat} (hk : ¬ h.kill i = true) : a.attempt h i d = a := if_neg hk

theorem register_attempt (i : Nat) : (a.attempt h i d).register = a.register := by
  by_cases hk : h.kill i = true
  · rw [attempt_of_kill hk]
  · rw [attempt_of_not_kill hk]

variable {ds : List Entry}

/-- At most 64 live lines, and nobody who cannot be killed. -/
theorem eachKilled_of_length_le (hlen : (active h.alive register).length ≤ 64)
    (hk : ∀ i < (active h.alive register).length, h.kill i = true) : EachKilled h register := by
  intro e he
  obtain ⟨i, hi, hget⟩ := List.getElem_of_mem he
  refine ⟨i, e, ?_, rfl, hk i hi⟩
  rw [List.take_of_length_le hlen, List.getElem?_eq_getElem hi, hget]

end Corestack.Plant
