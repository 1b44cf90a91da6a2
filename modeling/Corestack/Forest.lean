import Mathlib.Data.List.Basic

/-! # Walking a forest

A walk reads a place entry by entry and goes into some of them before it reads on. It may
stop for good at an entry, and it is given a number of places that it can have open at a
time. Where what is read are the entries of a forest that is not deeper than that, the
walk passes through its nodes, each of them once and in order.
-/

/-- The entries of a place: some are passed, some cannot be opened, some have entries below them. -/
inductive Forest (ε : Type*)
  | nil
  | leaf (e : ε) (rest : Forest ε)
  | shut (e : ε) (rest : Forest ε)
  | branch (e : ε) (below rest : Forest ε)

namespace Forest

variable {π ε ω : Type*}

/-- What a walk does at an entry. -/
inductive Visit (π ω : Type*)
  | pass (out : List ω)
  | enter (out : List ω) (place : π)
  | stop (out : List ω)

/-- The loop over the entries of a place; the flag tells whether the walk has not been stopped. -/
def walkEntries (go : π → List ω × Bool) (visit : ε → Visit π ω) : List ε → List ω × Bool
  | [] => ([], true)
  | e :: es =>
    match visit e with
    | .pass out => (out ++ (walkEntries go visit es).1, (walkEntries go visit es).2)
    | .stop out => (out, false)
    | .enter out place =>
      match go place with
      | (below, true) =>
        (out ++ below ++ (walkEntries go visit es).1, (walkEntries go visit es).2)
      | (below, false) => (out ++ below, false)

/-- What one entry adds, if the walk is not stopped. -/
def turn (go : π → List ω × Bool) : Visit π ω → List ω
  | .pass out => out
  | .enter out place => out ++ (go place).1
  | .stop out => out

/-- A walk from a place, with so many places that can be open. -/
def walk (contents : π → Option (List ε)) (closed : π → List ω) (visit : π → ε → Visit π ω) :
    Nat → π → List ω × Bool
  | 0, p => (closed p, true)
  | n + 1, p =>
    match contents p with
    | none => (closed p, true)
    | some es => walkEntries (walk contents closed visit n) (visit p) es

/-! ## Forests -/

def entries : Forest ε → List ε
  | nil => []
  | leaf e rest => e :: rest.entries
  | shut e rest => e :: rest.entries
  | branch e _ rest => e :: rest.entries

/-- How many places are open below the first. -/
def depth : Forest ε → Nat
  | nil => 0
  | leaf _ rest => rest.depth
  | shut _ rest => rest.depth
  | branch _ below rest => max (below.depth + 1) rest.depth

/-- What an entry is to a walk. -/
inductive Kind (ε : Type*)
  | leaf
  | shut
  | branch (es : List ε)

/-- All entries, each with its place and its kind, those below an entry right behind it. -/
def nodes (sub : π → ε → π) : π → Forest ε → List (π × ε × Kind ε)
  | _, nil => []
  | p, leaf e rest => (p, e, .leaf) :: nodes sub p rest
  | p, shut e rest => (p, e, .shut) :: nodes sub p rest
  | p, branch e below rest =>
    (p, e, .branch below.entries) :: (nodes sub (sub p e) below ++ nodes sub p rest)

/-- The entries are what the walk finds. -/
def Agrees (contents : π → Option (List ε)) (visit : π → ε → Visit π ω) (out : π → ε → List ω)
    (sub : π → ε → π) (p : π) (e : ε) : Kind ε → Prop
  | .leaf => visit p e = .pass (out p e)
  | .shut => visit p e = .enter (out p e) (sub p e) ∧ contents (sub p e) = none
  | .branch es => visit p e = .enter (out p e) (sub p e) ∧ contents (sub p e) = some es

variable {contents : π → Option (List ε)} {closed : π → List ω} {visit : π → ε → Visit π ω}
  {out : π → ε → List ω} {sub : π → ε → π} {f : Forest ε} {p : π} {n : Nat}

theorem exists_mem_nodes {e : ε} (he : e ∈ f.entries) : ∃ k, (p, e, k) ∈ nodes sub p f := by
  induction f with
  | nil => cases he
  | leaf e' rest ih | shut e' rest ih =>
    rcases List.mem_cons.mp he with rfl | he
    · exact ⟨_, List.mem_cons_self⟩
    · obtain ⟨k, hk⟩ := ih he
      exact ⟨k, List.mem_cons_of_mem _ hk⟩
  | branch e' below rest _ ih =>
    rcases List.mem_cons.mp he with rfl | he
    · exact ⟨.branch below.entries, List.mem_cons_self⟩
    · obtain ⟨k, hk⟩ := ih he
      exact ⟨k, List.mem_cons_of_mem _ (List.mem_append_right _ hk)⟩

/-- What the walk has to say of an entry. -/
def told (closed : π → List ω) (out : π → ε → List ω) (sub : π → ε → π) :
    π × ε × Kind ε → List ω
  | (p, e, .shut) => out p e ++ closed (sub p e)
  | (p, e, _) => out p e

/-- Without a stop, all entries have their turn. -/
theorem walkEntries_all {go : π → List ω × Bool} {visit : ε → Visit π ω} {es : List ε}
    (hstop : ∀ e ∈ es, ∀ out, visit e ≠ .stop out)
    (hgo : ∀ e ∈ es, ∀ out place, visit e = .enter out place → (go place).2 = true) :
    walkEntries go visit es = (es.flatMap fun e => turn go (visit e), true) := by
  induction es with
  | nil => rfl
  | cons e es ih =>
    obtain ⟨hs, hss⟩ := List.forall_mem_cons.mp hstop
    obtain ⟨hg, hgs⟩ := List.forall_mem_cons.mp hgo
    rw [walkEntries, ih hss hgs, List.flatMap_cons]
    cases hv : visit e with
    | pass out => rfl
    | stop out => exact absurd hv (hs out)
    | enter out place =>
      have hflag := hg out place hv
      rcases hp : go place with ⟨below, _ | _⟩
      · rw [hp] at hflag
        cases hflag
      · simp only [turn, hp]

theorem walk_none (h : contents p = none) (n : Nat) :
    walk contents closed visit n p = (closed p, true) := by
  cases n with
  | zero => rfl
  | succ n => simp only [walk, h]

theorem walk_some {es : List ε} (h : contents p = some es) :
    walk contents closed visit (n + 1) p =
      walkEntries (walk contents closed visit n) (visit p) es := by
  simp only [walk, h]

theorem walkEntries_forest (hd : f.depth ≤ n)
    (ha : ∀ x ∈ nodes sub p f, Agrees contents visit out sub x.1 x.2.1 x.2.2) :
    walkEntries (walk contents closed visit n) (visit p) f.entries =
      ((nodes sub p f).flatMap (told closed out sub), true) := by
  induction f generalizing p n with
  | nil => rfl
  | leaf e rest ih =>
    obtain ⟨he, hrest⟩ := List.forall_mem_cons.mp ha
    have he : visit p e = .pass (out p e) := he
    simp only [entries, walkEntries, he, ih hd hrest, nodes, List.flatMap_cons, told]
  | shut e rest ih =>
    obtain ⟨⟨he, hnone⟩, hrest⟩ := List.forall_mem_cons.mp ha
    simp only [entries, walkEntries, he, walk_none hnone, ih hd hrest, nodes, List.flatMap_cons,
      told]
  | branch e below rest ihb ih =>
    obtain ⟨⟨he, hsome⟩, hall⟩ := List.forall_mem_cons.mp ha
    obtain ⟨hbelow, hrest⟩ := List.forall_mem_append.mp hall
    obtain ⟨hdb, hdr⟩ := Nat.max_le.mp hd
    -- one more place is open
    obtain ⟨m, rfl⟩ := Nat.exists_eq_add_of_lt (Nat.lt_of_succ_le hdb)
    have hgo : walk contents closed visit (below.depth + m + 1) (sub p e) =
        ((nodes sub (sub p e) below).flatMap (told closed out sub), true) :=
      (walk_some hsome).trans (ihb (Nat.le_add_right _ _) hbelow)
    simp only [entries, walkEntries, he, hgo, ih hdr hrest, nodes, List.flatMap_cons,
      List.flatMap_append, told, List.append_assoc]

/-- A walk tells of all entries of the forest that it finds, in their order. -/
theorem walk_forest (hp : contents p = some f.entries) (hd : f.depth < n)
    (ha : ∀ x ∈ nodes sub p f, Agrees contents visit out sub x.1 x.2.1 x.2.2) :
    walk contents closed visit n p = ((nodes sub p f).flatMap (told closed out sub), true) := by
  obtain ⟨m, rfl⟩ := Nat.exists_eq_succ_of_ne_zero (Nat.ne_zero_of_lt hd)
  rw [Nat.succ_eq_add_one, walk_some hp]
  exact walkEntries_forest (Nat.lt_succ_iff.mp hd) ha

end Forest
