import Mathlib.Data.Finset.Card
import Mathlib.Data.Fintype.Card
import Mathlib.Order.WellFounded
import Mathlib.Tactic.Simps.Basic

/-! # Histories of a leader-based replicated log

A history records what a group of nodes has ever done: the votes cast, the
candidacies, the winner of each term and the log that winner has built. The
steps are the only ways in which the record grows. Node, term and entry types
are arbitrary.
-/

namespace Consensus

section Majority

variable {N : Type*} [Fintype N]

/-- A set of nodes that meets every other set of its kind. -/
def IsMajority (Q : Finset N) : Prop := Fintype.card N < 2 * Q.card

theorem IsMajority.exists_common {Q R : Finset N} (hQ : IsMajority Q) (hR : IsMajority R) :
    ∃ q ∈ Q, q ∈ R := by
  classical
  have hu : (Q ∪ R).card + (Q ∩ R).card = Q.card + R.card := Finset.card_union_add_card_inter Q R
  have hc : (Q ∪ R).card ≤ Fintype.card N := Finset.card_le_univ _
  unfold IsMajority at hQ hR
  obtain ⟨q, hq⟩ : (Q ∩ R).Nonempty := Finset.card_pos.mp (by omega)
  exact ⟨q, (Finset.mem_inter.mp hq).1, (Finset.mem_inter.mp hq).2⟩

end Majority

section Put

variable {N T β : Type*} [DecidableEq N] [DecidableEq T]

/-- Set one cell of a table indexed by nodes and terms. -/
def put (f : N → T → β) (a : N) (t : T) (v : β) (b : N) (u : T) : β :=
  if b = a ∧ u = t then v else f b u

@[simp] theorem put_self (f : N → T → β) (a : N) (t : T) (v : β) : put f a t v a t = v := by
  simp [put]

theorem put_of_not {f : N → T → β} {a b : N} {t u : T} {v : β} (h : ¬ (b = a ∧ u = t)) :
    put f a t v b u = f b u := if_neg h

theorem put_of_ne_left {f : N → T → β} {a b : N} {t u : T} {v : β} (h : b ≠ a) :
    put f a t v b u = f b u := by simp [put, h]

theorem put_of_ne_right {f : N → T → β} {a b : N} {t u : T} {v : β} (h : u ≠ t) :
    put f a t v b u = f b u := by simp [put, h]

end Put

section Graft

variable {E : Type*}

open Classical in
/-- Make `p` a prefix of the log, keeping the log when it already has that prefix. -/
noncomputable def graft (l p : List E) : List E := if p <+: l then l else p

theorem graft_of_isPrefix {l p : List E} (h : p <+: l) : graft l p = l := if_pos h

theorem graft_of_not_isPrefix {l p : List E} (h : ¬ p <+: l) : graft l p = p := if_neg h

theorem prefix_graft (l p : List E) : p <+: graft l p := by
  unfold graft; split
  · assumption
  · exact List.prefix_rfl

/-- Grafting loses nothing that the log shares with a common extension of the graft. -/
theorem IsPrefix.graft {q l p ll : List E} (hl : q <+: l) (hq : q <+: ll) (hp : p <+: ll) :
    q <+: graft l p := by
  unfold Consensus.graft; split
  · exact hl
  · rename_i h
    rcases List.prefix_or_prefix_of_prefix hq hp with hqp | hpq
    · exact hqp
    · exact absurd (hpq.trans hl) h

theorem graft_eq_or (l p : List E) : graft l p = l ∨ graft l p = p := by
  unfold graft; split <;> simp

end Graft

/-- The votes, candidacies, winners and logs of a group of nodes. -/
structure History (N T E : Type*) where
  cur : N → T
  log : N → List E
  vote : N → T → Option N
  /-- The voter's log, for votes cast while the term had no winner. -/
  voteLog : N → T → Option (List E)
  /-- The log with which a node stood in a term. -/
  cand : N → T → Option (List E)
  leader : T → Option N
  /-- The winner's log when it won the term. -/
  initLog : T → List E
  leaderLog : T → List E
  /-- How long a prefix of the term's log the node has confirmed in that term. -/
  acked : N → T → ℕ

variable {N T E : Type*}

section UpToDate

variable [LinearOrder T] (term : E → T)

/-- A log may be voted for by the owner of another: a later last term, or the same and no
shorter. -/
def UpToDate (l l' : List E) : Prop :=
  ∀ e' ∈ l'.getLast?, ∃ e ∈ l.getLast?,
    term e' < term e ∨ (term e' = term e ∧ l'.length ≤ l.length)

theorem UpToDate.refl (l : List E) : UpToDate term l l :=
  fun e he => ⟨e, he, Or.inr ⟨rfl, le_rfl⟩⟩

end UpToDate

namespace History

variable [DecidableEq N] [DecidableEq T]

/-- A node reaches a later term. -/
@[simps]
def advance (g : History N T E) (q : N) (t : T) : History N T E :=
  { g with cur := Function.update g.cur q t }

/-- A node stands in a new term and votes for itself. -/
@[simps]
def stand (g : History N T E) (c : N) (t : T) : History N T E :=
  { g with
    cur := Function.update g.cur c t
    vote := put g.vote c t (some c)
    voteLog := put g.voteLog c t (some (g.log c))
    cand := put g.cand c t (some (g.log c)) }

/-- A node votes for a candidate of its current term. -/
@[simps]
def castVote (g : History N T E) (q c : N) (t : T) : History N T E :=
  { g with
    vote := put g.vote q t (some c)
    voteLog := fun b u =>
      if g.leader t = none then put g.voteLog q t (some (g.log q)) b u else g.voteLog b u }

/-- A candidate wins its term. -/
@[simps]
def win (g : History N T E) (c : N) (t : T) : History N T E :=
  { g with
    leader := Function.update g.leader t (some c)
    initLog := Function.update g.initLog t (g.log c)
    leaderLog := Function.update g.leaderLog t (g.log c)
    acked := put g.acked c t (g.log c).length }

/-- The winner of a term appends an entry. -/
@[simps]
def append (g : History N T E) (c : N) (t : T) (e : E) : History N T E :=
  { g with
    log := Function.update g.log c (g.log c ++ [e])
    leaderLog := Function.update g.leaderLog t (g.log c ++ [e])
    acked := put g.acked c t (g.log c ++ [e]).length }

/-- A node stores a prefix of the log of its current term and confirms it. -/
@[simps]
noncomputable def store (g : History N T E) (q : N) (t : T) (p : List E) : History N T E :=
  { g with
    log := Function.update g.log q (graft (g.log q) p)
    acked := put g.acked q t (max (g.acked q t) p.length) }

end History

section Step

variable [Fintype N] [LinearOrder T] (term : E → T)

/-- The steps by which a history grows. -/
inductive Step [DecidableEq N] (g : History N T E) : History N T E → Prop
  | advance {q : N} {t : T} (h : g.cur q ≤ t) : Step g (g.advance q t)
  | stand {c : N} {t : T} (h : g.cur c < t) : Step g (g.stand c t)
  | castVote {q c : N} {t : T} {l : List E} (ht : g.cur q = t) (hv : g.vote q t = none)
      (hc : g.cand c t = some l) (hu : UpToDate term l (g.log q)) : Step g (g.castVote q c t)
  | win {c : N} {t : T} {Q : Finset N} (ht : g.cur c = t) (hc : g.cand c t = some (g.log c))
      (hl : g.leader t = none) (hQ : IsMajority Q) (hv : ∀ q ∈ Q, g.vote q t = some c) :
      Step g (g.win c t)
  | append {c : N} {t : T} {e : E} (hl : g.leader t = some c) (ht : g.cur c = t)
      (he : term e = t) : Step g (g.append c t e)
  | store {q c : N} {t : T} {p : List E} (hl : g.leader t = some c) (hq : c ≠ q)
      (ht : g.cur q = t) (hp : p <+: g.leaderLog t) : Step g (g.store q t p)

/-- A history in which nothing has happened yet. -/
structure Fresh (g : History N T E) : Prop where
  log : ∀ q, g.log q = []
  vote : ∀ q t, g.vote q t = none
  voteLog : ∀ q t, g.voteLog q t = none
  cand : ∀ q t, g.cand q t = none
  leader : ∀ t, g.leader t = none
  leaderLog : ∀ t, g.leaderLog t = []
  acked : ∀ q t, g.acked q t = 0

/-- Every entry of a log stands there after the same predecessors as in the log of its own term. -/
def Lineage (g : History N T E) (l : List E) : Prop :=
  ∀ p e, p ++ [e] <+: l → g.leader (term e) ≠ none ∧ p ++ [e] <+: g.leaderLog (term e)

/-- What holds of every history that grew by `Step` from a fresh one. -/
structure Valid (g : History N T E) : Prop where
  vote_le : ∀ {q t c}, g.vote q t = some c → t ≤ g.cur q
  vote_cand : ∀ {q t c}, g.vote q t = some c →
    ∃ l, g.cand c t = some l ∧ ∀ l', g.voteLog q t = some l' → UpToDate term l l'
  vote_early : ∀ {q t c}, g.vote q t = some c → g.leader t = none → g.voteLog q t ≠ none
  voteLog_vote : ∀ {q t l}, g.voteLog q t = some l → g.vote q t ≠ none
  cand_vote : ∀ {c t l}, g.cand c t = some l → g.vote c t = some c
  cand_not_min : ∀ {c t l}, g.cand c t = some l → ∃ s, s < t
  cand_term : ∀ {c t l}, g.cand c t = some l → ∀ e ∈ l, term e < t
  cand_lineage : ∀ {c t l}, g.cand c t = some l → Lineage term g l
  leader_cand : ∀ {t c}, g.leader t = some c → g.cand c t = some (g.initLog t)
  leader_majority : ∀ {t c}, g.leader t = some c →
    ∃ Q, IsMajority Q ∧ ∀ q ∈ Q, g.vote q t = some c ∧ g.voteLog q t ≠ none
  leader_init : ∀ {t c}, g.leader t = some c → g.initLog t <+: g.leaderLog t
  leader_log : ∀ {t c}, g.leader t = some c → g.cur c = t → g.log c = g.leaderLog t
  leader_acked : ∀ {t c}, g.leader t = some c → g.acked c t = (g.leaderLog t).length
  no_leader : ∀ {t}, g.leader t = none → g.leaderLog t = []
  leaderLog_term : ∀ {t}, ∀ e ∈ g.leaderLog t, term e ≤ t
  leaderLog_lineage : ∀ t, Lineage term g (g.leaderLog t)
  log_term : ∀ {q}, ∀ e ∈ g.log q, term e ≤ g.cur q
  log_lineage : ∀ q, Lineage term g (g.log q)
  voteLog_lineage : ∀ {q t l}, g.voteLog q t = some l → Lineage term g l
  acked_le : ∀ q t, g.acked q t ≤ (g.leaderLog t).length
  acked_cur : ∀ {q t}, 0 < g.acked q t → t ≤ g.cur q
  /-- A confirmed prefix stays as long as the later winners all started with it. -/
  retain_log : ∀ {q t p}, p <+: g.leaderLog t → p.length ≤ g.acked q t →
    (∀ v, t < v → v ≤ g.cur q → g.leader v ≠ none → p <+: g.initLog v) → p <+: g.log q
  retain_vote : ∀ {q t u p l}, p <+: g.leaderLog t → p.length ≤ g.acked q t →
    t < u → g.voteLog q u = some l →
    (∀ v, t < v → v < u → g.leader v ≠ none → p <+: g.initLog v) → p <+: l

end Step

end Consensus
