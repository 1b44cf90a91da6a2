import Corestack.Consensus.Preservation

/-! # Safety of histories

At most one node wins a term, logs with a common term at some place agree up to
that place, and every prefix that a majority has confirmed in its own term is in
the log of each later winner.
-/

namespace Consensus

variable {N T E : Type*} [Fintype N] [LinearOrder T]
  {term : E → T} {g g' : History N T E}

/-- Whoever has a majority of a term's votes is the winner of that term, if there is one. -/
theorem Valid.leader_unique (h : Valid term g) {Q : Finset N} {c d : N} {t : T}
    (hd : g.leader t = some d) (hQ : IsMajority Q) (hv : ∀ q ∈ Q, g.vote q t = some c) :
    d = c := by
  obtain ⟨R, hR, hr⟩ := h.leader_majority hd
  obtain ⟨q, hqQ, hqR⟩ := hQ.exists_common hR
  exact Option.some.inj ((hr q hqR).1.symm.trans (hv q hqQ))

omit [Fintype N] [LinearOrder T] in
/-- Two logs with entries of one term at the same place are equal up to that place. -/
theorem Lineage.matching {l l' p p' : List E} {e e' : E} (h : Lineage term g l)
    (h' : Lineage term g l') (hp : p ++ [e] <+: l) (hp' : p' ++ [e'] <+: l')
    (hlen : p.length = p'.length) (he : term e = term e') : p ++ [e] = p' ++ [e'] := by
  obtain ⟨-, hl⟩ := h p e hp
  obtain ⟨-, hl'⟩ := h' p' e' hp'
  rw [← he] at hl'
  have hle : (p ++ [e]).length = (p' ++ [e']).length := by simp [hlen]
  exact (List.prefix_of_prefix_length_le hl hl' hle.le).eq_of_length hle

/-- A prefix of the log of a term that ends in that term and is confirmed there by a majority. -/
structure Committed (term : E → T) (g : History N T E) (t : T) (p : List E) : Prop where
  last : ∃ e ∈ p.getLast?, term e = t
  isPrefix : p <+: g.leaderLog t
  majority : ∃ Q, IsMajority Q ∧ ∀ q ∈ Q, p.length ≤ g.acked q t

theorem Committed.mono {a : N} {t : T} {p : List E} (hx : Extends a g g')
    (h : Committed term g t p) : Committed term g' t p where
  last := h.last
  isPrefix := h.isPrefix.trans (hx.leaderLog t)
  majority := by
    obtain ⟨Q, hQ, hq⟩ := h.majority
    exact ⟨Q, hQ, fun q hm => (hq q hm).trans (hx.acked q t)⟩

theorem Committed.grows {t : T} {p : List E} (hg : Grows g g') (h : Committed term g t p) :
    Committed term g' t p := by
  induction hg with
  | refl => exact h
  | tail _ hx ih => exact ih.mono hx.choose_spec

/-- In a log the last term is the greatest one. -/
theorem Valid.term_le_last (h : Valid term g) {l r : List E} {e f : E} (hl : Lineage term g l)
    (hr : l = r ++ [f]) (he : e ∈ l) : term e ≤ term f := by
  have hp := (hl r f (by rw [hr])).2
  rw [← hr] at hp
  exact h.leaderLog_term e (hp.subset he)

/-- A log that may be voted for by the owner of a log with prefix `p`, where every earlier
winner of a term after `t` started with `p`, has that prefix itself. -/
theorem Valid.upToDate_prefix (h : Valid term g) {t u : T} {p l l' : List E}
    (hp : p <+: g.leaderLog t) (hlast : ∃ e ∈ p.getLast?, term e = t) (hpl : p <+: l')
    (hl' : Lineage term g l') (hl : Lineage term g l) (hlt : ∀ e ∈ l, term e < u)
    (hu : UpToDate term l l')
    (ih : ∀ v, t < v → v < u → g.leader v ≠ none → p <+: g.leaderLog v) : p <+: l := by
  obtain ⟨e, he, rfl⟩ := hlast
  have hep : e ∈ p := List.mem_of_getLast? he
  obtain ⟨r', e', hr'⟩ : ∃ r' e', l' = r' ++ [e'] := by
    rcases List.eq_nil_or_concat' l' with rfl | h
    · simp [List.prefix_nil.mp hpl] at he
    · exact h
  obtain ⟨f, hf, hcmp⟩ := hu e' (by simp [hr'])
  obtain ⟨r, rfl⟩ := List.getLast?_eq_some_iff.mp hf
  have hee' : term e ≤ term e' := h.term_le_last hl' hr' (hpl.subset hep)
  obtain ⟨hfl, hfp⟩ := hl r f List.prefix_rfl
  rcases hcmp with hlt' | ⟨heq, hlen⟩
  · -- the last entry of `l` comes from a later winner, whose log has the prefix
    have hef : term e < term f := hee'.trans_lt hlt'
    have hpf := ih (term f) hef (hlt f (by simp)) hfl
    rcases List.prefix_or_prefix_of_prefix hpf hfp with hpl | hlp
    · exact hpl
    · have hfe := h.leaderLog_term f (hp.subset (hlp.subset (by simp)))
      exact absurd hef hfe.not_gt
  · -- both logs end in the same term, so the shorter is a prefix of the longer
    have hp' := (hl' r' e' (by rw [hr'])).2
    rw [heq, ← hr'] at hp'
    exact hpl.trans (List.prefix_of_prefix_length_le hp' hfp hlen)

/-- A committed prefix is in the log with which any later winner started. -/
theorem Valid.completeness [WellFoundedLT T] (h : Valid term g) {t : T} {p : List E}
    (hc : Committed term g t p) (u : T) :
    t < u → g.leader u ≠ none → p <+: g.initLog u := by
  induction u using WellFoundedLT.induction with
  | ind u ih =>
    intro htu hl
    obtain ⟨c, hcu⟩ := Option.ne_none_iff_exists'.mp hl
    obtain ⟨Q, hQ, hack⟩ := hc.majority
    obtain ⟨R, hR, hvote⟩ := h.leader_majority hcu
    obtain ⟨q, hqQ, hqR⟩ := hQ.exists_common hR
    obtain ⟨hv, hvl⟩ := hvote q hqR
    obtain ⟨l', hl'⟩ := Option.ne_none_iff_exists'.mp hvl
    have hpl' : p <+: l' := h.retain_vote hc.isPrefix (hack q hqQ) htu hl'
      fun v htv hvu hlv => ih v hvu htv hlv
    obtain ⟨l, hcand, hup⟩ := h.vote_cand hv
    obtain rfl : l = g.initLog u := Option.some.inj (hcand.symm.trans (h.leader_cand hcu))
    refine h.upToDate_prefix hc.isPrefix hc.last hpl' (h.voteLog_lineage hl')
      (h.cand_lineage hcand) (h.cand_term hcand) (hup l' hl') fun v htv hvu hlv => ?_
    obtain ⟨d, hd⟩ := Option.ne_none_iff_exists'.mp hlv
    exact (ih v hvu htv hlv).trans (h.leader_init hd)

theorem Valid.committed_prefix [WellFoundedLT T] (h : Valid term g) {t u : T} {p : List E}
    (hc : Committed term g t p) (htu : t ≤ u) (hl : g.leader u ≠ none) : p <+: g.leaderLog u := by
  rcases htu.eq_or_lt with rfl | htu
  · exact hc.isPrefix
  · obtain ⟨c, hcu⟩ := Option.ne_none_iff_exists'.mp hl
    exact (h.completeness hc u htu hl).trans (h.leader_init hcu)

/-- A term with a nonempty log has a winner. -/
theorem Committed.leader_ne_none (h : Valid term g) {t : T} {p : List E}
    (hc : Committed term g t p) : g.leader t ≠ none := by
  intro hl
  obtain ⟨e, he, -⟩ := hc.last
  have hp := hc.isPrefix
  rw [h.no_leader hl, List.prefix_nil] at hp
  simp [hp] at he

/-- Of two committed prefixes, one extends the other. -/
theorem Valid.committed_comparable [WellFoundedLT T] (h : Valid term g) {t u : T} {p r : List E}
    (hp : Committed term g t p) (hr : Committed term g u r) : p <+: r ∨ r <+: p := by
  rcases le_total t u with htu | hut
  · exact List.prefix_or_prefix_of_prefix
      (h.committed_prefix hp htu (hr.leader_ne_none h)) hr.isPrefix
  · exact List.prefix_or_prefix_of_prefix hp.isPrefix
      (h.committed_prefix hr hut (hp.leader_ne_none h))

/-- A confirmed prefix stays in the node's log while the node has not left the term. -/
theorem Valid.acked_prefix (h : Valid term g) {q : N} {p : List E}
    (hp : p <+: g.leaderLog (g.cur q)) (ha : p.length ≤ g.acked q (g.cur q)) : p <+: g.log q :=
  h.retain_log hp ha fun _ hlt hle _ => absurd hle hlt.not_ge

/-- Entries with which a prefix committed in some term up to `t` begins. -/
def CommittedPrefix (term : E → T) (g : History N T E) (t : T) (l : List E) : Prop :=
  l = [] ∨ ∃ u ≤ t, ∃ p, Committed term g u p ∧ l <+: p

theorem CommittedPrefix.mono {a : N} {t u : T} {l : List E} (hx : Extends a g g') (htu : t ≤ u)
    (h : CommittedPrefix term g t l) : CommittedPrefix term g' u l := by
  rcases h with rfl | ⟨v, hv, p, hp, hl⟩
  · exact Or.inl rfl
  · exact Or.inr ⟨v, hv.trans htu, p, hp.mono hx, hl⟩

theorem CommittedPrefix.of_isPrefix {t : T} {l l' : List E} (h : CommittedPrefix term g t l)
    (hl : l' <+: l) : CommittedPrefix term g t l' := by
  rcases h with rfl | ⟨v, hv, p, hp, hlp⟩
  · exact Or.inl (List.prefix_nil.mp hl)
  · exact Or.inr ⟨v, hv, p, hp, hl.trans hlp⟩

/-- Committed entries are in the log of every later term. -/
theorem Valid.committedPrefix_leaderLog [WellFoundedLT T] (h : Valid term g) {t u : T} {l : List E}
    (hc : CommittedPrefix term g t l) (htu : t ≤ u) (hl : g.leader u ≠ none) :
    l <+: g.leaderLog u := by
  rcases hc with rfl | ⟨v, hv, p, hp, hlp⟩
  · exact List.nil_prefix
  · exact hlp.trans (h.committed_prefix hp (hv.trans htu) hl)

theorem Valid.committedPrefix_comparable [WellFoundedLT T] (h : Valid term g) {t u : T}
    {l l' : List E} (hl : CommittedPrefix term g t l) (hl' : CommittedPrefix term g u l') :
    l <+: l' ∨ l' <+: l := by
  rcases hl with rfl | ⟨_, _, p, hp, hlp⟩
  · exact Or.inl List.nil_prefix
  rcases hl' with rfl | ⟨_, _, p', hp', hlp'⟩
  · exact Or.inr List.nil_prefix
  rcases h.committed_comparable hp hp' with hpp | hpp
  · exact List.prefix_or_prefix_of_prefix (hlp.trans hpp) hlp'
  · exact List.prefix_or_prefix_of_prefix hlp (hlp'.trans hpp)

/-- A log that begins with the whole log of a term, has no entry of a later one and, like it, has
come into the term, goes no further. -/
theorem Valid.eq_leaderLog (h : Valid term g) {t : T} {l : List E}
    (hlast : ∃ e ∈ (g.leaderLog t).getLast?, term e = t) (hp : g.leaderLog t <+: l)
    (hl : Lineage term g l) (hle : ∀ e ∈ l, term e ≤ t) : l = g.leaderLog t := by
  obtain ⟨f, hf, hft⟩ := hlast
  obtain ⟨rest, rfl⟩ := hp
  cases rest with
  | nil => exact List.append_nil _
  | cons e rest =>
    obtain ⟨-, hlog⟩ := hl (g.leaderLog t) e ⟨rest, by simp⟩
    have hmem : f ∈ g.leaderLog (term e) :=
      hlog.subset (List.mem_append_left _ (List.mem_of_getLast? hf))
    have hge : t ≤ term e := hft ▸ h.leaderLog_term f hmem
    have heq : term e = t := le_antisymm (hle e (by simp)) hge
    rw [heq] at hlog
    exact absurd hlog.length_le (by simp)

end Consensus
