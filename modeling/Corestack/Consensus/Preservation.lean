import Mathlib.Logic.Relation
import Corestack.Consensus.History

/-! # The invariant of histories

Each step keeps every fact in `Valid`. The facts about votes and winners come
first, then those about where log entries come from, and last the retention of
confirmed prefixes.
-/

namespace Consensus

variable {N T E : Type*} {term : E → T} {g g' : History N T E}

section Growth

variable [LinearOrder T]

/-- Growth of a history through the actions of one node. -/
structure Extends (a : N) (g g' : History N T E) : Prop where
  cur_other : ∀ {b}, b ≠ a → g'.cur b = g.cur b
  log_other : ∀ {b}, b ≠ a → g'.log b = g.log b
  vote_other : ∀ {b}, b ≠ a → g'.vote b = g.vote b
  cand_other : ∀ {b}, b ≠ a → g'.cand b = g.cand b
  cur_le : g.cur a ≤ g'.cur a
  vote : ∀ {b t c}, g.vote b t = some c → g'.vote b t = some c
  cand : ∀ {b t l}, g.cand b t = some l → g'.cand b t = some l
  leader : ∀ {t c}, g.leader t = some c → g'.leader t = some c
  leader_new : ∀ {t c}, g'.leader t = some c → g.leader t = some c ∨ c = a
  leaderLog : ∀ t, g.leaderLog t <+: g'.leaderLog t
  acked : ∀ b t, g.acked b t ≤ g'.acked b t

theorem Extends.refl (a : N) (g : History N T E) : Extends a g g where
  cur_other _ := rfl
  log_other _ := rfl
  vote_other _ := rfl
  cand_other _ := rfl
  cur_le := le_rfl
  vote := id
  cand := id
  leader := id
  leader_new := Or.inl
  leaderLog _ := List.prefix_rfl
  acked _ _ := le_rfl

theorem Extends.trans {a : N} {g'' : History N T E} (h : Extends a g g') (h' : Extends a g' g'') :
    Extends a g g'' where
  cur_other hb := (h'.cur_other hb).trans (h.cur_other hb)
  log_other hb := (h'.log_other hb).trans (h.log_other hb)
  vote_other hb := (h'.vote_other hb).trans (h.vote_other hb)
  cand_other hb := (h'.cand_other hb).trans (h.cand_other hb)
  cur_le := h.cur_le.trans h'.cur_le
  vote hv := h'.vote (h.vote hv)
  cand hc := h'.cand (h.cand hc)
  leader hl := h'.leader (h.leader hl)
  leader_new hl := (h'.leader_new hl).elim h.leader_new Or.inr
  leaderLog t := (h.leaderLog t).trans (h'.leaderLog t)
  acked b t := (h.acked b t).trans (h'.acked b t)

/-- Growth through the actions of any nodes. -/
def Grows (g g' : History N T E) : Prop :=
  Relation.ReflTransGen (fun g g' : History N T E => ∃ a, Extends a g g') g g'

theorem Extends.grows {a : N} (h : Extends a g g') : Grows g g' := .single ⟨a, h⟩

theorem Grows.leader (h : Grows g g') {t : T} {c : N} (hl : g.leader t = some c) :
    g'.leader t = some c := by
  induction h with
  | refl => exact hl
  | tail _ hx ih => exact hx.choose_spec.leader ih

theorem Grows.leaderLog (h : Grows g g') (t : T) : g.leaderLog t <+: g'.leaderLog t := by
  induction h with
  | refl => exact List.prefix_rfl
  | tail _ hx ih => exact ih.trans (hx.choose_spec.leaderLog t)

end Growth

theorem Lineage.mono {l : List E} (hl : ∀ {t c}, g.leader t = some c → g'.leader t = some c)
    (hp : ∀ t, g.leaderLog t <+: g'.leaderLog t) (h : Lineage term g l) : Lineage term g' l := by
  intro p e he
  obtain ⟨hn, hpe⟩ := h p e he
  obtain ⟨c, hc⟩ := Option.ne_none_iff_exists'.mp hn
  exact ⟨by simp [hl hc], hpe.trans (hp _)⟩

theorem Lineage.of_isPrefix {l l' : List E} (h : Lineage term g l') (hp : l <+: l') :
    Lineage term g l := fun p e he => h p e (he.trans hp)

section Facts

variable [Fintype N] [LinearOrder T] {q c : N} {t : T}

/-- A winner has reached its term. -/
theorem Valid.leader_le (h : Valid term g) (hl : g.leader t = some c) : t ≤ g.cur c :=
  h.vote_le (h.cand_vote (h.leader_cand hl))

theorem Valid.acked_no_leader (h : Valid term g) (hl : g.leader t = none) : g.acked q t = 0 := by
  have := h.acked_le q t
  simpa [h.no_leader hl] using this

theorem Fresh.valid (h : Fresh g) : Valid term g := by
  have hnil : Lineage term g [] := by
    intro p e hp
    simp at hp
  constructor <;> intros <;>
    simp_all [h.log, h.vote, h.voteLog, h.cand, h.leader, h.leaderLog, h.acked]

end Facts

section Steps

variable [Fintype N] [DecidableEq N] [LinearOrder T] {q c : N} {t : T}

theorem Valid.advance (h : Valid term g) (ht : g.cur q ≤ t) : Valid term (g.advance q t) := by
  have hle : ∀ b, g.cur b ≤ Function.update g.cur q t b := by
    intro b; rw [Function.update_apply]; split
    · subst b; exact ht
    · exact le_rfl
  exact { h with
    vote_le hv := (h.vote_le hv).trans (hle _)
    leader_log hl hc := h.leader_log hl (le_antisymm (hc ▸ hle _) (h.leader_le hl))
    log_term e he := (h.log_term e he).trans (hle _)
    acked_cur ha := (h.acked_cur ha).trans (hle _)
    retain_log hp ha hv := h.retain_log hp ha fun v hv₁ hv₂ => hv v hv₁ (hv₂.trans (hle _)) }

theorem Valid.stand (h : Valid term g) (ht : g.cur c < t) : Valid term (g.stand c t) := by
  have hle : ∀ b, g.cur b ≤ Function.update g.cur c t b := by
    intro b; rw [Function.update_apply]; split
    · subst b; exact ht.le
    · exact le_rfl
  have hnv : ∀ {d}, g.vote c t ≠ some d := fun hv => (h.vote_le hv).not_gt ht
  have hnc : ∀ {d u l}, g.cand d u = some l → ¬ (d = c ∧ u = t) := by
    rintro _ _ l hl ⟨rfl, rfl⟩
    exact hnv (h.cand_vote hl)
  have hterm : ∀ e ∈ g.log c, term e < t := fun e he => (h.log_term e he).trans_lt ht
  exact { h with
    vote_le := by
      intro q u d hv
      by_cases hq : q = c ∧ u = t
      · obtain ⟨rfl, rfl⟩ := hq
        simp
      · exact (h.vote_le ((put_of_not hq).symm.trans hv)).trans (hle q)
    vote_cand := by
      intro q u d hv
      by_cases hq : q = c ∧ u = t
      · obtain ⟨rfl, rfl⟩ := hq
        obtain rfl : q = d := by simpa using hv
        refine ⟨g.log q, by simp, fun l' hl' => ?_⟩
        obtain rfl : g.log q = l' := by simpa using hl'
        exact UpToDate.refl term _
      · obtain ⟨l, hl, hl'⟩ := h.vote_cand ((put_of_not hq).symm.trans hv)
        exact ⟨l, (put_of_not (hnc hl)).trans hl,
          fun l' hv' => hl' l' ((put_of_not hq).symm.trans hv')⟩
    vote_early := by
      intro q u d hv hn
      by_cases hq : q = c ∧ u = t
      · obtain ⟨rfl, rfl⟩ := hq
        simp
      · rw [History.stand_voteLog, put_of_not hq]
        exact h.vote_early ((put_of_not hq).symm.trans hv) hn
    voteLog_vote := by
      intro q u l hl
      by_cases hq : q = c ∧ u = t
      · obtain ⟨rfl, rfl⟩ := hq
        simp
      · rw [History.stand_vote, put_of_not hq]
        exact h.voteLog_vote ((put_of_not hq).symm.trans hl)
    cand_vote := by
      intro d u l hl
      by_cases hd : d = c ∧ u = t
      · obtain ⟨rfl, rfl⟩ := hd
        simp
      · rw [History.stand_vote, put_of_not hd]
        exact h.cand_vote ((put_of_not hd).symm.trans hl)
    cand_not_min := by
      intro d u l hl
      by_cases hd : d = c ∧ u = t
      · exact ⟨g.cur c, hd.2 ▸ ht⟩
      · exact h.cand_not_min ((put_of_not hd).symm.trans hl)
    cand_term := by
      intro d u l hl
      by_cases hd : d = c ∧ u = t
      · obtain ⟨rfl, rfl⟩ := hd
        obtain rfl : g.log d = l := by simpa using hl
        exact hterm
      · exact h.cand_term ((put_of_not hd).symm.trans hl)
    cand_lineage := by
      intro d u l hl
      by_cases hd : d = c ∧ u = t
      · obtain ⟨rfl, rfl⟩ := hd
        obtain rfl : g.log d = l := by simpa using hl
        exact h.log_lineage d
      · exact h.cand_lineage ((put_of_not hd).symm.trans hl)
    leader_cand := by
      intro u d hd
      have hcand := h.leader_cand hd
      exact (put_of_not (hnc hcand)).trans hcand
    leader_majority := by
      intro u d hd
      obtain ⟨Q, hQ, hq⟩ := h.leader_majority hd
      refine ⟨Q, hQ, fun q hm => ?_⟩
      have hqc : ¬ (q = c ∧ u = t) := by
        rintro ⟨rfl, rfl⟩
        exact hnv (hq q hm).1
      rw [History.stand_vote, History.stand_voteLog, put_of_not hqc, put_of_not hqc]
      exact hq q hm
    leader_log := by
      intro u d hd hu
      refine h.leader_log hd (le_antisymm ((hle d).trans hu.le) (h.leader_le hd))
    log_term e he := (h.log_term e he).trans (hle _)
    voteLog_lineage := by
      intro q u l hl
      by_cases hq : q = c ∧ u = t
      · obtain ⟨rfl, rfl⟩ := hq
        obtain rfl : g.log q = l := by simpa using hl
        exact h.log_lineage q
      · exact h.voteLog_lineage ((put_of_not hq).symm.trans hl)
    acked_cur ha := (h.acked_cur ha).trans (hle _)
    retain_log hp ha hv := h.retain_log hp ha fun v hv₁ hv₂ => hv v hv₁ (hv₂.trans (hle _))
    retain_vote := by
      intro q s u p l hp ha hsu hl hr
      by_cases hq : q = c ∧ u = t
      · -- the new candidate votes with its present log
        obtain ⟨rfl, rfl⟩ := hq
        obtain rfl : g.log q = l := by simpa using hl
        exact h.retain_log hp ha fun v hsv hv => hr v hsv (hv.trans_lt ht)
      · exact h.retain_vote hp ha hsu ((put_of_not hq).symm.trans hl) hr }

theorem Valid.castVote {l : List E} (h : Valid term g) (ht : g.cur q = t) (hv : g.vote q t = none)
    (hc : g.cand c t = some l) (hu : UpToDate term l (g.log q)) :
    Valid term (g.castVote q c t) := by
  have hnl : g.voteLog q t = none := by
    by_contra hne
    obtain ⟨l', hl'⟩ := Option.ne_none_iff_exists'.mp hne
    exact h.voteLog_vote hl' hv
  have hnv : ∀ {b u d}, g.vote b u = some d → ¬ (b = q ∧ u = t) := by
    rintro _ _ d hd ⟨rfl, rfl⟩
    simp [hv] at hd
  -- a log is noted with the vote if the term has no winner yet
  have hlog : ∀ {b u l'}, (g.castVote q c t).voteLog b u = some l' →
      (b = q ∧ u = t ∧ g.leader t = none ∧ l' = g.log q) ∨ g.voteLog b u = some l' := by
    intro b u l' hl'
    by_cases hb : b = q ∧ u = t
    · obtain ⟨rfl, rfl⟩ := hb
      by_cases hn : g.leader u = none
      · left
        simpa [hn, eq_comm] using hl'
      · right
        simpa [hn] using hl'
    · right
      simpa [put_of_not hb] using hl'
  have hlog_ne : ∀ {b u}, g.voteLog b u ≠ none → (g.castVote q c t).voteLog b u ≠ none := by
    intro b u hne
    have hb : ¬ (b = q ∧ u = t) := by
      rintro ⟨rfl, rfl⟩
      exact hne hnl
    simpa [put_of_not hb] using hne
  exact { h with
    vote_le := by
      intro b u d hd
      by_cases hb : b = q ∧ u = t
      · obtain ⟨rfl, rfl⟩ := hb
        exact ht.ge
      · exact h.vote_le ((put_of_not hb).symm.trans hd)
    vote_cand := by
      intro b u d hd
      by_cases hb : b = q ∧ u = t
      · obtain ⟨rfl, rfl⟩ := hb
        obtain rfl : c = d := by simpa using hd
        refine ⟨l, hc, fun l' hl' => ?_⟩
        rcases hlog hl' with ⟨-, -, -, rfl⟩ | hold
        · exact hu
        · simp [hnl] at hold
      · obtain ⟨l, hl, hl'⟩ := h.vote_cand ((put_of_not hb).symm.trans hd)
        refine ⟨l, hl, fun l' hv' => ?_⟩
        rcases hlog hv' with ⟨hbq, hut, -⟩ | hold
        · exact absurd ⟨hbq, hut⟩ hb
        · exact hl' l' hold
    vote_early := by
      intro b u d hd hn
      by_cases hb : b = q ∧ u = t
      · obtain ⟨rfl, rfl⟩ := hb
        have hn' : g.leader u = none := hn
        simp [hn']
      · exact hlog_ne (h.vote_early ((put_of_not hb).symm.trans hd) hn)
    voteLog_vote := by
      intro b u l' hl'
      by_cases hb : b = q ∧ u = t
      · obtain ⟨rfl, rfl⟩ := hb
        simp
      · rcases hlog hl' with ⟨hbq, hut, -⟩ | hold
        · exact absurd ⟨hbq, hut⟩ hb
        · rw [History.castVote_vote, put_of_not hb]
          exact h.voteLog_vote hold
    cand_vote := by
      intro d u l hd
      have hvote := h.cand_vote hd
      exact (put_of_not (hnv hvote)).trans hvote
    leader_majority := by
      intro u d hd
      obtain ⟨Q, hQ, hq⟩ := h.leader_majority hd
      refine ⟨Q, hQ, fun b hb => ?_⟩
      obtain ⟨hvote, hvl⟩ := hq b hb
      exact ⟨(put_of_not (hnv hvote)).trans hvote, hlog_ne hvl⟩
    voteLog_lineage := by
      intro b u l' hl'
      rcases hlog hl' with ⟨-, -, -, rfl⟩ | hold
      · exact h.log_lineage q
      · exact h.voteLog_lineage hold
    retain_vote := by
      intro b s u p l' hp ha hsu hl hr
      rcases hlog hl with ⟨rfl, rfl, hn, rfl⟩ | hold
      · -- the term has no winner yet, so all winners up to it are earlier ones
        refine h.retain_log hp ha fun v hsv hv hw => hr v hsv ?_ hw
        refine lt_of_le_of_ne (hv.trans ht.le) ?_
        rintro rfl
        exact hw hn
      · exact h.retain_vote hp ha hsu hold hr }

/-- A node that confirms something in a term it has reached is behind in no term. -/
theorem Valid.acked_cur_put (h : Valid term g) (ht : t ≤ g.cur q) {n : ℕ} {b : N} {u : T}
    (ha : 0 < put g.acked q t n b u) : u ≤ g.cur b := by
  by_cases hb : b = q ∧ u = t
  · obtain ⟨rfl, rfl⟩ := hb
    exact ht
  · exact h.acked_cur (ha.trans_eq (put_of_not hb))

theorem Valid.win {Q : Finset N} (h : Valid term g) (ht : g.cur c = t)
    (hc : g.cand c t = some (g.log c)) (hl : g.leader t = none) (hQ : IsMajority Q)
    (hv : ∀ q ∈ Q, g.vote q t = some c) : Valid term (g.win c t) := by
  have hnil := h.no_leader hl
  have hne : ∀ {u d}, g.leader u = some d → u ≠ t := by
    rintro _ d hd rfl
    simp [hl] at hd
  -- a winner is the new one of `t`, or an old one of another term
  have hwon : ∀ {u d}, (g.win c t).leader u = some d →
      (u = t ∧ d = c) ∨ (u ≠ t ∧ g.leader u = some d) := by
    intro u d hd
    by_cases hu : u = t
    · subst hu
      exact Or.inl ⟨rfl, by simpa [eq_comm] using hd⟩
    · exact Or.inr ⟨hu, (Function.update_of_ne hu _ _).symm.trans hd⟩
  have hmono : ∀ {l : List E}, Lineage term g l → Lineage term (g.win c t) l := by
    intro l
    apply Lineage.mono
    · intro u d hd
      exact (Function.update_of_ne (hne hd) _ _).trans hd
    · intro u; by_cases hu : u = t
      · subst hu; simp [hnil]
      · simp [hu]
  have hn : ∀ q, g.acked q t = 0 := fun q => h.acked_no_leader hl
  exact { h with
    vote_early := by
      intro b u d hd hno
      have hu : u ≠ t := by
        rintro rfl
        simp at hno
      exact h.vote_early hd ((Function.update_of_ne hu _ _).symm.trans hno)
    cand_lineage := fun hd => hmono (h.cand_lineage hd)
    leader_cand := by
      intro u d hd
      rcases hwon hd with ⟨rfl, rfl⟩ | ⟨hu, hold⟩
      · simpa using hc
      · rw [History.win_initLog, Function.update_of_ne hu]
        exact h.leader_cand hold
    leader_majority := by
      intro u d hd
      rcases hwon hd with ⟨rfl, rfl⟩ | ⟨-, hold⟩
      · exact ⟨Q, hQ, fun q hq => ⟨hv q hq, h.vote_early (hv q hq) hl⟩⟩
      · exact h.leader_majority hold
    leader_init := by
      intro u d hd
      rcases hwon hd with ⟨rfl, rfl⟩ | ⟨hu, hold⟩
      · simp
      · rw [History.win_initLog, History.win_leaderLog, Function.update_of_ne hu,
          Function.update_of_ne hu]
        exact h.leader_init hold
    leader_log := by
      intro u d hd hcur
      rcases hwon hd with ⟨rfl, rfl⟩ | ⟨hu, hold⟩
      · simp
      · rw [History.win_leaderLog, Function.update_of_ne hu]
        exact h.leader_log hold hcur
    leader_acked := by
      intro u d hd
      rcases hwon hd with ⟨rfl, rfl⟩ | ⟨hu, hold⟩
      · simp
      · rw [History.win_acked, History.win_leaderLog, put_of_ne_right hu, Function.update_of_ne hu]
        exact h.leader_acked hold
    no_leader := by
      intro u hno
      have hu : u ≠ t := by
        rintro rfl
        simp at hno
      rw [History.win_leaderLog, Function.update_of_ne hu]
      exact h.no_leader ((Function.update_of_ne hu _ _).symm.trans hno)
    leaderLog_term := by
      intro u e he
      by_cases hu : u = t
      · subst hu
        exact (h.log_term e (by simpa using he)).trans ht.le
      · exact h.leaderLog_term e (by simpa [hu] using he)
    leaderLog_lineage := by
      intro u
      by_cases hu : u = t
      · subst hu
        simpa using hmono (h.log_lineage c)
      · simpa [hu] using hmono (h.leaderLog_lineage u)
    log_lineage := fun b => hmono (h.log_lineage b)
    voteLog_lineage := fun hd => hmono (h.voteLog_lineage hd)
    acked_le := by
      intro b u
      by_cases hu : u = t
      · subst hu
        by_cases hb : b = c
        · subst hb; simp
        · simp [put_of_ne_left hb, hn]
      · simpa [put_of_ne_right hu, hu] using h.acked_le b u
    acked_cur ha := h.acked_cur_put ht.ge ha
    retain_log := by
      intro b s p hp ha hr
      by_cases hs : s = t
      · subst hs
        by_cases hb : b = c
        · subst hb; simpa using hp
        · -- nobody but the winner can have confirmed anything in a term without a winner
          obtain rfl : p = [] := by simpa [put, hb, hn] using ha
          exact List.nil_prefix
      · have hp' : p <+: g.leaderLog s := by simpa [hs] using hp
        refine h.retain_log hp' (ha.trans_eq (put_of_ne_right hs)) fun v hsv hv hw => ?_
        have hvt : v ≠ t := by
          rintro rfl
          exact hw hl
        simpa [hvt] using hr v hsv hv (by simpa [hvt] using hw)
    retain_vote := by
      intro b s u p l hp ha hsu hl' hr
      by_cases hs : s = t
      · subst hs
        by_cases hb : b = c
        · subst hb
          obtain ⟨d, hd⟩ := Option.ne_none_iff_exists'.mp (h.voteLog_vote hl')
          exact absurd (h.vote_le hd) (by rw [ht]; exact hsu.not_ge)
        · obtain rfl : p = [] := by simpa [put, hb, hn] using ha
          exact List.nil_prefix
      · have hp' : p <+: g.leaderLog s := by simpa [hs] using hp
        refine h.retain_vote hp' (ha.trans_eq (put_of_ne_right hs)) hsu hl' fun v hsv hv hw => ?_
        have hvt : v ≠ t := by
          rintro rfl
          exact hw hl
        simpa [hvt] using hr v hsv hv (by simpa [hvt] using hw) }

theorem Valid.append {e : E} (h : Valid term g) (hl : g.leader t = some c) (ht : g.cur c = t)
    (he : term e = t) : Valid term (g.append c t e) := by
  have hlog : g.log c = g.leaderLog t := h.leader_log hl ht
  have hgrow : ∀ u, g.leaderLog u <+: (g.append c t e).leaderLog u := by
    intro u; by_cases hu : u = t
    · subst hu; simp [hlog]
    · simp [hu]
  have hmono : ∀ {l : List E}, Lineage term g l → Lineage term (g.append c t e) l :=
    Lineage.mono id hgrow
  have hnew : Lineage term (g.append c t e) (g.log c ++ [e]) := by
    intro p f hp
    rcases List.prefix_concat_iff.mp hp with hp | hp
    · obtain ⟨rfl, rfl⟩ := List.append_inj' hp rfl |>.imp id (by simpa using ·)
      simp [he, hl]
    · exact hmono (h.log_lineage c) p f hp
  -- a prefix confirmed by another node lies in the part of the leader's log that was there before
  have hold : ∀ {b s} {p : List E}, ¬ (b = c ∧ s = t) → p <+: (g.append c t e).leaderLog s →
      p.length ≤ (g.append c t e).acked b s → p <+: g.leaderLog s ∧ p.length ≤ g.acked b s := by
    intro b s p hb hp ha
    have ha' : p.length ≤ g.acked b s := ha.trans_eq (put_of_not hb)
    exact ⟨List.prefix_of_prefix_length_le hp (hgrow s) (ha'.trans (h.acked_le b s)), ha'⟩
  exact { h with
    cand_lineage := fun hd => hmono (h.cand_lineage hd)
    leader_init := fun hd => (h.leader_init hd).trans (hgrow _)
    leader_log := by
      intro u d hd hu
      by_cases hut : u = t
      · subst hut
        obtain rfl : c = d := Option.some.inj (hl.symm.trans hd)
        simp
      · have hdc : d ≠ c := by
          rintro rfl
          exact hut (hu.symm.trans ht)
        simpa [hut, hdc] using h.leader_log hd hu
    leader_acked := by
      intro u d hd
      by_cases hut : u = t
      · subst hut
        obtain rfl : c = d := Option.some.inj (hl.symm.trans hd)
        simp
      · simpa [hut, put_of_ne_right hut] using h.leader_acked hd
    no_leader := by
      intro u hno
      have hut : u ≠ t := by
        rintro rfl
        exact absurd (hl.symm.trans hno) (by simp)
      simpa [hut] using h.no_leader hno
    leaderLog_term := by
      intro u f hf
      by_cases hut : u = t
      · subst hut
        have hf' : f ∈ g.log c ∨ f = e := by simpa using hf
        rcases hf' with hf | rfl
        · exact h.leaderLog_term f (hlog ▸ hf)
        · exact he.le
      · exact h.leaderLog_term f (by simpa [hut] using hf)
    leaderLog_lineage := by
      intro u
      by_cases hu : u = t
      · subst hu; simpa using hnew
      · simpa [hu] using hmono (h.leaderLog_lineage u)
    log_term := by
      intro b f hf
      by_cases hb : b = c
      · subst hb
        have hf' : f ∈ g.log b ∨ f = e := by simpa using hf
        rcases hf' with hf | rfl
        · exact h.log_term f hf
        · exact he.le.trans ht.ge
      · exact h.log_term f (by simpa [hb] using hf)
    log_lineage := by
      intro b
      by_cases hb : b = c
      · subst hb; simpa using hnew
      · simpa [hb] using hmono (h.log_lineage b)
    voteLog_lineage := fun hd => hmono (h.voteLog_lineage hd)
    acked_le := by
      intro b u
      by_cases hb : b = c ∧ u = t
      · obtain ⟨rfl, rfl⟩ := hb
        simp
      · rw [History.append_acked, put_of_not hb]
        exact (h.acked_le b u).trans (hgrow u).length_le
    acked_cur ha := h.acked_cur_put ht.ge ha
    retain_log := by
      intro b s p hp ha hr
      by_cases hb : b = c ∧ s = t
      · obtain ⟨rfl, rfl⟩ := hb; simpa using hp
      · obtain ⟨hp', ha'⟩ := hold hb hp ha
        have hq := h.retain_log hp' ha' hr
        by_cases hbc : b = c
        · subst hbc; simpa using hq.trans (List.prefix_append _ _)
        · simpa [hbc] using hq
    retain_vote := by
      intro b s u p l hp ha hsu hl' hr
      by_cases hb : b = c ∧ s = t
      · obtain ⟨rfl, rfl⟩ := hb
        obtain ⟨d, hd⟩ := Option.ne_none_iff_exists'.mp (h.voteLog_vote hl')
        exact absurd (h.vote_le hd) (by rw [ht]; exact hsu.not_ge)
      · obtain ⟨hp', ha'⟩ := hold hb hp ha
        exact h.retain_vote hp' ha' hsu hl' hr }

theorem Valid.store {p : List E} (h : Valid term g) (hl : g.leader t = some c) (hq : c ≠ q)
    (ht : g.cur q = t) (hp : p <+: g.leaderLog t) : Valid term (g.store q t p) := by
  have hacked : ∀ b u, ¬ (b = q ∧ u = t) → (g.store q t p).acked b u = g.acked b u := by
    intro b u hb; simp [put, hb]
  exact { h with
    leader_log := by
      intro u d hd hu
      have hdq : d ≠ q := by
        rintro rfl
        obtain rfl : u = t := hu.symm.trans ht
        exact hq (Option.some.inj (hl.symm.trans hd))
      rw [History.store_log, Function.update_of_ne hdq]
      exact h.leader_log hd hu
    leader_acked := by
      intro u d hd
      have hdq : ¬ (d = q ∧ u = t) := by
        rintro ⟨rfl, rfl⟩
        exact hq (Option.some.inj (hl.symm.trans hd))
      rw [hacked d u hdq]
      exact h.leader_acked hd
    log_term := by
      intro b f hf
      by_cases hb : b = q
      · subst hb
        simp only [History.store_log, Function.update_self] at hf
        rcases graft_eq_or (g.log b) p with hg | hg <;> rw [hg] at hf
        · exact h.log_term f hf
        · exact (h.leaderLog_term f (hp.subset hf)).trans ht.ge
      · exact h.log_term f (by simpa [hb] using hf)
    log_lineage := by
      intro b
      by_cases hb : b = q
      · subst hb
        simp only [History.store_log, Function.update_self]
        rcases graft_eq_or (g.log b) p with hg | hg <;> rw [hg]
        · exact h.log_lineage b
        · exact (h.leaderLog_lineage t).of_isPrefix hp
      · simp only [History.store_log, Function.update_of_ne hb]
        exact h.log_lineage b
    acked_le := by
      intro b u
      by_cases hb : b = q ∧ u = t
      · obtain ⟨rfl, rfl⟩ := hb
        rw [History.store_acked, put_self]
        exact max_le (h.acked_le b u) hp.length_le
      · rw [hacked b u hb]
        exact h.acked_le b u
    acked_cur ha := h.acked_cur_put ht.ge ha
    retain_log := by
      intro b s r hr ha hv
      by_cases hb : b = q
      · subst hb
        simp only [History.store_log, Function.update_self]
        by_cases hold : r.length ≤ g.acked b s
        · refine IsPrefix.graft (h.retain_log hr hold hv) ?_ hp
          rcases lt_trichotomy s t with hst | rfl | hst
          · have hrt := hv t hst ht.ge (by simp [hl])
            exact hrt.trans (h.leader_init hl)
          · exact hr
          · obtain rfl : r = [] := by
              by_contra hne
              have := h.acked_cur ((List.length_pos_of_ne_nil hne).trans_le hold)
              exact absurd (ht ▸ this) hst.not_ge
            exact List.nil_prefix
        · have hst : s = t := by
            by_contra hne
            exact hold (hacked b s (fun h => hne h.2) ▸ ha)
          subst hst
          have hrp : r.length ≤ p.length := by
            simp only [History.store_acked, put_self, le_max_iff] at ha
            exact ha.resolve_left hold
          exact (List.prefix_of_prefix_length_le hr hp hrp).trans (prefix_graft _ _)
      · simpa [hb] using h.retain_log hr (by simpa [put, hb] using ha) hv
    retain_vote := by
      intro b s u r l hr ha hsu hl' hv
      by_cases hb : b = q ∧ s = t
      · obtain ⟨rfl, rfl⟩ := hb
        obtain ⟨d, hd⟩ := Option.ne_none_iff_exists'.mp (h.voteLog_vote hl')
        exact absurd (h.vote_le hd) (by rw [ht]; exact hsu.not_ge)
      · exact h.retain_vote hr (hacked b s hb ▸ ha) hsu hl' hv }

/-- Every step keeps the invariant. -/
theorem Step.valid (hs : Step term g g') (h : Valid term g) : Valid term g' := by
  cases hs with
  | advance ht => exact h.advance ht
  | stand ht => exact h.stand ht
  | castVote ht hv hc hu => exact h.castVote ht hv hc hu
  | win ht hc hl hQ hv => exact h.win ht hc hl hQ hv
  | append hl ht he => exact h.append hl ht he
  | store hl hq ht hp => exact h.store hl hq ht hp

/-! ## Each step is an action of one node -/

omit [Fintype N] in
theorem Extends.advance (ht : g.cur q ≤ t) : Extends q g (g.advance q t) :=
  { Extends.refl q g with
    cur_other := fun hb => by simp [hb]
    cur_le := by simpa using ht }

theorem Extends.stand (h : Valid term g) (ht : g.cur c < t) : Extends c g (g.stand c t) :=
  { Extends.refl c g with
    cur_other := fun hb => by simp [hb]
    cur_le := by simpa using ht.le
    vote_other := fun hb => by ext; simp [put, hb]
    cand_other := fun hb => by ext; simp [put, hb]
    vote := by
      intro b u d hd
      have hne : ¬ (b = c ∧ u = t) := by
        rintro ⟨rfl, rfl⟩; exact absurd (h.vote_le hd) ht.not_ge
      simpa [put, hne] using hd
    cand := by
      intro b u l hd
      have hne : ¬ (b = c ∧ u = t) := by
        rintro ⟨rfl, rfl⟩; exact absurd (h.vote_le (h.cand_vote hd)) ht.not_ge
      simpa [put, hne] using hd }

omit [Fintype N] in
theorem Extends.castVote (hv : g.vote q t = none) : Extends q g (g.castVote q c t) :=
  { Extends.refl q g with
    vote_other := fun hb => by ext; simp [put, hb]
    vote := by
      intro b u d hd
      have hne : ¬ (b = q ∧ u = t) := by rintro ⟨rfl, rfl⟩; simp [hv] at hd
      simpa [put, hne] using hd }

theorem Extends.win (h : Valid term g) (hl : g.leader t = none) : Extends c g (g.win c t) :=
  { Extends.refl c g with
    leader := by
      intro u d hd
      have hne : u ≠ t := by rintro rfl; simp [hl] at hd
      simpa [hne] using hd
    leader_new := by
      intro u d hd
      by_cases hu : u = t
      · subst hu; right; simpa using hd.symm
      · left; simpa [hu] using hd
    leaderLog := by
      intro u
      by_cases hu : u = t
      · subst hu; simp [h.no_leader hl]
      · simp [hu]
    acked := by
      intro b u
      by_cases hb : b = c ∧ u = t
      · obtain ⟨rfl, rfl⟩ := hb; simp [h.acked_no_leader hl]
      · simp [put, hb] }

theorem Extends.append {e : E} (h : Valid term g) (hl : g.leader t = some c) (ht : g.cur c = t) :
    Extends c g (g.append c t e) :=
  { Extends.refl c g with
    log_other := fun hb => by simp [hb]
    leaderLog := by
      intro u
      by_cases hu : u = t
      · subst hu; simp [h.leader_log hl ht]
      · simp [hu]
    acked := by
      intro b u
      by_cases hb : b = c ∧ u = t
      · obtain ⟨rfl, rfl⟩ := hb; simp [h.leader_log hl ht, h.leader_acked hl]
      · simp [put, hb] }

omit [Fintype N] in
theorem Extends.store (p : List E) : Extends q g (g.store q t p) :=
  { Extends.refl q g with
    log_other := fun hb => by simp [hb]
    acked := by
      intro b u
      by_cases hb : b = q ∧ u = t
      · obtain ⟨rfl, rfl⟩ := hb; simp
      · simp [put, hb] }

end Steps

end Consensus
