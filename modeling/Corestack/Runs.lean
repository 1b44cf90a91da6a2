import Mathlib.Data.List.Induction
import Mathlib.Data.List.Infix

/-! # Runs and their beginnings

A run is a list of operations, and its states are those after its prefixes. A
property holds all along a run when every operation keeps an invariant that
implies it; it holds exactly then if an operation that does not keep it ends it.
-/

namespace Corestack.Runs

variable {ε : Type*} {es : List ε} {I P : List ε → Prop} {Sound : List ε → ε → Prop}

/-- What holds at the start and is kept by every operation holds all along the run. -/
theorem prefix_induction (h0 : I [])
    (hstep : ∀ pre e, pre ++ [e] <+: es → I pre → I (pre ++ [e])) : ∀ pre, pre <+: es → I pre := by
  intro pre
  induction pre using List.reverseRecOn with
  | nil => exact fun _ => h0
  | append_singleton pre e ih =>
    intro hp
    exact hstep pre e hp (ih ((List.prefix_append _ _).trans hp))

/-- A property holds all along a run if and only if every operation of the run is sound. -/
theorem forall_prefix_iff (h0 : I [])
    (hstep : ∀ pre e, pre ++ [e] <+: es → I pre → Sound pre e → I (pre ++ [e]))
    (hprop : ∀ pre, pre <+: es → I pre → P pre)
    (hsound : ∀ pre e, pre ++ [e] <+: es → I pre → P (pre ++ [e]) → Sound pre e) :
    (∀ pre, pre <+: es → P pre) ↔ ∀ pre e, pre ++ [e] <+: es → Sound pre e := by
  constructor
  · intro hP
    have hI : ∀ pre, pre <+: es → I pre := prefix_induction h0 fun pre e hp hi =>
      hstep pre e hp hi (hsound pre e hp hi (hP _ hp))
    intro pre e hp
    exact hsound pre e hp (hI pre ((List.prefix_append _ _).trans hp)) (hP _ hp)
  · intro hs pre hp
    apply hprop pre hp
    exact prefix_induction h0 (fun pre e hp hi => hstep pre e hp hi (hs pre e hp)) pre hp

/-! ## Answers -/

variable {σ β : Type*}

/-- The state after a run and the answers of its operations. -/
def outputs (step : σ → ε → σ × β) (s : σ) (es : List ε) : σ × List β :=
  es.foldl (fun x e => ((step x.1 e).1, x.2 ++ [(step x.1 e).2])) (s, [])

theorem outputs_concat (step : σ → ε → σ × β) (s : σ) (es : List ε) (e : ε) :
    outputs step s (es ++ [e]) =
      ((step (outputs step s es).1 e).1,
        (outputs step s es).2 ++ [(step (outputs step s es).1 e).2]) := by
  simp only [outputs, List.foldl_append, List.foldl_cons, List.foldl_nil]

end Corestack.Runs
