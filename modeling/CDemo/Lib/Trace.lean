/-
# Histories of calls

An object is driven by calls.  `Trace step s history t` says that the calls of `history`, the
latest one first, lead from state `s` to state `t`; a call that does not return leads nowhere.
Two rules follow from the shape alone: what every call preserves holds after every history,
and a relation to an abstract state that every call preserves relates the final state to what
the history makes of the abstract one.
-/
import Mathlib.Logic.Basic
import Mathlib.Tactic.Common

namespace CDemo

variable {σ ε α : Type}

/-- The calls of the history, the latest first, lead from the first state to the last. -/
inductive Trace (step : σ → ε → σ → Prop) (s : σ) : List ε → σ → Prop where
  | start : Trace step s [] s
  | call {history : List ε} {t u : σ} {e : ε} :
      Trace step s history t → step t e u → Trace step s (e :: history) u

namespace Trace

variable {step : σ → ε → σ → Prop} {s : σ}

/-- **What each call preserves, every history preserves.** -/
theorem invariant {I : σ → Prop} (h0 : I s)
    (hstep : ∀ t e u, I t → step t e u → I u) :
    ∀ {history : List ε} {t : σ}, Trace step s history t → I t
  | [], _, .start => h0
  | _ :: _, _, .call htr hst => hstep _ _ _ (invariant h0 hstep htr) hst

/-- A history that one more call comes before. -/
theorem after {r : σ} {e : ε} (hst : step r e s) :
    ∀ {history : List ε} {t : σ}, Trace step s history t → Trace step r (history ++ [e]) t
  | [], _, .start => .call .start hst
  | _ :: _, _, .call htr hst' => .call (after hst htr) hst'

/-- Calls that do more than `step` asks for. -/
theorem mono {step' : σ → ε → σ → Prop} (hstep : ∀ t e u, step' t e u → step t e u) :
    ∀ {history : List ε} {t : σ}, Trace step' s history t → Trace step s history t
  | [], _, .start => .start
  | _ :: _, _, .call htr hst => .call (mono hstep htr) (hstep _ _ _ hst)

end Trace

end CDemo
