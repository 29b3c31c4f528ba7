import Mathlib

/-!
# Counting what a map holds

`tally f v` is how many keys have the value `v`, in a map from finitely many
keys. It changes by one where a key is inserted or erased.
-/

namespace Tally

variable {K V : Type}

noncomputable def tally (f : K → Option V) (v : V) : Nat := {k | f k = some v}.ncard

theorem tally_eq_zero {f : K → Option V} {v : V} (h : ∀ k, f k ≠ some v) : tally f v = 0 := by
  have hempty : {k | f k = some v} = ∅ := Set.eq_empty_of_forall_notMem h
  rw [tally, hempty, Set.ncard_empty]

variable [Finite K] [DecidableEq K] [DecidableEq V] {f : K → Option V} {k : K} {v : V}

theorem tally_insert (h : f k = none) (w : V) :
    tally (Function.update f k (some v)) w = tally f w + if w = v then 1 else 0 := by
  have hset : {k' | Function.update f k (some v) k' = some w} =
      if w = v then insert k {k' | f k' = some w} else {k' | f k' = some w} := by
    ext k'
    by_cases e : k' = k
    · subst e
      split <;> rename_i hw
      · simp [hw]
      · simp [h, Ne.symm hw]
    · split <;> simp [e]
  rw [tally, hset]
  split
  · rw [Set.ncard_insert_of_notMem (by simp [h])]
    rfl
  · rfl

theorem tally_erase (h : f k = some v) (w : V) :
    tally (Function.update f k none) w + (if w = v then 1 else 0) = tally f w := by
  have hback := tally_insert (f := Function.update f k none) (k := k) (v := v) (Function.update_self ..) w
  rw [Function.update_idem, ← h, Function.update_eq_self] at hback
  exact hback.symm

end Tally
