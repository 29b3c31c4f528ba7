import Mathlib

/-!
# Fair schedules end

An endless sequence of states, in which each step is taken by some thread, and
each thread takes endlessly many. A thread helps in a state if a step of its own
lowers a rank there. If no step raises the rank, and a step that keeps it takes
no help away and is not by a thread that helps, then a state is reached in which
nobody helps (`exists_final`).

This is the rule of helpful threads: one that helps goes on helping until the
rank is lower, and its turn comes before that or then.
-/

namespace Fairness

variable {S T W : Type*}

/-- Each thread has endlessly many steps; `by_ n t` says that step `n` is one
of `t`. -/
def Fair (takes : ℕ → T → Prop) : Prop := ∀ t n, ∃ m, n ≤ m ∧ takes m t

/-- It does not matter where one starts to look. -/
theorem Fair.shift {takes : ℕ → T → Prop} (h : Fair takes) (n : ℕ) : Fair fun k t => takes (n + k) t := fun t k => by
  obtain ⟨m, hm, ht⟩ := h t (n + k)
  obtain ⟨j, rfl⟩ := Nat.exists_eq_add_of_le (le_of_add_le_left hm)
  exact ⟨j, Nat.le_of_add_le_add_left hm, ht⟩

/-- Step `n` of a sequence of states lowers the rank, or it keeps it, takes no
help away and is by a thread that does not help. -/
def Advances [LT W] (rank : S → W) (helps : S → T → Prop) (takes : ℕ → T → Prop) (st : ℕ → S) (n : ℕ) : Prop :=
  rank (st (n + 1)) < rank (st n) ∨
    rank (st (n + 1)) = rank (st n) ∧ (∀ t, helps (st n) t → helps (st (n + 1)) t) ∧
      ∀ t, takes n t → ¬ helps (st n) t

variable [Preorder W] {rank : S → W} {helps : S → T → Prop} {takes : ℕ → T → Prop} {st : ℕ → S} {final : S → Prop}

/-- While the rank stays, so does help. -/
theorem keeps_helping {n k : ℕ} {t : T} (hk : ∀ j, j < k → Advances rank helps takes st (n + j) ∧
    ¬ rank (st (n + j + 1)) < rank (st (n + j))) (ht : helps (st n) t) :
    rank (st (n + k)) = rank (st n) ∧ helps (st (n + k)) t := by
  induction k with
  | zero => exact ⟨rfl, ht⟩
  | succ k ih =>
    obtain ⟨hrank, hhelps⟩ := ih fun j hj => hk j (Nat.lt_succ_of_lt hj)
    obtain ⟨hadv, hno⟩ := hk k (Nat.lt_succ_self k)
    rcases hadv with hlt | ⟨hsame, hmore, -⟩
    · exact absurd hlt hno
    · exact ⟨hsame.trans hrank, hmore t hhelps⟩

/-- A thread that helps lowers the rank in time. -/
theorem exists_lower (hfair : Fair takes) {n : ℕ} {t : T} (ht : helps (st n) t)
    (hadv : ∀ m, n ≤ m → Advances rank helps takes st m) : ∃ m, n ≤ m ∧ rank (st m) < rank (st n) := by
  obtain ⟨m, hm, htakes⟩ := hfair t n
  obtain ⟨k, rfl⟩ := Nat.exists_eq_add_of_le hm
  by_cases hlow : ∃ j, j < k ∧ rank (st (n + j + 1)) < rank (st (n + j))
  · -- the first step that lowers it
    classical
    have hj := Nat.find_spec hlow
    have hfirst : ∀ i, i < Nat.find hlow → Advances rank helps takes st (n + i) ∧
        ¬ rank (st (n + i + 1)) < rank (st (n + i)) := fun i hi =>
      ⟨hadv _ (Nat.le_add_right n i), fun hlt => Nat.find_min hlow hi ⟨hi.trans hj.1, hlt⟩⟩
    obtain ⟨hrank, -⟩ := keeps_helping hfirst ht
    exact ⟨n + Nat.find hlow + 1, by omega, hrank ▸ hj.2⟩
  · have hnone : ∀ j, j < k → Advances rank helps takes st (n + j) ∧ ¬ rank (st (n + j + 1)) < rank (st (n + j)) :=
      fun j hj => ⟨hadv _ (Nat.le_add_right n j), fun hlt => hlow ⟨j, hj, hlt⟩⟩
    obtain ⟨hrank, hhelps⟩ := keeps_helping hnone ht
    rcases hadv (n + k) (Nat.le_add_right n k) with hlt | ⟨-, -, hidle⟩
    · exact ⟨n + k + 1, by omega, hrank ▸ hlt⟩
    · exact absurd hhelps (hidle t htakes)

/-- A fair schedule gets to a final state, if somebody helps in every other. -/
theorem exists_final [WellFoundedLT W] (hfair : Fair takes) (hhelp : ∀ n, ¬ final (st n) → ∃ t, helps (st n) t)
    (hadv : ∀ n, ¬ final (st n) → Advances rank helps takes st n) : ∃ n, final (st n) := by
  by_contra hno
  rw [not_exists] at hno
  have descend : ∀ w n, rank (st n) = w → False := by
    intro w
    induction w using WellFoundedLT.induction with
    | ind w ih =>
      intro n hn
      obtain ⟨t, ht⟩ := hhelp n (hno n)
      obtain ⟨m, -, hlt⟩ := exists_lower hfair ht fun m _ => hadv m (hno m)
      exact ih (rank (st m)) (hn ▸ hlt) m rfl
  exact descend (rank (st 0)) 0 rfl

end Fairness
