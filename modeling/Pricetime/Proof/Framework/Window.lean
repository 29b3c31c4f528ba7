import Mathlib

/-!
# Windows on a ring

Indices that count up for ever are kept modulo the size `n` of a ring. Two of
them at most `n` apart are one in the ring if they are equal or `n` apart
(`mod_eq_iff`), and their distance can be read off the ring if it is less
(`distance`). `Holds xs m items` says that the ring `xs` has `items` from index
`m` on.
-/

namespace Window

theorem mod_eq_iff {a b n : Nat} (hab : a ≤ b) (hb : b ≤ a + n) : b % n = a % n ↔ b = a ∨ b = a + n := by
  constructor
  · intro h
    have hdvd : n ∣ b - a := (Nat.modEq_iff_dvd' hab).mp h.symm
    obtain ⟨k, hk⟩ := hdvd
    rcases Nat.lt_or_ge k 2 with hk2 | hk2
    · have hk01 : k = 0 ∨ k = 1 := by omega
      rcases hk01 with rfl | rfl
      · left
        omega
      · right
        omega
    · -- only if the ring is empty
      have hle : n * 2 ≤ n * k := Nat.mul_le_mul_left n hk2
      left
      omega
  · rintro (rfl | rfl)
    · rfl
    · exact Nat.add_mod_right a n

theorem mod_inj {a b n : Nat} (hab : a ≤ b) (hb : b < a + n) : b % n = a % n ↔ b = a := by
  rw [mod_eq_iff hab (Nat.le_of_lt hb)]
  omega

theorem distance {a b n : Nat} (hab : a ≤ b) (hb : b < a + n) : (b % n + n - a % n) % n = b - a := by
  have hn : 0 < n := by omega
  have ha := Nat.mod_lt a hn
  obtain ⟨d, rfl⟩ := Nat.exists_eq_add_of_le hab
  have hd : d < n := by omega
  rw [Nat.add_sub_cancel_left, Nat.add_mod, Nat.mod_eq_of_lt hd]
  by_cases hlt : a % n + d < n
  · rw [Nat.mod_eq_of_lt hlt, show a % n + d + n - a % n = d + n by omega, Nat.add_mod_right, Nat.mod_eq_of_lt hd]
  · have hsub : (a % n + d) % n = a % n + d - n := by
      rw [Nat.mod_eq_sub_mod (by omega), Nat.mod_eq_of_lt (by omega)]
    rw [hsub, show a % n + d - n + n - a % n = d by omega, Nat.mod_eq_of_lt hd]

variable {T : Type} {xs items : List T} {m : Nat} {v : T}

/-- The ring has the items from index `m` on. -/
def Holds (xs : List T) (m : Nat) (items : List T) : Prop :=
  ∀ i < items.length, xs[(m + i) % xs.length]? = items[i]?

namespace Holds

theorem nil (xs : List T) (m : Nat) : Holds xs m [] := nofun

theorem head (h : Holds xs m (v :: items)) : xs[m % xs.length]? = some v := h 0 (by simp)

/-- The slot after the last item is free. -/
theorem set (h : Holds xs m items) (hlen : items.length < xs.length) (v : T) :
    Holds (xs.set ((m + items.length) % xs.length) v) m items := by
  intro i hi
  have hne : (m + items.length) % xs.length ≠ (m + i) % xs.length := by
    rw [ne_eq, mod_inj (by omega) (by omega)]
    omega
  rw [List.length_set, List.getElem?_set_ne hne]
  exact h i hi

theorem push (h : Holds xs m items) (hv : xs[(m + items.length) % xs.length]? = some v) :
    Holds xs m (items ++ [v]) := by
  intro i hi
  rw [List.length_append, List.length_singleton] at hi
  by_cases hlt : i < items.length
  · rw [List.getElem?_append_left hlt]
    exact h i hlt
  · have hi : i = items.length := by omega
    rw [hi, List.getElem?_concat_length]
    exact hv

theorem pop (h : Holds xs m (v :: items)) : Holds xs (m + 1) items := by
  intro i hi
  have := h (i + 1) (by simpa using hi)
  rwa [List.getElem?_cons_succ, show m + (i + 1) = m + 1 + i by omega] at this

/-- The items, read off the ring. -/
theorem map_range (h : Holds xs m items) :
    ((List.range items.length).map fun i => xs[(m + i) % xs.length]?) = items.map some := by
  refine List.ext_getElem? fun i => ?_
  rw [List.getElem?_map, List.getElem?_map]
  by_cases hi : i < items.length
  · rw [List.getElem?_range hi, Option.map_some, h i hi, List.getElem?_eq_getElem hi]
    rfl
  · rw [List.getElem?_eq_none (by simpa using hi), List.getElem?_eq_none (by simpa using hi)]
    rfl

end Holds

end Window
