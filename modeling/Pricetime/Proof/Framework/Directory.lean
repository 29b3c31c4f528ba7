import Mathlib

/-!
# Directories

A family `R : P → K → Option V` of finite maps, and a directory `I` that says
which of the maps has a key. `Directs I R` says that it is right. A key of one
map may be set, removed, or changed (`Directs.insert`, `Directs.erase`,
`Directs.change`), as long as no other map has it: two maps with one key have
no directory (`not_directs_put`).

`union I R` is the map they make up.
-/

namespace Directory

variable {K P V : Type}

/-- A directory names, for each key, the one map that has it. -/
def Directs (I : K → Option P) (R : P → K → Option V) : Prop := ∀ k p, I k = some p ↔ R p k ≠ none

/-- What the maps have of a key. -/
def union (I : K → Option P) (R : P → K → Option V) (k : K) : Option V := (I k).bind fun p => R p k

variable {R : P → K → Option V} {I : K → Option P} {p q : P} {k k' : K} {v : Option V}

theorem Directs.unique (h : Directs I R) (hp : R p k ≠ none) (hq : R q k ≠ none) : p = q :=
  Option.some.inj (((h k p).mpr hp).symm.trans ((h k q).mpr hq))

theorem Directs.none_iff (h : Directs I R) : I k = none ↔ ∀ p, R p k = none := by
  constructor
  · intro hk p
    by_contra hp
    cases hk.symm.trans ((h k p).mpr hp)
  · intro hk
    by_contra hI
    obtain ⟨p, hp⟩ := Option.ne_none_iff_exists'.mp hI
    exact (h k p).mp hp (hk p)

theorem union_eq_some (h : Directs I R) {w : V} : union I R k = some w ↔ ∃ p, R p k = some w := by
  rw [union, Option.bind_eq_some_iff]
  constructor
  · rintro ⟨p, -, hp⟩
    exact ⟨p, hp⟩
  · rintro ⟨p, hp⟩
    exact ⟨p, (h k p).mpr (by simp [hp]), hp⟩

variable [DecidableEq K] [DecidableEq P]

/-- One key of one map changed. -/
def put (R : P → K → Option V) (p : P) (k : K) (v : Option V) : P → K → Option V :=
  Function.update R p (Function.update (R p) k v)

@[simp] theorem put_self : put R p k v p k = v := by
  simp [put]

theorem put_of_key_ne (h : k' ≠ k) : put R p k v q k' = R q k' := by
  by_cases e : q = p
  · subst e
    simp [put, h]
  · simp [put, e]

theorem put_of_map_ne (h : q ≠ p) : put R p k v q k' = R q k' := by
  simp [put, h]

namespace Directs

/-- A key that no map has is given to one. -/
theorem insert (h : Directs I R) (hk : ∀ q, R q k = none) (p : P) (hv : v ≠ none) :
    Directs (Function.update I k (some p)) (put R p k v) := by
  intro k' q
  by_cases e : k' = k
  · subst e
    rw [Function.update_self]
    by_cases ep : q = p
    · subst ep
      simp [hv]
    · rw [put_of_map_ne ep, hk]
      simp [Ne.symm ep]
  · rw [Function.update_of_ne e, put_of_key_ne e]
    exact h k' q

/-- A key is taken away from the map that has it. -/
theorem erase (h : Directs I R) (hk : I k = some p) : Directs (Function.update I k none) (put R p k none) := by
  intro k' q
  by_cases e : k' = k
  · subst e
    rw [Function.update_self]
    by_cases ep : q = p
    · subst ep
      simp
    · rw [put_of_map_ne ep]
      have hq : R q k' = none := by
        by_contra hq
        exact ep (h.unique hq ((h k' p).mp hk))
      simp [hq]
  · rw [Function.update_of_ne e, put_of_key_ne e]
    exact h k' q

/-- The value of a key is changed where it is. -/
theorem change (h : Directs I R) (hk : I k = some p) (hv : v ≠ none) : Directs I (put R p k v) := by
  intro k' q
  by_cases e : k' = k ∧ q = p
  · obtain ⟨rfl, rfl⟩ := e
    simp [hk, hv]
  · have hput : put R p k v q k' = R q k' := by
      rcases not_and_or.mp e with e | e
      · exact put_of_key_ne e
      · exact put_of_map_ne e
    rw [hput]
    exact h k' q

end Directs

/-- Two maps have the key. -/
theorem not_directs_put (hv : v ≠ none) (hne : q ≠ p) (hq : R q k ≠ none) : ¬ Directs I (put R p k v) := by
  intro h
  refine hne (h.unique (k := k) ?_ ?_)
  · rwa [put_of_map_ne hne]
  · rwa [put_self]

/-! ## The map they make up -/

theorem union_put {I' : K → Option P} (h : Directs I R) (h' : Directs I' (put R p k v))
    (hk : ∀ q, q ≠ p → R q k = none) : union I' (put R p k v) = Function.update (union I R) k v := by
  funext k'
  apply Option.ext
  intro w
  rw [union_eq_some h']
  by_cases e : k' = k
  · subst e
    rw [Function.update_self]
    constructor
    · rintro ⟨q, hq⟩
      by_cases ep : q = p
      · subst ep
        rwa [put_self] at hq
      · rw [put_of_map_ne ep, hk q ep] at hq
        cases hq
    · intro hv
      exact ⟨p, put_self.trans hv⟩
  · rw [Function.update_of_ne e, union_eq_some h]
    simp only [put_of_key_ne e]

end Directory
