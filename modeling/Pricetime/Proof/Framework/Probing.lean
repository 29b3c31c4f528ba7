import Mathlib

/-!
# Linear probing with backward-shift deletion

A table of `cap` slots is a function `t` from slots to entries (`E`). An
entry has a key, and `ideal` gives the slot a key's search starts at. Slots
are cyclic: `succ` is the next slot and `dist` the number of steps forward
from one slot to another, both by comparison and subtraction, so that facts
about them are linear.

* `Table`: keys are distinct, and no slot is empty from an entry's ideal slot
  up to the entry.
* `probe_spec`: a search stops at the first slot, in cyclic order, where it
  may.
* `Table.insert`: an entry put in the first empty slot from its ideal one.
* `shift_spec`: closing a hole by moving later entries back (`shift`) ends,
  keeps the entries and restores `Table`.
* `Ranked`, `Ranked.unique`: a table in which entries pass only older ones is
  the one that inserting them in order gives; closing a hole keeps this.
-/

namespace Probing

/-- The slot after `i`. -/
def succ (cap i : Nat) : Nat := if i + 1 = cap then 0 else i + 1

/-- The number of steps forward from `a` to `b`. -/
def dist (cap a b : Nat) : Nat := if a ≤ b then b - a else cap - a + b

section Slots

variable {cap a b c i : Nat}

theorem succ_lt (hi : i < cap) : succ cap i < cap := by
  unfold succ; split <;> omega

theorem dist_lt (ha : a < cap) (hb : b < cap) : dist cap a b < cap := by
  unfold dist; split <;> omega

@[simp] theorem dist_self : dist cap a a = 0 := by
  simp [dist]

theorem eq_of_dist_eq_zero (ha : a < cap) (h : dist cap a b = 0) : a = b := by
  unfold dist at h; split at h <;> omega

theorem dist_succ (ha : a < cap) (h : succ cap b ≠ a) :
    dist cap a (succ cap b) = dist cap a b + 1 := by
  unfold succ at h ⊢; unfold dist; split_ifs at * <;> omega

/-- From the slot after `a`, everything but `a` is one step nearer. -/
theorem dist_eq_succ (ha : a < cap) (hb : b < cap) (h : a ≠ b) :
    dist cap a b = dist cap (succ cap a) b + 1 := by
  unfold dist succ; split_ifs <;> omega

/-- Going from `a` to `b` and on to `c` without passing `a` again. -/
theorem dist_add (ha : a < cap) (hb : b < cap) (hc : c < cap) (h : dist cap a b ≤ dist cap a c) :
    dist cap a c = dist cap a b + dist cap b c := by
  unfold dist at *; split_ifs at * <;> omega

theorem dist_inj (ha : a < cap) (hb : b < cap) (hc : c < cap) (h : dist cap a b = dist cap a c) :
    b = c := by
  unfold dist at h; split_ifs at h <;> omega

end Slots

/-! ## Searching -/

/-- The slot at which a search from `i` stops; `none` if it takes more than
`fuel` steps. -/
def probe (next : Nat → Nat) (stop : Nat → Bool) : Nat → Nat → Option Nat
  | 0, _ => none
  | fuel + 1, i => if stop i then some i else probe next stop fuel (next i)

/-- If some slot `e` stops the search, the search ends at the first that does. -/
theorem probe_spec {cap : Nat} (next : Nat → Nat) (stop : Nat → Bool)
    (hn : ∀ i < cap, next i = succ cap i) {e : Nat} (he : e < cap) (hs : stop e = true) :
    ∀ (fuel : Nat) {i : Nat}, i < cap → dist cap i e < fuel →
      ∃ j < cap, probe next stop fuel i = some j ∧ stop j = true ∧
        ∀ y < cap, dist cap i y < dist cap i j → stop y = false
  | 0, _, _, hf => absurd hf (Nat.not_lt_zero _)
  | fuel + 1, i, hi, hf => by
    cases hsi : stop i with
    | true =>
      refine ⟨i, hi, by simp [probe, hsi], hsi, fun y _ hy => ?_⟩
      rw [dist_self] at hy
      omega
    | false =>
      have hie : i ≠ e := fun h => by rw [h, hs] at hsi; cases hsi
      have hd := dist_eq_succ hi he hie
      obtain ⟨j, hj, hp, hsj, hfirst⟩ :=
        probe_spec next stop hn he hs fuel (succ_lt hi) (by omega)
      have hij : i ≠ j := fun h => by rw [h, hsj] at hsi; cases hsi
      refine ⟨j, hj, by simp [probe, hsi, hn i hi, hp], hsj, fun y hy hlt => ?_⟩
      by_cases hiy : i = y
      · rw [← hiy]; exact hsi
      · refine hfirst y hy ?_
        rw [dist_eq_succ hi hy hiy, dist_eq_succ hi hj hij] at hlt
        omega

/-! ## Tables -/

variable {E K : Type}

/-- The number of entries. -/
def count (cap : Nat) (t : Nat → Option E) : Nat :=
  ((Finset.range cap).filter fun x => (t x).isSome).card

/-- `e` is in the table. -/
def Holds (cap : Nat) (t : Nat → Option E) (e : E) : Prop := ∃ x < cap, t x = some e

structure Table (cap : Nat) (ideal : K → Nat) (key : E → K) (t : Nat → Option E) : Prop where
  inj : ∀ {x y e e'}, x < cap → y < cap → t x = some e → t y = some e' → key e = key e' → x = y
  path : ∀ {x e}, x < cap → t x = some e →
    ∀ y < cap, dist cap (ideal (key e)) y < dist cap (ideal (key e)) x → t y ≠ none

section Tables

variable {cap : Nat} {ideal : K → Nat} {key : E → K} {t : Nat → Option E}

theorem count_update (i : Nat) (hi : i < cap) (v : Option E) :
    count cap (Function.update t i v) + (if (t i).isSome then 1 else 0) =
      count cap t + (if v.isSome then 1 else 0) := by
  have split : ∀ u : Nat → Option E, count cap u =
      (((Finset.range cap).erase i).filter fun x => (u x).isSome).card +
        (if (u i).isSome then 1 else 0) := by
    intro u
    rw [count, ← Finset.insert_erase (Finset.mem_range.mpr hi), Finset.filter_insert]
    split
    · rw [Finset.card_insert_of_notMem (by simp), Finset.erase_insert (by simp)]
    · rw [Finset.erase_insert (by simp), Nat.add_zero]
  have same : ((Finset.range cap).erase i).filter (fun x => (Function.update t i v x).isSome) =
      ((Finset.range cap).erase i).filter fun x => (t x).isSome := by
    refine Finset.filter_congr fun x hx => ?_
    rw [Function.update_of_ne (Finset.ne_of_mem_erase hx)]
  rw [split (Function.update t i v), split t, same, Function.update_self]
  omega

theorem count_succ (n : Nat) (t : Nat → Option E) :
    count (n + 1) t = count n t + if (t n).isSome then 1 else 0 := by
  rw [count, Finset.range_add_one, Finset.filter_insert]
  split
  · rw [Finset.card_insert_of_notMem (by simp), count]
  · rw [count, Nat.add_zero]

theorem count_mono {m n : Nat} (h : m ≤ n) (t : Nat → Option E) : count m t ≤ count n t :=
  Finset.card_le_card (Finset.filter_subset_filter _ (Finset.range_mono h))

theorem count_le (cap : Nat) (t : Nat → Option E) : count cap t ≤ cap := by
  simpa [count] using Finset.card_filter_le (Finset.range cap) fun x => (t x).isSome

/-- A table with fewer entries than slots has an empty slot. -/
theorem exists_empty (h : count cap t < cap) : ∃ x < cap, t x = none := by
  by_contra hne
  have : count cap t = cap := by
    rw [count, Finset.filter_true_of_mem, Finset.card_range]
    intro x hx
    rw [Option.isSome_iff_ne_none]
    exact fun h => hne ⟨x, Finset.mem_range.mp hx, h⟩
  omega

/-- Nothing on the way from `e`'s ideal slot has its key. -/
theorem Table.key_ne (h : Table cap ideal key t) {x y : Nat} {e e' : E} (hx : x < cap)
    (hy : y < cap) (ex : t x = some e) (ey : t y = some e')
    (hlt : dist cap (ideal (key e)) y < dist cap (ideal (key e)) x) : key e' ≠ key e := fun hk => by
  rw [h.inj hy hx ey ex hk] at hlt
  exact Nat.lt_irrefl _ hlt

/-- A search for key `k` that stops at `k` or at an empty slot finds `k`'s
entry if there is one. -/
theorem Table.find (h : Table cap ideal key t) (hi : ∀ k, ideal k < cap) {e : E}
    (he : Holds cap t e) {j : Nat} (hj : j < cap)
    (hstop : t j = none ∨ ∃ e', t j = some e' ∧ key e' = key e)
    (hfirst : ∀ y < cap, dist cap (ideal (key e)) y < dist cap (ideal (key e)) j →
      ∃ e', t y = some e' ∧ key e' ≠ key e) : t j = some e := by
  obtain ⟨x, hx, ex⟩ := he
  rcases Nat.lt_trichotomy (dist cap (ideal (key e)) j) (dist cap (ideal (key e)) x) with hlt | heq | hgt
  · rcases hstop with hn | ⟨e', ej, hk⟩
    · exact absurd hn (h.path hx ex j hj hlt)
    · exact absurd hk (h.key_ne hx hj ex ej hlt)
  · rw [dist_inj (hi _) hj hx heq, ex]
  · obtain ⟨e', ex', hk⟩ := hfirst x hx hgt
    rw [ex] at ex'
    cases ex'
    exact absurd rfl hk

/-- An entry with a new key put in the first empty slot from its ideal one. -/
theorem Table.insert (h : Table cap ideal key t) {e : E} {j : Nat} (hj : j < cap)
    (hnew : ∀ e', Holds cap t e' → key e' ≠ key e)
    (hfirst : ∀ y < cap, dist cap (ideal (key e)) y < dist cap (ideal (key e)) j → t y ≠ none) :
    Table cap ideal key (Function.update t j (some e)) where
  inj {x y e₁ e₂} hx hy ex ey hk := by
    by_cases hxj : x = j <;> by_cases hyj : y = j
    · rw [hxj, hyj]
    · subst hxj
      rw [Function.update_self] at ex
      rw [Function.update_of_ne hyj] at ey
      cases ex
      exact absurd hk.symm (hnew e₂ ⟨y, hy, ey⟩)
    · subst hyj
      rw [Function.update_self] at ey
      rw [Function.update_of_ne hxj] at ex
      cases ey
      exact absurd hk (hnew e₁ ⟨x, hx, ex⟩)
    · rw [Function.update_of_ne hxj] at ex
      rw [Function.update_of_ne hyj] at ey
      exact h.inj hx hy ex ey hk
  path {x e'} hx ex y hy hlt := by
    by_cases hyj : y = j
    · rw [hyj, Function.update_self]; exact Option.some_ne_none _
    · rw [Function.update_of_ne hyj]
      by_cases hxj : x = j
      · subst hxj
        rw [Function.update_self] at ex
        cases ex
        exact hfirst y hy hlt
      · rw [Function.update_of_ne hxj] at ex
        exact h.path hx ex y hy hlt

theorem holds_update {i : Nat} (hi : i < cap) (ht : t i = none) {e e' : E} :
    Holds cap (Function.update t i (some e)) e' ↔ e' = e ∨ Holds cap t e' := by
  constructor
  · rintro ⟨x, hx, ex⟩
    by_cases hxi : x = i
    · subst hxi
      rw [Function.update_self] at ex
      exact .inl (Option.some.inj ex).symm
    · exact .inr ⟨x, hx, by rwa [Function.update_of_ne hxi] at ex⟩
  · rintro (rfl | ⟨x, hx, ex⟩)
    · exact ⟨i, hi, Function.update_self ..⟩
    · have hxi : x ≠ i := fun h => by rw [h, ht] at ex; cases ex
      exact ⟨x, hx, by rwa [Function.update_of_ne hxi]⟩

/-! ## Backward-shift deletion -/

/-- Closing the hole at `i`, the slots after it up to `j` being settled: an
entry whose search passes the hole moves into it and leaves a hole behind. -/
def shift (cap : Nat) (ideal : E → Nat) :
    Nat → (Nat → Option E) → Nat → Nat → Option (Nat → Option E)
  | 0, _, _, _ => none
  | fuel + 1, t, i, j =>
    match t (succ cap j) with
    | none => some t
    | some e =>
      if dist cap (ideal e) i ≤ dist cap (ideal e) (succ cap j) then
        shift cap ideal fuel
          (Function.update (Function.update t i (some e)) (succ cap j) none) (succ cap j) (succ cap j)
      else shift cap ideal fuel t i (succ cap j)

/-- `Table`, but for the hole at `i`, which no entry up to `j` needs filled. -/
structure Hole (cap : Nat) (ideal : K → Nat) (key : E → K) (t : Nat → Option E) (i j : Nat) : Prop where
  hole : t i = none
  inj : ∀ {x y e e'}, x < cap → y < cap → t x = some e → t y = some e' → key e = key e' → x = y
  path : ∀ {x e}, x < cap → t x = some e →
    ∀ y < cap, dist cap (ideal (key e)) y < dist cap (ideal (key e)) x → t y ≠ none ∨ y = i
  settled : ∀ {x e}, x < cap → t x = some e → dist cap i x ≤ dist cap i j →
    dist cap (ideal (key e)) x < dist cap (ideal (key e)) i

/-- Taking an entry out leaves a hole. -/
theorem Table.hole (h : Table cap ideal key t) {i : Nat} (hi : i < cap) :
    Hole cap ideal key (Function.update t i none) i i where
  hole := Function.update_self ..
  inj {x y e e'} hx hy ex ey := by
    have hxi : x ≠ i := fun hxi => by rw [hxi, Function.update_self] at ex; cases ex
    have hyi : y ≠ i := fun hyi => by rw [hyi, Function.update_self] at ey; cases ey
    rw [Function.update_of_ne hxi] at ex
    rw [Function.update_of_ne hyi] at ey
    exact h.inj hx hy ex ey
  path {x e} hx ex y hy hlt := by
    have hxi : x ≠ i := fun hxi => by rw [hxi, Function.update_self] at ex; cases ex
    rw [Function.update_of_ne hxi] at ex
    by_cases hyi : y = i
    · exact .inr hyi
    · rw [Function.update_of_ne hyi]
      exact .inl (h.path hx ex y hy hlt)
  settled {x e} hx ex hle := by
    rw [dist_self] at hle
    rw [← eq_of_dist_eq_zero hi (Nat.le_zero.mp hle), Function.update_self] at ex
    cases ex

variable {i j : Nat}

/-- An entry whose search passes the hole passes the slots up to `j`, and the
next one too if it is not there. -/
theorem Hole.beyond (h : Hole cap ideal key t i j) (hd : ∀ k, ideal k < cap) (hi : i < cap) (hj : j < cap)
    (hne : succ cap j ≠ i) {x : Nat} {e : E} (hx : x < cap) (ex : t x = some e) (hxj : x ≠ succ cap j)
    (hlt : dist cap (ideal (key e)) i < dist cap (ideal (key e)) x) :
    dist cap (ideal (key e)) (succ cap j) < dist cap (ideal (key e)) x := by
  have hsj := dist_succ hi hne
  have hns : ¬ dist cap i x ≤ dist cap i j := fun hle => by
    have := h.settled hx ex hle
    omega
  have hxj' : dist cap i x ≠ dist cap i (succ cap j) := fun hxe => hxj (dist_inj hi hx (succ_lt hj) hxe)
  have hfar := dist_add (hd (key e)) hi hx (Nat.le_of_lt hlt)
  rcases Nat.lt_or_ge (dist cap (ideal (key e)) (succ cap j)) (dist cap (ideal (key e)) i) with hless | hge
  · exact Nat.lt_trans hless hlt
  · have hnear := dist_add (hd (key e)) hi (succ_lt hj) hge
    omega

/-- At an empty slot the scan is over: nothing needs the hole filled. -/
theorem Hole.close (h : Hole cap ideal key t i j) (hd : ∀ k, ideal k < cap) (hi : i < cap)
    (hj : j < cap) (hne : succ cap j ≠ i) (he : t (succ cap j) = none) : Table cap ideal key t where
  inj := h.inj
  path {x e} hx ex y hy hlt := by
    rcases h.path hx ex y hy hlt with hy' | rfl
    · exact hy'
    · have hxj : x ≠ succ cap j := fun hxj => by rw [hxj, he] at ex; cases ex
      -- the empty slot lies between the hole and `x`, on `x`'s path
      rcases h.path hx ex _ (succ_lt hj) (h.beyond hd hi hj hne hx ex hxj hlt) with hc | hc
      · exact absurd he hc
      · exact absurd hc hne

theorem Hole.skip (h : Hole cap ideal key t i j) (hi : i < cap) (hj : j < cap)
    (hne : succ cap j ≠ i) {e : E} (he : t (succ cap j) = some e)
    (hlt : dist cap (ideal (key e)) (succ cap j) < dist cap (ideal (key e)) i) :
    Hole cap ideal key t i (succ cap j) where
  hole := h.hole
  inj := h.inj
  path := h.path
  settled {x e'} hx ex hle := by
    rw [dist_succ hi hne] at hle
    by_cases hx' : dist cap i x ≤ dist cap i j
    · exact h.settled hx ex hx'
    · have hxj : x = succ cap j := dist_inj hi hx (succ_lt hj) (by rw [dist_succ hi hne]; omega)
      rw [hxj, he] at ex
      cases ex
      rwa [hxj]

/-- What a move leaves in a slot was in the table before, in the same slot if it
is not the entry moved. -/
theorem move_cases {s : Nat} {e e' : E} {x : Nat}
    (ex : Function.update (Function.update t i (some e)) s none x = some e') :
    x ≠ s ∧ ((x = i ∧ e' = e) ∨ (x ≠ i ∧ t x = some e')) := by
  have hxs : x ≠ s := fun hxs => by rw [hxs, Function.update_self] at ex; cases ex
  rw [Function.update_of_ne hxs] at ex
  by_cases hxi : x = i
  · rw [hxi, Function.update_self] at ex
    exact ⟨hxs, .inl ⟨hxi, (Option.some.inj ex).symm⟩⟩
  · rw [Function.update_of_ne hxi] at ex
    exact ⟨hxs, .inr ⟨hxi, ex⟩⟩

theorem Hole.move (h : Hole cap ideal key t i j) (hd : ∀ k, ideal k < cap) (hi : i < cap)
    {s : Nat} (hs : s < cap) (hne : s ≠ i) {e : E} (he : t s = some e)
    (hle : dist cap (ideal (key e)) i ≤ dist cap (ideal (key e)) s) :
    Hole cap ideal key (Function.update (Function.update t i (some e)) s none) s s := by
  have hlt : dist cap (ideal (key e)) i < dist cap (ideal (key e)) s :=
    Nat.lt_of_le_of_ne hle fun heq => hne (dist_inj (hd _) hi hs heq).symm
  have kept : ∀ {y}, (t y ≠ none ∨ y = i) → y ≠ s →
      Function.update (Function.update t i (some e)) s none y ≠ none := by
    intro y hy hys
    rw [Function.update_of_ne hys]
    by_cases hyi : y = i
    · rw [hyi, Function.update_self]; exact Option.some_ne_none _
    · rw [Function.update_of_ne hyi]; exact hy.resolve_right hyi
  refine ⟨Function.update_self .., ?_, ?_, ?_⟩
  · intro x y e₁ e₂ hx hy ex ey hk
    obtain ⟨hxs, ⟨rfl, rfl⟩ | ⟨hxi, ex'⟩⟩ := move_cases ex <;>
      obtain ⟨hys, ⟨rfl, rfl⟩ | ⟨hyi, ey'⟩⟩ := move_cases ey
    · rfl
    · exact absurd (h.inj hs hy he ey' hk).symm hys
    · exact absurd (h.inj hx hs ex' he hk) hxs
    · exact h.inj hx hy ex' ey' hk
  · intro x e' hx ex y hy hlt'
    by_cases hys : y = s
    · exact .inr hys
    · obtain ⟨-, ⟨rfl, rfl⟩ | ⟨-, ex⟩⟩ := move_cases ex
      · exact .inl (kept (h.path hs he y hy (Nat.lt_trans hlt' hlt)) hys)
      · exact .inl (kept (h.path hx ex y hy hlt') hys)
  · intro x e' hx ex hle'
    rw [dist_self] at hle'
    rw [← eq_of_dist_eq_zero hs (Nat.le_zero.mp hle'), Function.update_self] at ex
    cases ex

/-- Moving an entry from `s` to the hole keeps the entries. -/
theorem holds_move {s : Nat} (hi : i < cap) (hs : s < cap) (hne : s ≠ i) {e : E} (hole : t i = none)
    (he : t s = some e) (e' : E) :
    Holds cap (Function.update (Function.update t i (some e)) s none) e' ↔ Holds cap t e' := by
  constructor
  · rintro ⟨x, hx, ex⟩
    have hxs : x ≠ s := fun hxs => by rw [hxs, Function.update_self] at ex; cases ex
    rw [Function.update_of_ne hxs] at ex
    by_cases hxi : x = i
    · rw [hxi, Function.update_self] at ex
      cases ex
      exact ⟨s, hs, he⟩
    · exact ⟨x, hx, by rwa [Function.update_of_ne hxi] at ex⟩
  · rintro ⟨x, hx, ex⟩
    by_cases hxs : x = s
    · rw [hxs, he] at ex
      cases ex
      exact ⟨i, hi, by rw [Function.update_of_ne hne.symm, Function.update_self]⟩
    · have hxi : x ≠ i := fun hxi => by rw [hxi, hole] at ex; cases ex
      exact ⟨x, hx, by rw [Function.update_of_ne hxs, Function.update_of_ne hxi, ex]⟩

/-! ## The order of insertion -/

/-- What a search for an entry passes has a smaller rank than the entry. -/
def Ranked (cap : Nat) (ideal : K → Nat) (key : E → K) (rank : E → Nat) (t : Nat → Option E) : Prop :=
  ∀ {x y e e'}, x < cap → y < cap → t x = some e → t y = some e' →
    dist cap (ideal (key e)) y < dist cap (ideal (key e)) x → rank e' < rank e

variable {rank : E → Nat}

/-- An entry inserted after all others. -/
theorem Table.ranked_insert (h : Table cap ideal key t) (hr : Ranked cap ideal key rank t) {e : E} {j : Nat}
    (hj : j < cap) (hempty : t j = none) (hlast : ∀ e', Holds cap t e' → rank e' < rank e) :
    Ranked cap ideal key rank (Function.update t j (some e)) := by
  intro x y e₁ e₂ hx hy ex ey hlt
  by_cases hxj : x = j
  · subst hxj
    have hyx : y ≠ x := fun e => by rw [e] at hlt; exact Nat.lt_irrefl _ hlt
    rw [Function.update_self] at ex
    rw [Function.update_of_ne hyx] at ey
    cases ex
    exact hlast e₂ ⟨y, hy, ey⟩
  · rw [Function.update_of_ne hxj] at ex
    have hyj : y ≠ j := fun e => by
      subst e
      exact h.path hx ex y hy hlt hempty
    rw [Function.update_of_ne hyj] at ey
    exact hr hx hy ex ey hlt

theorem Ranked.hole (hr : Ranked cap ideal key rank t) (i : Nat) :
    Ranked cap ideal key rank (Function.update t i none) := by
  intro x y e e' hx hy ex ey hlt
  have hxi : x ≠ i := fun hxi => by rw [hxi, Function.update_self] at ex; cases ex
  have hyi : y ≠ i := fun hyi => by rw [hyi, Function.update_self] at ey; cases ey
  rw [Function.update_of_ne hxi] at ex
  rw [Function.update_of_ne hyi] at ey
  exact hr hx hy ex ey hlt

/-- The first entry after the hole that may move there is older than all that
pass the hole: these pass the entry, too. -/
theorem Hole.ranked_move (h : Hole cap ideal key t i j) (hr : Ranked cap ideal key rank t)
    (hd : ∀ k, ideal k < cap) (hi : i < cap) (hj : j < cap) (hne : succ cap j ≠ i) {e : E}
    (he : t (succ cap j) = some e) (hle : dist cap (ideal (key e)) i ≤ dist cap (ideal (key e)) (succ cap j)) :
    Ranked cap ideal key rank (Function.update (Function.update t i (some e)) (succ cap j) none) := by
  have hs := succ_lt hj
  intro x y e₁ e₂ hx hy ex ey hlt
  obtain ⟨hxs, ⟨rfl, rfl⟩ | ⟨hxi, ex'⟩⟩ := move_cases ex <;> obtain ⟨hys, ⟨rfl, rfl⟩ | ⟨hyi, ey'⟩⟩ := move_cases ey
  · exact absurd hlt (Nat.lt_irrefl _)
  · exact hr hs hy he ey' (Nat.lt_of_lt_of_le hlt hle)
  · exact hr hx hs ex' he (h.beyond hd hi hj hne hx ex' hxs hlt)
  · exact hr hx hy ex' ey' hlt

/-- The order of insertion determines the table. -/
theorem Ranked.unique {t' : Nat → Option E} (hd : ∀ k, ideal k < cap) (h : Table cap ideal key t)
    (h' : Table cap ideal key t') (hr : Ranked cap ideal key rank t) (hr' : Ranked cap ideal key rank t')
    (hsame : ∀ e, Holds cap t e ↔ Holds cap t' e) {x : Nat} (hx : x < cap) : t x = t' x := by
  have place : ∀ (n : Nat) (e : E), rank e = n → ∀ x < cap, t x = some e → t' x = some e := by
    intro n
    induction n using Nat.strongRecOn with
    | ind n ih =>
      rintro e rfl x hx ex
      obtain ⟨x', hx', ex'⟩ := (hsame e).mp ⟨x, hx, ex⟩
      rcases Nat.lt_trichotomy (dist cap (ideal (key e)) x) (dist cap (ideal (key e)) x') with hlt | heq | hgt
      · -- the slot of `e` has an older entry in the other table, which is there in both
        obtain ⟨e', ey'⟩ := Option.ne_none_iff_exists'.mp (h'.path hx' ex' x hx hlt)
        have hlt' := hr' hx' hx ex' ey' hlt
        obtain ⟨y, hy, ey⟩ := (hsame e').mpr ⟨x, hx, ey'⟩
        have hyx := h'.inj hy hx (ih _ hlt' e' rfl y hy ey) ey' rfl
        rw [hyx, ex] at ey
        cases ey
        exact absurd hlt' (Nat.lt_irrefl _)
      · rw [dist_inj (hd _) hx hx' heq]
        exact ex'
      · obtain ⟨e', ey⟩ := Option.ne_none_iff_exists'.mp (h.path hx ex x' hx' hgt)
        have hlt' := hr hx hx' ex ey hgt
        have ey' := ih _ hlt' e' rfl x' hx' ey
        rw [ex'] at ey'
        cases ey'
        exact absurd hlt' (Nat.lt_irrefl _)
  cases ex : t x with
  | some e => exact (place _ e rfl x hx ex).symm
  | none =>
    cases ex' : t' x with
    | none => rfl
    | some e =>
      obtain ⟨y, hy, ey⟩ := (hsame e).mpr ⟨x, hx, ex'⟩
      have hyx := h'.inj hy hx (place _ e rfl y hy ey) ex' rfl
      rw [hyx, ex] at ey
      cases ey

/-! ## The whole deletion -/

/-- The scan ends at the empty slot `z`, if not before, with the hole closed. -/
theorem shift_spec (hd : ∀ k, ideal k < cap) {z : Nat} (hz : z < cap) :
    ∀ (fuel : Nat) {t : Nat → Option E} {i j : Nat}, Hole cap ideal key t i j → i < cap → j < cap →
      t z = none → dist cap i j < dist cap i z → dist cap j z ≤ fuel →
      ∃ t', shift cap (fun e => ideal (key e)) fuel t i j = some t' ∧ Table cap ideal key t' ∧
        (∀ e, Holds cap t' e ↔ Holds cap t e) ∧ count cap t' = count cap t ∧
        (∀ rank, Ranked cap ideal key rank t → Ranked cap ideal key rank t')
  | 0, t, i, j, _, hi, hj, _, hlt, hf => by
    have := eq_of_dist_eq_zero hj (Nat.le_zero.mp hf)
    rw [this] at hlt
    exact absurd hlt (Nat.lt_irrefl _)
  | fuel + 1, t, i, j, h, hi, hj, ez, hlt, hf => by
    have hjz : j ≠ z := fun e => by rw [e] at hlt; exact Nat.lt_irrefl _ hlt
    have hdz := dist_eq_succ hj hz hjz
    have hne : succ cap j ≠ i := fun e => by
      rw [e] at hdz
      have := dist_lt hj hz
      have := dist_add hi hj hz (Nat.le_of_lt hlt)
      have := dist_lt hi hz
      omega
    have hs := succ_lt hj
    cases he : t (succ cap j) with
    | none =>
      exact ⟨t, by simp [shift, he], h.close hd hi hj hne he, fun _ => Iff.rfl, rfl, fun _ hr => hr⟩
    | some e =>
      have hsz : succ cap j ≠ z := fun hsz => by rw [hsz, ez] at he; cases he
      by_cases hle : dist cap (ideal (key e)) i ≤ dist cap (ideal (key e)) (succ cap j)
      · have hiz : z ≠ i := fun hzi => by
          rw [hzi, dist_self] at hlt
          exact Nat.not_lt_zero _ hlt
        obtain ⟨t', h1, h2, h3, h4, h5⟩ := shift_spec hd hz fuel (h.move hd hi hs hne he hle) hs hs
          (by rw [Function.update_of_ne hsz.symm, Function.update_of_ne hiz, ez])
          (by
            rw [dist_self]
            exact Nat.pos_of_ne_zero fun h0 => hsz (eq_of_dist_eq_zero hs h0))
          (by omega)
        refine ⟨t', by simp [shift, he, hle, h1], h2, fun e' => ?_, ?_,
          fun rank hr => h5 rank (h.ranked_move hr hd hi hj hne he hle)⟩
        · rw [h3, holds_move hi hs hne h.hole he]
        · have c1 := count_update (t := Function.update t i (some e)) (succ cap j) hs none
          have c2 := count_update (t := t) i hi (some e)
          rw [Function.update_of_ne hne, he] at c1
          rw [h.hole] at c2
          simp only [Option.isSome_some, Option.isSome_none, if_true, Bool.false_eq_true, if_false] at c1 c2
          omega
      · obtain ⟨t', h1, h2, h3, h4, h5⟩ := shift_spec hd hz fuel (h.skip hi hj hne he (by omega)) hi hs ez
          (by
            have := dist_succ hi hne
            have : dist cap i (succ cap j) ≠ dist cap i z := fun e => hsz (dist_inj hi hs hz e)
            omega)
          (by omega)
        exact ⟨t', by simp [shift, he, hle, h1], h2, h3, h4, h5⟩

end Tables

end Probing
