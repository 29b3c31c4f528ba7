import Pricetime.Proof.BookRefines
import Pricetime.Proof.DenseLadder

/-!
# The dense ladder stays in its array

Every access of the ladder's array is checked in the model, so that a run that
ends has stayed in bounds, and the scan and the walk with it. What the counters
and the cached index say of the array in every state that a run reaches is
`Cached`: `active_levels` counts the slots that have orders, and `best` is the
first of them.
-/

namespace Pricetime

namespace DenseLadder

/-- The slots of a side that have orders. -/
def activeSlots (l : DenseLadder) (level : Levels) (s : Side) : List Nat :=
  (List.range l.span).filter fun k => (level (levelAddr s k)).orderCount ≠ 0

/-- The counter and the cached index of a side, and the slots that
`for_each_level` goes through. -/
structure Cached (l : DenseLadder) (level : Levels) (s : Side) : Prop where
  within : ∀ k, (level (levelAddr s k)).orderCount ≠ 0 → k < l.span
  active : (l.side s).activeLevels.toNat = (activeSlots l level s).length
  best_none : (l.side s).best = none ↔ (l.side s).activeLevels = 0
  best_some : ∀ i, (l.side s).best = some i → i ∈ activeSlots l level s ∧
    ∀ k ∈ activeSlots l level s, k ≠ i → better s i k = true
  walk : ∃ ks : List Nat, l.forEachLevel level s = some (ks.map (levelAddr s)) ∧ ks.Perm (activeSlots l level s)

variable {l l' : DenseLadder} {level : Levels} {s : Side} {T : Side → List LevelPtr}

theorem mem_activeSlots {k : Nat} :
    k ∈ activeSlots l level s ↔ k < l.span ∧ (level (levelAddr s k)).orderCount ≠ 0 := by
  simp [activeSlots, List.mem_filter, List.mem_range]

/-- The slots of the levels of a side are those with orders. -/
theorem slots_perm (h : TracksSide l s (fun q => (level q).price) (T s)) (ha : Active level T) :
    (slots l (fun q => (level q).price) (T s)).Perm (activeSlots l level s) := by
  have hnodup : (slots l (fun q => (level q).price) (T s)).Nodup := by
    refine h.slots_sorted.imp fun {a b} hb e => ?_
    subst e
    cases s <;> simp [better] at hb
  refine (List.perm_ext_iff_of_nodup hnodup (List.nodup_range.filter _)).mpr fun k => ?_
  have hact : (level (levelAddr s k)).orderCount ≠ 0 ↔ levelAddr s k ∈ T s := by
    rw [ha, levelSide_levelAddr]
  show _ ↔ k ∈ activeSlots l level s
  rw [mem_activeSlots, hact, h.mem_slots]
  refine ⟨fun hk => ⟨?_, hk⟩, And.right⟩
  have hlt := h.lt_span hk
  rwa [← levelAddr_inj (h.placed _ hk).2] at hlt

theorem Tracks.cached (h : Tracks l (fun q => (level q).price) T) (ha : Active level T) (s : Side)
    (hf : (T s).length < 2 ^ 32) : Cached l level s := by
  have hs := h s
  have hperm := slots_perm hs ha
  have hlen : (slots l (fun q => (level q).price) (T s)).length = (T s).length := List.length_map _
  have hcount : (l.side s).activeLevels.toNat = (T s).length := by
    rw [hs.active, UInt32.toNat_ofNat_of_lt' hf]
  have hbest := hs.best
  constructor
  case within =>
    intro k hk
    have hm : levelAddr s k ∈ T s := by
      rw [ha, levelSide_levelAddr] at hk
      exact hk
    exact (mem_activeSlots.mp (hperm.subset (hs.mem_slots.mpr hm))).1
  case active => rw [hcount, ← hperm.length_eq, hlen]
  case best_none =>
    rw [← Option.map_eq_none_iff, hbest, List.head?_eq_none_iff, ← List.length_eq_zero_iff, ← hcount,
      ← UInt32.toNat_inj]
    rfl
  case best_some =>
    intro i hi
    rw [hi, Option.map_some] at hbest
    cases hT : T s with
    | nil =>
      rw [hT] at hbest
      cases hbest
    | cons q qs =>
      rw [hT] at hs hbest hperm
      have hslot : i = l.slot (level q).price :=
        levelAddr_inj ((Option.some.inj hbest).trans (hs.placed q List.mem_cons_self).2)
      obtain ⟨hfirst, -⟩ := List.pairwise_cons.mp hs.slots_sorted
      rw [slots, List.map_cons, ← hslot] at hperm
      refine ⟨hperm.subset List.mem_cons_self, fun k hk hne => ?_⟩
      have hk' := (List.mem_cons.mp (hperm.symm.subset hk)).resolve_left hne
      rw [hslot]
      exact hfirst k hk'
  case walk => exact ⟨_, by rw [hs.map_slots]; exact forEachLevel_eq h ha s hf, hperm⟩

/-- The bounds are told by the prices that are valid. -/
theorem bounds_of_validPrice (hl : l.min ≤ l.max) (h : l'.validPrice = l.validPrice) :
    l'.min = l.min ∧ l'.max = l.max := by
  have hv : ∀ p, (l'.min ≤ p ∧ p ≤ l'.max) ↔ (l.min ≤ p ∧ p ≤ l.max) := fun p => by
    rw [← validPrice_iff, ← validPrice_iff, h]
  have hmin := (hv l.min).mpr ⟨Int64.le_refl _, hl⟩
  have hmax := (hv l.max).mpr ⟨hl, Int64.le_refl _⟩
  have hl' := Int64.le_trans hmin.1 hmin.2
  exact ⟨Int64.le_antisymm hmin.1 ((hv l'.min).mp ⟨Int64.le_refl _, hl'⟩).1,
    Int64.le_antisymm ((hv l'.max).mp ⟨hl', Int64.le_refl _⟩).2 hmax.2⟩

end DenseLadder

namespace OrderBook

variable {M : Type} [IdMap M] [LawfulIdMap M]

/-- Every run of a book on a dense ladder stays in the array, whatever the
arguments: each operation ends, and with it the scan for the next best level
and the walk over the levels. -/
theorem dense_in_bounds {min max : Price} (hle : min ≤ max) (hspan : max.toInt - min.toInt + 1 < 2 ^ 63) :
    ∃ (ladder : DenseLadder) (b₀ : OrderBook DenseLadder M), DenseLadder.new min max = some ladder ∧
      new ladder = some b₀ ∧ ∀ ops, Runs.Along apply Few b₀ ops →
        ∃ b, Runs.run apply b₀ ops = some b ∧ (b.ladder.span : Int) = max.toInt - min.toInt + 1 ∧
          (∀ s, b.ladder.Cached b.heap.level s) ∧
          (∀ p, b.ladder.validPrice p = true → ∃ i, b.ladder.indexOf p = some i ∧ i < b.ladder.span) ∧
          ∀ op, (b.apply op).isSome := by
  have hnew : DenseLadder.new min max = some { min := min, max := max } := if_pos ⟨hle, hspan⟩
  obtain ⟨b₀, h₀, hsim⟩ := new_sim (M := M) (DenseLadder.vacant hnew)
  refine ⟨_, b₀, hnew, h₀, fun ops hfew => ?_⟩
  obtain ⟨b, a, hb, -, h, hat⟩ := run_sim Sim.within_of_few hsim ops hfew
  have hw := h.within_of_few hat
  refine ⟨b, hb, ?_, fun s => ?_, fun p hp => ?_, fun op => ?_⟩
  · obtain ⟨T, Q, h⟩ := h
    obtain ⟨h1, h2⟩ := DenseLadder.bounds_of_validPrice hle h.accepts
    have hle' := Int64.le_iff_toInt_le.mp hle
    rw [DenseLadder.span, h1, h2]
    show ((max.toInt - min.toInt + 1).toNat : Int) = _
    omega
  · obtain ⟨T, Q, h⟩ := h
    exact DenseLadder.Tracks.cached h.rep.tracks (h.active hw) s
      (Nat.lt_of_le_of_lt (h.side_length_le s) hat)
  · exact ⟨_, DenseLadder.indexOf_valid hp, DenseLadder.slot_lt hp⟩
  · obtain ⟨b', hb', -⟩ := h.apply hw op
    rw [hb']
    rfl

/-- The best of three asks is taken, and the scan passes over empty slots to
the next. -/
theorem dense_in_bounds_scan : ∃ (ladder : DenseLadder) (b₀ b : OrderBook DenseLadder OpenAddressIdMap),
    DenseLadder.new 10 90 = some ladder ∧ new ladder = some b₀ ∧
    Runs.run apply b₀ [.addLimitAs 7 1 .ask 20 5, .addLimitAs 7 2 .ask 60 5, .addLimitAs 7 3 .ask 70 5,
      .addLimitAs 8 4 .bid 95 1, .addIocAs 8 5 .bid 90 7] = some b ∧
    ∀ s, b.ladder.Cached b.heap.level s := by
  obtain ⟨ladder, b₀, hnew, h₀, hrun⟩ := dense_in_bounds (M := OpenAddressIdMap)
    (show (10 : Price) ≤ 90 by decide) (by decide)
  obtain ⟨b₀', h₀', hsim⟩ := new_sim (M := OpenAddressIdMap) (DenseLadder.vacant hnew)
  cases h₀.symm.trans h₀'
  obtain ⟨b, hb, -, hcached, -⟩ := hrun _ (along_few hsim [.addLimitAs 7 1 .ask 20 5, .addLimitAs 7 2 .ask 60 5,
    .addLimitAs 7 3 .ask 70 5, .addLimitAs 8 4 .bid 95 1, .addIocAs 8 5 .bid 90 7] (by decide))
  exact ⟨ladder, b₀, b, hnew, h₀, hb, hcached⟩

end OrderBook

end Pricetime
