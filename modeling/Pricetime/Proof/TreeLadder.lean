import Pricetime.Proof.Ladder

/-!
# Tree-backed ladders

The two ladders that keep their levels in a `std::map` take every price, and
stay sorted trees whatever the queues hold: also once a level has been dropped
that was not empty, or is dropped again, as it may be when a level's counter
has wrapped (`TreeLadder`).
-/

namespace Pricetime

class TreeLadder (L : Type) [Ladder L] [LawfulLadder L] : Prop where
  validPrice (l : L) (p : Price) : Ladder.validPrice l p = true
  /-- The level at a price is one of the ladder's, or a new one that joins
  them. -/
  getOrCreate_spec {l : L} {level : Levels} {T : Side → List LevelPtr}
    (h : LawfulLadder.Tracks l (fun q => (level q).price) T) (p : Price) (s : Side) :
    (∃ q ∈ T s, (level q).price = p ∧ Ladder.getOrCreate l level s p = some (q, l, level)) ∨
    ∃ q l' xs ys, levelSide q = s ∧ q ∉ T s ∧ T s = xs ++ ys ∧
      Ladder.getOrCreate l level s p = some (q, l', Function.update level q { price := p }) ∧
      LawfulLadder.Tracks l' (fun r => (Function.update level q { price := p } r).price)
        (Function.update T s (xs ++ q :: ys))
  /-- A level is dropped, if any is at the price of the one that emptied. -/
  onLevelEmpty_spec {l : L} {level : Levels} {T : Side → List LevelPtr}
    (h : LawfulLadder.Tracks l (fun q => (level q).price) T) (s : Side) (q : LevelPtr) :
    ∃ l' qs, Ladder.onLevelEmpty l level s q = some l' ∧ qs.Sublist (T s) ∧
      LawfulLadder.Tracks l' (fun q => (level q).price) (Function.update T s qs)

namespace StdMap

theorem erase_absent {m : StdMap Price LevelPtr} {p : Price} (h : m.find p = none) : m.erase p = m := by
  rw [find, Option.map_eq_none_iff] at h
  exact List.eraseP_of_forall_not fun kv hkv => List.find?_eq_none.mp h kv hkv

end StdMap

instance : TreeLadder MapLadder where
  validPrice _ _ := rfl
  getOrCreate_spec h p s := MapLadder.getOrCreate_tracks h p s
  onLevelEmpty_spec {l level T} h s q := by
    have h : MapLadder.Tracks l (fun q => (level q).price) T := h
    cases hf : (l.side s).nodes.find (level q).price with
    | some r =>
      obtain ⟨hr, hp⟩ := (h s).find_some hf
      refine ⟨_, (T s).erase r, rfl, List.erase_sublist, h.setSide ?_ fun _ _ _ _ => rfl⟩
      show TracksTree s ((l.side s).nodes.erase (level q).price) _ _ _
      rw [← hp]
      exact (h s).erase hr
    | none =>
      refine ⟨_, T s, rfl, .refl _, h.setSide ?_ fun _ _ _ _ => rfl⟩
      show TracksTree s ((l.side s).nodes.erase (level q).price) _ _ _
      rw [StdMap.erase_absent hf]
      exact h s

instance : TreeLadder PooledMapLadder where
  validPrice _ _ := rfl
  getOrCreate_spec h p s := PooledMapLadder.getOrCreate_tracks h p s
  onLevelEmpty_spec {l level T} h s q := by
    have h : PooledMapLadder.Tracks l (fun q => (level q).price) T := h
    cases hf : (l.side s).nodes.find (level q).price with
    | some r =>
      obtain ⟨hr, hp⟩ := (h s).tree.find_some hf
      refine ⟨_, (T s).erase r, rfl, List.erase_sublist, h.setSide ?_ fun _ _ _ _ => rfl⟩
      rw [← hp]
      exact PooledMapLadder.park_tracks (h s) hr
    | none =>
      refine ⟨_, T s, rfl, .refl _, h.setSide ?_ fun _ _ _ _ => rfl⟩
      rw [PooledSide.park, hf]
      exact h s

end Pricetime
