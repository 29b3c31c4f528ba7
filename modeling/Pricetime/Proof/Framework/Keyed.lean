import Mathlib

/-!
# Tables of keyed rows

A list of keys and values, in any order, as the finite map that it is
(`Lists`). A table whose rows are moved when one is taken out, the last row
filling the gap, keeps the other rows: `exists_rest`.
-/

namespace Keyed

variable {K V : Type}

/-- The rows are those of the map, each once. -/
structure Lists (xs : List (K × V)) (f : K → Option V) : Prop where
  nodup : (xs.map Prod.fst).Nodup
  mem : ∀ k v, (k, v) ∈ xs ↔ f k = some v

namespace Lists

theorem nil : Lists ([] : List (K × V)) fun _ => none where
  nodup := List.nodup_nil
  mem _ _ := iff_of_false List.not_mem_nil nofun

variable {xs ys : List (K × V)} {f : K → Option V} {k : K} {v w : V}

theorem perm (h : Lists xs f) (hp : ys.Perm xs) : Lists ys f where
  nodup := (hp.map Prod.fst).nodup_iff.mpr h.nodup
  mem k v := hp.mem_iff.trans (h.mem k v)

theorem absent (h : Lists xs f) (hk : f k = none) : k ∉ xs.map Prod.fst := fun hm => by
  obtain ⟨⟨k', v⟩, hv, rfl⟩ := List.mem_map.mp hm
  cases hk.symm.trans ((h.mem k' v).mp hv)

variable [DecidableEq K]

theorem cons (h : Lists xs f) (hk : f k = none) (v : V) : Lists ((k, v) :: xs) (Function.update f k (some v)) where
  nodup := List.nodup_cons.mpr ⟨h.absent hk, h.nodup⟩
  mem k' v' := by
    rw [List.mem_cons, h.mem]
    by_cases e : k' = k
    · subst e
      rw [Function.update_self, hk, Prod.mk.injEq, Option.some.injEq, or_iff_left nofun]
      exact (and_iff_right rfl).trans eq_comm
    · rw [Function.update_of_ne e, Prod.mk.injEq, or_iff_right fun he => e he.1]

theorem tail (h : Lists ((k, v) :: xs) f) : Lists xs (Function.update f k none) := by
  obtain ⟨hk, hn⟩ := List.nodup_cons.mp h.nodup
  refine ⟨hn, fun k' v' => ?_⟩
  by_cases e : k' = k
  · subst e
    rw [Function.update_self]
    exact iff_of_false (fun hm => hk (List.mem_map.mpr ⟨(k', v'), hm, rfl⟩)) nofun
  · rw [Function.update_of_ne e, ← h.mem, List.mem_cons, Prod.mk.injEq, or_iff_right fun he => e he.1]

end Lists

/-- The rows other than the one at `i`. -/
theorem exists_rest {α : Type} {xs : List α} {i : Nat} {x : α} (hx : xs[i]? = some x) : ∃ rest, xs.Perm (x :: rest) ∧
    (∀ y, (xs.set i y).Perm (y :: rest)) ∧
    ∃ back, xs.getLast? = some back ∧ (xs.set i back).dropLast.Perm rest := by
  obtain ⟨hlt, rfl⟩ := List.getElem?_eq_some_iff.mp hx
  obtain ⟨l, r, hl, hlen, -⟩ := @List.exists_of_set _ i xs[i] xs hlt
  generalize xs[i] = a at hl
  have hset (y : α) : xs.set i y = l ++ y :: r := by
    rw [hl, ← hlen, List.set_append_right _ _ (Nat.le_refl _), Nat.sub_self]
    rfl
  refine ⟨l ++ r, ?_, fun y => ?_, ?_⟩
  · rw [hl]
    exact List.perm_middle
  · rw [hset]
    exact List.perm_middle
  · -- the last row is the one at `i`, or one that follows it
    rcases List.eq_nil_or_concat' r with rfl | ⟨r, back, rfl⟩
    · refine ⟨a, by rw [hl, List.getLast?_concat], ?_⟩
      rw [hset, List.dropLast_concat, List.append_nil]
    · refine ⟨back, ?_, ?_⟩
      · rw [hl, ← List.cons_append, ← List.append_assoc, List.getLast?_concat]
      · rw [hset, ← List.cons_append, ← List.append_assoc, List.dropLast_concat, ← List.append_assoc]
        exact List.perm_middle.trans (@List.perm_append_comm _ [back] (l ++ r))

end Keyed
