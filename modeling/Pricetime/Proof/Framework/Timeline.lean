import Mathlib

/-!
# Values over time

A list of entries in the order of their times, each with a value. The entry in
force at `t` is the last one not after it. `changes` leaves out the entries
that repeat the value before theirs: no value in force is lost
(`inForce_changes`), but the first of them not before `t` has that of `t` only
if there are entries at `t` itself (`find_of_here`, `find_ne`).
-/

namespace Timeline

variable {E τ α : Type} [LinearOrder τ] {time : E → τ} {value : E → α} {l : List E} {t : τ}

abbrev Ordered (time : E → τ) (l : List E) : Prop := l.Pairwise fun x y => time x ≤ time y

def inForce (time : E → τ) (l : List E) (t : τ) : Option E := (l.filter fun e => time e ≤ t).getLast?

/-- The entries at `t`. -/
def here (time : E → τ) (l : List E) (t : τ) : List E := l.filter fun e => time e = t

def changes [DecidableEq α] (value : E → α) (l : List E) : List E := l.destutter fun x y => value x ≠ value y

/-! ## Changes -/

section Changes

theorem getLast?_skip {x y : E} (h : value x = value y) (l : List E) :
    (x :: y :: l).getLast?.map value = (x :: l).getLast?.map value := by
  cases l with
  | nil => exact congrArg some h.symm
  | cons z l => rw [List.getLast?_cons_cons, List.getLast?_cons_cons, List.getLast?_cons_cons]

variable [DecidableEq α]

theorem getLast?_destutter' (x : E) (l : List E) :
    (l.destutter' (fun x y => value x ≠ value y) x).getLast?.map value = (x :: l).getLast?.map value := by
  induction l generalizing x with
  | nil => rfl
  | cons y l ih =>
    by_cases h : value x = value y
    · rw [List.destutter'_cons_neg _ (not_not.mpr h), ih, getLast?_skip h]
    · obtain ⟨z, zs, hz⟩ := List.exists_cons_of_ne_nil (l.destutter'_ne_nil (fun x y => value x ≠ value y) (a := y))
      rw [List.destutter'_cons_pos _ h, List.getLast?_cons_cons, ← ih y, hz, List.getLast?_cons_cons]

theorem getLast?_changes (l : List E) : (changes value l).getLast?.map value = l.getLast?.map value := by
  cases l with
  | nil => rfl
  | cons x l => exact getLast?_destutter' x l

theorem changes_concat (l : List E) (x : E) : changes value (l ++ [x]) =
    if l.getLast?.map value = some (value x) then changes value l else changes value l ++ [x] := by
  cases l with
  | nil => rfl
  | cons a l =>
    rw [changes, changes, List.cons_append, List.destutter_cons', List.destutter_cons']
    induction l generalizing a with
    | nil =>
      rw [List.getLast?_singleton, Option.map_some]
      by_cases h : value a = value x
      · rw [List.nil_append, if_pos (congrArg some h), List.destutter'_cons_neg _ (not_not.mpr h)]
      · rw [List.nil_append, if_neg fun e => h (Option.some.inj e), List.destutter'_cons_pos _ h]
        rfl
    | cons b l ih =>
      rw [List.cons_append]
      by_cases h : value a = value b
      · rw [List.destutter'_cons_neg _ (not_not.mpr h), List.destutter'_cons_neg _ (not_not.mpr h), ih,
          getLast?_skip h]
      · rw [List.destutter'_cons_pos _ h, List.destutter'_cons_pos _ h, ih, List.getLast?_cons_cons]
        split <;> rfl

theorem changes_sublist (l : List E) : (changes value l).Sublist l := List.destutter_sublist ..

theorem inForce_changes (h : Ordered time l) :
    (inForce time (changes value l) t).map value = (inForce time l t).map value := by
  induction l using List.reverseRecOn with
  | nil => rfl
  | append_singleton l x ih =>
    obtain ⟨hl, -, hx⟩ := List.pairwise_append.mp h
    by_cases hle : time x ≤ t
    · -- all entries are in time
      have hall : ∀ e ∈ l ++ [x], decide (time e ≤ t) = true := by
        intro e he
        rcases List.mem_append.mp he with he | he
        · exact decide_eq_true ((hx e he x List.mem_cons_self).trans hle)
        · rw [List.mem_singleton.mp he]
          exact decide_eq_true hle
      rw [inForce, inForce, List.filter_eq_self.mpr hall,
        List.filter_eq_self.mpr fun e he => hall e ((changes_sublist _).mem he), getLast?_changes]
    · have hlast : ∀ m : List E, inForce time (m ++ [x]) t = inForce time m t := fun m => by
        rw [inForce, inForce, List.filter_append, List.filter_cons_of_neg (by rwa [decide_eq_true_eq]), List.filter_nil,
          List.append_nil]
      rw [hlast, ← ih hl, changes_concat]
      split
      · rfl
      · rw [hlast]

end Changes

/-! ## The first entry from a time on -/

/-- The entries before, at and after a time. -/
theorem split (h : Ordered time l) :
    l = l.filter (fun e => time e < t) ++ (here time l t ++ l.filter fun e => t < time e) := by
  induction l with
  | nil => rfl
  | cons x l ih =>
    obtain ⟨hx, hl⟩ := List.pairwise_cons.mp h
    have hnone : ∀ p : E → Bool, (∀ e ∈ l, ¬ p e = true) → l.filter p = [] := fun p hp => List.filter_eq_nil_iff.mpr hp
    have ih := ih hl
    rw [here] at ih ⊢
    rcases lt_trichotomy (time x) t with hlt | heq | hgt
    · rw [List.filter_cons_of_pos (by simpa using hlt), List.filter_cons_of_neg (by simpa using hlt.ne),
        List.filter_cons_of_neg (by simpa using hlt.le), List.cons_append, ← ih]
    · have hbefore := hnone (fun e => time e < t) fun e he => by simpa [heq] using hx e he
      rw [hbefore, List.nil_append] at ih
      rw [List.filter_cons_of_neg (by simpa using heq.ge), List.filter_cons_of_pos (by simpa using heq),
        List.filter_cons_of_neg (by simpa using heq.le), hbefore, List.nil_append, List.cons_append, ← ih]
    · have hbefore := hnone (fun e => time e < t) fun e he => by simpa using hgt.le.trans (hx e he)
      have hat := hnone (fun e => time e = t) fun e he => by simpa using (hgt.trans_le (hx e he)).ne'
      rw [hbefore, hat, List.nil_append, List.nil_append] at ih
      rw [List.filter_cons_of_neg (by simpa using hgt.le), List.filter_cons_of_neg (by simpa using hgt.ne'),
        List.filter_cons_of_pos (by simpa using hgt), hbefore, hat, List.nil_append, List.nil_append, ← ih]

theorem find_eq (h : Ordered time l) : (l.find? fun e => t ≤ time e) =
    (here time l t).head?.or (l.filter fun e => t < time e).head? := by
  have hall : ∀ m : List E, (∀ e ∈ m, t ≤ time e) → (m.find? fun e => t ≤ time e) = m.head? := by
    intro m hm
    cases m with
    | nil => rfl
    | cons x m => exact List.find?_cons_of_pos (decide_eq_true (hm x List.mem_cons_self))
  have hbefore : ((l.filter fun e => time e < t).find? fun e => t ≤ time e) = none := by
    rw [List.find?_eq_none]
    intro e he
    simpa using (List.mem_filter.mp he).2
  conv_lhs => rw [split (t := t) h]
  rw [List.find?_append, hbefore, Option.none_or, List.find?_append, hall, hall]
  · intro e he
    exact (of_decide_eq_true (List.mem_filter.mp he).2).le
  · intro e he
    exact (of_decide_eq_true (List.mem_filter.mp he).2).ge

theorem inForce_eq (h : Ordered time l) :
    inForce time l t = (here time l t).getLast?.or (l.filter fun e => time e < t).getLast? := by
  have hbefore : (l.filter fun e => time e < t).filter (fun e => time e ≤ t) = l.filter fun e => time e < t :=
    List.filter_eq_self.mpr fun e he => decide_eq_true (of_decide_eq_true (List.mem_filter.mp he).2).le
  have hat : (here time l t).filter (fun e => time e ≤ t) = here time l t :=
    List.filter_eq_self.mpr fun e he => decide_eq_true (of_decide_eq_true (List.mem_filter.mp he).2).le
  have hafter : (l.filter fun e => t < time e).filter (fun e => time e ≤ t) = [] :=
    List.filter_eq_nil_iff.mpr fun e he => by simpa using (List.mem_filter.mp he).2
  have hle : (l.filter fun e => time e ≤ t) = l.filter (fun e => time e < t) ++ here time l t := by
    conv_lhs => rw [split (t := t) h]
    rw [List.filter_append, List.filter_append, hbefore, hat, hafter, List.append_nil]
  rw [inForce, hle, List.getLast?_append]

theorem find_of_here (h : Ordered time l) (hne : here time l t ≠ []) :
    (l.find? fun e => t ≤ time e) = (here time l t).head? ∧ inForce time l t = (here time l t).getLast? := by
  rw [find_eq h, inForce_eq h]
  obtain ⟨x, xs, hx⟩ := List.exists_cons_of_ne_nil hne
  rw [hx, List.getLast?_eq_some_getLast (List.cons_ne_nil x xs)]
  exact ⟨rfl, rfl⟩

/-- Between two changes, the next value is another one. -/
theorem find_ne (h : Ordered time l) (hchain : l.IsChain fun x y => value x ≠ value y) (hno : here time l t = [])
    {x y : E} (hx : inForce time l t = some x) (hy : (l.find? fun e => t ≤ time e) = some y) : value y ≠ value x := by
  rw [inForce_eq h, hno] at hx
  rw [find_eq h, hno] at hy
  rw [split (t := t) h, hno, List.nil_append, List.isChain_append] at hchain
  exact (hchain.2.2 x hx y hy).symm

end Timeline
