import Mathlib

/-!
# Intrusive doubly linked lists sharing one node store

Any number of lists (named by `κ`) link nodes (named by `α`) through the
nodes' own fields. `Links` is the state of those fields and of each list's
two ends; `append` and `unlink` are the two operations.

* `Links.Valid`: the links of the live nodes are consistent with each other
  and acyclic. It says nothing of which nodes a list reaches, so it survives
  `clear` (a list's ends forgotten while its nodes are still linked).
* `Links.IsQueue`: list `q` reaches exactly the nodes it owns, in order.

Both are kept by `append` and `unlink` (`Valid.append`, `Valid.unlink`,
`IsQueue.append`, `IsQueue.unlink`, and `_other` for the other lists).
-/

variable {α κ : Type}

structure Links (α κ : Type) where
  prev : α → Option α
  next : α → Option α
  owner : α → Option κ
  head : κ → Option α
  tail : κ → Option α

namespace Links

section Operations

variable [DecidableEq α] [DecidableEq κ]

/-- Node `x` linked at the end of list `q`. -/
def append (L : Links α κ) (q : κ) (x : α) : Links α κ where
  prev y := if y = x then L.tail q else L.prev y
  next y := if L.tail q = some y then some x else if y = x then none else L.next y
  owner y := if y = x then some q else L.owner y
  head r := if r = q ∧ L.tail q = none then some x else L.head r
  tail r := if r = q then some x else L.tail r

/-- Node `x` of list `q` unlinked. -/
def unlink (L : Links α κ) (q : κ) (x : α) : Links α κ where
  prev y := if y = x then none else if L.next x = some y then L.prev x else L.prev y
  next y := if y = x then none else if L.prev x = some y then L.next x else L.next y
  owner y := if y = x then none else L.owner y
  head r := if r = q ∧ L.prev x = none then L.next x else L.head r
  tail r := if r = q ∧ L.next x = none then L.prev x else L.tail r

end Operations

/-- List `q` made empty, its nodes left as they are. -/
def clear [DecidableEq κ] (L : Links α κ) (q : κ) : Links α κ :=
  { L with
    head := fun r => if r = q then none else L.head r
    tail := fun r => if r = q then none else L.tail r }

/-- The links of the live nodes are consistent, and `next` is acyclic on them. -/
structure Valid (L : Links α κ) (live : α → Prop) : Prop where
  prev : ∀ {x p}, live x → L.prev x = some p → live p ∧ L.next p = some x ∧ L.owner p = L.owner x
  next : ∀ {x n}, live x → L.next x = some n → live n ∧ L.prev n = some x ∧ L.owner n = L.owner x
  head : ∀ {q x}, L.head q = some x → live x ∧ L.prev x = none ∧ L.owner x = some q
  tail : ∀ {q x}, L.tail q = some x → live x ∧ L.next x = none ∧ L.owner x = some q
  rank : ∃ rank : α → Nat, ∀ {x n}, live x → L.next x = some n → rank x < rank n

namespace Valid

variable {L : Links α κ} {live : α → Prop} {q : κ} {x : α}

theorem next_ne (h : L.Valid live) (hx : live x) : L.next x ≠ some x := fun e => by
  obtain ⟨rank, hr⟩ := h.rank
  exact Nat.lt_irrefl _ (hr hx e)

theorem prev_ne (h : L.Valid live) (hx : live x) : L.prev x ≠ some x := fun e =>
  h.next_ne hx (h.prev hx e).2.1

/-- No two live nodes share a successor. -/
theorem next_inj (h : L.Valid live) {y n : α} (hx : live x) (hy : live y)
    (ex : L.next x = some n) (ey : L.next y = some n) : x = y :=
  Option.some.inj ((h.next hx ex).2.1.symm.trans (h.next hy ey).2.1)

/-- Validity concerns only the live nodes and the ends of the lists. -/
theorem congr {L' : Links α κ} (h : L.Valid live) (hp : ∀ y, live y → L'.prev y = L.prev y)
    (hn : ∀ y, live y → L'.next y = L.next y) (ho : ∀ y, live y → L'.owner y = L.owner y)
    (hh : L'.head = L.head) (ht : L'.tail = L.tail) : L'.Valid live where
  prev {y p} hy e := by
    rw [hp y hy] at e
    obtain ⟨h1, h2, h3⟩ := h.prev hy e
    exact ⟨h1, (hn p h1).trans h2, by rw [ho p h1, ho y hy, h3]⟩
  next {y n} hy e := by
    rw [hn y hy] at e
    obtain ⟨h1, h2, h3⟩ := h.next hy e
    exact ⟨h1, (hp n h1).trans h2, by rw [ho n h1, ho y hy, h3]⟩
  head {r y} e := by
    rw [hh] at e
    obtain ⟨h1, h2, h3⟩ := h.head e
    exact ⟨h1, (hp y h1).trans h2, (ho y h1).trans h3⟩
  tail {r y} e := by
    rw [ht] at e
    obtain ⟨h1, h2, h3⟩ := h.tail e
    exact ⟨h1, (hn y h1).trans h2, (ho y h1).trans h3⟩
  rank := by
    obtain ⟨rank, hr⟩ := h.rank
    exact ⟨rank, fun {y n} hy e => hr hy ((hn y hy).symm.trans e)⟩

theorem clear [DecidableEq κ] (h : L.Valid live) (q : κ) : (L.clear q).Valid live where
  prev hx e := h.prev hx e
  next hx e := h.next hx e
  head {r y} e := by
    simp only [Links.clear] at e
    split at e
    · cases e
    · exact h.head e
  tail {r y} e := by
    simp only [Links.clear] at e
    split at e
    · cases e
    · exact h.tail e
  rank := h.rank

section Operations

variable [DecidableEq α] [DecidableEq κ]

/-- Linking a node that was not live. -/
theorem append (h : L.Valid live) (q : κ) (hx : ¬ live x) :
    (L.append q x).Valid fun y => y = x ∨ live y := by
  have ne : ∀ {y}, live y → y ≠ x := fun hy e => hx (e ▸ hy)
  have tail_ne : L.tail q ≠ some x := fun e => hx (h.tail e).1
  refine ⟨?_, ?_, ?_, ?_, ?_⟩
  · intro y p hy e
    by_cases hyx : y = x
    · subst hyx
      simp only [Links.append, if_true] at e
      obtain ⟨h1, -, h3⟩ := h.tail e
      simp only [Links.append, e, if_true, ne h1, if_false]
      exact ⟨.inr h1, trivial, h3⟩
    · replace hy := hy.resolve_left hyx
      simp only [Links.append, hyx, if_false] at e
      obtain ⟨h1, h2, h3⟩ := h.prev hy e
      have hp : L.tail q ≠ some p := fun e' => by
        rw [(h.tail e').2.1] at h2; cases h2
      simp only [Links.append, hp, ne h1, hyx, if_false]
      exact ⟨.inr h1, h2, h3⟩
  · intro y n hy e
    by_cases hyt : L.tail q = some y
    · simp only [Links.append, hyt, if_true, Option.some.injEq] at e
      subst e
      obtain ⟨h1, -, h3⟩ := h.tail hyt
      simp only [Links.append, if_true, ne h1, if_false]
      exact ⟨.inl trivial, hyt, h3.symm⟩
    · by_cases hyx : y = x
      · simp only [Links.append, hyx, tail_ne, if_true, if_false, reduceCtorEq] at e
      · replace hy := hy.resolve_left hyx
        simp only [Links.append, hyt, hyx, if_false] at e
        obtain ⟨h1, h2, h3⟩ := h.next hy e
        simp only [Links.append, ne h1, hyx, if_false]
        exact ⟨.inr h1, h2, h3⟩
  · intro r y e
    by_cases hr : r = q ∧ L.tail q = none
    · simp only [Links.append, hr, and_self, if_true, Option.some.injEq] at e
      subst e
      simp only [Links.append, if_true, hr.2, hr.1]
      exact ⟨.inl trivial, trivial, trivial⟩
    · simp only [Links.append, hr, if_false] at e
      obtain ⟨h1, h2, h3⟩ := h.head e
      simp only [Links.append, ne h1, if_false]
      exact ⟨.inr h1, h2, h3⟩
  · intro r y e
    by_cases hr : r = q
    · subst hr
      simp only [Links.append, if_true, Option.some.injEq] at e
      subst e
      simp only [Links.append, if_true, tail_ne, if_false]
      exact ⟨.inl trivial, trivial, trivial⟩
    · simp only [Links.append, hr, if_false] at e
      obtain ⟨h1, h2, h3⟩ := h.tail e
      have hy : L.tail q ≠ some y := fun e' =>
        hr (Option.some.inj (h3.symm.trans (h.tail e').2.2))
      simp only [Links.append, hy, ne h1, if_false]
      exact ⟨.inr h1, h2, h3⟩
  · obtain ⟨rank, hr⟩ := h.rank
    refine ⟨fun y => if y = x then (match L.tail q with | some t => rank t + 1 | none => 0)
      else rank y, ?_⟩
    intro y n hy e
    by_cases hyt : L.tail q = some y
    · simp only [Links.append, hyt, if_true, Option.some.injEq] at e
      subst e
      simp only [ne (h.tail hyt).1, if_false, if_true, hyt]
      exact Nat.lt_succ_self _
    · by_cases hyx : y = x
      · simp only [Links.append, hyx, tail_ne, if_true, if_false, reduceCtorEq] at e
      · replace hy := hy.resolve_left hyx
        simp only [Links.append, hyt, hyx, if_false] at e
        simp only [hyx, ne (h.next hy e).1, if_false]
        exact hr hy e

/-- Unlinking a live node from its list. -/
theorem unlink (h : L.Valid live) (hx : live x) (hq : L.owner x = some q) :
    (L.unlink q x).Valid fun y => live y ∧ y ≠ x := by
  have nn := h.next_ne hx
  have pn := h.prev_ne hx
  refine ⟨?_, ?_, ?_, ?_, ?_⟩
  · rintro y p ⟨hy, hyx⟩ e
    by_cases hn : L.next x = some y
    · simp only [Links.unlink, hyx, hn, if_true, if_false] at e
      obtain ⟨h1, h2, h3⟩ := h.prev hx e
      have hpx : p ≠ x := fun e' => pn (e' ▸ e)
      simp only [Links.unlink, hpx, hyx, e, if_true, if_false]
      exact ⟨⟨h1, hpx⟩, hn, by rw [h3, (h.next hx hn).2.2]⟩
    · simp only [Links.unlink, hyx, hn, if_false] at e
      obtain ⟨h1, h2, h3⟩ := h.prev hy e
      have hpx : p ≠ x := fun e' => hn (e' ▸ h2)
      have hp : L.prev x ≠ some p := fun e' =>
        hyx (Option.some.inj (h2.symm.trans (h.prev hx e').2.1))
      simp only [Links.unlink, hpx, hyx, hp, if_false]
      exact ⟨⟨h1, hpx⟩, h2, h3⟩
  · rintro y n ⟨hy, hyx⟩ e
    by_cases hp : L.prev x = some y
    · simp only [Links.unlink, hyx, hp, if_true, if_false] at e
      obtain ⟨h1, h2, h3⟩ := h.next hx e
      have hnx : n ≠ x := fun e' => nn (e' ▸ e)
      simp only [Links.unlink, hnx, hyx, e, if_true, if_false]
      exact ⟨⟨h1, hnx⟩, hp, by rw [h3, (h.prev hx hp).2.2]⟩
    · simp only [Links.unlink, hyx, hp, if_false] at e
      obtain ⟨h1, h2, h3⟩ := h.next hy e
      have hnx : n ≠ x := fun e' => hp (e' ▸ h2)
      have hn : L.next x ≠ some n := fun e' => hyx (h.next_inj hy hx e e')
      simp only [Links.unlink, hnx, hyx, hn, if_false]
      exact ⟨⟨h1, hnx⟩, h2, h3⟩
  · intro r y e
    by_cases hr : r = q ∧ L.prev x = none
    · simp only [Links.unlink, hr, and_self, if_true] at e
      obtain ⟨h1, -, h3⟩ := h.next hx e
      have hyx : y ≠ x := fun e' => nn (e' ▸ e)
      simp only [Links.unlink, hyx, e, if_true, if_false, hr.1]
      exact ⟨⟨h1, hyx⟩, hr.2, h3.trans hq⟩
    · simp only [Links.unlink, hr, if_false] at e
      obtain ⟨h1, h2, h3⟩ := h.head e
      have hyx : y ≠ x := by
        rintro rfl
        exact hr ⟨Option.some.inj (h3.symm.trans hq), h2⟩
      have hn : L.next x ≠ some y := fun e' => by
        rw [(h.next hx e').2.1] at h2; cases h2
      simp only [Links.unlink, hyx, hn, if_false]
      exact ⟨⟨h1, hyx⟩, h2, h3⟩
  · intro r y e
    by_cases hr : r = q ∧ L.next x = none
    · simp only [Links.unlink, hr, and_self, if_true] at e
      obtain ⟨h1, -, h3⟩ := h.prev hx e
      have hyx : y ≠ x := fun e' => pn (e' ▸ e)
      simp only [Links.unlink, hyx, e, if_true, if_false, hr.1]
      exact ⟨⟨h1, hyx⟩, hr.2, h3.trans hq⟩
    · simp only [Links.unlink, hr, if_false] at e
      obtain ⟨h1, h2, h3⟩ := h.tail e
      have hyx : y ≠ x := by
        rintro rfl
        exact hr ⟨Option.some.inj (h3.symm.trans hq), h2⟩
      have hp : L.prev x ≠ some y := fun e' => by
        rw [(h.prev hx e').2.1] at h2; cases h2
      simp only [Links.unlink, hyx, hp, if_false]
      exact ⟨⟨h1, hyx⟩, h2, h3⟩
  · obtain ⟨rank, hr⟩ := h.rank
    refine ⟨rank, ?_⟩
    rintro y n ⟨hy, hyx⟩ e
    by_cases hp : L.prev x = some y
    · simp only [Links.unlink, hyx, hp, if_true, if_false] at e
      exact Nat.lt_trans (hr hy (h.prev hx hp).2.1) (hr hx e)
    · simp only [Links.unlink, hyx, hp, if_false] at e
      exact hr hy e

end Operations

end Valid

/-! ## Queues -/

/-- `xs` is linked in order, its last node's successor being `n`. -/
def Path (next : α → Option α) : List α → Option α → Prop
  | [], _ => True
  | x :: xs, n => next x = xs.head?.or n ∧ Path next xs n

theorem path_append {next : α → Option α} :
    ∀ {xs ys : List α} {n : Option α},
      Path next (xs ++ ys) n ↔ Path next xs (ys.head?.or n) ∧ Path next ys n
  | [], ys, n => by simp [Path]
  | x :: xs, ys, n => by
    rw [List.cons_append, Path, Path, path_append, and_assoc, List.head?_append, Option.or_assoc]

/-- Only the last node's successor may change with the continuation. -/
theorem Path.relink [DecidableEq α] {next next' : α → Option α} :
    ∀ {xs : List α} {n n' : Option α}, Path next xs n → xs.Nodup →
      (∀ x ∈ xs, next' x = if xs.getLast? = some x then n' else next x) → Path next' xs n'
  | [], _, _, _, _, _ => trivial
  | [x], n, n', _, _, hc => ⟨by simpa using hc x (by simp), trivial⟩
  | x :: y :: ys, n, n', h, hd, hc => by
    obtain ⟨hx, hd⟩ := List.nodup_cons.mp hd
    refine ⟨?_, Path.relink h.2 hd fun z hz => ?_⟩
    · have hl : (x :: y :: ys).getLast? ≠ some x := fun e => by
        rw [List.getLast?_cons_cons] at e
        exact hx (List.mem_of_getLast? e)
      rw [hc x (by simp), if_neg hl, h.1]
      rfl
    · rw [hc z (List.mem_cons_of_mem _ hz), List.getLast?_cons_cons]

theorem Path.congr {next next' : α → Option α} :
    ∀ {xs : List α} {n : Option α}, Path next xs n → (∀ x ∈ xs, next' x = next x) →
      Path next' xs n
  | [], _, _, _ => trivial
  | x :: xs, n, h, hc => ⟨(hc x (by simp)).trans h.1,
      h.2.congr fun y hy => hc y (List.mem_cons_of_mem _ hy)⟩

/-- A path to the end is known by its first node, -/
theorem Path.unique {next : α → Option α} : ∀ {xs ys : List α}, Path next xs none → Path next ys none →
    xs.head? = ys.head? → xs = ys
  | [], [], _, _, _ => rfl
  | [], _ :: _, _, _, e => by simp at e
  | _ :: _, [], _, _, e => by simp at e
  | x :: xs, y :: ys, hx, hy, e => by
    obtain rfl : x = y := Option.some.inj e
    have htail : xs.head? = ys.head? := by
      have := hx.1.symm.trans hy.1
      rwa [Option.or_none, Option.or_none] at this
    rw [Path.unique hx.2 hy.2 htail]

/-- so that it visits no node twice. -/
theorem Path.nodup {next : α → Option α} : ∀ {xs : List α}, Path next xs none → xs.Nodup
  | [], _ => List.nodup_nil
  | x :: xs, h => by
    refine List.nodup_cons.mpr ⟨fun hx => ?_, Path.nodup h.2⟩
    obtain ⟨ys, zs, rfl⟩ := List.append_of_mem hx
    have hz : Path next (x :: zs) none := (path_append.mp h.2).2
    have hlen := congrArg List.length (Path.unique h hz rfl)
    simp only [List.length_cons, List.length_append] at hlen
    omega

/-- List `q` reaches, from its head, exactly the live nodes it owns. -/
structure IsQueue (L : Links α κ) (live : α → Prop) (q : κ) (xs : List α) : Prop where
  head : L.head q = xs.head?
  tail : L.tail q = xs.getLast?
  path : Path L.next xs none
  mem : ∀ x, x ∈ xs ↔ live x ∧ L.owner x = some q

/-- A path of live nodes has increasing ranks, so no node is on it twice. -/
theorem Valid.path_nodup {L : Links α κ} {live : α → Prop} (h : L.Valid live) :
    ∀ {xs : List α} {n : Option α}, (∀ x ∈ xs, live x) → Path L.next xs n → xs.Nodup := by
  obtain ⟨rank, hr⟩ := h.rank
  have sorted : ∀ (xs : List α) (n : Option α), (∀ x ∈ xs, live x) → Path L.next xs n →
      xs.Pairwise (fun x y => rank x < rank y) := by
    intro xs n hl hp
    induction xs with
    | nil => exact List.Pairwise.nil
    | cons x xs ih =>
      have hs := ih (fun y hy => hl y (List.mem_cons_of_mem _ hy)) hp.2
      refine List.Pairwise.cons (fun y hy => ?_) hs
      cases xs with
      | nil => cases hy
      | cons z zs =>
        have hxz : rank x < rank z := hr (hl x (by simp)) hp.1
        rcases List.mem_cons.mp hy with rfl | hy
        · exact hxz
        · exact Nat.lt_trans hxz (List.rel_of_pairwise_cons hs hy)
  exact fun {xs n} hl hp => (sorted xs n hl hp).imp fun {x y} (hlt : rank x < rank y) e => by
    rw [e] at hlt
    exact Nat.lt_irrefl _ hlt

/-- The same path against the `prev` links. -/
theorem Valid.path_prev {L : Links α κ} {live : α → Prop} (h : L.Valid live) {n : Option α} :
    ∀ {xs : List α} {p : Option α}, (∀ x ∈ xs, live x) → (∀ x, xs.head? = some x → L.prev x = p) →
      Path L.next xs n → Path L.prev xs.reverse p
  | [], _, _, _, _ => trivial
  | x :: xs, p, hl, hp, hn => by
    rw [List.reverse_cons, path_append]
    refine ⟨h.path_prev (fun y hy => hl y (List.mem_cons_of_mem _ hy)) (fun y hy => ?_) hn.2,
      (hp x rfl).trans (Option.none_or).symm, trivial⟩
    have hnext : L.next x = some y := by rw [hn.1, hy, Option.some_or]
    exact (h.next (hl x List.mem_cons_self) hnext).2.1

namespace IsQueue

variable {L : Links α κ} {live : α → Prop} {q r : κ} {x : α} {xs ys : List α}

theorem nodup (h : L.IsQueue live q xs) (hv : L.Valid live) : xs.Nodup :=
  hv.path_nodup (fun x hx => ((h.mem x).mp hx).1) h.path

/-- Queues depend only on the fields of their own nodes and ends. -/
theorem congr {L' : Links α κ} {live' : α → Prop} (h : L.IsQueue live q xs)
    (hl : ∀ y, live' y ↔ live y) (hn : ∀ y, live y → L'.next y = L.next y)
    (ho : ∀ y, live y → L'.owner y = L.owner y) (hh : L'.head q = L.head q)
    (ht : L'.tail q = L.tail q) : L'.IsQueue live' q xs where
  head := hh.trans h.head
  tail := ht.trans h.tail
  path := h.path.congr fun y hy => hn y ((h.mem y).mp hy).1
  mem y := by
    rw [h.mem, hl]
    exact and_congr_right fun hy => by rw [ho y hy]

variable [DecidableEq α] [DecidableEq κ]

theorem append (h : L.IsQueue live q xs) (hv : L.Valid live) (hx : ¬ live x) :
    (L.append q x).IsQueue (fun y => y = x ∨ live y) q (xs ++ [x]) := by
  have hd := h.nodup hv
  have ne : ∀ y ∈ xs, y ≠ x := fun y hy e => hx (e ▸ ((h.mem y).mp hy).1)
  refine ⟨?_, ?_, ?_, fun y => ?_⟩
  · simp only [Links.append, true_and, h.tail, List.getLast?_eq_none_iff, List.head?_append, h.head]
    split
    · rename_i e; rw [e]; rfl
    · rename_i e
      obtain ⟨y, ys, rfl⟩ := List.exists_cons_of_ne_nil e
      rfl
  · simp [Links.append]
  · refine path_append.mpr ⟨?_, ?_, trivial⟩
    · refine h.path.relink hd fun y hy => ?_
      simp only [Links.append, h.tail, ne y hy, if_false, List.head?_cons, Option.some_or]
    · have : L.tail q ≠ some x := fun e => hx (hv.tail e).1
      simp [Links.append, this]
  · simp only [Links.append, List.mem_append, List.mem_singleton, h.mem]
    by_cases hy : y = x
    · simp [hy]
    · simp [hy]

theorem append_other (h : L.IsQueue live r xs) (hv : L.Valid live) (hr : r ≠ q) (hx : ¬ live x) :
    (L.append q x).IsQueue (fun y => y = x ∨ live y) r xs := by
  have ne : ∀ y ∈ xs, y ≠ x := fun y hy e => hx (e ▸ ((h.mem y).mp hy).1)
  refine ⟨by simp only [Links.append, hr, false_and, if_false, h.head],
    by simp only [Links.append, hr, if_false, h.tail], ?_, fun y => ?_⟩
  · refine h.path.congr fun y hy => ?_
    have ht : L.tail q ≠ some y := fun e =>
      hr (Option.some.inj (((h.mem y).mp hy).2.symm.trans (hv.tail e).2.2))
    simp only [Links.append, ht, ne y hy, if_false]
  · rw [h.mem]
    by_cases hy : y = x
    · subst hy
      simp [Links.append, hx, Ne.symm hr]
    · simp [Links.append, hy]

theorem unlink (h : L.IsQueue live q (xs ++ x :: ys)) (hv : L.Valid live) :
    (L.unlink q x).IsQueue (fun y => live y ∧ y ≠ x) q (xs ++ ys) := by
  have hd := h.nodup hv
  have hlx : live x := ((h.mem x).mp (by simp)).1
  obtain ⟨p1, p2, p3⟩ := path_append.mp h.path
  rw [Option.or_none] at p2
  obtain ⟨dx, -, dxy⟩ := List.nodup_append.mp hd
  -- the neighbours of `x` are the ends of `xs` and `ys`
  have hprev : L.prev x = xs.getLast? := by
    cases hl : xs.getLast? with
    | none =>
      rw [List.getLast?_eq_none_iff] at hl
      subst hl
      exact (hv.head h.head).2.1
    | some z =>
      obtain ⟨zs, rfl⟩ := List.getLast?_eq_some_iff.mp hl
      have hz := (path_append.mp p1).2.1
      exact (hv.next ((h.mem z).mp (by simp)).1 hz).2.1
  have nex : ∀ y ∈ xs ++ ys, y ≠ x := by
    intro y hy e
    subst e
    rcases List.mem_append.mp hy with hy | hy
    · exact dxy _ hy _ (by simp) rfl
    · exact (List.nodup_cons.mp (List.nodup_append.mp hd).2.1).1 hy
  refine ⟨?_, ?_, ?_, fun y => ?_⟩
  · simp only [Links.unlink, true_and, hprev, List.getLast?_eq_none_iff, p2, h.head,
      List.head?_append]
    split
    · rename_i e; simp [e]
    · rename_i e
      obtain ⟨y, zs, rfl⟩ := List.exists_cons_of_ne_nil e
      rfl
  · simp only [Links.unlink, true_and, p2, List.head?_eq_none_iff, hprev, h.tail,
      List.getLast?_append, List.getLast?_cons]
    split
    · rename_i e; simp [e]
    · rename_i e
      obtain ⟨y, zs, rfl⟩ := List.exists_cons_of_ne_nil e
      simp [List.getLast?_cons]
  · refine path_append.mpr ⟨?_, ?_⟩
    · refine p1.relink dx fun y hy => ?_
      simp only [Links.unlink, nex y (List.mem_append_left _ hy), if_false, hprev, p2,
        Option.or_none]
    · refine p3.congr fun y hy => ?_
      have hp : xs.getLast? ≠ some y := fun e =>
        dxy _ (List.mem_of_getLast? e) _ (List.mem_cons_of_mem _ hy) rfl
      simp only [Links.unlink, nex y (List.mem_append_right _ hy), hprev, hp, if_false]
  · have hm := h.mem y
    simp only [List.mem_append, List.mem_cons] at hm ⊢
    by_cases hy : y = x
    · have : y ∉ xs ++ ys := fun hm => nex y hm hy
      rw [List.mem_append] at this
      simp only [hy] at this ⊢
      simp [this]
    · simp only [hy, false_or] at hm
      simp only [hm, Links.unlink, hy, ne_eq, not_false_eq_true, and_true, if_false]

theorem unlink_other (h : L.IsQueue live r ys) (hv : L.Valid live) (hr : r ≠ q) (hx : live x)
    (hq : L.owner x = some q) :
    (L.unlink q x).IsQueue (fun y => live y ∧ y ≠ x) r ys := by
  have ne : ∀ y ∈ ys, y ≠ x := fun y hy e => by
    subst e
    exact hr (Option.some.inj (((h.mem y).mp hy).2.symm.trans hq))
  refine ⟨by simp only [Links.unlink, hr, false_and, if_false, h.head],
    by simp only [Links.unlink, hr, false_and, if_false, h.tail], ?_, fun y => ?_⟩
  · refine h.path.congr fun y hy => ?_
    have hp : L.prev x ≠ some y := fun e => by
      have := (hv.prev hx e).2.2
      rw [((h.mem y).mp hy).2, hq] at this
      exact hr (Option.some.inj this)
    simp only [Links.unlink, ne y hy, hp, if_false]
  · rw [h.mem]
    by_cases hy : y = x
    · subst hy
      simp [Links.unlink, hq, Ne.symm hr]
    · simp [Links.unlink, hy]

end IsQueue

end Links
