import Pricetime.Proof.Framework.Runs
import Pricetime.Proof.Framework.Window
import Pricetime.Spec.Fifo

/-!
# The ring is a bounded FIFO under any interleaving

`Rep q m items`: the ring has `items` in its slots, the first of which is the
`m`-th ever pushed; each side's copy of the other's index is one that this
had, and leaves room for the step the side is about to take. A step of either
side keeps it and is a step of the abstract queue (`Rep.step`).
-/

namespace Pricetime

open Spec
open Window (Holds)

namespace Spec.Fifo

variable {T : Type} {bound : Nat} {items items' : List T} {evs : List (QueueEvent T)}

/-- What went in comes out, or is still there, in order. -/
theorem Run.conserves (h : Run bound items evs items') : items ++ pushes evs = pops evs ++ items' := by
  induction h with
  | nil => simp [pushes, pops]
  | cons h hs ih =>
    cases h with
    | quiet => exact ih
    | pushed value h =>
      rw [List.append_assoc] at ih
      exact ih
    | full h => exact ih
    | popped value items => exact congrArg (value :: ·) ih
    | empty => exact ih

theorem Run.bounded (h : Run bound items evs items') (hb : items.length ≤ bound) : items'.length ≤ bound := by
  induction h with
  | nil => exact hb
  | cons h hs ih =>
    refine ih ?_
    cases h with
    | quiet => exact hb
    | pushed value h =>
      rw [List.length_append, List.length_singleton]
      omega
    | full h => exact hb
    | popped value items =>
      rw [List.length_cons] at hb
      omega
    | empty => exact hb

end Spec.Fifo

section Locals

variable {T : Type}

/-- The slots that the producer is sure are free. -/
def Producer.room : Producer T → Nat
  | .idle => 0
  | .refresh .. => 0
  | .write .. => 1
  | .publish .. => 1

/-- The items that the consumer is sure are there. -/
def Consumer.sure : Consumer T → Nat
  | .idle => 0
  | .refresh _ => 0
  | .read _ => 1
  | .publish .. => 1

/-- The producer's locals, after `n` pushes. -/
def Producer.Ok (slots : List T) (n : Nat) : Producer T → Prop
  | .idle => True
  | .refresh _ head next => head = n % slots.length ∧ next = (n + 1) % slots.length
  | .write _ head next => head = n % slots.length ∧ next = (n + 1) % slots.length
  | .publish value next => slots[n % slots.length]? = some value ∧ next = (n + 1) % slots.length

/-- The consumer's locals, after `m` pops. -/
def Consumer.Ok (size m : Nat) (items : List T) : Consumer T → Prop
  | .idle => True
  | .refresh tail => tail = m % size
  | .read tail => tail = m % size
  | .publish tail out => tail = m % size ∧ items.head? = some out

end Locals

namespace SpscQueue

variable {T : Type} {q q' : SpscQueue T} {m : Nat} {items : List T}

/-- The ring has `items`, after `m` pops. Each side's copy of the other's index
is an old one, and leaves the room or the item that the side counts on. -/
structure Rep (q : SpscQueue T) (m : Nat) (items : List T) : Prop where
  pow : ∃ k, q.mask + 1 = 2 ^ k
  size : q.slots.length = q.mask + 1
  head : q.head = (m + items.length) % q.slots.length
  tail : q.tail = m % q.slots.length
  bounded : items.length ≤ q.mask
  holds : Holds q.slots m items
  cachedTail : ∃ c, q.cachedTail = c % q.slots.length ∧ c ≤ m ∧ m + items.length + q.producer.room ≤ c + q.mask
  cachedHead : ∃ d, q.cachedHead = d % q.slots.length ∧ m + q.consumer.sure ≤ d ∧ d ≤ m + items.length
  producer : q.producer.Ok q.slots (m + items.length)
  consumer : q.consumer.Ok q.slots.length m items

namespace Rep

theorem and_mask (h : Rep q m items) (i : Nat) : i &&& q.mask = i % q.slots.length := by
  obtain ⟨k, hk⟩ := h.pow
  rw [h.size, hk, show q.mask = 2 ^ k - 1 by omega, Nat.and_two_pow_sub_one_eq_mod]

theorem next_eq (h : Rep q m items) : (q.head + 1) &&& q.mask = (m + items.length + 1) % q.slots.length := by
  rw [h.and_mask, h.head, Nat.mod_add_mod]

/-- The slot after the last item is an old one if and only if there is no room
as of then. -/
theorem full_iff (h : Rep q m items) {c : Nat} (hc : c ≤ m) (hroom : m + items.length ≤ c + q.mask) :
    (m + items.length + 1) % q.slots.length = c % q.slots.length ↔ m + items.length = c + q.mask := by
  have hsize := h.size
  rw [Window.mod_eq_iff (by omega) (by omega)]
  omega

theorem empty_iff (h : Rep q m items) {d : Nat} (hm : m ≤ d) (hd : d ≤ m + items.length) :
    m % q.slots.length = d % q.slots.length ↔ d = m := by
  have hsize := h.size
  have hb := h.bounded
  rw [eq_comm, Window.mod_inj hm (by omega)]

/-- A step of the producer. -/
theorem tryPush (h : Rep q m items) (value : T) : ∃ ev q' items', q.tryPush value = some (ev, q') ∧
    q'.mask = q.mask ∧ Fifo.Step q.mask items ev items' ∧ Rep q' m items' := by
  obtain ⟨c, hc, hcm, hroom⟩ := h.cachedTail
  have hsize := h.size
  have hok := h.producer
  rw [SpscQueue.tryPush]
  cases hp : q.producer with
  | idle =>
    rw [hp, Producer.room] at hroom
    have hfull := h.full_iff hcm hroom
    rw [← h.next_eq, ← hc] at hfull
    dsimp only
    by_cases heq : (q.head + 1) &&& q.mask = q.cachedTail
    · exact ⟨_, _, items, if_pos heq, rfl, .quiet items, h.pow, h.size, h.head, h.tail, h.bounded, h.holds,
        ⟨c, hc, hcm, hroom⟩, h.cachedHead, ⟨h.head, h.next_eq⟩, h.consumer⟩
    · have hlt : m + items.length + 1 ≤ c + q.mask := by
        rw [hfull] at heq
        omega
      exact ⟨_, _, items, if_neg heq, rfl, .quiet items, h.pow, h.size, h.head, h.tail, h.bounded, h.holds,
        ⟨c, hc, hcm, hlt⟩, h.cachedHead, ⟨h.head, h.next_eq⟩, h.consumer⟩
  | refresh v head next =>
    rw [hp] at hok
    obtain ⟨hhead, hnext⟩ := hok
    have hb := h.bounded
    have hfull := h.full_iff (Nat.le_refl m) (by omega)
    rw [← hnext, ← h.tail] at hfull
    dsimp only
    by_cases heq : next = q.tail
    · rw [hfull] at heq
      exact ⟨_, _, items, if_pos (hfull.mpr heq), rfl, .full (by omega), h.pow, h.size, h.head, h.tail, h.bounded,
        h.holds, ⟨m, h.tail, Nat.le_refl m, Nat.add_le_add_left hb m⟩, h.cachedHead, trivial, h.consumer⟩
    · have hlt : m + items.length + 1 ≤ m + q.mask := by
        rw [hfull] at heq
        omega
      exact ⟨_, _, items, if_neg heq, rfl, .quiet items, h.pow, h.size, h.head, h.tail, h.bounded, h.holds,
        ⟨m, h.tail, Nat.le_refl m, hlt⟩, h.cachedHead, ⟨hhead, hnext⟩, h.consumer⟩
  | write v head next =>
    rw [hp] at hok hroom
    obtain ⟨rfl, rfl⟩ := hok
    rw [Producer.room] at hroom
    have hlt : (m + items.length) % q.slots.length < q.slots.length := Nat.mod_lt _ (by omega)
    have hlen : (q.slots.set ((m + items.length) % q.slots.length) v).length = q.slots.length := List.length_set
    have hb := h.bounded
    refine ⟨_, _, items, if_pos hlt, rfl, .quiet items, h.pow, hlen.trans h.size, ?_, ?_, h.bounded,
      h.holds.set (by omega) v, ⟨c, ?_, hcm, hroom⟩, ?_, ⟨?_, ?_⟩, ?_⟩
    · rw [hlen]
      exact h.head
    · rw [hlen]
      exact h.tail
    · rw [hlen]
      exact hc
    · rw [hlen]
      exact h.cachedHead
    · rw [hlen]
      exact List.getElem?_set_self hlt
    · rw [hlen]
    · rw [hlen]
      exact h.consumer
  | publish v next =>
    rw [hp] at hok hroom
    obtain ⟨hv, rfl⟩ := hok
    rw [Producer.room] at hroom
    have hlen : (items ++ [v]).length = items.length + 1 := by simp
    obtain ⟨d, hd, hmd, hdn⟩ := h.cachedHead
    refine ⟨_, _, items ++ [v], rfl, rfl, .pushed v (by omega), h.pow, h.size, ?_, h.tail, ?_, h.holds.push hv,
      ⟨c, hc, hcm, ?_⟩, ⟨d, hd, hmd, ?_⟩, trivial, ?_⟩
    · rw [hlen, Nat.add_assoc]
    · show (items ++ [v]).length ≤ q.mask
      omega
    · show m + (items ++ [v]).length ≤ c + q.mask
      omega
    · omega
    · have hc := h.consumer
      show q.consumer.Ok q.slots.length m (items ++ [v])
      cases hcs : q.consumer with
      | idle => trivial
      | refresh tail =>
        rw [hcs] at hc
        exact hc
      | read tail =>
        rw [hcs] at hc
        exact hc
      | publish tail out =>
        rw [hcs] at hc
        obtain ⟨ht, ho⟩ := hc
        refine ⟨ht, ?_⟩
        rw [List.head?_append, ho]
        rfl

/-- A step of the consumer. -/
theorem tryPop (h : Rep q m items) : ∃ ev q' m' items', q.tryPop = some (ev, q') ∧
    q'.mask = q.mask ∧ Fifo.Step q.mask items ev items' ∧ Rep q' m' items' := by
  obtain ⟨d, hd, hmd, hdn⟩ := h.cachedHead
  have hsize := h.size
  have hb := h.bounded
  have hok := h.consumer
  rw [SpscQueue.tryPop]
  cases hc : q.consumer with
  | idle =>
    rw [hc, Consumer.sure] at hmd
    have hempty := h.empty_iff hmd hdn
    rw [← h.tail, ← hd] at hempty
    dsimp only
    by_cases heq : q.tail = q.cachedHead
    · exact ⟨_, _, m, items, if_pos heq, rfl, .quiet items, h.pow, h.size, h.head, h.tail, h.bounded, h.holds,
        h.cachedTail, ⟨d, hd, hmd, hdn⟩, h.producer, h.tail⟩
    · have hlt : m + 1 ≤ d := by
        rw [hempty] at heq
        omega
      exact ⟨_, _, m, items, if_neg heq, rfl, .quiet items, h.pow, h.size, h.head, h.tail, h.bounded, h.holds,
        h.cachedTail, ⟨d, hd, hlt, hdn⟩, h.producer, h.tail⟩
  | refresh tail =>
    rw [hc] at hok
    have htail : tail = q.tail := hok.trans h.tail.symm
    have hempty := h.empty_iff (Nat.le_add_right m items.length) (Nat.le_refl _)
    rw [← hok, ← h.head] at hempty
    dsimp only
    by_cases heq : tail = q.head
    · have hnil : items = [] := List.eq_nil_of_length_eq_zero (by omega)
      subst hnil
      exact ⟨_, _, m, [], if_pos heq, rfl, .empty, h.pow, h.size, h.head, h.tail, h.bounded, h.holds, h.cachedTail,
        ⟨m, h.head, Nat.le_refl m, Nat.le_refl m⟩, h.producer, trivial⟩
    · have hlt : m + 1 ≤ m + items.length := by
        rw [hempty] at heq
        omega
      exact ⟨_, _, m, items, if_neg heq, rfl, .quiet items, h.pow, h.size, h.head, h.tail, h.bounded, h.holds,
        h.cachedTail, ⟨m + items.length, h.head, hlt, Nat.le_refl _⟩, h.producer, hok⟩
  | read tail =>
    rw [hc] at hok hmd
    obtain rfl := hok
    rw [Consumer.sure] at hmd
    cases items with
    | nil =>
      rw [List.length_nil] at hdn
      omega
    | cons out rest =>
      refine ⟨.quiet, { q with consumer := .publish (m % q.slots.length) out }, m, out :: rest, ?_, rfl,
        .quiet (out :: rest), h.pow, h.size, h.head, h.tail, h.bounded, h.holds, h.cachedTail, ⟨d, hd, hmd, hdn⟩,
        h.producer, rfl, rfl⟩
      dsimp only
      rw [h.holds.head]
      rfl
  | publish tail out =>
    rw [hc] at hok hmd
    obtain ⟨rfl, hout⟩ := hok
    rw [Consumer.sure] at hmd
    obtain ⟨c, hct, hcm, hroom⟩ := h.cachedTail
    cases items with
    | nil => cases hout
    | cons v rest =>
      obtain rfl : v = out := Option.some.inj hout
      have hlen : m + (v :: rest).length = m + 1 + rest.length := by
        rw [List.length_cons]
        omega
      have hhead := h.head
      have hprod := h.producer
      rw [hlen] at hdn hroom hhead hprod
      refine ⟨_, _, m + 1, rest, rfl, rfl, .popped v rest, h.pow, h.size, hhead, ?_, ?_, h.holds.pop,
        ⟨c, hct, by omega, hroom⟩, ⟨d, hd, hmd, hdn⟩, hprod, trivial⟩
      · show (m % q.slots.length + 1) &&& q.mask = (m + 1) % q.slots.length
        rw [h.and_mask, Nat.mod_add_mod]
      · rw [List.length_cons] at hb
        show rest.length ≤ q.mask
        omega

/-- A step of either side. -/
theorem step (h : Rep q m items) (op : QueueOp T) : ∃ ev q' m' items', q.step op = some (ev, q') ∧
    q'.mask = q.mask ∧ Fifo.Step q.mask items ev items' ∧ Rep q' m' items' := by
  cases op with
  | producer value =>
    obtain ⟨ev, q', items', hs, hmask, hf, hr⟩ := h.tryPush value
    exact ⟨ev, q', m, items', hs, hmask, hf, hr⟩
  | consumer => exact h.tryPop

/-- Any number of steps of both sides, in any order. -/
theorem run : ∀ {q : SpscQueue T} {m : Nat} {items : List T} (_ : Rep q m items) (ops : List (QueueOp T)),
    ∃ evs q' m' items', Runs.trace SpscQueue.step q ops = some evs ∧ Runs.run SpscQueue.step q ops = some q' ∧
      q'.mask = q.mask ∧ Fifo.Run q.mask items evs items' ∧ Rep q' m' items'
  | q, m, items, h, [] => ⟨[], q, m, items, rfl, rfl, rfl, .nil items, h⟩
  | q, m, items, h, op :: ops => by
    obtain ⟨ev, q₁, m₁, items₁, hs, hmask, hf, h₁⟩ := h.step op
    obtain ⟨evs, q', m', items', ht, hr, hmask', hfs, h'⟩ := run h₁ ops
    rw [hmask] at hmask' hfs
    exact ⟨ev :: evs, q', m', items', Runs.trace_cons hs ht, by rw [Runs.run_cons hs, hr], hmask', .cons hf hfs, h'⟩

theorem sizeApprox_eq (h : Rep q m items) : q.sizeApprox = items.length := by
  have hsize := h.size
  have hb := h.bounded
  rw [sizeApprox, h.and_mask, ← h.size, h.head, h.tail, Window.distance (by omega) (by omega), Nat.add_sub_cancel_left]

theorem held_eq (h : Rep q m items) :
    q.held = (List.range items.length).map fun i => (m + i) % q.slots.length := by
  rw [held, h.sizeApprox_eq]
  refine List.map_congr_left fun i _ => ?_
  rw [h.and_mask, h.tail, Nat.mod_add_mod]

theorem length_held (h : Rep q m items) : q.held.length = items.length := by
  rw [h.held_eq, List.length_map, List.length_range]

theorem map_held (h : Rep q m items) : q.held.map (q.slots[·]?) = items.map some := by
  rw [h.held_eq, List.map_map]
  exact h.holds.map_range

/-- The producer writes to a slot without an unpopped item. -/
theorem write_free (h : Rep q m items) {v : T} {head next : Nat} (hp : q.producer = .write v head next) :
    head ∉ q.held := by
  have hok := h.producer
  have hb := h.bounded
  have hsize := h.size
  rw [hp] at hok
  rw [h.held_eq, hok.1, List.mem_map]
  rintro ⟨i, hi, heq⟩
  rw [List.mem_range] at hi
  rw [eq_comm, Window.mod_inj (by omega) (by omega)] at heq
  omega

/-- The consumer reads a slot with a published item. -/
theorem read_published (h : Rep q m items) {tail : Nat} (hc : q.consumer = .read tail) : tail ∈ q.held := by
  obtain ⟨d, _, hmd, hdn⟩ := h.cachedHead
  have hok := h.consumer
  rw [hc] at hok hmd
  rw [Consumer.sure] at hmd
  rw [h.held_eq, hok, List.mem_map]
  exact ⟨0, List.mem_range.mpr (by omega), rfl⟩

theorem full_held (h : Rep q m items) {op : QueueOp T} (hs : q.step op = some (.full, q')) :
    q.held.length = q.mask := by
  obtain ⟨ev, _, _, items', hs', _, hf, _⟩ := h.step op
  cases hs.symm.trans hs'
  cases hf with
  | full hlen => rw [h.length_held, hlen]

theorem empty_held (h : Rep q m items) {op : QueueOp T} (hs : q.step op = some (.empty, q')) : q.held = [] := by
  obtain ⟨ev, _, _, items', hs', _, hf, _⟩ := h.step op
  cases hs.symm.trans hs'
  cases hf with
  | empty => rw [h.held_eq, List.length_nil, List.range_zero, List.map_nil]

end Rep

/-! ## The constructor -/

theorem toNat_double {p : UInt64} {i : Nat} (hp : p.toNat = 2 ^ i) (hi : i < 63) : (p <<< 1).toNat = 2 ^ (i + 1) := by
  have hlt : 2 ^ (i + 1) < 2 ^ 64 := Nat.pow_lt_pow_right (by omega) (by omega)
  rw [UInt64.toNat_shiftLeft, hp, show (1 : UInt64).toNat % 64 = 1 from rfl, Nat.shiftLeft_eq, ← Nat.pow_succ,
    Nat.mod_eq_of_lt hlt]

theorem doubleUpTo_pow (n : UInt64) : ∀ (fuel : Nat) {p r : UInt64},
    (∃ i, p.toNat = 2 ^ i) ∨ p = 0 ∧ 0 < n → doubleUpTo n fuel p = some r → ∃ j, r.toNat = 2 ^ j
  | 0, _, _, _, h => nomatch h
  | fuel + 1, p, r, hp, h => by
    rw [doubleUpTo] at h
    by_cases hlt : p < n
    · rw [if_pos hlt] at h
      refine doubleUpTo_pow n fuel ?_ h
      rcases hp with ⟨i, hi⟩ | ⟨rfl, hn⟩
      · by_cases h63 : i < 63
        · exact .inl ⟨i + 1, toNat_double hi h63⟩
        · -- the last bit is shifted out
          have hp64 := p.toNat_lt
          rw [hi, Nat.pow_lt_pow_iff_right (by omega)] at hp64
          obtain rfl : i = 63 := by omega
          obtain rfl : p = 9223372036854775808 := UInt64.toNat_inj.mp hi
          exact .inr ⟨rfl, Nat.lt_of_le_of_lt (Nat.zero_le _) hlt⟩
      · exact .inr ⟨rfl, hn⟩
    · rw [if_neg hlt] at h
      cases h
      rcases hp with hp | ⟨rfl, hn⟩
      · exact hp
      · exact absurd hn hlt

theorem doubleUpTo_of_le {n : UInt64} (hn : n.toNat ≤ 2 ^ 63) : ∀ (fuel : Nat) {p : UInt64} {i : Nat},
    p.toNat = 2 ^ i → 64 ≤ fuel + i → ∃ r, doubleUpTo n fuel p = some r ∧ n ≤ r
  | 0, p, i, hp, hfuel => by
    have hp64 := p.toNat_lt
    rw [hp, Nat.pow_lt_pow_iff_right (by omega)] at hp64
    omega
  | fuel + 1, p, i, hp, hfuel => by
    rw [doubleUpTo]
    by_cases hlt : p < n
    · rw [if_pos hlt]
      have hi : 2 ^ i < 2 ^ 63 := by
        rw [← hp]
        exact Nat.lt_of_lt_of_le (UInt64.lt_iff_toNat_lt.mp hlt) hn
      rw [Nat.pow_lt_pow_iff_right (by omega)] at hi
      exact doubleUpTo_of_le hn fuel (toNat_double hp hi) (by omega)
    · rw [if_neg hlt]
      exact ⟨p, rfl, UInt64.not_lt.mp hlt⟩

theorem new_of_lt (zero : T) {capacity : UInt64} (h : capacity.toNat < 2 ^ 63) :
    ∃ q, new zero capacity = some q ∧ capacity.toNat ≤ q.capacity := by
  have hsucc : (capacity + 1).toNat = capacity.toNat + 1 := by
    rw [UInt64.toNat_add, UInt64.toNat_one]
    exact Nat.mod_eq_of_lt (by omega)
  obtain ⟨r, hr, hle⟩ := doubleUpTo_of_le (n := capacity + 1) (by omega) 65 (p := 1) (i := 0) rfl (by omega)
  rw [UInt64.le_iff_toNat_le, hsucc] at hle
  refine ⟨_, by rw [new, roundUpPow2, hr]; rfl, ?_⟩
  show capacity.toNat ≤ (r - 1).toNat
  rw [UInt64.toNat_sub_of_le _ _ (UInt64.le_iff_toNat_le.mpr (by rw [UInt64.toNat_one]; omega)), UInt64.toNat_one]
  omega

theorem new_rep {zero : T} {capacity : UInt64} (h : new zero capacity = some q) : Rep q 0 [] := by
  obtain ⟨p, hp, e⟩ := Option.bind_eq_some_iff.mp h
  cases e
  obtain ⟨k, hk⟩ := doubleUpTo_pow (capacity + 1) 65 (.inl ⟨0, rfl⟩) hp
  have hpos := Nat.two_pow_pos k
  have hmask : (p - 1).toNat + 1 = 2 ^ k := by
    rw [UInt64.toNat_sub_of_le _ _ (UInt64.le_iff_toNat_le.mpr (by rw [UInt64.toNat_one]; omega)), UInt64.toNat_one, hk]
    omega
  have hmod : ∀ n, 0 = 0 % n := fun n => (Nat.zero_mod n).symm
  exact ⟨⟨k, hmask⟩, List.length_replicate, hmod _, hmod _, Nat.zero_le _, Holds.nil _ 0,
    ⟨0, hmod _, Nat.le_refl 0, Nat.zero_le _⟩, ⟨0, hmod _, Nat.le_refl 0, Nat.le_refl 0⟩, trivial, trivial⟩

/-! ## Every interleaving -/

/-- What holds of the ring at a moment, `evs` being what its calls have shown
by then. -/
structure Sound (evs : List (QueueEvent T)) (q : SpscQueue T) : Prop where
  order : Fifo.pops evs <+: Fifo.pushes evs
  bounded : q.held.length ≤ q.mask
  contents : q.held.map (q.slots[·]?) = ((Fifo.pushes evs).drop (Fifo.pops evs).length).map some
  write : ∀ value head next, q.producer = .write value head next → head ∉ q.held
  read : ∀ tail, q.consumer = .read tail → tail ∈ q.held
  full : ∀ op q', q.step op = some (.full, q') → q.held.length = q.mask
  empty : ∀ op q', q.step op = some (.empty, q') → q.held = []

theorem Rep.sound (h : Rep q m items) {evs : List (QueueEvent T)} (hf : Fifo.Run q.mask [] evs items) : Sound evs q := by
  have hcons := hf.conserves
  rw [List.nil_append] at hcons
  refine ⟨⟨items, hcons.symm⟩, ?_, ?_, fun _ _ _ => h.write_free, fun _ => h.read_published, fun _ _ => h.full_held,
    fun _ _ => h.empty_held⟩
  · rw [h.length_held]
    exact h.bounded
  · rw [h.map_held, hcons, List.drop_left]

theorem spsc_fifo (zero : T) (capacity : UInt64) :
    (capacity.toNat < 2 ^ 63 → ∃ q, new zero capacity = some q ∧ capacity.toNat ≤ q.capacity) ∧
    ∀ q₀, new zero capacity = some q₀ → ∀ ops, ∃ evs q, Runs.trace step q₀ ops = some evs ∧
      Runs.run step q₀ ops = some q ∧ q.mask = q₀.mask ∧ Sound evs q := by
  refine ⟨new_of_lt zero, fun q₀ hnew ops => ?_⟩
  obtain ⟨evs, q, m, items, ht, hr, hmask, hf, h⟩ := (new_rep hnew).run ops
  rw [← hmask] at hf
  exact ⟨evs, q, ht, hr, hmask, h.sound hf⟩

/-- One slot: a pop that looks before the push is published, and a push that
looks before the item is popped. -/
theorem spsc_fifo_one : ∃ q₀ q, new 0 1 = some q₀ ∧
    Runs.trace step q₀ [.producer 7, .consumer, .producer 7, .consumer, .producer 7, .producer 8, .consumer,
      .producer 8, .consumer, .consumer, .consumer] =
      some [.quiet, .quiet, .quiet, .empty, .pushed 7, .quiet, .quiet, .full, .quiet, .quiet, .popped 7] ∧
    Sound [.quiet, .quiet, .quiet, .empty, .pushed 7, .quiet, .quiet, .full, .quiet, .quiet, .popped 7] q := by
  obtain ⟨q₀, hnew, _⟩ := (spsc_fifo 0 1).1 (by decide)
  obtain ⟨evs, q, ht, _, _, hs⟩ := (spsc_fifo 0 1).2 q₀ hnew [.producer 7, .consumer, .producer 7, .consumer,
    .producer 7, .producer 8, .consumer, .producer 8, .consumer, .consumer, .consumer]
  have hq₀ : q₀ = ⟨[0, 0], 1, 0, 0, 0, 0, .idle, .idle⟩ := by
    have h : new 0 1 = some (⟨[0, 0], 1, 0, 0, 0, 0, .idle, .idle⟩ : SpscQueue Nat) := by decide
    exact Option.some.inj (hnew.symm.trans h)
  subst hq₀
  have hevs : evs = [.quiet, .quiet, .quiet, .empty, .pushed 7, .quiet, .quiet, .full, .quiet, .quiet, .popped 7] := by
    exact Option.some.inj (ht.symm.trans (by decide))
  subst hevs
  exact ⟨_, q, hnew, ht, hs⟩

end SpscQueue

end Pricetime
