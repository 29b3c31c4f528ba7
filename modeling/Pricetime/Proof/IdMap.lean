import Pricetime.Impl.IdMap
import Pricetime.Proof.Framework.Probing

/-!
# The open-addressing map is a finite map

`OpenAddressMap.Ok` is the table's invariant, for any hash function: the
occupied slots form a `Probing.Table` under the ideal slots `hash k & mask`,
empty slots are clean, and the load stays below 70%, so that a probe always
meets an empty slot. `lookup` is the finite map a table stands for. Each
operation ends, and is the finite map's (`find_eq`, `insert_spec`,
`erase_spec`, `rehash_spec`, `reserve_spec`, `new_spec`).
-/

namespace Pricetime

namespace OpenAddressMap

open Probing (succ dist count Holds Table Ranked)

variable {V : Type} {hash : OrderId → UInt64}

/-! ## Masked indices -/

theorem and_mask {cap mask : Nat} (hp : ∃ k, cap = 2 ^ k) (hm : mask + 1 = cap) (x : Nat) :
    x &&& mask = x % cap := by
  obtain ⟨k, rfl⟩ := hp
  rw [show mask = 2 ^ k - 1 by omega, Nat.and_two_pow_sub_one_eq_mod]

theorem and_mask_lt {cap mask : Nat} (hp : ∃ k, cap = 2 ^ k) (hm : mask + 1 = cap) (x : Nat) :
    x &&& mask < cap := by
  rw [and_mask hp hm]
  exact Nat.mod_lt _ (by omega)

theorem next_eq_succ {cap mask : Nat} (hp : ∃ k, cap = 2 ^ k) (hm : mask + 1 = cap) {i : Nat}
    (hi : i < cap) : (i + 1) &&& mask = succ cap i := by
  rw [and_mask hp hm, succ]
  split
  · rename_i h; rw [h, Nat.mod_self]
  · exact Nat.mod_eq_of_lt (by omega)

theorem off_eq_dist {cap mask : Nat} (hp : ∃ k, cap = 2 ^ k) (hm : mask + 1 = cap) {i k : Nat}
    (hi : i < cap) (hk : k < cap) : (i + (mask + 1) - k) &&& mask = dist cap k i := by
  rw [and_mask hp hm, hm, Probing.dist]
  split
  · rw [show i + cap - k = i - k + cap by omega, Nat.add_mod_right, Nat.mod_eq_of_lt (by omega)]
  · rw [show i + cap - k = cap - k + i by omega, Nat.mod_eq_of_lt (by omega)]

/-! ## Tables of slots -/

/-- The occupied slots. -/
def entries (slots : Nat → Slot V) (i : Nat) : Option (Slot V) :=
  if (slots i).key = kEmpty then none else some (slots i)

/-- The slot a key's probes start at. -/
abbrev ideal (hash : OrderId → UInt64) (mask : Nat) (k : OrderId) : Nat := (hash k).toNat &&& mask

/-- Empty slots are value-initialised, and occupied ones hold a pointer. -/
structure Clean (slots : Nat → Slot V) : Prop where
  empty : ∀ i, (slots i).key = kEmpty → slots i = {}
  value : ∀ i, (slots i).key ≠ kEmpty → (slots i).value ≠ none

structure Ok (hash : OrderId → UInt64) (m : OpenAddressMap V) : Prop where
  pow : ∃ k, m.cap = 2 ^ k
  mask : m.mask + 1 = m.cap
  table : Table m.cap (ideal hash m.mask) Slot.key (entries m.slots)
  clean : Clean m.slots
  size : m.size = count m.cap (entries m.slots)
  load : m.size * 10 < m.cap * 7

/-- The finite map a table stands for. -/
def lookup (m : OpenAddressMap V) (id : OrderId) : Option V :=
  if id = kEmpty then none
  else ((List.range m.cap).find? fun i => (m.slots i).key = id).bind fun i => (m.slots i).value

theorem entries_eq_none {slots : Nat → Slot V} {i : Nat} :
    entries slots i = none ↔ (slots i).key = kEmpty := by
  unfold entries; split <;> simp_all

theorem entries_eq_some {slots : Nat → Slot V} {i : Nat} {s : Slot V} :
    entries slots i = some s ↔ slots i = s ∧ s.key ≠ kEmpty := by
  unfold entries
  split
  · rename_i h
    exact ⟨nofun, fun ⟨e, hk⟩ => absurd (e ▸ h) hk⟩
  · rename_i h
    exact ⟨fun e => ⟨Option.some.inj e, Option.some.inj e ▸ h⟩, fun ⟨e, _⟩ => congrArg some e⟩

theorem entries_update {slots : Nat → Slot V} {i : Nat} {s : Slot V} (hs : s.key ≠ kEmpty) :
    entries (Function.update slots i s) = Function.update (entries slots) i (some s) := by
  funext j
  by_cases h : j = i
  · subst h; simp [entries, hs]
  · simp [entries, Function.update_of_ne h]

theorem entries_clear {slots : Nat → Slot V} {i : Nat} :
    entries (Function.update slots i {}) = Function.update (entries slots) i none := by
  funext j
  by_cases h : j = i
  · subst h; simp [entries, kEmpty]
  · simp [entries, Function.update_of_ne h]

theorem Clean.update {slots : Nat → Slot V} (h : Clean slots) (i : Nat) {s : Slot V}
    (hs : s.key ≠ kEmpty) (hv : s.value ≠ none) : Clean (Function.update slots i s) where
  empty j hj := by
    by_cases e : j = i
    · subst e; rw [Function.update_self] at hj; exact absurd hj hs
    · rw [Function.update_of_ne e] at hj ⊢; exact h.empty j hj
  value j hj := by
    by_cases e : j = i
    · subst e; rw [Function.update_self]; exact hv
    · rw [Function.update_of_ne e] at hj ⊢; exact h.value j hj

theorem Clean.clear {slots : Nat → Slot V} (h : Clean slots) (i : Nat) :
    Clean (Function.update slots i {}) where
  empty j hj := by
    by_cases e : j = i
    · subst e; exact Function.update_self ..
    · rw [Function.update_of_ne e] at hj ⊢; exact h.empty j hj
  value j hj := by
    by_cases e : j = i
    · subst e; rw [Function.update_self] at hj; exact absurd rfl hj
    · rw [Function.update_of_ne e] at hj ⊢; exact h.value j hj

/-- The same of a table with an empty slot, whatever its load. -/
structure Rep (hash : OrderId → UInt64) (m : OpenAddressMap V) : Prop where
  pow : ∃ k, m.cap = 2 ^ k
  mask : m.mask + 1 = m.cap
  table : Table m.cap (ideal hash m.mask) Slot.key (entries m.slots)
  clean : Clean m.slots
  room : ∃ x < m.cap, entries m.slots x = none

theorem Rep.ideal_lt {m : OpenAddressMap V} (h : Rep hash m) (k : OrderId) : ideal hash m.mask k < m.cap :=
  and_mask_lt h.pow h.mask _

theorem Ok.rep {m : OpenAddressMap V} (h : Ok hash m) : Rep hash m where
  pow := h.pow
  mask := h.mask
  table := h.table
  clean := h.clean
  room := by
    have := h.size
    have := h.load
    exact Probing.exists_empty (by omega)

theorem lookup_eq_some {m : OpenAddressMap V} (h : Rep hash m) {id : OrderId} {v : V} :
    lookup m id = some v ↔ Holds m.cap (entries m.slots) ⟨id, some v⟩ := by
  have key_id : ∀ x, entries m.slots x = some ⟨id, some v⟩ ↔ m.slots x = ⟨id, some v⟩ ∧ id ≠ kEmpty :=
    fun x => entries_eq_some
  unfold lookup
  split
  · rename_i h0
    exact ⟨nofun, fun ⟨x, _, ex⟩ => absurd h0 ((key_id x).mp ex).2⟩
  · rename_i h0
    constructor
    · intro e
      obtain ⟨i, hi, hv⟩ := Option.bind_eq_some_iff.mp e
      have hk := List.find?_some hi
      have hlt := List.mem_range.mp (List.mem_of_find?_eq_some hi)
      rw [decide_eq_true_iff] at hk
      refine ⟨i, hlt, (key_id i).mpr ⟨?_, h0⟩⟩
      rw [← hk, ← hv]
    · rintro ⟨x, hx, ex⟩
      have hsx := ((key_id x).mp ex).1
      cases hf : (List.range m.cap).find? fun i => decide ((m.slots i).key = id) with
      | none =>
        have := List.find?_eq_none.mp hf x (List.mem_range.mpr hx)
        rw [hsx] at this
        simp at this
      | some i =>
        have hk := List.find?_some hf
        have hlt := List.mem_range.mp (List.mem_of_find?_eq_some hf)
        rw [decide_eq_true_iff] at hk
        have hxi : x = i := h.table.inj hx hlt ex
          (entries_eq_some.mpr ⟨rfl, by rw [hk]; exact h0⟩) hk.symm
        rw [← hxi, Option.bind_some, hsx]

@[simp] theorem lookup_kEmpty (m : OpenAddressMap V) : lookup m kEmpty = none := by
  simp [lookup]

/-- An entry of the table, by its key. -/
theorem holds_of_key {m : OpenAddressMap V} (h : Rep hash m) {i : Nat} (hi : i < m.cap)
    (hk : (m.slots i).key ≠ kEmpty) : ∃ v, (m.slots i).value = some v ∧
      lookup m (m.slots i).key = some v := by
  obtain ⟨v, hv⟩ := Option.ne_none_iff_exists'.mp (h.clean.value i hk)
  refine ⟨v, hv, (lookup_eq_some h).mpr ⟨i, hi, entries_eq_some.mpr ⟨?_, hk⟩⟩⟩
  rw [← hv]

/-! ## Probes -/

theorem probe_eq (slots : Nat → Slot V) (mask : Nat) (id : OrderId) :
    ∀ fuel i, probe slots mask id fuel i = Probing.probe (fun i => (i + 1) &&& mask)
      (fun i => decide ((slots i).key = id ∨ (slots i).key = kEmpty)) fuel i
  | 0, _ => rfl
  | fuel + 1, i => by
    simp only [probe, Probing.probe, probe_eq slots mask id fuel, decide_eq_true_eq]

/-- A probe for `id` in a table with an empty slot ends at the first slot that
is empty or has key `id`. -/
theorem probe_spec {cap mask : Nat} (hp : ∃ k, cap = 2 ^ k) (hm : mask + 1 = cap)
    {slots : Nat → Slot V} (id : OrderId) (he : ∃ x < cap, entries slots x = none) {i : Nat}
    (hi : i < cap) :
    ∃ j < cap, probe slots mask id cap i = some j ∧
      ((slots j).key = id ∨ (slots j).key = kEmpty) ∧
      ∀ y < cap, dist cap i y < dist cap i j → (slots y).key ≠ id ∧ (slots y).key ≠ kEmpty := by
  obtain ⟨x, hx, ex⟩ := he
  obtain ⟨j, hj, hpr, hs, hf⟩ := Probing.probe_spec
    (fun i => (i + 1) &&& mask)
    (fun i => decide ((slots i).key = id ∨ (slots i).key = kEmpty))
    (fun i hi => next_eq_succ hp hm hi) hx
    (by rw [decide_eq_true_iff]; exact .inr (entries_eq_none.mp ex)) cap hi (Probing.dist_lt hi hx)
  refine ⟨j, hj, by rw [probe_eq, hpr], by simpa using hs, fun y hy hlt => ?_⟩
  simpa using hf y hy hlt

/-- A probe of a well-formed table, and what the slot it ends at says. -/
theorem Rep.probe {m : OpenAddressMap V} (h : Rep hash m) {id : OrderId} (h0 : id ≠ kEmpty) :
    ∃ j < m.cap, OpenAddressMap.probe m.slots m.mask id m.cap (ideal hash m.mask id) = some j ∧
      (((m.slots j).key = kEmpty ∧ lookup m id = none) ∨
        ((m.slots j).key = id ∧ ∃ v, (m.slots j).value = some v ∧ lookup m id = some v)) ∧
      ∀ y < m.cap, dist m.cap (ideal hash m.mask id) y < dist m.cap (ideal hash m.mask id) j →
        (m.slots y).key ≠ id ∧ (m.slots y).key ≠ kEmpty := by
  obtain ⟨j, hj, hpr, hs, hf⟩ := probe_spec h.pow h.mask id h.room (h.ideal_lt id)
  refine ⟨j, hj, hpr, ?_, hf⟩
  rcases hs with hk | hk
  · right
    obtain ⟨v, hv, hl⟩ := holds_of_key h hj (by rw [hk]; exact h0)
    exact ⟨hk, v, hv, by rw [← hk]; exact hl⟩
  · left
    refine ⟨hk, Option.eq_none_iff_forall_ne_some.mpr fun v hv => ?_⟩
    have hh := (lookup_eq_some h).mp hv
    have := h.table.find h.ideal_lt hh hj (.inl (entries_eq_none.mpr hk)) fun y hy hlt => by
      obtain ⟨h1, h2⟩ := hf y hy hlt
      exact ⟨_, entries_eq_some.mpr ⟨rfl, h2⟩, h1⟩
    rw [entries_eq_none.mpr hk] at this
    cases this

/-! ## The operations -/

theorem find_eq {m : OpenAddressMap V} (h : Ok hash m) (id : OrderId) :
    find hash m id = some (lookup m id) := by
  by_cases h0 : id = kEmpty
  · subst h0
    obtain ⟨j, hj, hpr, hs, -⟩ := probe_spec h.pow h.mask kEmpty h.rep.room (h.rep.ideal_lt kEmpty)
    rw [or_self] at hs
    simp [find, hpr, h.clean.empty j hs]
  · obtain ⟨j, hj, hpr, hs, -⟩ := h.rep.probe h0
    rcases hs with ⟨hk, hl⟩ | ⟨hk, v, hv, hl⟩
    · simp [find, hpr, hk, Ne.symm h0, hl]
    · simp [find, hpr, hk, hv, hl]

/-- What `rehash` has moved of an old table after its first `n` slots. -/
structure Moved (hash : OrderId → UInt64) (newCap n : Nat) (old slots : Nat → Slot V) : Prop where
  table : Table newCap (ideal hash (newCap - 1)) Slot.key (entries slots)
  clean : Clean slots
  count : count newCap (entries slots) = Probing.count n (entries old)
  holds : ∀ s, Holds newCap (entries slots) s ↔ ∃ x < n, entries old x = some s

theorem Moved.step {newCap n cap : Nat} {old slots : Nat → Slot V} (hp : ∃ k, newCap = 2 ^ k)
    (hc : Clean old) (hi : ∀ {x y s s'}, x < cap → y < cap → entries old x = some s →
      entries old y = some s' → s.key = s'.key → x = y)
    (hn : n < cap) (hroom : Probing.count n (entries old) < newCap)
    (h : Moved hash newCap n old slots) :
    ∃ slots', rehashSlot hash newCap slots (old n) = some slots' ∧
      Moved hash newCap (n + 1) old slots' := by
  have hm : newCap - 1 + 1 = newCap := by
    obtain ⟨k, rfl⟩ := hp
    have := Nat.two_pow_pos k
    omega
  by_cases h0 : (old n).key = kEmpty
  · have hno : entries old n = none := entries_eq_none.mpr h0
    refine ⟨slots, by simp [rehashSlot, h0], h.table, h.clean, ?_, fun s => ?_⟩
    · rw [h.count, Probing.count_succ, hno]; rfl
    · rw [h.holds]
      refine ⟨fun ⟨x, hx, ex⟩ => ⟨x, by omega, ex⟩, fun ⟨x, hx, ex⟩ => ⟨x, ?_, ex⟩⟩
      have : x ≠ n := fun e => by rw [e, hno] at ex; cases ex
      omega
  · have hno : entries old n = some (old n) := entries_eq_some.mpr ⟨rfl, h0⟩
    have hid : ideal hash (newCap - 1) (old n).key < newCap := and_mask_lt hp hm _
    obtain ⟨j, hj, hpr, hs, hf⟩ := probe_spec hp hm kEmpty
      (Probing.exists_empty (by rw [h.count]; exact hroom)) hid
    rw [or_self] at hs
    have hej : entries slots j = none := entries_eq_none.mpr hs
    refine ⟨Function.update slots j (old n), by simp [rehashSlot, h0, hpr], ?_, ?_, ?_, fun s => ?_⟩
    · rw [entries_update h0]
      refine h.table.insert hj (fun s hh => ?_) fun y hy hlt => ?_
      · obtain ⟨x, hx, ex⟩ := (h.holds s).mp hh
        intro hk
        have := hi (by omega) hn ex hno hk
        omega
      · exact fun e => (hf y hy hlt).2 (entries_eq_none.mp e)
    · exact h.clean.update j h0 (hc.value n h0)
    · have := Probing.count_update (t := entries slots) j hj (some (old n))
      rw [hej] at this
      rw [entries_update h0, Probing.count_succ, hno, ← h.count]
      simpa using this
    · rw [entries_update h0, Probing.holds_update hj hej, h.holds]
      constructor
      · rintro (rfl | ⟨x, hx, ex⟩)
        · exact ⟨n, by omega, hno⟩
        · exact ⟨x, by omega, ex⟩
      · rintro ⟨x, hx, ex⟩
        by_cases e : x = n
        · subst e
          rw [hno] at ex
          exact .inl (Option.some.inj ex).symm
        · exact .inr ⟨x, by omega, ex⟩

theorem rehash_moved (hash : OrderId → UInt64) {newCap cap : Nat} {old : Nat → Slot V} (hp : ∃ k, newCap = 2 ^ k)
    (hc : Clean old) (hi : ∀ {x y s s'}, x < cap → y < cap → entries old x = some s →
      entries old y = some s' → s.key = s'.key → x = y)
    (hroom : Probing.count cap (entries old) < newCap) : ∀ n ≤ cap,
      ∃ slots, (List.range n).foldlM (fun slots i => rehashSlot hash newCap slots (old i))
        (fun _ => {}) = some slots ∧ Moved hash newCap n old slots
  | 0, _ => by
    refine ⟨_, rfl, ⟨fun _ _ ex => ?_, fun _ ex => ?_⟩, ⟨fun _ _ => rfl, fun _ h => absurd rfl h⟩, ?_, ?_⟩
    · cases ex
    · cases ex
    · simp only [Probing.count, Finset.range_zero, Finset.filter_empty, Finset.card_empty]
      simp [entries, kEmpty]
    · intro s
      refine ⟨?_, fun hx => absurd hx.choose_spec.1 (Nat.not_lt_zero _)⟩
      rintro ⟨_, _, ex⟩
      cases ex
  | n + 1, hn => by
    obtain ⟨slots, hs, hmv⟩ := rehash_moved hash hp hc hi hroom n (by omega)
    obtain ⟨slots', hs', hmv'⟩ := hmv.step hp hc hi (by omega)
      (Nat.lt_of_le_of_lt (Probing.count_mono (by omega) _) hroom)
    refine ⟨slots', ?_, hmv'⟩
    rw [List.range_succ, List.foldlM_append, hs]
    simp [hs']

/-- Moving a table to one of `newCap` slots. -/
theorem rehash_spec {m : OpenAddressMap V} (h : Ok hash m) (newCap : Nat) (hp : ∃ k, newCap = 2 ^ k)
    (hload : m.size * 10 < newCap * 7) :
    ∃ m', rehash hash m newCap = some m' ∧ Ok hash m' ∧ lookup m' = lookup m ∧ m'.size = m.size ∧
      m'.cap = newCap := by
  have hsz := h.size
  obtain ⟨slots, hs, hmv⟩ := rehash_moved hash hp h.clean h.table.inj (by omega) m.cap
    (Nat.le_refl _)
  have hpos : 0 < newCap := by obtain ⟨k, rfl⟩ := hp; exact Nat.two_pow_pos k
  have hok : Ok hash ⟨slots, newCap, newCap - 1, m.size⟩ :=
    ⟨hp, by simp only; omega, hmv.table, hmv.clean, by simp only [hmv.count, hsz], hload⟩
  refine ⟨_, by simp [rehash, hs], hok, ?_, rfl, rfl⟩
  funext id
  refine Option.ext fun v => ?_
  rw [lookup_eq_some hok.rep, lookup_eq_some h.rep, hmv.holds]
  rfl

theorem new_spec (hash : OrderId → UInt64) : ∃ m, new hash = some m ∧ Ok hash (V := V) m ∧ (lookup m = fun _ => none) ∧
    m.size = 0 ∧ m.cap = kInitialCapacity := by
  have ent : entries (V := V) (fun _ => {}) = fun _ => none := by
    funext x; simp [entries, kEmpty]
  have hok : Ok hash (V := V) ⟨fun _ => {}, kInitialCapacity, kInitialCapacity - 1, 0⟩ := by
    refine ⟨⟨10, rfl⟩, rfl, ?_, ⟨fun _ _ => rfl, fun _ h => absurd rfl h⟩, ?_,
      by simp [kInitialCapacity]⟩
    · simp only [ent]
      exact ⟨nofun, nofun⟩
    · simp [ent, count]
  refine ⟨_, rfl, hok, ?_, rfl, rfl⟩
  funext id
  refine Option.eq_none_iff_forall_ne_some.mpr fun v hv => ?_
  obtain ⟨x, -, ex⟩ := (lookup_eq_some hok.rep).mp hv
  simp only [ent] at ex
  cases ex

/-- The table after slot `j`, where a probe for a new `id` ended, is filled. -/
theorem Rep.fill {m : OpenAddressMap V} (h : Rep hash m) {id : OrderId} (h0 : id ≠ kEmpty) (v : V) {j : Nat}
    (hj : j < m.cap) (hk : (m.slots j).key = kEmpty) (hl : lookup m id = none)
    (hroom : count m.cap (entries m.slots) + 1 < m.cap)
    (hf : ∀ y < m.cap, dist m.cap (ideal hash m.mask id) y < dist m.cap (ideal hash m.mask id) j →
      (m.slots y).key ≠ id ∧ (m.slots y).key ≠ kEmpty) :
    Rep hash { m with slots := Function.update m.slots j ⟨id, some v⟩, size := m.size + 1 } ∧
      (∀ s, Holds m.cap (entries (Function.update m.slots j ⟨id, some v⟩)) s ↔
        s = ⟨id, some v⟩ ∨ Holds m.cap (entries m.slots) s) ∧
      count m.cap (entries (Function.update m.slots j ⟨id, some v⟩)) = count m.cap (entries m.slots) + 1 ∧
      ∀ rank, Ranked m.cap (ideal hash m.mask) Slot.key rank (entries m.slots) →
        (∀ s, Holds m.cap (entries m.slots) s → rank s < rank ⟨id, some v⟩) →
        Ranked m.cap (ideal hash m.mask) Slot.key rank (entries (Function.update m.slots j ⟨id, some v⟩)) := by
  have hej : entries m.slots j = none := entries_eq_none.mpr hk
  have he : entries (Function.update m.slots j ⟨id, some v⟩) =
      Function.update (entries m.slots) j (some ⟨id, some v⟩) := entries_update h0
  have hcount := Probing.count_update (t := entries m.slots) j hj (some ⟨id, some v⟩)
  rw [hej] at hcount
  have hc : count m.cap (Function.update (entries m.slots) j (some ⟨id, some v⟩)) = count m.cap (entries m.slots) + 1 := by
    simpa using hcount
  rw [he]
  refine ⟨⟨h.pow, h.mask, ?_, h.clean.update j h0 (by simp), ?_⟩, fun s => Probing.holds_update hj hej, hc,
    fun rank hr hlast => h.table.ranked_insert hr hj hej hlast⟩
  · rw [he]
    refine h.table.insert hj (fun s ⟨x, hx, ex⟩ hks => ?_) fun y hy hlt e => ?_
    · obtain ⟨w, hw, hlw⟩ := holds_of_key h hx (by
        rw [(entries_eq_some.mp ex).1]; exact (entries_eq_some.mp ex).2)
      rw [(entries_eq_some.mp ex).1, show s.key = id from hks, hl] at hlw
      cases hlw
    · exact (hf y hy hlt).2 (entries_eq_none.mp e)
  · exact Probing.exists_empty (by rw [he, hc]; exact hroom)

/-- The finite map after that. -/
theorem Ok.fill {m : OpenAddressMap V} (h : Ok hash m) {id : OrderId} (h0 : id ≠ kEmpty) (v : V)
    {j : Nat} (hj : j < m.cap) (hk : (m.slots j).key = kEmpty) (hl : lookup m id = none)
    (hload : (m.size + 1) * 10 < m.cap * 7)
    (hf : ∀ y < m.cap, dist m.cap (ideal hash m.mask id) y < dist m.cap (ideal hash m.mask id) j →
      (m.slots y).key ≠ id ∧ (m.slots y).key ≠ kEmpty) :
    let m' : OpenAddressMap V :=
      { m with slots := Function.update m.slots j ⟨id, some v⟩, size := m.size + 1 }
    Ok hash m' ∧ lookup m' = Function.update (lookup m) id (some v) := by
  have hsize := h.size
  obtain ⟨hrep, hholds, hcount, -⟩ := h.rep.fill h0 v hj hk hl (by omega) hf
  refine ⟨⟨h.pow, h.mask, hrep.table, hrep.clean, by simp only [hcount, hsize], hload⟩, ?_⟩
  funext k
  refine Option.ext fun w => ?_
  rw [lookup_eq_some hrep]
  simp only [hholds]
  rw [← lookup_eq_some h.rep]
  by_cases hkid : k = id
  · subst hkid
    rw [Function.update_self, hl]
    simp only [Slot.mk.injEq, true_and, Option.some.injEq, reduceCtorEq, or_false]
    exact eq_comm
  · rw [Function.update_of_ne hkid]
    simp [hkid]

theorem grow_spec {m : OpenAddressMap V} (h : Ok hash m) :
    ∃ m', grow hash m = some m' ∧ Ok hash m' ∧ lookup m' = lookup m ∧ m'.size = m.size ∧
      (m.size + 1) * 10 < m'.cap * 7 := by
  unfold grow
  by_cases hg : (m.size + 1) * 10 ≥ m.cap * 7
  · have := h.load
    obtain ⟨m', hm', hok, hl, hs, hc⟩ := rehash_spec h (m.cap * 2)
      (by obtain ⟨k, hk⟩ := h.pow; exact ⟨k + 1, by rw [hk, Nat.pow_succ]⟩)
      (by omega)
    refine ⟨m', by rw [if_pos hg, hm'], hok, hl, hs, ?_⟩
    rcases Nat.eq_zero_or_pos m.size with h0 | h0 <;> omega
  · exact ⟨m, by rw [if_neg hg], h, rfl, rfl, by omega⟩

/-- An insertion: refused if the id is present. -/
theorem insert_spec {m : OpenAddressMap V} (h : Ok hash m) {id : OrderId} (h0 : id ≠ kEmpty) (v : V) :
    ∃ m', insert hash m id v = some ((lookup m id).isNone, m') ∧ Ok hash m' ∧
      ((lookup m id = none ∧ lookup m' = Function.update (lookup m) id (some v) ∧
          m'.size = m.size + 1) ∨
        (lookup m id ≠ none ∧ lookup m' = lookup m ∧ m'.size = m.size)) := by
  obtain ⟨m₁, hm₁, hok, hl, hs, hload⟩ := grow_spec h
  obtain ⟨j, hj, hpr, hstop, hf⟩ := hok.rep.probe h0
  rcases hstop with ⟨hk, hnone⟩ | ⟨hk, w, hv, hsome⟩
  · obtain ⟨hok', hl'⟩ := hok.fill h0 v hj hk hnone (by rw [hs]; exact hload) hf
    rw [hl] at hnone
    refine ⟨_, ?_, hok', .inl ⟨hnone, by rw [hl', hl], by simp only [hs]⟩⟩
    simp [insert, hm₁, hpr, hk, hnone]
  · rw [hl] at hsome
    refine ⟨m₁, ?_, hok, .inr ⟨by rw [hsome]; exact Option.some_ne_none _, hl, hs⟩⟩
    have : (m₁.slots j).key ≠ kEmpty := by rw [hk]; exact h0
    simp [insert, hm₁, hpr, this, hsome]

theorem shiftBack_eq (hash : OrderId → UInt64) {cap mask : Nat} (hp : ∃ k, cap = 2 ^ k) (hm : mask + 1 = cap) :
    ∀ (fuel : Nat) (slots : Nat → Slot V) {i j : Nat}, i < cap → j < cap →
      (shiftBack hash mask fuel slots i j).map entries =
        Probing.shift cap (fun s => ideal hash mask s.key) fuel (entries slots) i j
  | 0, _, _, _, _, _ => rfl
  | fuel + 1, slots, i, j, hi, hj => by
    have hs := Probing.succ_lt hj
    simp only [shiftBack, Probing.shift, next_eq_succ hp hm hj]
    by_cases hk : (slots (succ cap j)).key = kEmpty
    · simp [hk, entries_eq_none.mpr hk]
    · have hid := and_mask_lt hp hm (hash (slots (succ cap j)).key).toNat
      rw [entries_eq_some.mpr ⟨rfl, hk⟩]
      simp only [hk, if_false, off_eq_dist hp hm hi hid, off_eq_dist hp hm hs hid]
      split
      · rw [shiftBack_eq hash hp hm fuel _ hs hs, entries_clear, entries_update hk]
      · exact shiftBack_eq hash hp hm fuel _ hi hs

theorem shiftBack_clean (mask : Nat) : ∀ (fuel : Nat) {slots slots' : Nat → Slot V} {i j : Nat},
    Clean slots → shiftBack hash mask fuel slots i j = some slots' → Clean slots'
  | 0, _, _, _, _, _, e => by cases e
  | fuel + 1, slots, slots', i, j, hc, e => by
    simp only [shiftBack] at e
    split at e
    · cases e; exact hc
    · rename_i hk
      split at e
      · exact shiftBack_clean mask fuel ((hc.update i hk (hc.value _ hk)).clear _) e
      · exact shiftBack_clean mask fuel hc e

/-- Taking out the entry at slot `i` leaves the other entries, in a table that
is still in the order of insertion. -/
theorem Rep.eraseAt {m : OpenAddressMap V} (h : Rep hash m) {i : Nat} (hi : i < m.cap) (hk : (m.slots i).key ≠ kEmpty) :
    ∃ slots, OpenAddressMap.eraseAt hash m i = some { m with slots, size := m.size - 1 } ∧
      Rep hash { m with slots, size := m.size - 1 } ∧
      (∀ s, Holds m.cap (entries slots) s ↔ Holds m.cap (entries m.slots) s ∧ s.key ≠ (m.slots i).key) ∧
      count m.cap (entries slots) + 1 = count m.cap (entries m.slots) ∧
      ∀ rank, Ranked m.cap (ideal hash m.mask) Slot.key rank (entries m.slots) →
        Ranked m.cap (ideal hash m.mask) Slot.key rank (entries slots) := by
  have hei : entries m.slots i = some (m.slots i) := entries_eq_some.mpr ⟨rfl, hk⟩
  obtain ⟨z, hz, ez⟩ := h.room
  have hzi : z ≠ i := fun e => by rw [e, hei] at ez; cases ez
  obtain ⟨t', ht', htab, hholds, hcount, hranked⟩ := Probing.shift_spec h.ideal_lt hz m.cap
    (h.table.hole hi) hi hi (by rw [Function.update_of_ne hzi, ez])
    (by
      rw [Probing.dist_self]
      exact Nat.pos_of_ne_zero fun h0 => hzi (Probing.eq_of_dist_eq_zero hi h0).symm)
    (Nat.le_of_lt (Probing.dist_lt hi hz))
  have hsh := shiftBack_eq hash h.pow h.mask m.cap (Function.update m.slots i {}) hi hi
  rw [entries_clear, ht', Option.map_eq_some_iff] at hsh
  obtain ⟨slots, hslots, rfl⟩ := hsh
  have hc := Probing.count_update (t := entries m.slots) i hi none
  rw [hei] at hc
  simp only [Option.isSome_some, Option.isSome_none, if_true, Bool.false_eq_true, if_false] at hc
  have hle : count m.cap (entries m.slots) ≤ m.cap := Probing.count_le ..
  refine ⟨slots, by simp [OpenAddressMap.eraseAt, hslots],
    ⟨h.pow, h.mask, htab, shiftBack_clean _ _ (h.clean.clear i) hslots, Probing.exists_empty (by simp only; omega)⟩,
    fun s => ?_, by omega, fun rank hr => hranked rank (hr.hole i)⟩
  rw [hholds]
  -- what the table holds once slot `i` is emptied
  constructor
  · rintro ⟨x, hx, ex⟩
    have hxi : x ≠ i := fun e => by rw [e, Function.update_self] at ex; cases ex
    rw [Function.update_of_ne hxi] at ex
    exact ⟨⟨x, hx, ex⟩, fun e => hxi (h.table.inj hx hi ex hei e)⟩
  · rintro ⟨⟨x, hx, ex⟩, hs⟩
    have hxi : x ≠ i := fun e => by
      rw [e, hei] at ex
      exact hs (by rw [← Option.some.inj ex])
    exact ⟨x, hx, by rwa [Function.update_of_ne hxi]⟩

theorem eraseAt_spec {m : OpenAddressMap V} (h : Ok hash m) {i : Nat} (hi : i < m.cap)
    (hk : (m.slots i).key ≠ kEmpty) :
    ∃ m', eraseAt hash m i = some m' ∧ Ok hash m' ∧
      lookup m' = Function.update (lookup m) (m.slots i).key none ∧ m'.size + 1 = m.size ∧
      m'.cap = m.cap := by
  obtain ⟨slots, hslots, hrep, hholds, hcount, -⟩ := h.rep.eraseAt hi hk
  have hsz := h.size
  have hload := h.load
  refine ⟨_, hslots, ⟨h.pow, h.mask, hrep.table, hrep.clean, by simp only; omega, by simp only; omega⟩, ?_,
    by simp only; omega, rfl⟩
  funext k
  refine Option.ext fun w => ?_
  rw [lookup_eq_some hrep]
  simp only [hholds]
  rw [← lookup_eq_some h.rep]
  by_cases hkid : k = (m.slots i).key
  · subst hkid
    simp
  · rw [Function.update_of_ne hkid]
    simp [hkid]

theorem erase_spec {m : OpenAddressMap V} (h : Ok hash m) {id : OrderId} (h0 : id ≠ kEmpty) :
    ∃ m', erase hash m id = some ((lookup m id).isSome, m') ∧ Ok hash m' ∧
      lookup m' = Function.update (lookup m) id none ∧
      m'.size + (if (lookup m id).isSome then 1 else 0) = m.size := by
  obtain ⟨j, hj, hpr, hstop, -⟩ := h.rep.probe h0
  rcases hstop with ⟨hk, hnone⟩ | ⟨hk, w, hv, hsome⟩
  · refine ⟨m, ?_, h, ?_, by simp [hnone]⟩
    · simp [erase, hpr, hk, Ne.symm h0, hnone]
    · rw [← hnone, Function.update_eq_self]
  · obtain ⟨m', hm', hok, hl, hs, -⟩ := eraseAt_spec h hj (by rw [hk]; exact h0)
    rw [hk] at hl
    exact ⟨m', by simp [erase, hpr, hk, hm', hsome], hok, hl, by simp [hsome, hs]⟩

/-- The doubling of `reserve` stops within `n + 1` steps. -/
theorem wantFor_spec (n : Nat) : ∀ (fuel want : Nat), (∃ k, want = 2 ^ k) → 8 ≤ want →
    n * 2 ≤ want + fuel * 2 → 0 < fuel →
    ∃ w, wantFor n fuel want = some w ∧ (∃ k, w = 2 ^ k) ∧ n * 10 ≤ w * 7
  | fuel + 1, want, hp, hw, hf, _ => by
    unfold wantFor
    split
    · refine wantFor_spec n fuel _ ?_ (by omega) (by omega) (by omega)
      obtain ⟨k, rfl⟩ := hp
      exact ⟨k + 1, (Nat.pow_succ ..).symm⟩
    · exact ⟨want, rfl, hp, by omega⟩

theorem reserve_spec {m : OpenAddressMap V} (h : Ok hash m) (n : Nat) :
    ∃ m', reserve hash m n = some m' ∧ Ok hash m' ∧ lookup m' = lookup m ∧ m'.size = m.size ∧
      n * 10 ≤ m'.cap * 7 := by
  obtain ⟨w, hw, hp, hn⟩ := wantFor_spec n (n + 1) kInitialCapacity ⟨10, rfl⟩ (by decide)
    (by omega) (by omega)
  by_cases hc : w > m.cap
  · obtain ⟨m', hm', hok, hl, hs, hcap⟩ := rehash_spec h w hp (by have := h.load; omega)
    exact ⟨m', by simp [reserve, hw, hc, hm'], hok, hl, hs, by rw [hcap]; exact hn⟩
  · exact ⟨m, by simp [reserve, hw, hc], h, rfl, rfl, by omega⟩

end OpenAddressMap

/-! ## Lawful id maps -/

/-- An id map that stands for a finite map `lookup` from ids to nodes in the
states `Ok`. -/
class LawfulIdMap (M : Type) [IdMap M] where
  Ok : M → Prop
  lookup : M → OrderId → Option OrderPtr
  lookup_zero (m : M) : lookup m 0 = none
  new_spec : ∃ m : M, IdMap.new = some m ∧ Ok m ∧ (lookup m = fun _ => none) ∧ IdMap.size m = 0
  find_eq {m : M} (h : Ok m) (id : OrderId) : IdMap.find m id = some (lookup m id)
  insert_spec {m : M} (h : Ok m) {id : OrderId} (h0 : id ≠ 0) (hl : lookup m id = none) (o : OrderPtr) :
    ∃ m', IdMap.insert m id o = some (true, m') ∧ Ok m' ∧
      lookup m' = Function.update (lookup m) id (some o) ∧ IdMap.size m' = IdMap.size m + 1
  erase_spec {m : M} (h : Ok m) {id : OrderId} {o : OrderPtr} (hl : lookup m id = some o) :
    ∃ m', IdMap.erase m id = some (true, m') ∧ Ok m' ∧
      lookup m' = Function.update (lookup m) id none ∧ IdMap.size m' + 1 = IdMap.size m
  reserve_spec {m : M} (h : Ok m) (n : Nat) :
    ∃ m', IdMap.reserve m n = some m' ∧ Ok m' ∧ lookup m' = lookup m ∧ IdMap.size m' = IdMap.size m

instance : LawfulIdMap OpenAddressIdMap where
  Ok := OpenAddressMap.Ok hash
  lookup := OpenAddressMap.lookup
  lookup_zero := OpenAddressMap.lookup_kEmpty
  new_spec := by
    obtain ⟨m, hm, ok, hl, hs, -⟩ := OpenAddressMap.new_spec (V := OrderPtr) hash
    exact ⟨m, hm, ok, hl, hs⟩
  find_eq := OpenAddressMap.find_eq
  insert_spec {m} h {id} h0 hl o := by
    obtain ⟨m', hm, ok, hcase⟩ := OpenAddressMap.insert_spec h h0 o
    rw [hl] at hm
    rcases hcase with ⟨-, hl', hs⟩ | ⟨hne, -, -⟩
    · exact ⟨m', hm, ok, hl', hs⟩
    · exact absurd hl hne
  erase_spec {m} h {id o} hl := by
    have h0 : id ≠ OpenAddressMap.kEmpty := fun e => by
      rw [e, OpenAddressMap.lookup_kEmpty] at hl
      cases hl
    obtain ⟨m', hm, ok, hl', hs⟩ := OpenAddressMap.erase_spec h h0
    rw [hl] at hm hs
    exact ⟨m', hm, ok, hl', hs⟩
  reserve_spec {m} h n := by
    obtain ⟨m', hm, ok, hl, hs, -⟩ := OpenAddressMap.reserve_spec h n
    exact ⟨m', hm, ok, hl, hs⟩

end Pricetime
