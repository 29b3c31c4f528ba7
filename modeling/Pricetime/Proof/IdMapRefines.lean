import Pricetime.Proof.Framework.Runs
import Pricetime.Proof.IdMap
import Pricetime.Spec.IdMap

/-!
# The open-addressing map refines the finite map

`Stands m f` says that table `m` stands for the finite map `f`. Each operation
keeps it and returns what the finite map's does, so that their traces agree
(`openAddressMap_refines`).
-/

namespace Pricetime.OpenAddressMap

open Spec (FiniteMap)

variable {V : Type} {hash : OrderId → UInt64}

/-- One operation on a table: what it returns, with the size it leaves. -/
def apply (hash : OrderId → UInt64) (m : OpenAddressMap V) : MapOp V →
    Option ((MapReply V × Nat) × OpenAddressMap V)
  | .find id => do
    let v ← find hash m id
    some ((.value v, m.size), m)
  | .insert id v => do
    let (b, m) ← insert hash m id v
    some ((.flag b, m.size), m)
  | .erase id => do
    let (b, m) ← erase hash m id
    some ((.flag b, m.size), m)
  | .reserve n => do
    let m ← reserve hash m n
    some ((.done, m.size), m)

structure Stands (hash : OrderId → UInt64) (m : OpenAddressMap V) (f : FiniteMap V) : Prop where
  ok : Ok hash m
  lookup : ∀ id, lookup m id = f.find id
  size : m.size = f.size

namespace Stands

variable {m : OpenAddressMap V} {f : FiniteMap V}

theorem mem_iff (h : Stands hash m f) (id : OrderId) : (m.lookup id).isSome = decide (id ∈ f) := by
  rw [h.lookup, Bool.eq_iff_iff, decide_eq_true_iff]
  exact Finmap.lookup_isSome

theorem insert_new (h : Stands hash m f) {m' : OpenAddressMap V} (ok : Ok hash m') {id : OrderId} {v : V}
    (hid : id ∉ f) (hl : m'.lookup = Function.update m.lookup id (some v)) (hs : m'.size = m.size + 1) :
    Stands hash m' (Finmap.insert id v f) where
  ok := ok
  lookup k := by
    rw [hl, FiniteMap.find]
    by_cases hk : k = id
    · rw [hk, Function.update_self, Finmap.lookup_insert]
    · rw [Function.update_of_ne hk, Finmap.lookup_insert_of_ne _ hk, h.lookup, FiniteMap.find]
  size := by
    have hkeys : (Finmap.insert id v f).keys = Insert.insert id f.keys := by
      ext k
      rw [Finmap.mem_keys, Finmap.mem_insert, Finset.mem_insert, Finmap.mem_keys]
    rw [hs, h.size, FiniteMap.size, FiniteMap.size, hkeys,
      Finset.card_insert_of_notMem (by rwa [Finmap.mem_keys])]

theorem erase (h : Stands hash m f) {m' : OpenAddressMap V} (ok : Ok hash m') {id : OrderId}
    (hl : m'.lookup = Function.update m.lookup id none)
    (hs : m'.size + (if (m.lookup id).isSome then 1 else 0) = m.size) :
    Stands hash m' (Finmap.erase id f) where
  ok := ok
  lookup k := by
    rw [hl, FiniteMap.find]
    by_cases hk : k = id
    · rw [hk, Function.update_self, Finmap.lookup_erase]
    · rw [Function.update_of_ne hk, Finmap.lookup_erase_ne hk, h.lookup, FiniteMap.find]
  size := by
    rw [h.mem_iff, h.size, FiniteMap.size] at hs
    rw [FiniteMap.size, Finmap.keys_erase, Finset.card_erase_eq_ite]
    by_cases hid : id ∈ f
    · have := Finset.card_pos.mpr ⟨id, Finmap.mem_keys.mpr hid⟩
      simp only [hid, decide_true, if_true] at hs
      rw [if_pos (Finmap.mem_keys.mpr hid)]
      omega
    · simp only [hid, decide_false, Bool.false_eq_true, if_false] at hs
      rw [if_neg (by rwa [Finmap.mem_keys])]
      omega

/-- The step lemma of the refinement. -/
theorem apply (h : Stands hash m f) {op : MapOp V} (hop : op.Admissible) :
    ∃ m', m.apply hash op = some ((f.apply op).1, m') ∧ Stands hash m' (f.apply op).2 := by
  cases op with
  | find id =>
    refine ⟨m, ?_, h⟩
    simp only [OpenAddressMap.apply, find_eq h.ok, FiniteMap.apply, h.lookup, h.size,
      Option.bind_eq_bind, Option.bind_some]
  | insert id v =>
    obtain ⟨m', hm', ok, hcase⟩ := insert_spec h.ok hop v
    have hmem := h.mem_iff id
    rcases hcase with ⟨hn, hl, hs⟩ | ⟨hn, hl, hs⟩
    · rw [hn] at hmem
      have hid : id ∉ f := of_decide_eq_false hmem.symm
      have h' := h.insert_new ok hid hl hs
      refine ⟨m', ?_, ?_⟩
      · simp [OpenAddressMap.apply, hm', FiniteMap.apply, FiniteMap.insert, hn, hid, h'.size]
      · simpa [FiniteMap.apply, FiniteMap.insert, hid] using h'
    · have hsome := Option.isSome_iff_ne_none.mpr hn
      have hid : id ∈ f := of_decide_eq_true (hmem.symm.trans hsome)
      have h' : Stands hash m' f := ⟨ok, by rw [hl]; exact h.lookup, by rw [hs, h.size]⟩
      refine ⟨m', ?_, ?_⟩
      · simp [OpenAddressMap.apply, hm', FiniteMap.apply, FiniteMap.insert, hsome, hid, h'.size]
      · simpa [FiniteMap.apply, FiniteMap.insert, hid] using h'
  | erase id =>
    obtain ⟨m', hm', ok, hl, hs⟩ := erase_spec h.ok hop
    have h' := h.erase ok hl hs
    refine ⟨m', ?_, h'⟩
    simp [OpenAddressMap.apply, hm', FiniteMap.apply, FiniteMap.erase, h.mem_iff, h'.size]
  | reserve n =>
    obtain ⟨m', hm', ok, hl, hs, -⟩ := reserve_spec h.ok n
    have h' : Stands hash m' f := ⟨ok, by rw [hl]; exact h.lookup, by rw [hs, h.size]⟩
    refine ⟨m', ?_, h'⟩
    simp [OpenAddressMap.apply, hm', FiniteMap.apply, h'.size]

end Stands

theorem new_stands (hash : OrderId → UInt64) : ∃ m, new hash = some m ∧ Stands hash m (∅ : FiniteMap V) := by
  obtain ⟨m, hm, ok, hl, hs, -⟩ := new_spec (V := V) hash
  refine ⟨m, hm, ok, fun id => ?_, ?_⟩
  · rw [hl, FiniteMap.find, Finmap.lookup_empty]
  · rw [hs, FiniteMap.size, Finmap.keys_empty, Finset.card_empty]

/-- From the empty table on, every sequence of operations ends, and returns
the flags, values and sizes of the finite map. -/
theorem openAddressMap_refines (hash : OrderId → UInt64) (ops : List (MapOp V))
    (hops : ∀ op ∈ ops, op.Admissible) :
    ∃ m outs, new hash = some m ∧ Runs.trace (apply hash) m ops = some outs ∧
      Runs.trace (fun f op => some (FiniteMap.apply f op)) (∅ : FiniteMap V) ops = some outs := by
  obtain ⟨m, hm, hst⟩ := new_stands (V := V) hash
  have hstep : ∀ (m : OpenAddressMap V) (f : FiniteMap V) (op : MapOp V), Stands hash m f → True →
      op.Admissible → ∃ out m' out' f', apply hash m op = some (out, m') ∧
        some (FiniteMap.apply f op) = some (out', f') ∧ Stands hash m' f' ∧ (True → out = out') := by
    intro m f op h _ hop
    obtain ⟨m', hm', h'⟩ := h.apply hop
    exact ⟨_, m', _, _, hm', rfl, h', fun _ => rfl⟩
  obtain ⟨outs, h₁, h₂⟩ := Runs.trace_sim hstep ops hst hops (Runs.along_true m ops)
  exact ⟨m, outs, hm, h₁, h₂⟩

/-- Three keys with one ideal slot, the middle one erased. -/
theorem openAddressMap_refines_collisions :
    ∃ m outs, new (V := Nat) (fun _ => 7) = some m ∧
      Runs.trace (apply fun _ => 7) m
        [.insert 1 10, .insert 2 20, .insert 3 30, .erase 2, .find 3, .find 0, .reserve 2000] = some outs ∧
      Runs.trace (fun f op => some (FiniteMap.apply f op)) (∅ : FiniteMap Nat)
        [.insert 1 10, .insert 2 20, .insert 3 30, .erase 2, .find 3, .find 0, .reserve 2000] = some outs :=
  openAddressMap_refines (fun _ => 7) _ (by
    intro op hop
    simp only [List.mem_cons, List.not_mem_nil, or_false] at hop
    rcases hop with rfl | rfl | rfl | rfl | rfl | rfl | rfl <;> simp [MapOp.Admissible])

/-- An id of 0 is erased from a table that has only id 5. The probe takes an
empty slot for it: the reply is yes, and 5 is not counted any more, but is
found. -/
theorem openAddressMap_erases_zero :
    ∃ (m : OpenAddressMap Nat) (outs : List (MapReply Nat × Nat)), new Pricetime.hash = some m ∧
      Runs.trace (apply Pricetime.hash) m [.insert 5 10, .erase 0, .find 5] = some outs ∧
      outs = [(.flag true, 1), (.flag true, 0), (.value (some 10), 0)] ∧
      Runs.trace (fun f op => some (FiniteMap.apply f op)) (∅ : FiniteMap Nat) [.insert 5 10, .erase 0, .find 5] =
        some [(.flag true, 1), (.flag false, 1), (.value (some 10), 1)] :=
  ⟨_, _, rfl, by decide +kernel, rfl, by decide +kernel⟩

end Pricetime.OpenAddressMap
