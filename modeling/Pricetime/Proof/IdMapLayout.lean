import Pricetime.Proof.IdMap

/-!
# Deletion leaves no trace

`layout c L` is the table of `c` slots in which the keys of `L` have been
inserted in order. A probe passes older keys only, so that the order of
insertion determines every slot, and closing a hole keeps that order: erasing a
key leaves the layout of the list without it (`erase_layout`).
-/

namespace Pricetime

namespace OpenAddressMap

open Probing (Holds Ranked count)

variable {V : Type} {hash : OrderId → UInt64}

section Defs

variable (hash : OrderId → UInt64)

/-- `insert` in a table that does not grow. -/
def put (m : OpenAddressMap V) (id : OrderId) (value : V) : Option (Bool × OpenAddressMap V) := do
  let i ← probe m.slots m.mask id m.cap ((hash id).toNat &&& m.mask)
  if (m.slots i).key = kEmpty then
    some (true, { m with slots := Function.update m.slots i ⟨id, some value⟩, size := m.size + 1 })
  else some (false, m)

theorem insert_eq (m : OpenAddressMap V) (id : OrderId) (value : V) :
    insert hash m id value = (grow hash m).bind fun m => put hash m id value := rfl

/-- An empty table of `c` slots. -/
def empty (c : Nat) : OpenAddressMap V := ⟨fun _ => {}, c, c - 1, 0⟩

/-- The table in which the keys have been inserted in order. -/
def layout (c : Nat) (L : List (OrderId × V)) : Option (OpenAddressMap V) :=
  L.foldlM (fun m e => (put hash m e.1 e.2).map Prod.snd) (empty c)

end Defs

/-- An empty table is as empty after a rehash. -/
theorem rehash_empty (c newCap : Nat) : rehash hash (empty c : OpenAddressMap V) newCap = some (empty newCap) := by
  have hslots : ∀ is : List Nat, is.foldlM (fun slots i => rehashSlot hash newCap slots ((empty c : OpenAddressMap V).slots i))
      (fun _ => {}) = some fun _ => {} := by
    intro is
    induction is with
    | nil => rfl
    | cons i is ih => exact ih
  rw [rehash, hslots]
  rfl

theorem new_eq : new hash = some (empty kInitialCapacity : OpenAddressMap V) := rehash_empty 0 kInitialCapacity

theorem reserve_empty {c w n : Nat} (hw : wantFor n (n + 1) kInitialCapacity = some w) (hc : c < w) :
    reserve hash (empty c : OpenAddressMap V) n = some (empty w) := by
  rw [reserve, hw]
  exact (if_pos hc).trans (rehash_empty c w)

/-- The slot of a key and its value. -/
def slotOf (e : OrderId × V) : Slot V := ⟨e.1, some e.2⟩

/-- `m` has the keys of `L`, inserted in the order of their ranks. -/
structure Laid (hash : OrderId → UInt64) (rank : Slot V → Nat) (c : Nat) (m : OpenAddressMap V)
    (L : List (OrderId × V)) : Prop where
  rep : Rep hash m
  cap : m.cap = c
  size : m.size = L.length
  count : count m.cap (entries m.slots) = L.length
  holds : ∀ s, Holds m.cap (entries m.slots) s ↔ ∃ e ∈ L, s = slotOf e
  ranked : Ranked m.cap (ideal hash m.mask) Slot.key rank (entries m.slots)

variable {rank : Slot V → Nat} {c : Nat} {m : OpenAddressMap V} {L : List (OrderId × V)} {e : OrderId × V}

theorem empty_laid (hc : ∃ k, c = 2 ^ k) : Laid hash rank c (empty c) [] := by
  have hpos : 0 < c := by
    obtain ⟨k, rfl⟩ := hc
    exact Nat.two_pow_pos k
  have hent : entries (V := V) (fun _ => {}) = fun _ => none := by
    funext x
    simp [entries, kEmpty]
  refine ⟨⟨hc, ?_, ?_, ⟨fun _ _ => rfl, fun _ h => absurd rfl h⟩, 0, hpos, ?_⟩, rfl, rfl, ?_, fun s => ?_, ?_⟩
  · show c - 1 + 1 = c
    omega
  · simp only [empty, hent]
    exact ⟨fun _ _ ex => (by cases ex), fun _ ex => (by cases ex)⟩
  · simp only [empty, hent]
  · simp [empty, hent, Probing.count]
  · simp [empty, hent, Holds]
  · simp only [empty, hent]
    exact fun _ _ ex => by cases ex

/-- A key that is in the list, and one that is not. -/
theorem Laid.lookup_isSome (h : Laid hash rank c m L) {id : OrderId} : (lookup m id).isSome ↔ id ∈ L.map Prod.fst := by
  rw [Option.isSome_iff_exists, List.mem_map]
  constructor
  · rintro ⟨v, hv⟩
    obtain ⟨e, he, hs⟩ := (h.holds _).mp ((lookup_eq_some h.rep).mp hv)
    exact ⟨e, he, (congrArg Slot.key hs).symm⟩
  · rintro ⟨e, he, rfl⟩
    exact ⟨e.2, (lookup_eq_some h.rep).mpr ((h.holds _).mpr ⟨e, he, rfl⟩)⟩

theorem Laid.put (h : Laid hash rank c m L) (h0 : e.1 ≠ kEmpty) (hnew : e.1 ∉ L.map Prod.fst)
    (hlast : ∀ x ∈ L, rank (slotOf x) < rank (slotOf e)) (hlen : L.length + 1 < c) :
    ∃ m', OpenAddressMap.put hash m e.1 e.2 = some (true, m') ∧ Laid hash rank c m' (L ++ [e]) := by
  have hnone : lookup m e.1 = none := by
    rw [← Option.not_isSome_iff_eq_none, h.lookup_isSome]
    exact hnew
  obtain ⟨j, hj, hpr, ⟨hk, -⟩ | ⟨-, v, -, hv⟩, hf⟩ := h.rep.probe h0
  · have hcount := h.count
    have hcap := h.cap
    obtain ⟨hrep, hholds, hcount', hranked⟩ := h.rep.fill h0 e.2 hj hk hnone (by omega) hf
    refine ⟨_, ?_, hrep, h.cap, ?_, ?_, fun s => ?_, hranked rank h.ranked fun s hs => ?_⟩
    · simp only [OpenAddressMap.put, hpr, Option.bind_eq_bind, Option.bind_some, hk, if_true]
    · simp [h.size]
    · rw [List.length_append, ← hcount]
      exact hcount'
    · rw [hholds, h.holds]
      constructor
      · rintro (rfl | ⟨x, hx, rfl⟩)
        · exact ⟨e, List.mem_append_right _ List.mem_cons_self, rfl⟩
        · exact ⟨x, List.mem_append_left _ hx, rfl⟩
      · rintro ⟨x, hx, rfl⟩
        rcases List.mem_append.mp hx with hx | hx
        · exact .inr ⟨x, hx, rfl⟩
        · rw [List.mem_singleton.mp hx]
          exact .inl rfl
    · obtain ⟨x, hx, rfl⟩ := (h.holds s).mp hs
      exact hlast x hx
  · cases hnone.symm.trans hv

/-- Keys inserted one by one, each of a greater rank than those before it. -/
theorem Laid.puts : ∀ (more : List (OrderId × V)) {L : List (OrderId × V)} {m : OpenAddressMap V},
    Laid hash rank c m L →
    (∀ e ∈ more, e.1 ≠ kEmpty) → ((L ++ more).map Prod.fst).Nodup →
    (L ++ more).Pairwise (fun x y => rank (slotOf x) < rank (slotOf y)) → (L ++ more).length < c →
    ∃ m', more.foldlM (fun m e => (OpenAddressMap.put hash m e.1 e.2).map Prod.snd) m = some m' ∧
      Laid hash rank c m' (L ++ more)
  | [], L, m, h, _, _, _, _ => ⟨m, rfl, by rwa [List.append_nil]⟩
  | e :: more, L, m, h, h0, hn, hp, hlen => by
    have hsplit : L ++ e :: more = L ++ [e] ++ more := by simp
    have hnew : e.1 ∉ L.map Prod.fst := fun hmem => by
      rw [List.map_append, List.map_cons, List.nodup_middle, ← List.map_append] at hn
      exact (List.nodup_cons.mp hn).1 (List.map_subset _ (List.subset_append_left ..) hmem)
    have hlast : ∀ x ∈ L, rank (slotOf x) < rank (slotOf e) := fun x hx =>
      (List.pairwise_append.mp hp).2.2 x hx e List.mem_cons_self
    have hroom : L.length + 1 < c := by
      rw [List.length_append, List.length_cons] at hlen
      omega
    obtain ⟨m₁, hm₁, h₁⟩ := h.put (h0 e List.mem_cons_self) hnew hlast hroom
    rw [hsplit] at hn hp hlen ⊢
    obtain ⟨m', hm', h'⟩ := puts more h₁ (fun x hx => h0 x (List.mem_cons_of_mem _ hx)) hn hp hlen
    refine ⟨m', ?_, h'⟩
    rw [List.foldlM_cons, hm₁]
    exact hm'

theorem layout_laid (hash : OrderId → UInt64) (rank : Slot V → Nat) (hc : ∃ k, c = 2 ^ k) (h0 : ∀ e ∈ L, e.1 ≠ kEmpty)
    (hn : (L.map Prod.fst).Nodup) (hp : L.Pairwise fun x y => rank (slotOf x) < rank (slotOf y)) (hlen : L.length < c) :
    ∃ m, layout hash c L = some m ∧ Laid hash rank c m L :=
  (empty_laid hc).puts L h0 hn hp hlen

theorem length_filter_ne {id : OrderId} : ∀ {L : List (OrderId × V)}, (L.map Prod.fst).Nodup → id ∈ L.map Prod.fst →
    (L.filter fun e => e.1 ≠ id).length + 1 = L.length
  | e :: L, hn, hid => by
    obtain ⟨hnew, hn⟩ := List.nodup_cons.mp hn
    by_cases he : e.1 = id
    · have hother : L.filter (fun x => x.1 ≠ id) = L := List.filter_eq_self.mpr fun x hx => by
        have hne : x.1 ≠ id := fun hxid => hnew (he ▸ hxid ▸ List.mem_map_of_mem hx)
        simpa using hne
      rw [List.filter_cons_of_neg (by simpa using he), hother, List.length_cons]
    · have hid : id ∈ L.map Prod.fst := (List.mem_cons.mp hid).resolve_left fun e' => he e'.symm
      rw [List.filter_cons_of_pos (by simpa using he), List.length_cons, length_filter_ne hn hid, List.length_cons]

/-- Erasing a key. -/
theorem Laid.erase (h : Laid hash rank c m L) (hn : (L.map Prod.fst).Nodup) {id : OrderId} (h0 : id ≠ kEmpty)
    (hid : id ∈ L.map Prod.fst) : ∃ m', OpenAddressMap.erase hash m id = some (true, m') ∧
      Laid hash rank c m' (L.filter fun e => e.1 ≠ id) := by
  obtain ⟨j, hj, hpr, ⟨-, hl⟩ | ⟨hk, -⟩, -⟩ := h.rep.probe h0
  · have hsome := h.lookup_isSome.mpr hid
    rw [hl] at hsome
    cases hsome
  · obtain ⟨slots, hslots, hrep, hholds, hcount, hranked⟩ := h.rep.eraseAt hj (by rwa [hk])
    have hlen := length_filter_ne hn hid
    have hold := h.count
    have hsize := h.size
    refine ⟨_, ?_, hrep, h.cap, by simp only; omega, by simp only; omega, fun s => ?_, hranked rank h.ranked⟩
    · simp only [OpenAddressMap.erase, hpr, Option.bind_eq_bind, Option.bind_some, hk, if_true, hslots]
    · simp only
      rw [hholds, h.holds, hk]
      constructor
      · rintro ⟨⟨e, he, rfl⟩, hne⟩
        exact ⟨e, List.mem_filter.mpr ⟨he, decide_eq_true hne⟩, rfl⟩
      · rintro ⟨e, he, rfl⟩
        obtain ⟨he, hne⟩ := List.mem_filter.mp he
        exact ⟨⟨e, he, rfl⟩, of_decide_eq_true hne⟩

/-- The keys and their order determine the table. -/
theorem Laid.unique {m' : OpenAddressMap V} {L' : List (OrderId × V)} (h : Laid hash rank c m L)
    (h' : Laid hash rank c m' L') (hL : L = L') {i : Nat} (hi : i < c) : m.slots i = m'.slots i := by
  subst hL
  have hcap : m'.cap = m.cap := h'.cap.trans h.cap.symm
  have hmask : m'.mask = m.mask := by
    have := h.rep.mask
    have := h'.rep.mask
    omega
  have htable := h'.rep.table
  have hranked : Ranked m'.cap (ideal hash m'.mask) Slot.key rank (entries m'.slots) := h'.ranked
  have hholds := h'.holds
  rw [hcap] at htable hranked hholds
  rw [hmask] at htable hranked
  have hent := Ranked.unique h.rep.ideal_lt h.rep.table htable h.ranked hranked
    (fun s => (h.holds s).trans (hholds s).symm) (h.cap ▸ hi)
  by_cases hk : (m.slots i).key = kEmpty
  · rw [entries_eq_none.mpr hk] at hent
    rw [h.rep.clean.empty i hk, h'.rep.clean.empty i (entries_eq_none.mp hent.symm)]
  · rw [entries_eq_some.mpr ⟨rfl, hk⟩] at hent
    exact (entries_eq_some.mp hent.symm).1.symm

/-- Erasing a key leaves, slot for slot, the table of the other keys inserted
in the same order. -/
theorem erase_layout (hash : OrderId → UInt64) (hc : ∃ k, c = 2 ^ k) {L : List (OrderId × V)}
    (hn : (L.map Prod.fst).Nodup) (h0 : ∀ e ∈ L, e.1 ≠ kEmpty) (hlen : L.length < c) {x : OrderId}
    (hx : x ∈ L.map Prod.fst) :
    ∃ m m' m'', layout hash c L = some m ∧ erase hash m x = some (true, m') ∧
      layout hash c (L.filter fun e => e.1 ≠ x) = some m'' ∧ m'.cap = c ∧ m''.cap = c ∧ m'.size = m''.size ∧
      ∀ i < c, m'.slots i = m''.slots i := by
  have hp : L.Pairwise fun x y => (L.map Prod.fst).idxOf (slotOf x).key < (L.map Prod.fst).idxOf (slotOf y).key := by
    rw [List.pairwise_iff_getElem]
    intro i j hi hj hij
    have hat : ∀ k (hk : k < L.length), (L.map Prod.fst).idxOf (slotOf L[k]).key = k := fun k hk => by
      have hk' : k < (L.map Prod.fst).length := by rwa [List.length_map]
      have := List.Nodup.idxOf_getElem hn k hk'
      rwa [List.getElem_map] at this
    rwa [hat i hi, hat j hj]
  have h0x : x ≠ kEmpty := by
    obtain ⟨e, he, rfl⟩ := List.mem_map.mp hx
    exact h0 e he
  have hsub : (L.filter fun e => e.1 ≠ x).Sublist L := List.filter_sublist
  obtain ⟨m, hm, h⟩ := layout_laid hash (fun s => (L.map Prod.fst).idxOf s.key) hc h0 hn hp hlen
  obtain ⟨m', hm', h'⟩ := h.erase hn h0x hx
  obtain ⟨m'', hm'', h''⟩ := layout_laid hash (fun s => (L.map Prod.fst).idxOf s.key) hc
    (fun e he => h0 e (hsub.mem he)) (hn.sublist (hsub.map _)) (hp.sublist hsub)
    (Nat.lt_of_le_of_lt hsub.length_le hlen)
  exact ⟨m, m', m'', hm, hm', hm'', h'.cap, h''.cap, h'.size.trans h''.size.symm, fun i hi => h'.unique h'' rfl hi⟩

/-- Three keys of one ideal slot, the last of the table. -/
theorem erase_layout_wraps : ∃ m m' m'' : OpenAddressMap Nat,
    layout (fun _ => 3) 4 [(1, 10), (2, 20), (3, 30)] = some m ∧ erase (fun _ => 3) m 1 = some (true, m') ∧
    layout (fun _ => 3) 4 [(2, 20), (3, 30)] = some m'' ∧ ∀ i < 4, m'.slots i = m''.slots i := by
  obtain ⟨m, m', m'', hm, hm', hm'', -, -, -, hs⟩ := erase_layout (V := Nat) (c := 4) (fun _ => 3) ⟨2, rfl⟩
    (L := [(1, 10), (2, 20), (3, 30)]) (by decide) (by decide) (by decide) (x := 1) (by decide)
  exact ⟨m, m', m'', hm, hm', hm'', hs⟩

end OpenAddressMap

end Pricetime
