import Pricetime.Proof.IdMapLayout
import Pricetime.Proof.IdMapRefines

/-!
# What `reserve` reserves

`reserve n` stops at a capacity `c` with `10 * n ≤ 7 * c`, and `insert` doubles
the table from `10 * (size + 1) ≥ 7 * c` on. The two meet only where
`10 * n = 7 * c`, which no power of two satisfies, so that a table of at most
`n` ids is not rehashed again.
-/

namespace Pricetime

namespace OpenAddressMap

variable {V : Type} {hash : OrderId → UInt64} {m m' : OpenAddressMap V} {n : Nat}

/-- An id that is inserted is absent, and the table is not reserved again. -/
def Recycles (hash : OrderId → UInt64) (m : OpenAddressMap V) : MapOp V → Prop
  | .insert id _ => id ≠ kEmpty ∧ find hash m id = some none
  | .erase id => id ≠ kEmpty
  | .find _ => True
  | .reserve _ => False

/-- The test that `insert` starts with. -/
def Rehashes (m : OpenAddressMap V) : MapOp V → Prop
  | .insert _ _ => (m.size + 1) * 10 ≥ m.cap * 7
  | _ => False

theorem ten_mul_ne {c : Nat} (hc : ∃ e, c = 2 ^ e) (k : Nat) : k * 10 ≠ c * 7 := by
  obtain ⟨e, rfl⟩ := hc
  intro h
  have hdvd : 5 ∣ 2 ^ e * 7 := ⟨k * 2, by omega⟩
  have hpow : 5 ∣ 2 ^ e := Nat.Coprime.dvd_of_dvd_mul_right (by decide) hdvd
  exact absurd (Nat.Prime.dvd_of_dvd_pow Nat.prime_five hpow) (by decide)

/-- There is room for `n` ids. -/
theorem not_full (hc : ∃ e, m.cap = 2 ^ e) (hn : n * 10 ≤ m.cap * 7) (hsize : m.size + 1 ≤ n) :
    ¬ (m.size + 1) * 10 ≥ m.cap * 7 := by
  intro hge
  exact ten_mul_ne hc (m.size + 1) (by omega)

theorem insert_cap {id : OrderId} {v : V} {b : Bool} (hroom : ¬ (m.size + 1) * 10 ≥ m.cap * 7)
    (h : insert hash m id v = some (b, m')) : m'.cap = m.cap := by
  rw [insert, grow, if_neg hroom] at h
  obtain ⟨i, -, h⟩ := Option.bind_eq_some_iff.mp (show (probe m.slots m.mask id m.cap _).bind _ = _ from h)
  split at h
  · cases h
    rfl
  · cases h
    rfl

theorem erase_cap {id : OrderId} {b : Bool} (h : erase hash m id = some (b, m')) : m'.cap = m.cap := by
  obtain ⟨i, -, h⟩ := Option.bind_eq_some_iff.mp h
  split at h
  · obtain ⟨m₁, hm₁, h⟩ := Option.bind_eq_some_iff.mp h
    obtain ⟨slots, -, e⟩ := Option.bind_eq_some_iff.mp hm₁
    cases e
    cases h
    rfl
  · cases h
    rfl

/-- A table of capacity `c`, with room for `n` ids. -/
structure Reserved (hash : OrderId → UInt64) (n c : Nat) (m : OpenAddressMap V) : Prop where
  ok : Ok hash m
  cap : m.cap = c
  room : n * 10 ≤ c * 7

/-- The operations that recycle, up to `n` ids, keep the capacity. -/
theorem Reserved.step {c : Nat} (h : Reserved hash n c m) {op : MapOp V} (hop : Recycles hash m op) :
    ∃ out m', apply hash m op = some (out, m') ∧ (m'.size ≤ n → ¬ Rehashes m op ∧ Reserved hash n c m') := by
  cases op with
  | insert id v =>
    obtain ⟨h0, hfind⟩ := hop
    rw [find_eq h.ok] at hfind
    have habsent := Option.some.inj hfind
    obtain ⟨m', hm', ok, hcase⟩ := insert_spec h.ok h0 v
    refine ⟨_, m', by rw [apply, hm']; rfl, fun hsize => ?_⟩
    rcases hcase with ⟨-, -, hs⟩ | ⟨hne, -, -⟩
    · have hroom := not_full h.ok.pow (h.cap ▸ h.room) (hs ▸ hsize)
      exact ⟨hroom, ok, (insert_cap hroom hm').trans h.cap, h.room⟩
    · exact absurd habsent hne
  | erase id =>
    obtain ⟨m', hm', ok, -, -⟩ := erase_spec h.ok hop
    exact ⟨_, m', by rw [apply, hm']; rfl, fun _ => ⟨not_false, ok, (erase_cap hm').trans h.cap, h.room⟩⟩
  | find id => exact ⟨_, m, by rw [apply, find_eq h.ok]; rfl, fun _ => ⟨not_false, h⟩⟩
  | reserve k => exact absurd hop id

/-- In every reachable table, `reserve n` makes room for `n` ids: as long as
there are no more of them, absent ids are inserted and ids erased without a
rehash. -/
theorem reserve_prevents_rehash (hash : OrderId → UInt64) {m₀ : OpenAddressMap V} (h₀ : new hash = some m₀)
    (before : List (MapOp V)) (hbefore : ∀ op ∈ before, op.Admissible) (n : Nat) :
    ∃ m m', Runs.run (apply hash) m₀ before = some m ∧ reserve hash m n = some m' ∧
      ∀ ops, Runs.Steps (apply hash) (Recycles hash) m' ops → Runs.Along (apply hash) (fun t => t.size ≤ n) m' ops →
        (∃ t, Runs.run (apply hash) m' ops = some t) ∧
        Runs.Along (apply hash) (fun t => t.capacity = m'.capacity) m' ops ∧
        Runs.Steps (apply hash) (fun t op => ¬ Rehashes t op) m' ops := by
  obtain ⟨m₁, hm₁, hst⟩ := new_stands (V := V) hash
  cases h₀.symm.trans hm₁
  obtain ⟨m, hm, ⟨f, hst⟩, -⟩ := Runs.run_inv (I := fun m => ∃ f, Stands hash m f) (P := fun _ => True)
    (fun m op ⟨f, h⟩ _ hop => by
      obtain ⟨m', hm', h'⟩ := h.apply hop
      exact ⟨_, m', hm', _, h'⟩) before ⟨_, hst⟩ hbefore (Runs.along_true _ _)
  obtain ⟨m', hm', hok, -, -, hroom⟩ := reserve_spec hst.ok n
  refine ⟨m, m', hm, hm', fun ops hops hsize => ?_⟩
  have h : Reserved hash n m'.cap m' := ⟨hok, rfl, hroom⟩
  have hstep : ∀ (t : OpenAddressMap V) op, Reserved hash n m'.cap t → Recycles hash t op ∧
      (∀ out t', apply hash t op = some (out, t') → t'.size ≤ n) →
      ¬ Rehashes t op ∧ ∃ out t', apply hash t op = some (out, t') ∧ Reserved hash n m'.cap t' := by
    intro t op ht ⟨hop, hnext⟩
    obtain ⟨out, t', ht', hkeep⟩ := ht.step hop
    obtain ⟨hno, hres⟩ := hkeep (hnext out t' ht')
    exact ⟨hno, out, t', ht', hres⟩
  have hkeeps : ∀ (t : OpenAddressMap V) op out t', Reserved hash n m'.cap t → Recycles hash t op ∧
      (∀ out t', apply hash t op = some (out, t') → t'.size ≤ n) →
      apply hash t op = some (out, t') → Reserved hash n m'.cap t' := by
    intro t op out t' ht hq ht'
    obtain ⟨-, out₁, t₁, ht₁, hres⟩ := hstep t op ht hq
    cases ht'.symm.trans ht₁
    exact hres
  have hsteps := hops.and hsize.next
  obtain ⟨t, ht, -⟩ := Runs.run_of_steps (fun t op ht hq => (hstep t op ht hq).2) ops h hsteps
  exact ⟨⟨t, ht⟩, Runs.along_of_steps (fun t ht => ht.cap) hkeeps ops h hsteps,
    Runs.steps_of_steps (fun t op ht hq => (hstep t op ht hq).1) hkeeps ops h hsteps⟩

/-- Room for 717 ids, one more than 1024 slots have it for, taken, left and taken
again. -/
theorem reserve_prevents_rehash_grows : ∃ m₀ m' t : OpenAddressMap Nat, new (fun _ => 7) = some m₀ ∧
    m₀.capacity = 1024 ∧ reserve (fun _ => 7) m₀ 717 = some m' ∧ m'.capacity = 2048 ∧
    Runs.run (apply fun _ => 7) m' [.insert 1 10, .insert 9 20, .erase 1, .insert 2 30] = some t ∧ t.size = 2 ∧
    Runs.Along (apply fun _ => 7) (fun t => t.capacity = m'.capacity) m'
      [.insert 1 10, .insert 9 20, .erase 1, .insert 2 30] := by
  have hreserve : reserve (fun _ => 7) (empty 1024 : OpenAddressMap Nat) 717 = some (empty 2048) :=
    reserve_empty (by decide) (by decide)
  obtain ⟨m, m', hm, hm', hkeeps⟩ := reserve_prevents_rehash (V := Nat) (fun _ => 7) new_eq []
    (fun op hop => absurd hop List.not_mem_nil) 717
  cases hm
  cases hm'.symm.trans hreserve
  obtain ⟨-, hcap, -⟩ := hkeeps [.insert 1 10, .insert 9 20, .erase 1, .insert 2 30]
    (.cons rfl ⟨by decide, rfl⟩ (.cons rfl ⟨by decide, rfl⟩ (.cons rfl (by decide : (1 : OrderId) ≠ 0)
      (.cons rfl ⟨by decide, rfl⟩ trivial))))
    ((Runs.along_cons rfl).mpr ⟨by decide, (Runs.along_cons rfl).mpr ⟨by decide, (Runs.along_cons rfl).mpr
      ⟨by decide, (Runs.along_cons rfl).mpr ⟨by decide, (by decide : _ ≤ 717)⟩⟩⟩⟩)
  exact ⟨_, _, _, new_eq, rfl, hreserve, rfl, rfl, rfl, hcap⟩

end OpenAddressMap

end Pricetime
