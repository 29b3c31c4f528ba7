import Pricetime.Impl.GenItch
import Pricetime.Proof.Framework.Keyed
import Pricetime.Proof.Standing

/-!
# The generator and the replayer agree

Each message of the generator fits the orders of its own table, and leaves the
table that the message makes of it (`Emits`), so that a replayer of the
session follows the table from message to message. Prices fit their field and
stay on their side of the mid, for up to 17000 symbols.
-/

namespace Pricetime

open Itch (Writer WriterCall Replayer priceField)
open Keyed (Lists)
open Spec (Entry Standing)

/-! ## Numbers drawn -/

theorem toInt_toInt64 {x : UInt64} (h : x.toNat < 2 ^ 63) : x.toInt64.toInt = x.toNat := by
  show BitVec.toInt x.toBitVec = _
  rw [BitVec.toInt_eq_toNat_of_lt]
  · rfl
  · show 2 * x.toNat < 2 ^ 64
    omega

namespace GenItch

theorem draw_spec (g : GenItch) {n : UInt64} (hn : n ≠ 0) :
    ∃ x seed, g.draw n = some (x, { g with seed }) ∧ x < n := by
  refine ⟨(nextRandom g.seed).1 % n, (nextRandom g.seed).2, if_neg hn, ?_⟩
  exact UInt64.mod_lt _ (UInt64.pos_iff_ne_zero.mpr hn)

theorem toInt_offset {x : UInt64} (h : x < 500) :
    0 < (1 + x).toInt64.toInt ∧ (1 + x).toInt64.toInt ≤ 500 := by
  have hx : x.toNat < 500 := h
  have hadd : (1 + x).toNat = 1 + x.toNat := by
    rw [UInt64.toNat_add]
    exact Nat.mod_eq_of_lt (by show 1 + x.toNat < 2 ^ 64; omega)
  rw [toInt_toInt64 (by omega), hadd]
  omega

/-- A lot of a hundred shares, or up to twenty. -/
theorem lots_ne_zero {x : UInt64} (h : x < 20) : (100 * (1 + x)).toUInt32 ≠ 0 := by
  have hx : x.toNat < 20 := h
  intro e
  have hz := congrArg UInt32.toNat e
  rw [UInt64.toNat_toUInt32, UInt64.toNat_mul, UInt64.toNat_add] at hz
  change (100 * ((1 + x.toNat) % 2 ^ 64)) % 2 ^ 64 % 2 ^ 32 = 0 at hz
  omega

/-- Some of an order's shares. -/
theorem part_spec {x : UInt64} {shares : Qty} (h : x < shares.toUInt64) :
    (1 + x).toUInt32 ≠ 0 ∧ (1 + x).toUInt32 ≤ shares := by
  have hx : x.toNat < shares.toNat := by
    have hlt := UInt64.lt_iff_toNat_lt.mp h
    rwa [UInt32.toNat_toUInt64] at hlt
  have hs := shares.toNat_lt
  have hadd : (1 + x).toUInt32.toNat = 1 + x.toNat := by
    rw [UInt64.toNat_toUInt32, UInt64.toNat_add]
    show (1 + x.toNat) % 2 ^ 64 % 2 ^ 32 = 1 + x.toNat
    omega
  constructor
  · intro e
    have hz := congrArg UInt32.toNat e
    rw [hadd] at hz
    change 1 + x.toNat = 0 at hz
    omega
  · rw [UInt32.le_iff_toNat_le, hadd]
    omega

/-! ## Prices -/

/-- The mid of the symbol at an index. -/
theorem mids_spec {symbols : List Symbol} (hlen : symbols.length ≤ 17000) {i : Nat} (hi : i < symbols.length) :
    ∃ mid, (mids symbols)[i]? = some mid ∧ mid.toInt = 500000 + (i + 1) * 250000 := by
  refine ⟨(500000 + (i.toUInt64 + 1) * 250000).toInt64, ?_, ?_⟩
  · rw [mids, List.getElem?_map, List.getElem?_range hi]
    rfl
  · have hi' : i.toUInt64.toNat = i := by
      rw [Nat.toUInt64_eq, UInt64.toNat_ofNat_of_lt']
      show i < 2 ^ 64
      omega
    have hmid : (500000 + (i.toUInt64 + 1) * 250000).toNat = 500000 + (i + 1) * 250000 := by
      rw [UInt64.toNat_add, UInt64.toNat_mul, UInt64.toNat_add, hi']
      show (500000 + (i + 1) % 2 ^ 64 * 250000 % 2 ^ 64) % 2 ^ 64 = _
      omega
    rw [toInt_toInt64 (by omega), hmid]
    push_cast
    ring

/-- The right side of a mid. -/
def beside (mid : Price) (side : Side) (p : Price) : Prop := if side = .bid then p < mid else mid < p

theorem quote_spec {mid offset : Price} (hm : 500 < mid.toInt ∧ mid.toInt + 500 < 2 ^ 32)
    (ho : 0 < offset.toInt ∧ offset.toInt ≤ 500) (side : Side) :
    priceField (quote side mid offset) = quote side mid offset ∧ beside mid side (quote side mid offset) := by
  cases side with
  | bid =>
    have hint : (mid - offset).toInt = mid.toInt - offset.toInt := by
      rw [Int64.toInt_sub, Int.bmod_eq_of_le (by omega) (by omega)]
    refine ⟨Itch.priceField_of_fits ?_ ?_, ?_⟩
    · show 0 ≤ (mid - offset).toInt
      omega
    · show (mid - offset).toInt < 2 ^ 32
      omega
    · show mid - offset < mid
      rw [Int64.lt_iff_toInt_lt]
      omega
  | ask =>
    have hint : (mid + offset).toInt = mid.toInt + offset.toInt := by
      rw [Int64.toInt_add, Int.bmod_eq_of_le (by omega) (by omega)]
    refine ⟨Itch.priceField_of_fits ?_ ?_, ?_⟩
    · show 0 ≤ (mid + offset).toInt
      omega
    · show (mid + offset).toInt < 2 ^ 32
      omega
    · show mid < mid + offset
      rw [Int64.lt_iff_toInt_lt]
      omega

/-- The prices at which a symbol's orders may rest. -/
def within (symbols : List Symbol) (s : Symbol) (side : Side) (p : Price) : Prop :=
  ∃ (i : Nat) (mid : Price), symbols[i]? = some s ∧ (mids symbols)[i]? = some mid ∧ beside mid side p

/-- The bids of a symbol are below its asks. -/
theorem within_lt {symbols : List Symbol} (hn : symbols.Nodup) {s : Symbol} {p q : Price}
    (hp : within symbols s .bid p) (hq : within symbols s .ask q) : p < q := by
  obtain ⟨i, mid, hi, hmid, hlt⟩ := hp
  obtain ⟨j, mid', hj, hmid', hlt'⟩ := hq
  have e : i = j := (List.getElem?_inj (List.getElem?_eq_some_iff.mp hi).1 hn).mp (hi.trans hj.symm)
  subst e
  cases hmid.symm.trans hmid'
  exact Int64.lt_trans hlt hlt'

/-! ## The table -/

/-- The row of an order, as what stands under its reference. -/
def row (symbols : List Symbol) (o : LiveOrder) : OrderId × Entry :=
  (o.ref, ⟨symbols[o.symbolIndex]?.getD {}, o.side, o.shares⟩)

/-- An order of the table, its reference given out before `nextRef`. -/
structure RowOk (symbols : List Symbol) (nextRef : OrderId) (o : LiveOrder) : Prop where
  index : o.symbolIndex < symbols.length
  shares : o.shares ≠ 0
  ref : o.ref < nextRef

/-- The table has the orders that stand. References are no more than the
messages, so that none is given out twice. -/
structure Table (symbols : List Symbol) (g : GenItch) (st : Standing) : Prop where
  lists : Lists (g.live.map (row symbols)) st
  rows : ∀ o ∈ g.live, RowOk symbols g.nextRef o
  next : 0 < g.nextRef ∧ g.nextRef.toNat ≤ g.w.messageCount
  length : g.live.length ≤ g.w.messageCount

namespace Table

variable {symbols : List Symbol} {g g' : GenItch} {st : Standing} {idx : Nat} {o : LiveOrder}

/-- More messages, and more references given out. -/
theorem mono (h : Table symbols g st) (hlive : g'.live = g.live) (href : g.nextRef ≤ g'.nextRef)
    (hnext : g'.nextRef.toNat ≤ g'.w.messageCount) (hcount : g.w.messageCount ≤ g'.w.messageCount) :
    Table symbols g' st where
  lists := by rw [hlive]; exact h.lists
  rows o ho := by
    obtain ⟨hi, hs, hr⟩ := h.rows o (hlive ▸ ho)
    exact ⟨hi, hs, UInt64.lt_of_lt_of_le hr href⟩
  next := ⟨UInt64.lt_of_lt_of_le h.next.1 href, hnext⟩
  length := by rw [hlive]; exact Nat.le_trans h.length hcount

/-- The next message, with the same references given out. -/
theorem write (h : Table symbols g st) (hlive : g'.live = g.live) (href : g'.nextRef = g.nextRef)
    (hcount : g'.w.messageCount = g.w.messageCount + 1) : Table symbols g' st := by
  refine h.mono hlive (by rw [href]; exact UInt64.le_refl _) ?_ (by omega)
  have hnext := h.next.2
  rw [href]
  omega

/-- Nothing stands under a reference not yet given out. -/
theorem fresh (h : Table symbols g st) {ref : OrderId} (href : g.nextRef ≤ ref) : st ref = none := by
  by_contra hne
  obtain ⟨e, he⟩ := Option.ne_none_iff_exists'.mp hne
  obtain ⟨o, ho, e⟩ := List.mem_map.mp ((h.lists.mem ref e).mpr he)
  cases e
  exact absurd (h.rows o ho).ref (UInt64.not_lt.mpr href)

/-- The order at an index stands. -/
theorem stands (h : Table symbols g st) (ho : g.live[idx]? = some o) : st o.ref = some (row symbols o).2 :=
  (h.lists.mem _ _).mp (List.mem_map_of_mem (List.mem_of_getElem? ho))

theorem dropLive (h : Table symbols g st) (ho : g.live[idx]? = some o) :
    ∃ g', g.dropLive idx = some g' ∧ g'.w = g.w ∧ Table symbols g' (Function.update st o.ref none) := by
  obtain ⟨rest, hperm, -, back, hback, hdrop⟩ := Keyed.exists_rest ho
  refine ⟨{ g with live := (g.live.set idx back).dropLast }, by rw [GenItch.dropLive, hback]; rfl, rfl, ?_, ?_, h.next, ?_⟩
  · have hlists := (h.lists.perm (hperm.map (row symbols)).symm).tail
    exact hlists.perm (hdrop.map (row symbols))
  · intro x hx
    exact h.rows x (hperm.mem_iff.mpr (List.mem_cons_of_mem _ (hdrop.mem_iff.mp hx)))
  · have hlen := hperm.length_eq
    rw [List.length_cons] at hlen
    show (g.live.set idx back).dropLast.length ≤ g.w.messageCount
    rw [hdrop.length_eq]
    have := h.length
    omega

theorem setLive (h : Table symbols g st) (ho : g.live[idx]? = some o) {o' : LiveOrder} (hok : RowOk symbols g.nextRef o')
    (hfree : Function.update st o.ref none o'.ref = none) :
    Table symbols (g.setLive idx o')
      (Function.update (Function.update st o.ref none) o'.ref (some (row symbols o').2)) := by
  obtain ⟨rest, hperm, hset, -⟩ := Keyed.exists_rest ho
  refine ⟨?_, ?_, h.next, ?_⟩
  · have hlists := (h.lists.perm (hperm.map (row symbols)).symm).tail.cons hfree (row symbols o').2
    exact hlists.perm ((hset o').map (row symbols))
  · intro x hx
    rcases List.mem_cons.mp ((hset o').mem_iff.mp hx) with rfl | hx
    · exact hok
    · exact h.rows x (hperm.mem_iff.mpr (List.mem_cons_of_mem _ hx))
  · show (g.live.set idx o').length ≤ _
    rw [List.length_set]
    exact h.length

theorem append (h : Table symbols g st) (hok : RowOk symbols g.nextRef o) (hfree : st o.ref = none)
    (hlive : g'.live = g.live ++ [o]) (href : g'.nextRef = g.nextRef) (hcount : g'.w.messageCount = g.w.messageCount)
    (hlen : g.live.length < g.w.messageCount) :
    Table symbols g' (Function.update st o.ref (some (row symbols o).2)) where
  lists := by
    rw [hlive]
    exact (h.lists.cons hfree (row symbols o).2).perm (List.perm_append_comm.map (row symbols))
  rows x hx := by
    rw [href]
    rw [hlive] at hx
    rcases List.mem_append.mp hx with hx | hx
    · exact h.rows x hx
    · cases List.mem_singleton.mp hx
      exact hok
  next := by rw [href, hcount]; exact h.next
  length := by
    rw [hlive, hcount, List.length_append]
    exact hlen

/-- Shares are taken off the order at an index. -/
theorem takeLive (h : Table symbols g st) (ho : g.live[idx]? = some o) (taken : Qty) :
    ∃ g', g.takeLive idx o taken = some g' ∧ g'.w = g.w ∧ Table symbols g' (st.take o.ref taken) := by
  have hst : st o.ref = some ⟨symbols[o.symbolIndex]?.getD {}, o.side, o.shares⟩ := h.stands ho
  rw [GenItch.takeLive, Standing.take, hst, Option.bind_some, Entry.less]
  by_cases hlt : taken < o.shares
  · have hsub : o.shares - taken ≠ 0 := by grind
    rw [if_neg (UInt32.not_le.mpr hlt), if_pos hlt]
    obtain ⟨hi, -, hr⟩ := h.rows o (List.mem_of_getElem? ho)
    have hok : RowOk symbols g.nextRef { o with shares := o.shares - taken } := ⟨hi, hsub, hr⟩
    have ht := h.setLive ho hok (Function.update_self ..)
    rw [Function.update_idem] at ht
    exact ⟨_, rfl, rfl, ht⟩
  · rw [if_pos (UInt32.not_lt.mp hlt), if_neg hlt]
    exact h.dropLive ho

end Table

/-! ## The messages of the loop -/

/-- One message is written that fits the orders of the table, and leaves the
table that it makes of it. -/
def Emits (symbols : List Symbol) (st : Standing) (g g' : GenItch) : Prop :=
  ∃ c : WriterCall, g'.w = g.w.call c ∧ st.Fits (within symbols) c.said ∧ Table symbols g' (st.after c.said)

theorem call_count (w : Writer) (c : WriterCall) : (w.call c).messageCount = w.messageCount + 1 := by
  rw [w.call_eq c]
  rfl

section Steps

variable {symbols : List Symbol} {g : GenItch} {st : Standing} {idx : Nat} {o : LiveOrder}

/-- The number of shares to draw from is not zero. -/
theorem Table.some_shares (h : Table symbols g st) (ho : g.live[idx]? = some o) : o.shares.toUInt64 ≠ 0 := fun e => by
  have hz := congrArg UInt64.toNat e
  rw [UInt32.toNat_toUInt64] at hz
  exact (h.rows o (List.mem_of_getElem? ho)).shares (UInt32.toNat_inj.mp hz)

/-- A new reference. -/
theorem Table.next_ref (h : Table symbols g st) (hroom : g.w.messageCount + 1 < 2 ^ 64) :
    (g.nextRef + 1).toNat = g.nextRef.toNat + 1 ∧ g.nextRef ≠ 0 := by
  have hnext := h.next.2
  constructor
  · rw [UInt64.toNat_add]
    exact Nat.mod_eq_of_lt (by show g.nextRef.toNat + 1 < 2 ^ 64; omega)
  · exact (UInt64.ne_of_lt h.next.1).symm

theorem mid_bounds {i : Nat} (hi : i < 17000) {mid : Price} (hmid : mid.toInt = 500000 + (i + 1) * 250000) :
    500 < mid.toInt ∧ mid.toInt + 500 < 2 ^ 32 := by
  omega

theorem delete_emits (h : Table symbols g st) (ho : g.live[idx]? = some o) :
    ∃ g', g.delete idx o = some g' ∧ Emits symbols st g g' := by
  have hw : Table symbols { g with w := g.w.orderDelete g.ts o.ref } st :=
    h.write rfl rfl (call_count g.w (.orderDelete g.ts o.ref))
  obtain ⟨g', hg, hcall, ht⟩ := hw.dropLive ho
  refine ⟨g', hg, .orderDelete g.ts o.ref, hcall, ?_, ht⟩
  show st o.ref ≠ none
  rw [h.stands ho]
  exact Option.some_ne_none _

theorem partialCancel_emits (h : Table symbols g st) (ho : g.live[idx]? = some o) :
    ∃ g', g.partialCancel idx o = some g' ∧ Emits symbols st g g' := by
  obtain ⟨x, seed, hx, hlt⟩ := g.draw_spec (h.some_shares ho)
  obtain ⟨hne, hle⟩ := part_spec hlt
  rw [partialCancel, hx, Option.bind_eq_bind, Option.bind_some]
  have hw : Table symbols { g with seed, w := g.w.orderCancel g.ts o.ref (1 + x).toUInt32 } st :=
    h.write rfl rfl (call_count g.w (.orderCancel g.ts o.ref (1 + x).toUInt32))
  obtain ⟨g', hg, hcall, ht⟩ := hw.takeLive ho (1 + x).toUInt32
  exact ⟨g', hg, .orderCancel g.ts o.ref (1 + x).toUInt32, hcall, ⟨hne, _, h.stands ho, hle⟩, ht⟩

/-- With its price or without, an execution takes the same shares. -/
theorem executed_emits (h : Table symbols g st) (ho : g.live[idx]? = some o) {fill : Qty}
    (hc : st.Covers o.ref fill) (seed : UInt64) {c : WriterCall} {m : Itch.OrderExecuted} (hsaid : c.said = .executed m)
    (hm : m.reference = o.ref ∧ m.shares = fill) :
    ∃ g', { g with seed, w := g.w.call c, matchNumber := g.matchNumber + 1 }.takeLive idx o fill = some g' ∧
      Emits symbols st g g' := by
  have hw : Table symbols { g with seed, w := g.w.call c, matchNumber := g.matchNumber + 1 } st :=
    h.write rfl rfl (call_count g.w c)
  obtain ⟨g', hg, hcall, ht⟩ := hw.takeLive ho fill
  refine ⟨g', hg, c, hcall, ?_, ?_⟩
  · rw [hsaid, Standing.Fits, hm.1, hm.2]
    exact hc
  · rw [hsaid, Standing.after, hm.1, hm.2]
    exact ht

theorem execution_emits (hlen : symbols.length ≤ 17000) (h : Table symbols g st) (ho : g.live[idx]? = some o) :
    ∃ g', g.execution (mids symbols) idx o = some g' ∧ Emits symbols st g g' := by
  obtain ⟨x, seed, hx, hlt⟩ := g.draw_spec (h.some_shares ho)
  obtain ⟨hne, hle⟩ := part_spec hlt
  have hc : st.Covers o.ref (1 + x).toUInt32 := ⟨hne, _, h.stands ho, hle⟩
  obtain ⟨y, seed', hy, -⟩ := draw_spec { g with seed } (n := 5) (by decide)
  obtain ⟨mid, hmid, -⟩ := mids_spec hlen (h.rows o (List.mem_of_getElem? ho)).index
  rw [execution, hx, Option.bind_eq_bind, Option.bind_some]
  dsimp only
  rw [hy, Option.bind_eq_bind, Option.bind_some]
  dsimp only
  by_cases e : y = 0
  · rw [if_pos e, hmid, Option.bind_eq_bind, Option.bind_some, Option.bind_some]
    exact executed_emits h ho hc seed' (c := .orderExecutedWithPrice g.ts o.ref (1 + x).toUInt32 g.matchNumber true mid)
      rfl ⟨rfl, rfl⟩
  · rw [if_neg e, Option.bind_eq_bind, Option.bind_some]
    exact executed_emits h ho hc seed' (c := .orderExecuted g.ts o.ref (1 + x).toUInt32 g.matchNumber) rfl ⟨rfl, rfl⟩

theorem replace_emits (hlen : symbols.length ≤ 17000) (h : Table symbols g st)
    (hroom : g.w.messageCount + 1 < 2 ^ 64) (ho : g.live[idx]? = some o) :
    ∃ g', g.replace (mids symbols) idx o = some g' ∧ Emits symbols st g g' := by
  obtain ⟨x, seed, hx, hlt⟩ := g.draw_spec (n := 500) (by decide)
  obtain ⟨y, seed', hy, hlt'⟩ := draw_spec { g with seed } (n := 20) (by decide)
  obtain ⟨hindex, -, href⟩ := h.rows o (List.mem_of_getElem? ho)
  obtain ⟨mid, hmid, hint⟩ := mids_spec hlen hindex
  obtain ⟨hsucc, hne⟩ := h.next_ref hroom
  obtain ⟨hfield, hbeside⟩ := quote_spec (mid_bounds (Nat.lt_of_lt_of_le hindex hlen) hint) (toInt_offset hlt) o.side
  rw [replace, hx, Option.bind_eq_bind, Option.bind_some]
  dsimp only
  rw [hy, Option.bind_eq_bind, Option.bind_some]
  dsimp only
  rw [hmid, Option.bind_some]
  let c : WriterCall := .orderReplace g.ts o.ref g.nextRef (100 * (1 + y)).toUInt32 (quote o.side mid (1 + x).toInt64)
  let g₁ : GenItch := { g with seed := seed', nextRef := g.nextRef + 1, w := g.w.call c }
  have hcount : g₁.w.messageCount = g.w.messageCount + 1 := call_count g.w c
  have hnext := h.next.2
  have hle : g.nextRef ≤ g.nextRef + 1 := by
    rw [UInt64.le_iff_toNat_le]
    omega
  have h₁ : Table symbols g₁ st := h.mono rfl hle (by rw [hcount]; show (g.nextRef + 1).toNat ≤ _; omega) (by omega)
  have hfresh : st g.nextRef = none := h.fresh (UInt64.le_refl _)
  have hok : RowOk symbols g₁.nextRef { o with ref := g.nextRef, shares := (100 * (1 + y)).toUInt32 } := by
    refine ⟨hindex, lots_ne_zero hlt', ?_⟩
    show g.nextRef < g.nextRef + 1
    rw [UInt64.lt_iff_toNat_lt]
    omega
  have hfree : Function.update st o.ref none g.nextRef = none := by
    by_cases e : g.nextRef = o.ref
    · rw [e, Function.update_self]
    · rw [Function.update_of_ne e, hfresh]
  have hsaid : c.said = .replace {
      timestamp := Itch.timestampField g.ts, originalReference := o.ref, newReference := g.nextRef
      shares := (100 * (1 + y)).toUInt32, price := priceField (quote o.side mid (1 + x).toInt64) } := rfl
  have hsym : symbols[o.symbolIndex]? = some symbols[o.symbolIndex] := List.getElem?_eq_getElem hindex
  refine ⟨_, rfl, c, rfl, ?_, ?_⟩
  · rw [hsaid, hfield]
    refine ⟨hne, lots_ne_zero hlt', hfresh, _, h.stands ho, o.symbolIndex, mid, ?_, hmid, hbeside⟩
    show _ = some (symbols[o.symbolIndex]?.getD {})
    rw [hsym]
    rfl
  · rw [hsaid, Standing.after, h.stands ho]
    exact h₁.setLive ho hok hfree

theorem trade_emits (hlen : symbols.length ≤ 17000) (h : Table symbols g st) (ho : g.live[idx]? = some o) :
    ∃ g', g.trade symbols (mids symbols) o = some g' ∧ Emits symbols st g g' := by
  have hindex := (h.rows o (List.mem_of_getElem? ho)).index
  obtain ⟨mid, hmid, -⟩ := mids_spec hlen hindex
  rw [trade, List.getElem?_eq_getElem hindex, hmid]
  let c : WriterCall := .tradeNonCross g.ts 0 .bid 100 symbols[o.symbolIndex] mid g.matchNumber
  exact ⟨_, rfl, c, rfl, trivial, h.write rfl rfl (call_count g.w c)⟩

theorem add_emits (hne : symbols ≠ []) (hlen : symbols.length ≤ 17000) (h : Table symbols g st)
    (hroom : g.w.messageCount + 1 < 2 ^ 64) :
    ∃ g', g.add symbols (mids symbols) = some g' ∧ Emits symbols st g g' := by
  have hpos : 0 < symbols.length := List.length_pos_iff.mpr hne
  have hsize : symbols.length.toUInt64.toNat = symbols.length := by
    rw [Nat.toUInt64_eq, UInt64.toNat_ofNat_of_lt']
    show symbols.length < 2 ^ 64
    omega
  have hsize0 : symbols.length.toUInt64 ≠ 0 := fun e => by
    have hz := congrArg UInt64.toNat e
    rw [hsize] at hz
    exact absurd hz hpos.ne'
  obtain ⟨si, seed₁, h₁, hsi⟩ := g.draw_spec hsize0
  obtain ⟨s, seed₂, h₂, -⟩ := draw_spec { g with seed := seed₁ } (n := 2) (by decide)
  obtain ⟨x, seed₃, h₃, hx⟩ := draw_spec { g with seed := seed₂ } (n := 500) (by decide)
  obtain ⟨y, seed₄, h₄, hy⟩ := draw_spec { g with seed := seed₃ } (n := 20) (by decide)
  obtain ⟨z, seed₅, h₅, -⟩ := draw_spec { g with seed := seed₄, nextRef := g.nextRef + 1 } (n := 10) (by decide)
  have hindex : si.toNat < symbols.length := by
    have hlt := UInt64.lt_iff_toNat_lt.mp hsi
    rwa [hsize] at hlt
  obtain ⟨mid, hmid, hint⟩ := mids_spec hlen hindex
  obtain ⟨hsucc, href0⟩ := h.next_ref hroom
  have hsym : symbols[si.toNat]? = some symbols[si.toNat] := List.getElem?_eq_getElem hindex
  rw [add, h₁, Option.bind_eq_bind, Option.bind_some]
  dsimp only
  rw [h₂, Option.bind_eq_bind, Option.bind_some]
  dsimp only
  rw [h₃, Option.bind_eq_bind, Option.bind_some]
  dsimp only
  rw [hmid, Option.bind_some]
  rw [h₄, Option.bind_some]
  dsimp only
  rw [h₅, Option.bind_some]
  dsimp only
  rw [hsym, Option.bind_some]
  generalize (if s = 0 then Side.bid else .ask) = side
  obtain ⟨hfield, hbeside⟩ := quote_spec (mid_bounds (Nat.lt_of_lt_of_le hindex hlen) hint) (toInt_offset hx) side
  let o : LiveOrder := { ref := g.nextRef, shares := (100 * (1 + y)).toUInt32, symbolIndex := si.toNat, side }
  -- with a participant or without, the same order is added
  have told (c : WriterCall) (hsaid : c.said = .add {
      timestamp := Itch.timestampField g.ts, reference := g.nextRef, side, shares := (100 * (1 + y)).toUInt32
      symbol := symbols[si.toNat], price := priceField (quote side mid (1 + x).toInt64) }) :
      Emits symbols st g { g with
        w := g.w.call c, seed := seed₅, live := g.live ++ [o], nextRef := g.nextRef + 1 } := by
    have hcount := call_count g.w c
    have hnext := h.next.2
    have hle : g.nextRef ≤ g.nextRef + 1 := by
      rw [UInt64.le_iff_toNat_le]
      omega
    have hw : Table symbols { g with w := g.w.call c, nextRef := g.nextRef + 1 } st :=
      h.mono rfl hle (by show (g.nextRef + 1).toNat ≤ (g.w.call c).messageCount; omega)
        (by show _ ≤ (g.w.call c).messageCount; omega)
    have hfresh : st g.nextRef = none := h.fresh (UInt64.le_refl _)
    have hok : RowOk symbols (g.nextRef + 1) o := by
      refine ⟨hindex, lots_ne_zero hy, ?_⟩
      show g.nextRef < g.nextRef + 1
      rw [UInt64.lt_iff_toNat_lt]
      omega
    refine ⟨c, rfl, ?_, ?_⟩
    · rw [hsaid, hfield]
      exact ⟨href0, lots_ne_zero hy, ⟨si.toNat, mid, hsym, hmid, hbeside⟩, hfresh⟩
    · have hlength : g.live.length < (g.w.call c).messageCount := by
        have := h.length
        omega
      have ht : Table symbols { g with
          w := g.w.call c, seed := seed₅, live := g.live ++ [o], nextRef := g.nextRef + 1 } _ :=
        hw.append hok hfresh rfl rfl rfl hlength
      rw [hsaid, Standing.after]
      rw [row, hsym] at ht
      exact ht
  by_cases e : z = 0
  · rw [if_pos e]
    exact ⟨_, rfl, told (.addOrderMpid g.ts g.nextRef side (100 * (1 + y)).toUInt32 symbols[si.toNat]
      (quote side mid (1 + x).toInt64) ("NSDQ".toList.map Char.toUInt8)) rfl⟩
  · rw [if_neg e]
    exact ⟨_, rfl, told (.addOrder g.ts g.nextRef side (100 * (1 + y)).toUInt32 symbols[si.toNat]
      (quote side mid (1 + x).toInt64)) rfl⟩

/-- Every message of the loop fits. -/
theorem step_emits (hne : symbols ≠ []) (hlen : symbols.length ≤ 17000) (h : Table symbols g st)
    (hroom : g.w.messageCount + 1 < 2 ^ 64) :
    ∃ g', g.step symbols (mids symbols) = some g' ∧ Emits symbols st g g' := by
  obtain ⟨x, seed, hx, -⟩ := g.draw_spec (n := 50000) (by decide)
  obtain ⟨roll, seed', hroll, -⟩ := draw_spec { g with seed, ts := g.ts + (1000 + x) } (n := 100) (by decide)
  rw [step, hx, Option.bind_eq_bind, Option.bind_some]
  dsimp only
  rw [hroll, Option.bind_eq_bind, Option.bind_some]
  dsimp only
  by_cases hadd : roll < 45 ∨ g.live = []
  · rw [if_pos hadd]
    have hg : Table symbols { g with seed := seed', ts := g.ts + (1000 + x) } st := ⟨h.lists, h.rows, h.next, h.length⟩
    exact add_emits hne hlen hg hroom
  rw [if_neg hadd]
  have hlive : g.live.length.toUInt64.toNat = g.live.length := by
    rw [Nat.toUInt64_eq, UInt64.toNat_ofNat_of_lt']
    have := h.length
    show g.live.length < 2 ^ 64
    omega
  have hlive0 : g.live.length.toUInt64 ≠ 0 := fun e => by
    have hz := congrArg UInt64.toNat e
    rw [hlive] at hz
    exact hadd (.inr (List.length_eq_zero_iff.mp hz))
  obtain ⟨idx, seed₃, hidx, hlt⟩ := draw_spec { g with seed := seed', ts := g.ts + (1000 + x) } hlive0
  have hlt : idx.toNat < g.live.length := by
    have hlt := UInt64.lt_iff_toNat_lt.mp hlt
    rwa [hlive] at hlt
  have ho : g.live[idx.toNat]? = some g.live[idx.toNat] := List.getElem?_eq_getElem hlt
  rw [hidx, Option.bind_some]
  dsimp only
  rw [ho, Option.bind_some]
  have hg : Table symbols { g with seed := seed₃, ts := g.ts + (1000 + x) } st := ⟨h.lists, h.rows, h.next, h.length⟩
  split
  · exact delete_emits hg ho
  split
  · exact partialCancel_emits hg ho
  split
  · exact execution_emits hlen hg ho
  split
  · exact replace_emits hlen hg hroom ho
  · exact trade_emits hlen hg ho

end Steps

end GenItch

end Pricetime
