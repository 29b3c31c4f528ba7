import Pricetime.Proof.LaddersAgree
import Pricetime.Proof.ReferenceRefines

/-!
# Every instantiation agrees with the reference book

The two policies of a book are its ladder and its id map. The node-based id
map is a lawful one too. A dense ladder bounds the prices of its book, so that
it is compared with a reference book of the same bounds:

* `matchLoop_boundAs`, `apply_boundAs`: the bounds of a reference book matter
  to the price an operation names, and to nothing else;
* `apply_refused`: a price outside is refused as the abstract book refuses it.

So each book and its reference book answer alike, hold the same and have the
same fingerprint after every operation (`instantiations_agree`).
-/

namespace Pricetime

/-! ## The node-based id map -/

namespace StdIdMap

/-- The book gives no order id 0. -/
def Ok (m : StdIdMap) : Prop := 0 ∉ m.map

def lookup (m : StdIdMap) (id : OrderId) : Option OrderPtr := if id = 0 then none else m.find id

theorem find_eq {m : StdIdMap} (h : Ok m) (id : OrderId) : m.find id = lookup m id := by
  unfold lookup
  split
  · rename_i h0
    rw [h0, find, Finmap.lookup_eq_none.mpr h]
  · rfl

theorem lookup_eq_some {m : StdIdMap} {id : OrderId} {o : OrderPtr} (hl : lookup m id = some o) :
    id ≠ 0 ∧ id ∈ m.map := by
  unfold lookup at hl
  split at hl
  · cases hl
  · rename_i h0
    exact ⟨h0, Finmap.mem_of_lookup_eq_some hl⟩

theorem insert_spec {m : StdIdMap} (h : Ok m) {id : OrderId} (h0 : id ≠ 0) (hl : lookup m id = none)
    (o : OrderPtr) : ∃ m', m.insert id o = (true, m') ∧ Ok m' ∧
      lookup m' = Function.update (lookup m) id (some o) ∧ m'.size = m.size + 1 := by
  have hid : id ∉ m.map := by
    rw [← find_eq h] at hl
    exact Finmap.lookup_eq_none.mp hl
  have hkeys : (m.map.insert id o).keys = Insert.insert id m.map.keys := by
    ext k
    rw [Finmap.mem_keys, Finmap.mem_insert, Finset.mem_insert, Finmap.mem_keys]
  refine ⟨⟨m.map.insert id o⟩, if_neg hid, ?_, ?_, ?_⟩
  · show ¬ 0 ∈ m.map.insert id o
    rw [Finmap.mem_insert]
    exact not_or.mpr ⟨fun e => h0 e.symm, h⟩
  · funext k
    by_cases hk : k = id
    · rw [hk, Function.update_self, lookup, if_neg h0]
      exact Finmap.lookup_insert _
    · rw [Function.update_of_ne hk, lookup, lookup]
      split
      · rfl
      · exact Finmap.lookup_insert_of_ne _ hk
  · rw [size, size, hkeys, Finset.card_insert_of_notMem (by rwa [Finmap.mem_keys])]

theorem erase_spec {m : StdIdMap} (h : Ok m) {id : OrderId} {o : OrderPtr} (hl : lookup m id = some o) :
    ∃ m', m.erase id = (true, m') ∧ Ok m' ∧ lookup m' = Function.update (lookup m) id none ∧
      m'.size + 1 = m.size := by
  obtain ⟨h0, hid⟩ := lookup_eq_some hl
  refine ⟨⟨m.map.erase id⟩, by rw [erase, decide_eq_true hid], ?_, ?_, ?_⟩
  · show ¬ 0 ∈ m.map.erase id
    rw [Finmap.mem_erase]
    exact fun e => h e.2
  · funext k
    by_cases hk : k = id
    · rw [hk, Function.update_self, lookup, if_neg h0]
      exact Finmap.lookup_erase _ _
    · rw [Function.update_of_ne hk, lookup, lookup]
      split
      · rfl
      · exact Finmap.lookup_erase_ne hk
  · rw [size, size, Finmap.keys_erase]
    exact Finset.card_erase_add_one (Finmap.mem_keys.mpr hid)

end StdIdMap

instance : LawfulIdMap StdIdMap where
  Ok := StdIdMap.Ok
  lookup := StdIdMap.lookup
  lookup_zero _ := if_pos rfl
  new_spec := by
    refine ⟨{}, rfl, Finmap.notMem_empty, ?_, ?_⟩
    · funext id
      show (if id = 0 then none else Finmap.lookup id ∅) = none
      rw [Finmap.lookup_empty, ite_self]
    · rfl
  find_eq h id := congrArg some (StdIdMap.find_eq h id)
  insert_spec h _ h0 hl o := by
    obtain ⟨m', hm', h'⟩ := StdIdMap.insert_spec h h0 hl o
    exact ⟨m', congrArg some hm', h'⟩
  erase_spec h _ _ hl := by
    obtain ⟨m', hm', h'⟩ := StdIdMap.erase_spec h hl
    exact ⟨m', congrArg some hm', h'⟩
  reserve_spec {m} h _ := ⟨m, rfl, h, rfl, rfl⟩

/-! ## Bounds -/

namespace ReferenceBook

/-- Book `r` with the bounds of `b`. -/
def boundAs (b r : ReferenceBook) : ReferenceBook := { r with min := b.min, max := b.max, bounded := b.bounded }

/-- A book without its bounds. -/
def unbound (r : ReferenceBook) : ReferenceBook := { r with bounded := false }

@[simp] theorem boundAs_unbound (r : ReferenceBook) : r.boundAs r.unbound = r := rfl

section BoundAs

variable (b r : ReferenceBook)

@[simp] theorem live_boundAs : (b.boundAs r).live = r.live := rfl

@[simp] theorem find_boundAs (id : OrderId) : (b.boundAs r).find id = r.find id := rfl

@[simp] theorem validPrice_boundAs : (b.boundAs r).validPrice = b.validPrice := rfl

@[simp] theorem countAdded_boundAs (qty : Qty) : (b.boundAs r).countAdded qty = b.boundAs (r.countAdded qty) := rfl

@[simp] theorem countCanceled_boundAs (qty : Qty) :
    (b.boundAs r).countCanceled qty = b.boundAs (r.countCanceled qty) := rfl

@[simp] theorem erase_boundAs (id : OrderId) : (b.boundAs r).erase id = b.boundAs (r.erase id) := rfl

@[simp] theorem rest_boundAs (id : OrderId) (side : Side) (price : Price) (qty : Qty) (actor : ParticipantId) :
    (b.boundAs r).rest id side price qty actor = b.boundAs (r.rest id side price qty actor) := rfl

theorem validate_boundAs {price : Price} (hp : b.validPrice price = r.validPrice price) (id : OrderId) (qty : Qty) :
    (b.boundAs r).validate id price qty = r.validate id price qty := by
  rw [validate, validate, validPrice_boundAs, hp, find_boundAs]

/-- The matcher does not look at the bounds. -/
theorem matchLoop_boundAs (aggressor : OrderId) (actor : ParticipantId) (side : Side) (price : Option Price) :
    ∀ (fuel : Nat) (r : ReferenceBook) (qty : Qty),
      matchLoop aggressor actor side price fuel (b.boundAs r) qty =
        (matchLoop aggressor actor side price fuel r qty).map fun m => (b.boundAs m.1, m.2)
  | 0, _, _ => rfl
  | fuel + 1, r, qty => by
    have ih := matchLoop_boundAs aggressor actor side price fuel
    have hbest : (b.boundAs r).bestCounterparty side price = r.bestCounterparty side price := rfl
    by_cases hq : qty = 0
    · subst hq
      rw [matchLoop_done, matchLoop_done]
      rfl
    cases hb : r.bestCounterparty side price with
    | none =>
      rw [matchLoop, matchLoop, if_neg hq, if_neg hq, hbest, hb]
      rfl
    | some found =>
      obtain ⟨i, x⟩ := found
      by_cases hown : r.stpOn actor = true ∧ x.participant = actor
      · have hstp : (b.boundAs r).stp = r.stp := rfl
        rw [matchLoop_own fuel hq hb hown, matchLoop_own fuel hq (hbest.trans hb) hown, hstp]
        cases r.stp with
        | cancelResting => exact ih (r.killed i x) qty
        | none => rfl
        | cancelAggressor => rfl
        | cancelBoth => rfl
      · by_cases hlt : qty < x.qty
        · cases fuel with
          | zero =>
            rw [matchLoop, matchLoop, if_neg hq, if_neg hq, hbest, hb]
            dsimp only
            rw [if_neg hown, if_neg (show ¬ ((b.boundAs r).stpOn actor = true ∧ x.participant = actor) from hown)]
            rfl
          | succ fuel =>
            rw [matchLoop_part fuel hq hb hown hlt, matchLoop_part fuel hq (hbest.trans hb) hown hlt]
            rfl
        · have hnext := ih { r with
            tradedQty := r.tradedQty + x.qty.toUInt64
            live := r.live.eraseIdx i } (qty - x.qty)
          rw [matchLoop_fill fuel hq hb hown hlt, matchLoop_fill fuel hq (hbest.trans hb) hown hlt, Option.map_map]
          show Option.map _ (matchLoop aggressor actor side price fuel (b.boundAs { r with
            tradedQty := r.tradedQty + x.qty.toUInt64
            live := r.live.eraseIdx i }) (qty - x.qty)) = _
          rw [hnext, Option.map_map]
          rfl

theorem matchOrder_boundAs (aggressor : OrderId) (actor : ParticipantId) (side : Side) (price : Option Price)
    (qty : Qty) :
    (b.boundAs r).matchOrder aggressor actor side price qty =
      (r.matchOrder aggressor actor side price qty).map fun m => (b.boundAs m.1, m.2) :=
  matchLoop_boundAs b aggressor actor side price _ r qty

/-- What an operation makes of the matcher's result. -/
theorem bind_boundAs {k : ReferenceBook × Qty × List Execution → Option (Reply × ReferenceBook)}
    (hk : ∀ r left execs, k (b.boundAs r, left, execs) = (k (r, left, execs)).map fun m => (m.1, b.boundAs m.2))
    (aggressor : OrderId) (actor : ParticipantId) (side : Side) (price : Option Price) (qty : Qty) :
    ((b.boundAs r).matchOrder aggressor actor side price qty).bind k =
      ((r.matchOrder aggressor actor side price qty).bind k).map fun m => (m.1, b.boundAs m.2) := by
  rw [matchOrder_boundAs, Option.bind_map, Option.map_bind]
  congr 1
  funext m
  exact hk m.1 m.2.1 m.2.2

theorem addLimitAs_boundAs {price : Price} (hp : b.validPrice price = r.validPrice price) (actor : ParticipantId)
    (id : OrderId) (side : Side) (qty : Qty) :
    (b.boundAs r).addLimitAs actor id side price qty =
      (r.addLimitAs actor id side price qty).map fun m => (m.1, b.boundAs m.2) := by
  rw [addLimitAs, addLimitAs, validate_boundAs b r hp]
  dsimp only
  split
  · rfl
  · refine bind_boundAs b (r.countAdded qty) (fun r left execs => ?_) id actor side (some price) qty
    show some (_, if left > 0 then b.boundAs (r.rest id side price left actor) else b.boundAs r) = _
    rw [← apply_ite (boundAs b)]
    rfl

theorem addIocAs_boundAs {price : Price} (hp : b.validPrice price = r.validPrice price) (actor : ParticipantId)
    (id : OrderId) (side : Side) (qty : Qty) :
    (b.boundAs r).addIocAs actor id side price qty =
      (r.addIocAs actor id side price qty).map fun m => (m.1, b.boundAs m.2) := by
  rw [addIocAs, addIocAs, validate_boundAs b r hp]
  dsimp only
  split
  · rfl
  · exact bind_boundAs b (r.countAdded qty) (fun _ _ _ => rfl) id actor side (some price) qty

theorem addFokAs_boundAs {price : Price} (hp : b.validPrice price = r.validPrice price) (actor : ParticipantId)
    (id : OrderId) (side : Side) (qty : Qty) :
    (b.boundAs r).addFokAs actor id side price qty =
      (r.addFokAs actor id side price qty).map fun m => (m.1, b.boundAs m.2) := by
  have hstp : (b.boundAs r).stp = r.stp := rfl
  have hon : (b.boundAs r).stpOn actor = r.stpOn actor := rfl
  have hcross : (b.boundAs r).crossingInPriorityOrder side (some price) =
    r.crossingInPriorityOrder side (some price) := rfl
  rw [addFokAs, addFokAs, validate_boundAs b r hp, hstp, hon, hcross]
  dsimp only
  split
  · rfl
  split
  · rfl
  · exact bind_boundAs b (r.countAdded qty) (fun _ _ _ => rfl) id actor side (some price) qty

theorem addMarketAs_boundAs (actor : ParticipantId) (id : OrderId) (side : Side) (qty : Qty) :
    (b.boundAs r).addMarketAs actor id side qty =
      (r.addMarketAs actor id side qty).map fun m => (m.1, b.boundAs m.2) := by
  rw [addMarketAs, addMarketAs, find_boundAs]
  split
  · rfl
  split
  · rfl
  split
  · rfl
  · exact bind_boundAs b (r.countAdded qty) (fun _ _ _ => rfl) id actor side none qty

theorem cancel_boundAs (id : OrderId) :
    (b.boundAs r).cancel id = ((r.cancel id).1, b.boundAs (r.cancel id).2) := by
  rw [cancel, cancel, find_boundAs]
  cases r.find id with
  | none => rfl
  | some x => rfl

theorem replace_boundAs {newPrice : Price} (hp : b.validPrice newPrice = r.validPrice newPrice)
    (oldId newId : OrderId) (newQty : Qty) :
    (b.boundAs r).replace oldId newId newPrice newQty =
      (r.replace oldId newId newPrice newQty).map fun m => (m.1, b.boundAs m.2) := by
  rw [replace, replace, find_boundAs, find_boundAs, validPrice_boundAs, hp]
  cases r.find oldId with
  | none => rfl
  | some x =>
    dsimp only
    split
    · rfl
    split
    · rfl
    split
    · rfl
    split
    · rfl
    · exact addLimitAs_boundAs b ((r.countCanceled x.qty).erase oldId) hp x.participant newId x.side newQty

/-- The bounds matter to the price that an operation names only. -/
theorem apply_boundAs {op : EntryOp} (hp : ∀ p, op.toOp.price = some p → b.validPrice p = r.validPrice p) :
    (b.boundAs r).apply op = (r.apply op).map fun m => (m.1, b.boundAs m.2) := by
  cases op with
  | setSelfTradePolicy p => rfl
  | addLimitAs actor id side price qty => exact addLimitAs_boundAs b r (hp price rfl) actor id side qty
  | addIocAs actor id side price qty => exact addIocAs_boundAs b r (hp price rfl) actor id side qty
  | addFokAs actor id side price qty => exact addFokAs_boundAs b r (hp price rfl) actor id side qty
  | addMarketAs actor id side qty => exact addMarketAs_boundAs b r actor id side qty
  | cancel id => exact congrArg some (cancel_boundAs b r id)
  | replace oldId newId newPrice newQty => exact replace_boundAs b r (hp newPrice rfl) oldId newId newQty

end BoundAs

/-! ## A bounded reference book -/

/-- Reference book `r` holds the orders of abstract book `a`, and accepts the
prices in `accepts`. -/
structure Bounds (accepts : Price → Bool) (n : Nat) (r : ReferenceBook) (a : Spec.Book) : Prop where
  rel : r.unbound.Rel n a
  accepts : r.validPrice = accepts

namespace Bounds

variable {accepts : Price → Bool} {n : Nat} {r : ReferenceBook} {a : Spec.Book}

theorem find_isSome (h : Bounds accepts n r a) (id : OrderId) : (a.find id).isSome = (r.find id).isSome :=
  h.rel.find_isSome id

theorem validate (h : Bounds accepts n r a) (id : OrderId) (price : Price) (qty : Qty) :
    r.validate id price qty = a.validate accepts id price qty := by
  rw [ReferenceBook.validate, Spec.Book.validate, h.accepts, h.find_isSome]

/-- An operation with a price outside is refused, for that or for another
reason, by both. -/
theorem apply_refused (h : Bounds accepts n r a) {op : EntryOp} {p : Price} (hp : op.toOp.price = some p)
    (hout : accepts p = false) :
    ∃ reply, r.apply op = some (reply, r) ∧ a.apply accepts op.toOp = (reply, a) := by
  have hbad : ∀ (id : OrderId) (qty : Qty), a.validate accepts id p qty ≠ .ok := fun id qty e => by
    obtain ⟨-, -, hok, -⟩ := Spec.Book.validate_ok e
    rw [hout] at hok
    cases hok
  cases op with
  | setSelfTradePolicy p => cases hp
  | addMarketAs actor id side qty => cases hp
  | cancel id => cases hp
  | addLimitAs actor id side price qty =>
    cases hp
    refine ⟨{ result := a.validate accepts id p qty }, ?_, ?_⟩
    · rw [ReferenceBook.apply, addLimitAs, h.validate]
      exact if_pos (hbad id qty)
    · rw [EntryOp.toOp, Spec.Book.apply, Spec.Book.addLimitAs]
      exact if_pos (hbad id qty)
  | addIocAs actor id side price qty =>
    cases hp
    refine ⟨{ result := a.validate accepts id p qty }, ?_, ?_⟩
    · rw [ReferenceBook.apply, addIocAs, h.validate]
      exact if_pos (hbad id qty)
    · rw [EntryOp.toOp, Spec.Book.apply, Spec.Book.addIocAs]
      exact if_pos (hbad id qty)
  | addFokAs actor id side price qty =>
    cases hp
    refine ⟨{ result := a.validate accepts id p qty }, ?_, ?_⟩
    · rw [ReferenceBook.apply, addFokAs, h.validate]
      exact if_pos (hbad id qty)
    · rw [EntryOp.toOp, Spec.Book.apply, Spec.Book.addFokAs]
      exact if_pos (hbad id qty)
  | replace oldId newId newPrice newQty =>
    cases hp
    have hfind : a.find oldId = (r.find oldId).map RefOrder.place := h.rel.find oldId
    rw [EntryOp.toOp, ReferenceBook.apply, ReferenceBook.replace, Spec.Book.apply, Spec.Book.replace, hfind,
      h.accepts, hout]
    cases r.find oldId with
    | none => exact ⟨_, rfl, rfl⟩
    | some x =>
      simp only [Option.map_some]
      by_cases h0 : newId = 0
      · rw [if_pos h0, if_pos h0]
        exact ⟨_, rfl, rfl⟩
      by_cases hq : newQty = 0
      · rw [if_neg h0, if_neg h0, if_pos hq, if_pos hq]
        exact ⟨_, rfl, rfl⟩
      · rw [if_neg h0, if_neg h0, if_neg hq, if_neg hq]
        exact ⟨_, rfl, rfl⟩

/-- The step lemma. -/
theorem apply (h : Bounds accepts n r a) {op : EntryOp} (hn : n + op.mayRest ≤ 2 ^ 64) :
    ∃ n' r', n' ≤ n + op.mayRest ∧ r.apply op = some ((a.apply accepts op.toOp).1, r') ∧
      Bounds accepts n' r' (a.apply accepts op.toOp).2 := by
  by_cases hin : ∀ p, op.toOp.price = some p → accepts p = true
  · obtain ⟨n', r', hn', hr', h'⟩ := h.rel.apply hn
    have hfree : ∀ p, op.toOp.price = some p → r.validPrice p = r.unbound.validPrice p := fun p hp => by
      rw [h.accepts, hin p hp]
      rfl
    have hstep := apply_boundAs r r.unbound hfree
    rw [boundAs_unbound, hr', ← OrderBook.apply_accepts a hin] at hstep
    rw [← OrderBook.apply_accepts a hin] at h'
    refine ⟨n', r.boundAs r', hn', hstep, ⟨?_, h.accepts⟩⟩
    have hb : (r.boundAs r').unbound = { r' with min := r.min, max := r.max, bounded := false } := rfl
    rw [hb]
    exact ⟨h'.holds, h'.below, h'.next, h'.stp, h'.counters, rfl⟩
  · simp only [not_forall, Bool.not_eq_true] at hin
    obtain ⟨p, hp, hout⟩ := hin
    obtain ⟨reply, hr, ha⟩ := h.apply_refused hp hout
    exact ⟨n, r, Nat.le_add_right _ _, by rw [ha, hr], by rw [ha]; exact h⟩

theorem ofRange (min max : Price) : Bounds (ReferenceBook.ofRange min max).validPrice 0 (.ofRange min max) {} :=
  ⟨⟨Holds.empty, fun _ hq => absurd hq List.not_mem_nil, rfl, rfl, rfl, rfl⟩, rfl⟩

theorem unbounded : Bounds ReferenceBook.unbounded.validPrice 0 .unbounded {} := ⟨Rel.empty, rfl⟩

end Bounds

end ReferenceBook

/-! ## The differential test -/

/-- What is compared after an operation. -/
def ReferenceBook.fingerprint (r : ReferenceBook) : Holdings × Option UInt64 := (r.holdings, some r.stateHash)

namespace OrderBook

variable {L M : Type} [Ladder L] [IdMap M]

/-- What is compared after an operation. -/
def fingerprint (b : OrderBook L M) : Holdings × Option UInt64 := (b.holdings, b.stateHash)

variable [LawfulLadder L] [LawfulIdMap M]

theorem Sim.fingerprint_eq {accepts : Price → Bool} {b : OrderBook L M} {a : Spec.Book} {n : Nat} {r : ReferenceBook}
    (h : Sim accepts b a) (hb : b.Few) (hr : r.Bounds accepts n a) : b.fingerprint = r.fingerprint := by
  have hw := h.within_of_few hb
  have hlevels : ∀ s, r.levels s = a.walk s := hr.rel.holds.levels_eq
  have hhash : r.stateHash = a.stateHash := by
    rw [ReferenceBook.stateHash, hlevels, hlevels]
    rfl
  have hholdings : b.holdings = r.unbound.holdings := h.holdings_eq hw hr.rel
  rw [fingerprint, ReferenceBook.fingerprint, h.stateHash_eq hw, hhash, hholdings]
  rfl

/-- The run lemma: the two machines in lockstep. -/
theorem trace_fingerprints {accepts : Price → Bool} :
    ∀ {ops : List EntryOp} {n : Nat} {b : OrderBook L M} {r : ReferenceBook} {a : Spec.Book},
      Sim accepts b a → r.Bounds accepts n a → n + (ops.map EntryOp.mayRest).sum ≤ 2 ^ 64 →
      Runs.Along apply Few b (ops.map EntryOp.toOp) →
      ∃ outs, Runs.trace (Runs.observed apply fingerprint) b (ops.map EntryOp.toOp) = some outs ∧
        Runs.trace (Runs.observed ReferenceBook.apply ReferenceBook.fingerprint) r ops = some outs
  | [], _, _, _, _, _, _, _, _ => ⟨[], rfl, rfl⟩
  | op :: ops, n, b, r, a, h, hr, hn, hfew => by
    rw [List.map_cons, List.sum_cons] at hn
    obtain ⟨b', hb', h'⟩ := h.apply (h.within_of_few hfew.1) op.toOp
    obtain ⟨n', r', hn', hr', hbounds⟩ := hr.apply (show n + op.mayRest ≤ 2 ^ 64 by omega)
    have hfew' := hfew.2 _ _ hb'
    obtain ⟨outs, ho, hor⟩ := trace_fingerprints h' hbounds (by omega) hfew'
    have hview : b'.fingerprint = r'.fingerprint := h'.fingerprint_eq hfew'.head hbounds
    refine ⟨((a.apply accepts op.toOp).1, b'.fingerprint) :: outs, Runs.trace_cons (Runs.observed_eq hb') ho, ?_⟩
    rw [hview]
    exact Runs.trace_cons (Runs.observed_eq hr') hor

/-- A book over any ladder and any id map, and the reference book with the
ladder's bounds: the same results, executions, holdings and fingerprints after
every operation. -/
theorem instantiations_agree {ladder : L} (hv : Vacant ladder) {r : ReferenceBook}
    (hr : r = .unbounded ∨ ∃ min max, r = .ofRange min max) (hprices : r.validPrice = Ladder.validPrice ladder)
    {b : OrderBook L M} (hb : new ladder = some b) (ops : List EntryOp)
    (hrest : (ops.map EntryOp.mayRest).sum ≤ 2 ^ 64)
    (hfew : Runs.Along apply Few b (ops.map EntryOp.toOp)) :
    ∃ outs, Runs.trace (Runs.observed apply fingerprint) b (ops.map EntryOp.toOp) = some outs ∧
      Runs.trace (Runs.observed ReferenceBook.apply ReferenceBook.fingerprint) r ops = some outs := by
  obtain ⟨b₀, h₀, h⟩ := new_sim (M := M) hv
  cases hb.symm.trans h₀
  have hbounds : r.Bounds (Ladder.validPrice ladder) 0 {} := by
    rw [← hprices]
    rcases hr with rfl | ⟨min, max, rfl⟩
    · exact ReferenceBook.Bounds.unbounded
    · exact ReferenceBook.Bounds.ofRange min max
  exact trace_fingerprints h hbounds (by rwa [Nat.zero_add]) hfew

/-- A sweep, a fill-or-kill order that finds too little, and a price below the
band. -/
def bandOps : List EntryOp :=
  [.addLimitAs 0 1 .ask 1000 10, .addLimitAs 0 2 .ask 1001 4, .addFokAs 0 3 .bid 1001 15,
    .addLimitAs 0 4 .bid 899 1, .addLimitAs 0 5 .bid 1001 12]

/-- A dense ladder with the node-based id map. -/
theorem instantiations_agree_band :
    ∃ (ladder : DenseLadder) (b : OrderBook DenseLadder StdIdMap) (outs : List (Reply × Holdings × Option UInt64)),
      DenseLadder.new 900 1100 = some ladder ∧ new ladder = some b ∧
      Runs.trace (Runs.observed apply fingerprint) b (bandOps.map EntryOp.toOp) = some outs ∧
      Runs.trace (Runs.observed ReferenceBook.apply ReferenceBook.fingerprint) (.ofRange 900 1100) bandOps =
        some outs := by
  have hnew : DenseLadder.new 900 1100 = some { min := 900, max := 1100 } := by decide
  obtain ⟨b, hb, hsim⟩ := new_sim (M := StdIdMap) (DenseLadder.vacant hnew)
  have hfew : Runs.Along apply Few b (bandOps.map EntryOp.toOp) := along_few hsim _ (by decide)
  obtain ⟨outs, h, h'⟩ := instantiations_agree (DenseLadder.vacant hnew) (.inr ⟨900, 1100, rfl⟩) rfl hb bandOps
    (by decide) hfew
  exact ⟨_, b, outs, hnew, hb, h, h'⟩

end OrderBook

end Pricetime
