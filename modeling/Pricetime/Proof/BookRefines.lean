import Pricetime.Proof.Framework.Runs
import Pricetime.Proof.Observe

/-!
# A book refines its abstract book

`Sim.apply`: an operation on a book goes through (no access is out of range,
every loop ends) and answers as the abstract operation does, and the books
stay in simulation. A run of operations does so too (`run_sim`), and so do the
answers and the views along it.
-/

namespace Pricetime

open Spec (PriceLevel)

namespace OrderBook

variable {L M : Type} [Ladder L] [LawfulLadder L] [IdMap M] [LawfulIdMap M]

theorem Within.shrinks {a a' : Spec.Book} (h : Within L a)
    (hs : ∀ s, Spec.Shrinks (a'.levels s) (a.levels s)) : Within L a' :=
  h.mono (fun s => (hs s).length_le) fun s l' hl' => by
    obtain ⟨l, hl, -, hids⟩ := (hs s).mem hl'
    exact ⟨l, hl, by simpa only [List.length_map] using hids.length_le⟩

namespace Sim

variable {accepts : Price → Bool} {b : OrderBook L M} {a : Spec.Book}

theorem setCounters (h : Sim accepts b a) (f : Counters → Counters) :
    Sim accepts { b with counters := f b.counters } { a with counters := f a.counters } := by
  obtain ⟨T, Q, h⟩ := h
  rw [h.counters]
  exact ⟨T, Q, h.setCounters _⟩

theorem setStp (h : Sim accepts b a) (stp : SelfTradePolicy) :
    Sim accepts { b with stp } { a with stp } := by
  obtain ⟨T, Q, h⟩ := h
  exact ⟨T, Q, h.rep.setStp stp, h.full, h.levels, rfl, h.counters, h.accepts⟩

theorem countAdded (h : Sim accepts b a) (qty : Qty) : Sim accepts (b.countAdded qty) (a.countAdded qty) :=
  h.setCounters fun c => c.add qty

theorem countCanceled (h : Sim accepts b a) (qty : Qty) :
    Sim accepts (b.countCanceled qty) (a.countCanceled qty) :=
  h.setCounters fun c => c.cancel qty

theorem find_isSome (h : Sim accepts b a) (id : OrderId) :
    ∃ o, IdMap.find b.orders id = some o ∧ (a.find id).isSome = o.isSome := by
  obtain ⟨T, Q, h⟩ := h
  exact ⟨b.lookup id, h.rep.inv.find_eq id, h.find_isSome id⟩

theorem validate_eq (h : Sim accepts b a) (id : OrderId) (price : Price) (qty : Qty) :
    b.validate id price qty = some (a.validate accepts id price qty) := by
  obtain ⟨o, ho, hsome⟩ := h.find_isSome id
  obtain ⟨T, Q, h⟩ := h
  rw [OrderBook.validate, Spec.Book.validate, h.accepts, hsome, ho]
  split
  · rfl
  · split
    · rfl
    · split
      · rfl
      · cases o <;> rfl

theorem rest (h : Sim accepts b a) (hw : Within L a) {id : OrderId} (h0 : id ≠ 0) (hid : id ∉ a.ids)
    {price : Price} (hp : accepts price = true) (s : Side) (qty : Qty) (actor : ParticipantId) :
    ∃ b', b.rest id s price qty actor = some b' ∧ Sim accepts b' (a.rest s price ⟨id, qty, actor⟩) := by
  obtain ⟨T, Q, h⟩ := h
  refine h.rest hw h0 ?_ hp s qty actor
  have hnone := h.find_eq id
  rw [Spec.Book.find_eq_none_iff.mpr hid] at hnone
  exact Option.map_eq_none_iff.mp hnone.symm

/-! ## Order entry -/

theorem addLimitAs (h : Sim accepts b a) (hw : Within L a) (actor : ParticipantId) (id : OrderId)
    (side : Side) (price : Price) (qty : Qty) :
    ∃ b', b.addLimitAs actor id side price qty =
        some ((a.addLimitAs accepts actor id side price qty).1, b') ∧
      Sim accepts b' (a.addLimitAs accepts actor id side price qty).2 := by
  rw [OrderBook.addLimitAs, h.validate_eq]
  by_cases hv : a.validate accepts id price qty = .ok
  swap
  · refine ⟨b, ?_, ?_⟩
    · simp only [Option.bind_eq_bind, Option.bind_some, Spec.Book.addLimitAs, ne_eq, hv,
        not_false_eq_true, if_true]
    · simp only [Spec.Book.addLimitAs, ne_eq, hv, not_false_eq_true, if_true]
      exact h
  · obtain ⟨h0, -, hp, hnew⟩ := Spec.Book.validate_ok hv
    have hs := Spec.Book.matchOrder_shrinks (a.countAdded qty) id actor side (some price) qty
    obtain ⟨b₁, hb₁, h₁⟩ := (h.countAdded qty).matchOrder (hw.shrinks fun _ => Spec.Shrinks.refl _) id actor
      side (some price) qty
    simp only [Option.bind_eq_bind, Option.bind_some, Spec.Book.addLimitAs, hv, ne_eq,
      not_true_eq_false, if_false, hb₁]
    generalize (a.countAdded qty).matchOrder id actor side (some price) qty = r at hs h₁ hb₁ ⊢
    obtain ⟨a₁, left, execs⟩ := r
    by_cases hleft : left > 0
    · obtain ⟨b₂, hb₂, h₂⟩ := h₁.rest (hw.shrinks hs) h0
        (fun hm => hnew ((Spec.Book.ids_sublist hs).subset hm)) hp side left actor
      simp only [if_pos hleft, hb₂, Option.bind_some]
      exact ⟨b₂, rfl, h₂⟩
    · simp only [if_neg hleft]
      exact ⟨b₁, rfl, h₁⟩

/-- What an order that may not rest does, once it is accepted. -/
theorem takeAs (h : Sim accepts b a) (hw : Within L a) (actor : ParticipantId) (id : OrderId)
    (side : Side) (limit : Option Price) (qty : Qty) :
    ∃ b₁, (b.countAdded qty).matchOrder id actor side limit qty =
        some (b₁, ((a.countAdded qty).matchOrder id actor side limit qty).2) ∧
      Sim accepts (b₁.countCanceled ((a.countAdded qty).matchOrder id actor side limit qty).2.1)
        (((a.countAdded qty).matchOrder id actor side limit qty).1.countCanceled
          ((a.countAdded qty).matchOrder id actor side limit qty).2.1) := by
  obtain ⟨b₁, hb₁, h₁⟩ := (h.countAdded qty).matchOrder (hw.shrinks fun _ => Spec.Shrinks.refl _) id actor
    side limit qty
  exact ⟨b₁, hb₁, h₁.countCanceled _⟩

theorem addIocAs (h : Sim accepts b a) (hw : Within L a) (actor : ParticipantId) (id : OrderId)
    (side : Side) (price : Price) (qty : Qty) :
    ∃ b', b.addIocAs actor id side price qty =
        some ((a.addIocAs accepts actor id side price qty).1, b') ∧
      Sim accepts b' (a.addIocAs accepts actor id side price qty).2 := by
  rw [OrderBook.addIocAs, h.validate_eq, Spec.Book.addIocAs]
  by_cases hv : a.validate accepts id price qty = .ok
  · obtain ⟨b₁, hb₁, h₁⟩ := h.takeAs hw actor id side (some price) qty
    simp only [Option.bind_eq_bind, Option.bind_some, hv, ne_eq, not_true_eq_false, if_false, hb₁]
    exact ⟨_, rfl, h₁⟩
  · simp only [Option.bind_eq_bind, Option.bind_some, ne_eq, hv, not_false_eq_true, if_true]
    exact ⟨b, rfl, h⟩

theorem addFokAs (h : Sim accepts b a) (hw : Within L a) (actor : ParticipantId) (id : OrderId)
    (side : Side) (price : Price) (qty : Qty) :
    ∃ b', b.addFokAs actor id side price qty =
        some ((a.addFokAs accepts actor id side price qty).1, b') ∧
      Sim accepts b' (a.addFokAs accepts actor id side price qty).2 := by
  rw [OrderBook.addFokAs, h.validate_eq, Spec.Book.addFokAs]
  by_cases hv : a.validate accepts id price qty = .ok
  · have hq := (Spec.Book.validate_ok hv).2.1
    obtain ⟨b₁, hb₁, h₁⟩ := h.takeAs hw actor id side (some price) qty
    obtain ⟨T, Q, hby⟩ := h
    obtain ⟨t, ht, hiff⟩ := hby.available_spec hw side (some price) hq actor
    simp only [Option.bind_eq_bind, Option.bind_some, hv, ne_eq, not_true_eq_false, if_false, ht]
    by_cases hlt : t < qty.toUInt64
    · rw [if_pos hlt, if_pos (hiff.mp hlt)]
      exact ⟨b, rfl, T, Q, hby⟩
    · rw [if_neg hlt, if_neg fun e => hlt (hiff.mpr e)]
      simp only [hb₁, Option.bind_some]
      exact ⟨_, rfl, h₁⟩
  · simp only [Option.bind_eq_bind, Option.bind_some, ne_eq, hv, not_false_eq_true, if_true]
    exact ⟨b, rfl, h⟩

theorem addMarketAs (h : Sim accepts b a) (hw : Within L a) (actor : ParticipantId) (id : OrderId)
    (side : Side) (qty : Qty) :
    ∃ b', b.addMarketAs actor id side qty = some ((a.addMarketAs actor id side qty).1, b') ∧
      Sim accepts b' (a.addMarketAs actor id side qty).2 := by
  rw [OrderBook.addMarketAs, Spec.Book.addMarketAs]
  split
  · exact ⟨b, rfl, h⟩
  split
  · exact ⟨b, rfl, h⟩
  obtain ⟨o, ho, hsome⟩ := h.find_isSome id
  rw [hsome, ho]
  cases o with
  | some o => exact ⟨b, rfl, h⟩
  | none =>
    obtain ⟨b₁, hb₁, h₁⟩ := h.takeAs hw actor id side none qty
    simp only [Option.bind_eq_bind, Option.bind_some, hb₁, Option.isSome_none, Bool.false_eq_true, if_false]
    exact ⟨_, rfl, h₁⟩

/-! ## Changes of resting orders -/

/-- The node of an order, and where it rests. -/
theorem find_cases (h : Sim accepts b a) (id : OrderId) :
    (IdMap.find b.orders id = some none ∧ a.find id = none) ∨
    ∃ o, IdMap.find b.orders id = some (some o) ∧ b.Mapped o ∧
      a.find id = some ⟨(b.heap.order o).side, (b.heap.order o).price, (b.heap.order o).resting⟩ := by
  obtain ⟨T, Q, h⟩ := h
  have hfind := h.rep.inv.find_eq id
  have hafind := h.find_eq id
  cases hl : b.lookup id with
  | none =>
    rw [hl] at hfind hafind
    exact .inl ⟨hfind, hafind⟩
  | some o =>
    rw [hl] at hfind hafind
    exact .inr ⟨o, hfind, h.rep.inv.mapped hl, hafind⟩

theorem holds_iff (h : Sim accepts b a) {id : OrderId}
    {qty : Qty} : b.Holds id qty ↔ ∃ pl, a.find id = some pl ∧ pl.order.qty = qty := by
  rw [Holds, findOrder]
  rcases h.find_cases id with ⟨hb, ha⟩ | ⟨o, hb, -, ha⟩
  · rw [hb, ha]
    exact ⟨nofun, nofun⟩
  · rw [hb, ha]
    constructor
    · rintro ⟨o', ho', e⟩
      cases ho'
      exact ⟨_, rfl, e⟩
    · rintro ⟨pl, hpl, e⟩
      cases hpl
      exact ⟨o, rfl, e⟩

theorem rests_iff (h : Sim accepts b a) {id : OrderId} :
    b.Rests id ↔ id ∈ a.ids := by
  rw [Rests, findOrder, ← Spec.Book.find_isSome_iff]
  rcases h.find_cases id with ⟨hb, ha⟩ | ⟨o, hb, -, ha⟩
  · rw [hb, ha]
    exact ⟨nofun, nofun⟩
  · rw [hb, ha]
    exact ⟨fun _ => rfl, fun _ => ⟨o, rfl⟩⟩

theorem cancelOpen (h : Sim accepts b a) (hw : Within L a) {o : OrderPtr} (ho : b.Mapped o) :
    ∃ b', b.cancelOpen o = some b' ∧
      Sim accepts b'
        (a.cancelOpen ⟨(b.heap.order o).side, (b.heap.order o).price, (b.heap.order o).resting⟩) := by
  obtain ⟨T, Q, h⟩ := h
  exact h.cancelOpen hw ho

theorem cancel (h : Sim accepts b a) (hw : Within L a) (id : OrderId) :
    ∃ b', b.cancel id = some ((a.cancel id).1, b') ∧ Sim accepts b' (a.cancel id).2 := by
  rw [OrderBook.cancel, Spec.Book.cancel]
  rcases h.find_cases id with ⟨hf, ha⟩ | ⟨o, hf, ho, ha⟩
  · rw [hf, ha]
    exact ⟨b, rfl, h⟩
  · obtain ⟨b₁, hb₁, h₁⟩ := h.cancelOpen hw ho
    rw [hf, ha]
    simp only [Option.bind_eq_bind, Option.bind_some, hb₁]
    exact ⟨b₁, rfl, h₁⟩

theorem replace (h : Sim accepts b a) (hw : Within L a) (oldId newId : OrderId) (newPrice : Price)
    (newQty : Qty) :
    ∃ b', b.replace oldId newId newPrice newQty =
        some ((a.replace accepts oldId newId newPrice newQty).1, b') ∧
      Sim accepts b' (a.replace accepts oldId newId newPrice newQty).2 := by
  rw [OrderBook.replace, Spec.Book.replace]
  have hacc : Ladder.validPrice b.ladder = accepts := by
    obtain ⟨T, Q, h⟩ := h
    exact h.accepts
  rcases h.find_cases oldId with ⟨hf, ha⟩ | ⟨o, hf, ho, ha⟩
  · rw [hf, ha]
    exact ⟨b, rfl, h⟩
  rw [hf, ha]
  simp only [Option.bind_eq_bind, Option.bind_some, hacc]
  split
  · exact ⟨b, rfl, h⟩
  split
  · exact ⟨b, rfl, h⟩
  split
  · exact ⟨b, rfl, h⟩
  obtain ⟨o', ho', hsome⟩ := h.find_isSome newId
  have enter : ∃ b', (b.cancelOpen o).bind (fun b₁ => b₁.addLimitAs (b.heap.order o).participant newId
        (b.heap.order o).side newPrice newQty) =
      some (((a.cancelOpen ⟨(b.heap.order o).side, (b.heap.order o).price, (b.heap.order o).resting⟩).addLimitAs
        accepts (b.heap.order o).participant newId (b.heap.order o).side newPrice newQty).1, b') ∧
      Sim accepts b' ((a.cancelOpen ⟨(b.heap.order o).side, (b.heap.order o).price,
        (b.heap.order o).resting⟩).addLimitAs accepts (b.heap.order o).participant newId
          (b.heap.order o).side newPrice newQty).2 := by
    obtain ⟨b₁, hb₁, h₁⟩ := h.cancelOpen hw ho
    rw [hb₁]
    exact h₁.addLimitAs (hw.shrinks (Spec.Book.cancelOpen_shrinks a _)) ..
  by_cases hne : newId ≠ oldId
  · rw [if_pos hne, hsome, ho', Option.bind_some]
    by_cases hd : o'.isSome = true
    · rw [if_pos hd, if_pos ⟨hne, hd⟩]
      exact ⟨b, rfl, h⟩
    · rw [if_neg hd, if_neg fun e => hd e.2]
      exact enter
  · rw [if_neg hne, if_neg (show ¬ (none : Option OrderPtr).isSome = true from Bool.false_ne_true),
      if_neg fun e => hne e.1]
    exact enter

theorem insertPassive (h : Sim accepts b a) (hw : Within L a) (id : OrderId) (side : Side)
    (price : Price) (qty : Qty) :
    ∃ b', b.insertPassive id side price qty =
        some ((a.insertPassive accepts id side price qty).1, b') ∧
      Sim accepts b' (a.insertPassive accepts id side price qty).2 := by
  rw [OrderBook.insertPassive, h.validate_eq, Spec.Book.insertPassive]
  by_cases hv : a.validate accepts id price qty = .ok
  · obtain ⟨h0, -, hp, hnew⟩ := Spec.Book.validate_ok hv
    obtain ⟨b₁, hb₁, h₁⟩ := (h.countAdded qty).rest (hw.shrinks fun _ => Spec.Shrinks.refl _) h0 hnew hp side
      qty 0
    simp only [Option.bind_eq_bind, Option.bind_some, hv, ne_eq, not_true_eq_false, if_false, hb₁]
    exact ⟨b₁, rfl, h₁⟩
  · simp only [Option.bind_eq_bind, Option.bind_some, ne_eq, hv, not_false_eq_true, if_true]
    exact ⟨b, rfl, h⟩

theorem consume (h : Sim accepts b a) (hw : Within L a) (id : OrderId) (qty : Qty) (isExecution : Bool) :
    ∃ b', b.consume id qty isExecution = some ((a.consume id qty isExecution).1, b') ∧
      Sim accepts b' (a.consume id qty isExecution).2 := by
  obtain ⟨T, Q, h⟩ := h
  exact h.consume hw id qty isExecution

theorem reserveOrders (h : Sim accepts b a) (expected : Nat) :
    ∃ b', b.reserveOrders expected = some b' ∧ Sim accepts b' a := by
  obtain ⟨T, Q, h⟩ := h
  obtain ⟨m, hm, hok, hlookup, hsize⟩ := LawfulIdMap.reserve_spec h.rep.inv.ok expected
  have hlk : ({ b with orders := m } : OrderBook L M).lookup = b.lookup := hlookup
  have hmp : ({ b with orders := m } : OrderBook L M).Mapped = b.Mapped := by
    funext o
    rw [Mapped, hlk]
    rfl
  refine ⟨{ b with orders := m }, Option.bind_eq_some_iff.mpr ⟨m, hm, rfl⟩, T, Q, ?_, h.full, h.levels,
    h.stp, h.counters, h.accepts⟩
  refine ⟨h.rep.inv.congr_lookup hok hlk hsize rfl (fun _ => rfl) rfl, h.rep.tracks, ?_, h.rep.count,
    h.rep.total, h.rep.order, h.rep.placed⟩
  rw [hmp]
  exact h.rep.queue

/-- An operation answers as the abstract one. -/
theorem apply (h : Sim accepts b a) (hw : Within L a) (op : Op) :
    ∃ b', b.apply op = some ((a.apply accepts op).1, b') ∧ Sim accepts b' (a.apply accepts op).2 := by
  cases op with
  | setSelfTradePolicy p => exact ⟨_, rfl, h.setStp p⟩
  | reserveOrders n =>
    obtain ⟨b', hb', h'⟩ := h.reserveOrders n
    exact ⟨b', Option.bind_eq_some_iff.mpr ⟨b', hb', rfl⟩, h'⟩
  | addLimitAs actor id side price qty => exact h.addLimitAs hw ..
  | addIocAs actor id side price qty => exact h.addIocAs hw ..
  | addFokAs actor id side price qty => exact h.addFokAs hw ..
  | addMarketAs actor id side qty => exact h.addMarketAs hw ..
  | cancel id => exact h.cancel hw id
  | replace oldId newId newPrice newQty => exact h.replace hw ..
  | insertPassive id side price qty => exact h.insertPassive hw ..
  | executeResting id qty => exact h.consume hw ..
  | reduceResting id qty => exact h.consume hw ..

end Sim

/-! ## The empty book -/

/-- A new book is in simulation with the empty one. -/
theorem new_sim {ladder : L} (hv : Vacant ladder) :
    ∃ b : OrderBook L M, new ladder = some b ∧ Sim (Ladder.validPrice ladder) b {} := by
  obtain ⟨b, hb, hinv, hnone, hlad, hstp, hcnt, hheap⟩ := new_inv (M := M) ladder
  have hdead : ∀ o, ¬ b.Mapped o := fun o e => by
    rw [Mapped, hnone] at e
    cases e
  refine ⟨b, hb, fun _ => [], fun _ => [], ⟨hinv, ?_, fun q => ⟨?_, ?_, trivial, ?_⟩, ?_, ?_, by simp, by simp⟩,
    fun _ _ h => absurd h List.not_mem_nil, rfl, hstp.symm, hcnt.symm, by rw [hlad]⟩
  · rw [hlad, hheap]
    exact hv
  · rw [hheap]
    rfl
  · rw [hheap]
    rfl
  · exact fun o => ⟨by simp, fun h => absurd h.1 (hdead o)⟩
  · rw [hheap]
    exact fun _ => rfl
  · rw [hheap]
    exact fun _ => rfl

/-! ## Few orders -/

/-- The nodes of the orders that rest at a price. -/
def restingAt (b : OrderBook L M) (s : Side) (p : Price) : List OrderPtr :=
  (List.range b.pool.total).filter fun o => (b.heap.order o).side = s ∧ (b.heap.order o).price = p ∧
    b.findOrder (b.heap.order o).id = some (some o)

/-- Fewer than `2^32` orders rest at each price. -/
def FewAt (b : OrderBook L M) : Prop := ∀ s p, (b.restingAt s p).length < 2 ^ 32

/-- Fewer than `2^32` orders rest. -/
def Few (b : OrderBook L M) : Prop := b.openOrders < 2 ^ 32

namespace Sim

variable {accepts : Price → Bool} {b : OrderBook L M} {a : Spec.Book}

theorem openOrders_eq (h : Sim accepts b a) : b.openOrders = a.openOrders := by
  obtain ⟨T, Q, h⟩ := h
  exact h.openOrders_eq

theorem few_iff (h : Sim accepts b a) : b.Few ↔ a.openOrders < 2 ^ 32 := by
  rw [Few, h.openOrders_eq]

theorem within_of_few (h : Sim accepts b a) (hb : b.Few) : Within L a := by
  obtain ⟨T, Q, h⟩ := h
  constructor
  · intro s l hl
    rw [h.levels] at hl
    obtain ⟨q, hq, rfl⟩ := List.mem_map.mp hl
    simp only [absLevel, restings, List.length_map]
    exact Nat.lt_of_le_of_lt (h.queue_length_le hq) hb
  · intro s
    refine LawfulLadder.fits_of_lt (Nat.lt_of_le_of_lt ?_ hb)
    rw [h.levels, absLevels, List.length_map]
    exact h.side_length_le s

theorem queue_length (h : Sim accepts b a) {s : Side} {l : PriceLevel} (hl : l ∈ a.levels s) :
    l.orders.length ≤ (b.restingAt s l.price).length := by
  obtain ⟨T, Q, h⟩ := h
  rw [h.levels] at hl
  obtain ⟨q, hq, rfl⟩ := List.mem_map.mp hl
  simp only [absLevel, restings, List.length_map]
  refine ((h.rep.nodup q).subperm fun o ho => ?_).length_le
  have hm := h.rep.mapped ho
  obtain ⟨hp, hs⟩ := h.rep.order q o ho
  refine List.mem_filter.mpr ⟨List.mem_range.mpr (h.rep.inv.used hm), decide_eq_true ⟨?_, hp, ?_⟩⟩
  · rw [hs, LawfulLadder.side h.rep.tracks hq]
  · rw [findOrder, h.rep.inv.find_eq, hm]

/-- Few orders in all are few at each price. -/
theorem fewAt (h : Sim accepts b a) (hb : b.Few) : b.FewAt := by
  intro s p
  obtain ⟨T, Q, h⟩ := h
  obtain ⟨all, hn, hall, hlen⟩ := h.rep.inv.count
  refine Nat.lt_of_le_of_lt ?_ (hlen.trans_lt hb)
  refine ((List.nodup_range.filter _).subperm fun o ho => ?_).length_le
  have hf := (of_decide_eq_true (List.mem_filter.mp ho).2).2.2
  rw [findOrder, h.rep.inv.find_eq] at hf
  exact (hall o).mpr (Option.some.inj hf)

/-- A book over the map ladder is within its counters' range if fewer than
`2^32` orders rest at each price. -/
theorem within_of_fewAt {b : OrderBook MapLadder M} (h : Sim accepts b a) (hb : b.FewAt) :
    Within MapLadder a where
  orders s l hl := Nat.lt_of_le_of_lt (h.queue_length hl) (hb s l.price)
  levels _ := trivial

end Sim

/-! ## Runs -/

/-- The machine of the abstract book. -/
def specStep (accepts : Price → Bool) (a : Spec.Book) (op : Op) : Option (Reply × Spec.Book) :=
  some (a.apply accepts op)

section Runs

variable {accepts : Price → Bool} {b : OrderBook L M} {a : Spec.Book} {P : OrderBook L M → Prop}

theorem specStep_eq (a : Spec.Book) (op : Op) :
    specStep accepts a op = some ((a.apply accepts op).1, (a.apply accepts op).2) := rfl

/-- A run goes through, and ends in simulation with the abstract run. -/
theorem run_sim (hP : ∀ {b a}, Sim accepts b a → P b → Within L a) (h : Sim accepts b a)
    (ops : List Op) (hb : Runs.Along apply P b ops) :
    ∃ b' a', Runs.run apply b ops = some b' ∧ Runs.run (specStep accepts) a ops = some a' ∧
      Sim accepts b' a' ∧ P b' := by
  induction ops generalizing b a with
  | nil => exact ⟨b, a, rfl, rfl, h, hb⟩
  | cons op ops ih =>
    obtain ⟨b₁, hb₁, h₁⟩ := h.apply (hP h hb.1) op
    obtain ⟨b', a', hb', ha', hsim, hp⟩ := ih h₁ (hb.2 _ _ hb₁)
    exact ⟨b', a', by rw [Runs.run_cons hb₁, hb'], by rw [Runs.run_cons (specStep_eq a op), ha'], hsim, hp⟩

/-- The answers and the views of a run are those of the abstract run. -/
theorem trace_sim {V : Type} {view : OrderBook L M → V} {specView : Spec.Book → V}
    (hP : ∀ {b a}, Sim accepts b a → P b → Within L a)
    (hview : ∀ {b a}, Sim accepts b a → P b → view b = specView a) (h : Sim accepts b a)
    (ops : List Op) (hb : Runs.Along apply P b ops) :
    ∃ outs, Runs.trace (Runs.observed apply view) b ops = some outs ∧
      Runs.trace (Runs.observed (specStep accepts) specView) a ops = some outs := by
  refine Runs.trace_sim (R := Sim accepts) (A := fun _ => True) (P := P) ?_ ops h (fun _ _ => trivial)
    (Runs.along_observed hb)
  intro b a op h hp _
  obtain ⟨b', hb', h'⟩ := h.apply (hP h hp) op
  exact ⟨_, b', _, _, Runs.observed_eq hb', Runs.observed_eq (specStep_eq a op), h', fun hp' => by rw [hview h' hp']⟩

/-- The abstract run has few orders along it if the run does, -/
theorem along_spec : ∀ {ops : List Op} {b : OrderBook L M} {a : Spec.Book}, Sim accepts b a →
    Runs.Along apply Few b ops → Runs.Along (specStep accepts) (fun a => a.openOrders < 2 ^ 32) a ops
  | [], _, _, h, hb => h.few_iff.mp hb
  | op :: ops, b, a, h, hb => by
    refine ⟨h.few_iff.mp hb.1, fun out a' ha => ?_⟩
    obtain ⟨b', hb', h'⟩ := h.apply (h.within_of_few hb.1) op
    obtain ⟨rfl, rfl⟩ := Prod.mk.inj (Option.some.inj ((specStep_eq a op).symm.trans ha))
    exact along_spec h' (hb.2 _ _ hb')

/-- and only if. -/
theorem along_of_spec : ∀ {ops : List Op} {b : OrderBook L M} {a : Spec.Book}, Sim accepts b a →
    Runs.Along (specStep accepts) (fun a => a.openOrders < 2 ^ 32) a ops → Runs.Along apply Few b ops
  | [], _, _, h, ha => h.few_iff.mpr ha
  | op :: ops, b, a, h, ha => by
    have hfew := h.few_iff.mpr ha.1
    refine ⟨hfew, fun out b' hb => ?_⟩
    obtain ⟨b₁, hb₁, h₁⟩ := h.apply (h.within_of_few hfew) op
    rw [hb₁] at hb
    cases hb
    exact along_of_spec h₁ (ha.2 _ _ (specStep_eq a op))

/-- A run with fewer than `2^32` operations has few orders throughout. -/
theorem along_few (h : Sim accepts b a) (ops : List Op) (hlen : a.openOrders + ops.length < 2 ^ 32) :
    Runs.Along apply Few b ops := by
  refine Runs.along_le (n := openOrders) (I := fun b => ∃ a, Sim accepts b a) ?_ ops ⟨a, h⟩
    (by rw [h.openOrders_eq]; exact hlen)
  rintro b op out b' ⟨a, h⟩ hb hs
  obtain ⟨b₁, hb₁, h₁⟩ := h.apply (h.within_of_few hb) op
  rw [hb₁] at hs
  cases hs
  refine ⟨⟨_, h₁⟩, ?_⟩
  rw [h₁.openOrders_eq, h.openOrders_eq]
  exact Spec.Book.apply_openOrders accepts a op

theorem along_fewAt : ∀ {ops : List Op} {b : OrderBook L M} {a : Spec.Book}, Sim accepts b a →
    Runs.Along apply Few b ops → Runs.Along apply FewAt b ops
  | [], _, _, h, hb => h.fewAt hb
  | op :: ops, b, a, h, hb => by
    refine ⟨h.fewAt hb.1, fun out b' hs => ?_⟩
    obtain ⟨b₁, hb₁, h₁⟩ := h.apply (h.within_of_few hb.1) op
    rw [hb₁] at hs
    cases hs
    exact along_fewAt h₁ (hb.2 _ _ hb₁)

end Runs

end OrderBook

end Pricetime
