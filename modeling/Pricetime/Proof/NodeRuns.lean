import Pricetime.Proof.Framework.Runs
import Pricetime.Proof.BookRep

/-!
# The nodes along any run

However many orders rest, and so whether or not a level's counter has
wrapped, the id map and the links of the nodes stay consistent: each operation
keeps `NodeInv`. Matching and cancelling are made of steps that let no order
come to rest (`Shed`), and what such steps do to the id map is `Keeps`: they
forget ids and learn none. `orderOf` is the finite map from ids to orders
that a book stands for, and the feed's operations are that map's
(`insertPassive_orders`, `cancel_orders`, `consume_orders`).
-/

namespace Pricetime

namespace OrderBook

variable {L M : Type} [Ladder L] [IdMap M] [LawfulIdMap M]

/-- `b'` is consistent, accepts the prices of `b`, and has forgotten ids at
most. -/
structure Keeps (b b' : OrderBook L M) : Prop where
  inv : NodeInv b'
  validPrice : Ladder.validPrice b'.ladder = Ladder.validPrice b.ladder
  lookup : ∀ id, b'.lookup id = b.lookup id ∨ b'.lookup id = none

variable {b b' b'' : OrderBook L M}

namespace Keeps

theorem refl (h : NodeInv b) : Keeps b b := ⟨h, rfl, fun _ => .inl rfl⟩

theorem trans (h : Keeps b b') (h' : Keeps b' b'') : Keeps b b'' where
  inv := h'.inv
  validPrice := h'.validPrice.trans h.validPrice
  lookup id := (h'.lookup id).elim (fun e => (h.lookup id).imp e.trans e.trans) .inr

theorem lookup_none (h : Keeps b b') {id : OrderId} (hn : b.lookup id = none) : b'.lookup id = none :=
  (h.lookup id).elim (fun e => e.trans hn) fun e => e

end Keeps

/-! ## The orders by id -/

section Orders

variable {L M : Type} [IdMap M] [LawfulIdMap M] {b b' : OrderBook L M}

/-- The order with an id. -/
def orderOf (b : OrderBook L M) (id : OrderId) : Option OrderData :=
  (b.lookup id).map fun o => (b.heap.order o).data

/-- How many orders have an id: one or none. -/
def count (b : OrderBook L M) (id : OrderId) : Nat := (b.orderOf id).elim 0 fun _ => 1

theorem orderOf_eq_none {id : OrderId} : b.orderOf id = none ↔ b.lookup id = none := by
  rw [orderOf, Option.map_eq_none_iff]

theorem NodeInv.rests_iff (h : NodeInv b) (id : OrderId) : b.Rests id ↔ b.orderOf id ≠ none := by
  rw [Rests, findOrder, h.find_eq, ne_eq, orderOf_eq_none, ← ne_eq, Option.ne_none_iff_exists']
  simp only [Option.some.injEq]

theorem NodeInv.holds_iff (h : NodeInv b) (id : OrderId) (qty : Qty) :
    b.Holds id qty ↔ (b.orderOf id).map OrderData.qty = some qty := by
  simp only [Holds, findOrder, h.find_eq, orderOf, Option.some.injEq, Option.map_map, Option.map_eq_some_iff]
  rfl

theorem Removed.orderOf {q : LevelPtr} {o : OrderPtr} (h : Removed b q o b') :
    b'.orderOf = Function.update b.orderOf (b.heap.order o).id none := by
  funext id
  rw [OrderBook.orderOf, h.lookup]
  by_cases e : id = (b.heap.order o).id
  · rw [e, Function.update_self, Function.update_self]
    rfl
  · rw [Function.update_of_ne e, Function.update_of_ne e, OrderBook.orderOf]
    simp only [h.data]

theorem Rested.orderOf {level : Levels} {q : LevelPtr} {d : OrderData} {o : OrderPtr} (hb : NodeInv b)
    (h : Rested b level q d o b') : b'.orderOf = Function.update b.orderOf d.id (some d) := by
  funext id
  rw [OrderBook.orderOf, h.lookup]
  by_cases e : id = d.id
  · rw [e, Function.update_self, Function.update_self, Option.map_some, h.data]
  · rw [Function.update_of_ne e, Function.update_of_ne e, OrderBook.orderOf]
    cases hl : b.lookup id with
    | none => rfl
    | some y => rw [Option.map_some, Option.map_some, h.old y (hb.mapped hl)]

/-- Shares off the order of an id. -/
theorem NodeInv.orderOf_reduce (h : NodeInv b) {id : OrderId} {o : OrderPtr} (hl : b.lookup id = some o)
    (q : LevelPtr) (delta : Qty) :
    ({ b with heap := Level.reduce b.heap q o delta } : OrderBook L M).orderOf =
      Function.update b.orderOf id
        (some { (b.heap.order o).data with qty := (b.heap.order o).qty - delta }) := by
  funext id'
  show (b.lookup id').map _ = _
  simp only [Rep.reduce_data]
  by_cases e : id' = id
  · rw [e, Function.update_self, hl, Option.map_some, if_pos rfl]
  · rw [Function.update_of_ne e, orderOf]
    cases hl' : b.lookup id' with
    | none => rfl
    | some y =>
      have hne : y ≠ o := fun ey => e ((h.id hl').symm.trans (ey ▸ h.id hl))
      rw [Option.map_some, Option.map_some, if_neg hne]

end Orders

/-! ## Steps on one order -/

theorem NodeInv.setCounters (h : NodeInv b) (counters : Counters) : Keeps b { b with counters } :=
  ⟨h.congr rfl rfl (fun _ => rfl) rfl, rfl, fun _ => .inl rfl⟩

theorem removeOrder_keeps (h : NodeInv b) {q : LevelPtr} {o : OrderPtr} (ho : b.Mapped o)
    (hq : (b.heap.order o).level = some q) (hb : b.removeOrder q o = some b') :
    Keeps b b' ∧ Removed b q o b' := by
  obtain ⟨b₁, hb₁, hr⟩ := removeOrder_spec h ho hq
  cases hb.symm.trans hb₁
  refine ⟨⟨hr.inv, by rw [hr.rest.2.1], fun id => ?_⟩, hr⟩
  rw [hr.lookup]
  by_cases e : id = (b.heap.order o).id
  · rw [e, Function.update_self]
    exact .inr rfl
  · rw [Function.update_of_ne e]
    exact .inl rfl

/-- Shares off an order, in place. -/
theorem reduce_keeps (h : NodeInv b) (q : LevelPtr) (o : OrderPtr) (delta : Qty) :
    Keeps b { b with heap := Level.reduce b.heap q o delta } :=
  ⟨h.congr rfl rfl (Rep.reduce_id b.heap q o delta) (Rep.reduce_links ..), rfl, fun _ => .inl rfl⟩

omit [Ladder L] in
theorem reduce_mapped (b : OrderBook L M) (q : LevelPtr) (o : OrderPtr) (delta : Qty) (y : OrderPtr) :
    ({ b with heap := Level.reduce b.heap q o delta } : OrderBook L M).Mapped y ↔ b.Mapped y := by
  rw [Mapped, Mapped, Rep.reduce_id]
  rfl

theorem reduce_level (h : Heap) (q : LevelPtr) (o : OrderPtr) (delta : Qty) (y : OrderPtr) :
    ((Level.reduce h q o delta).order y).level = (h.order y).level :=
  congrFun (congrArg Links.owner (Rep.reduce_links h q o delta)) y

omit [Ladder L] in
/-- The head of a level's queue is mapped, and knows its level. -/
theorem NodeInv.head (h : NodeInv b) {q : LevelPtr} {o : OrderPtr} (ho : (b.heap.level q).head = some o) :
    b.Mapped o ∧ (b.heap.order o).level = some q := by
  obtain ⟨hm, -, hq⟩ := h.links.head (show b.heap.links.head q = some o from ho)
  exact ⟨hm, hq⟩

variable [LawfulLadder L]

theorem dropIfEmpty_keeps (h : NodeInv b) {s : Side} {q : LevelPtr} (hb : b.dropIfEmpty s q = some b') :
    Keeps b b' ∧ b'.lookup = b.lookup ∧ b'.orderOf = b.orderOf ∧ b'.openOrders = b.openOrders := by
  rw [dropIfEmpty] at hb
  split at hb
  · obtain ⟨l, hl, hb⟩ := Option.bind_eq_some_iff.mp hb
    cases hb
    exact ⟨⟨h.congr rfl rfl (fun _ => rfl) rfl, LawfulLadder.onLevelEmpty_frame hl, fun _ => .inl rfl⟩,
      rfl, rfl, rfl⟩
  · cases hb
    exact ⟨.refl h, rfl, rfl, rfl⟩

/-! ## Steps that let no order come to rest -/

omit [LawfulLadder L] in
/-- A step of an operation other than the entry of an order. -/
inductive Shed (b : OrderBook L M) : OrderBook L M → Prop
  | counters (counters : Counters) : Shed b { b with counters }
  | policy (p : SelfTradePolicy) : Shed b (b.setSelfTradePolicy p)
  | reserve {n : Nat} {b' : OrderBook L M} (hb : b.reserveOrders n = some b') : Shed b b'
  | reduce {o : OrderPtr} (ho : b.Mapped o) (q : LevelPtr) (delta : Qty) :
      Shed b { b with heap := Level.reduce b.heap q o delta }
  | remove {q : LevelPtr} {o : OrderPtr} {b' : OrderBook L M} (ho : b.Mapped o)
      (hq : (b.heap.order o).level = some q) (hb : b.removeOrder q o = some b') : Shed b b'
  | drop {s : Side} {q : LevelPtr} {b' : OrderBook L M} (hb : b.dropIfEmpty s q = some b') : Shed b b'

theorem Shed.keeps (h : NodeInv b) (hs : Shed b b') : Keeps b b' := by
  cases hs with
  | counters c => exact h.setCounters c
  | policy p => exact ⟨h.congr rfl rfl (fun _ => rfl) rfl, rfl, fun _ => .inl rfl⟩
  | @reserve n _ hb =>
    obtain ⟨m, hm, hb⟩ := Option.bind_eq_some_iff.mp hb
    cases hb
    obtain ⟨m', hm', hok, hlk, hs⟩ := LawfulIdMap.reserve_spec h.ok n
    cases hm.symm.trans hm'
    exact ⟨h.congr_lookup hok hlk hs rfl (fun _ => rfl) rfl, rfl, fun id => .inl (congrFun hlk id)⟩
  | reduce ho q delta => exact reduce_keeps h q _ delta
  | remove ho hq hb => exact (removeOrder_keeps h ho hq hb).1
  | drop hb => exact (dropIfEmpty_keeps h hb).1

/-- Any number of such steps. -/
abbrev Sheds : OrderBook L M → OrderBook L M → Prop := Relation.ReflTransGen Shed

theorem Sheds.keeps (h : NodeInv b) (hs : Sheds b b') : Keeps b b' := by
  induction hs with
  | refl => exact .refl h
  | tail _ hs ih => exact ih.trans (hs.keeps ih.inv)

/-! ## Matching -/

omit [LawfulLadder L] in
theorem killResting_sheds (h : NodeInv b) {q : LevelPtr} {o : OrderPtr}
    (ho : (b.heap.level q).head = some o) (hb : b.killResting q o = some b') : Sheds b b' := by
  obtain ⟨hm, hq⟩ := h.head ho
  have hk : Sheds b _ := .single (.counters (b.counters.cancel (b.heap.order o).qty))
  exact hk.tail (.remove hm hq hb)

omit [LawfulLadder L] in
theorem fillResting_sheds (h : NodeInv b) {q : LevelPtr} {o : OrderPtr}
    (ho : (b.heap.level q).head = some o) {fill : Qty} (hb : b.fillResting q o fill = some b') :
    Sheds b b' := by
  obtain ⟨hm, hq⟩ := h.head ho
  have hc : Sheds b _ := .single (.counters (b.counters.trade fill))
  have hm' : ({ b with counters := b.counters.trade fill } : OrderBook L M).Mapped o := hm
  have hk := hc.tail (.reduce hm' q fill)
  rw [fillResting] at hb
  dsimp only at hb
  split at hb
  · exact hk.tail (.remove ((reduce_mapped { b with counters := _ } q o fill o).mpr hm)
      ((reduce_level b.heap q o fill o).trans hq) hb)
  · cases hb
    exact hk

theorem matchLevel_sheds (aggressor : OrderId) (actor : ParticipantId) (q : LevelPtr) :
    ∀ (fuel : Nat) {b : OrderBook L M} {qty : Qty} {r : OrderBook L M × Qty × Bool × List Execution},
      NodeInv b → matchLevel aggressor actor q fuel b qty = some r → Sheds b r.1
  | 0, _, _, _, _, hb => by cases hb
  | fuel + 1, b, qty, r, h, hb => by
    rw [matchLevel] at hb
    split at hb
    · cases hb
      exact .refl
    split at hb
    · cases hb
      exact .refl
    rename_i o ho
    dsimp only at hb
    split at hb
    · -- self-trade prevention fires
      have hc : Sheds b _ := .single (.counters b.counters.prevent)
      -- the aggressor is killed, or goes on to the next order
      have after : ∀ {b₁ : OrderBook L M}, Sheds b b₁ →
          (if b₁.stp ≠ .cancelResting then some (b₁.countCanceled qty, qty, true, [])
            else matchLevel aggressor actor q fuel b₁ qty) = some r → Sheds b r.1 := by
        intro b₁ hk hb
        split at hb
        · cases hb
          exact hk.tail (.counters _)
        · exact hk.trans (matchLevel_sheds aggressor actor q fuel (hk.keeps h).inv hb)
      split at hb
      · obtain ⟨b₁, hb₁, hb⟩ := Option.bind_eq_some_iff.mp hb
        exact after (hc.trans (killResting_sheds (hc.keeps h).inv ho hb₁)) hb
      · exact after hc hb
    · obtain ⟨b₁, hb₁, hb⟩ := Option.bind_eq_some_iff.mp hb
      obtain ⟨r', hr', hb⟩ := Option.bind_eq_some_iff.mp hb
      cases hb
      have hk := fillResting_sheds h ho hb₁
      have hm := matchLevel_sheds aggressor actor q fuel (hk.keeps h).inv hr'
      exact hk.trans hm

theorem matchLoop_sheds (aggressor : OrderId) (actor : ParticipantId) (side : Side) (price : Option Price) :
    ∀ (fuel : Nat) {b : OrderBook L M} {qty : Qty} {r : OrderBook L M × Qty × List Execution},
      NodeInv b → matchLoop aggressor actor side price fuel b qty = some r → Sheds b r.1
  | 0, _, _, _, _, hb => by cases hb
  | fuel + 1, b, qty, r, h, hb => by
    rw [matchLoop] at hb
    split at hb
    · cases hb
      exact .refl
    split at hb
    · cases hb
      exact .refl
    split at hb
    · obtain ⟨r₁, hr₁, hb⟩ := Option.bind_eq_some_iff.mp hb
      obtain ⟨b₂, hb₂, hb⟩ := Option.bind_eq_some_iff.mp hb
      have h₁ := matchLevel_sheds aggressor actor _ _ h hr₁
      have h₂ : Sheds b b₂ := h₁.tail (.drop hb₂)
      dsimp only at hb
      split at hb
      · cases hb
        exact h₂
      · obtain ⟨r₃, hr₃, hb⟩ := Option.bind_eq_some_iff.mp hb
        cases hb
        have h₃ := matchLoop_sheds aggressor actor side price fuel (h₂.keeps h).inv hr₃
        exact h₂.trans h₃
    · cases hb
      exact .refl

theorem matchOrder_sheds (h : NodeInv b) {aggressor : OrderId} {actor : ParticipantId} {side : Side}
    {price : Option Price} {qty : Qty} {r : OrderBook L M × Qty × List Execution}
    (hb : b.matchOrder aggressor actor side price qty = some r) : Sheds b r.1 :=
  matchLoop_sheds aggressor actor side price _ h hb

theorem matchOrder_keeps (h : NodeInv b) {aggressor : OrderId} {actor : ParticipantId} {side : Side}
    {price : Option Price} {qty : Qty} {r : OrderBook L M × Qty × List Execution}
    (hb : b.matchOrder aggressor actor side price qty = some r) : Keeps b r.1 :=
  (matchOrder_sheds h hb).keeps h

/-! ## Entry -/

omit [LawfulLadder L] in
/-- What makes an order acceptable. -/
theorem validate_spec (h : NodeInv b) (id : OrderId) (price : Price) (qty : Qty) :
    ∃ r, b.validate id price qty = some r ∧ (r = .ok ↔ id ≠ 0 ∧ qty ≠ 0 ∧
      Ladder.validPrice b.ladder price = true ∧ b.lookup id = none) := by
  rw [validate, h.find_eq]
  split
  · rename_i h0
    exact ⟨_, rfl, iff_of_false nofun fun hv => hv.1 h0⟩
  split
  · rename_i hq
    exact ⟨_, rfl, iff_of_false nofun fun hv => hv.2.1 hq⟩
  split
  · rename_i hp
    exact ⟨_, rfl, iff_of_false nofun fun hv => by simp [hv.2.2.1] at hp⟩
  rename_i h0 hq hp
  cases hl : b.lookup id with
  | some o => exact ⟨_, rfl, iff_of_false nofun fun hv => nomatch hv.2.2.2⟩
  | none => exact ⟨_, rfl, iff_of_true rfl ⟨h0, hq, by simpa using hp, rfl⟩⟩

/-- `b'` is `b` but for the order with an id, which is `d`. -/
structure Changes (id : OrderId) (d : Option OrderData) (b b' : OrderBook L M) : Prop where
  inv : NodeInv b'
  validPrice : Ladder.validPrice b'.ladder = Ladder.validPrice b.ladder
  orderOf : b'.orderOf = Function.update b.orderOf id d
  openOrders : b'.openOrders + b.count id = b.openOrders + b'.count id

omit [LawfulLadder L] in
theorem Changes.refl (h : NodeInv b) (id : OrderId) : Changes id (b.orderOf id) b b :=
  ⟨h, rfl, (Function.update_eq_self id b.orderOf).symm, rfl⟩

/-- An order comes to rest. -/
theorem rest_changes (h : NodeInv b) {id : OrderId} (h0 : id ≠ 0) (hid : b.lookup id = none) {side : Side}
    {price : Price} {qty : Qty} {actor : ParticipantId} (hb : b.rest id side price qty actor = some b') :
    Changes id (some ⟨id, price, qty, side, actor⟩) b b' := by
  obtain ⟨⟨q, ladder, level⟩, hg, -⟩ := Option.bind_eq_some_iff.mp hb
  obtain ⟨o, b₁, hb₁, hlad, hr⟩ := rest_spec h h0 hid hg (LawfulLadder.getOrCreate_frame hg).1 qty actor
  cases hb.symm.trans hb₁
  have ho := hr.orderOf h
  refine ⟨hr.inv, by rw [hlad]; exact (LawfulLadder.getOrCreate_frame hg).2, ho, ?_⟩
  rw [count, count, ho, orderOf_eq_none.mpr hid, Function.update_self, hr.openOrders]
  rfl

/-- The reply to an operation that may be rejected: a rejection reports no
execution and leaves the book as it is. -/
structure Answered (b : OrderBook L M) (reply : Reply) (b' : OrderBook L M) : Prop where
  inv : NodeInv b'
  rejected : reply.result ≠ .ok → reply.execs = [] ∧ b' = b

omit [Ladder L] [LawfulLadder L] in
theorem Answered.refused (h : NodeInv b) (r : Result) : Answered b { result := r } b := ⟨h, fun _ => ⟨rfl, rfl⟩⟩

omit [Ladder L] [LawfulLadder L] in
theorem Answered.accepted (h : NodeInv b') {reply : Reply} (hr : reply.result = .ok) : Answered b reply b' :=
  ⟨h, fun hne => absurd hr hne⟩

theorem addLimitAs_answered (h : NodeInv b) {actor : ParticipantId} {id : OrderId} {side : Side}
    {price : Price} {qty : Qty} {reply : Reply} (hb : b.addLimitAs actor id side price qty = some (reply, b')) :
    Answered b reply b' ∧ (id ≠ 0 → qty ≠ 0 → Ladder.validPrice b.ladder price = true →
      b.lookup id = none → reply.result = .ok) := by
  obtain ⟨r, hr, hok⟩ := validate_spec h id price qty
  rw [addLimitAs, hr] at hb
  simp only [Option.bind_eq_bind, Option.bind_some] at hb
  split at hb
  · rename_i hne
    cases hb
    exact ⟨.refused h r, fun h0 hq hp hl => absurd (hok.mpr ⟨h0, hq, hp, hl⟩) hne⟩
  · rename_i hv
    obtain ⟨h0, hq, hp, hl⟩ := hok.mp (Classical.not_not.mp hv)
    obtain ⟨m, hm, hb⟩ := Option.bind_eq_some_iff.mp hb
    have hc := h.setCounters (b.counters.add qty)
    have hk := hc.trans (matchOrder_keeps hc.inv hm)
    split at hb
    · obtain ⟨b₂, hb₂, hb⟩ := Option.bind_eq_some_iff.mp hb
      cases hb
      exact ⟨.accepted (rest_changes hk.inv h0 (hk.lookup_none hl) hb₂).1 rfl, fun _ _ _ _ => rfl⟩
    · cases hb
      exact ⟨.accepted hk.inv rfl, fun _ _ _ _ => rfl⟩

/-- An accepted order that may not rest. -/
theorem take_answered (h : NodeInv b) {actor : ParticipantId} {id : OrderId} {side : Side}
    {price : Option Price} {qty : Qty} {reply : Reply}
    (hb : (((b.countAdded qty).matchOrder id actor side price qty).bind fun m =>
      some ({ result := .ok, execs := m.2.2 }, m.1.countCanceled m.2.1)) = some (reply, b')) :
    Answered b reply b' := by
  obtain ⟨m, hm, hb⟩ := Option.bind_eq_some_iff.mp hb
  cases hb
  have hc := h.setCounters (b.counters.add qty)
  have hk := hc.trans (matchOrder_keeps hc.inv hm)
  exact .accepted (hk.inv.setCounters _).inv rfl

/-- An order inserted by the feed, or refused. -/
theorem insertPassive_orders (h : NodeInv b) {id : OrderId} {side : Side} {price : Price} {qty : Qty}
    {reply : Reply} (hb : b.insertPassive id side price qty = some (reply, b')) :
    Answered b reply b' ∧ (reply.result = .ok ↔ id ≠ 0 ∧ qty ≠ 0 ∧ Ladder.validPrice b.ladder price = true ∧
        b.orderOf id = none) ∧
      (reply.result = .ok → Changes id (some ⟨id, price, qty, side, 0⟩) b b') := by
  obtain ⟨r, hr, hok⟩ := validate_spec h id price qty
  rw [← orderOf_eq_none] at hok
  rw [insertPassive, hr] at hb
  simp only [Option.bind_eq_bind, Option.bind_some] at hb
  split at hb
  · rename_i hne
    cases hb
    exact ⟨.refused h r, hok, fun e => absurd e hne⟩
  · rename_i hv
    have hv := Classical.not_not.mp hv
    obtain ⟨h0, hq, hp, hl⟩ := hok.mp hv
    obtain ⟨b₁, hb₁, hb⟩ := Option.bind_eq_some_iff.mp hb
    cases hb
    obtain ⟨hinv, hp', ho, hn⟩ := rest_changes (h.setCounters (b.counters.add qty)).inv h0
      (orderOf_eq_none.mp hl) hb₁
    exact ⟨.accepted hinv rfl, ⟨fun _ => hok.mp hv, fun _ => rfl⟩, fun _ => ⟨hinv, hp', ho, hn⟩⟩

/-! ## Changes of resting orders -/

/-- `b'` is `b` without the order `id`. -/
structure Forgets (id : OrderId) (b b' : OrderBook L M) : Prop where
  keeps : Keeps b b'
  lookup : b'.lookup = Function.update b.lookup id none
  orderOf : b'.orderOf = Function.update b.orderOf id none
  openOrders : b'.openOrders + 1 = b.openOrders

/-- An order leaves the book, and its level if that was its last. -/
theorem removeDrop_forgets (h : NodeInv b) {q : LevelPtr} {o : OrderPtr} (ho : b.Mapped o)
    (hq : (b.heap.order o).level = some q) {b₁ : OrderBook L M} (hb₁ : b.removeOrder q o = some b₁)
    {s : Side} (hb : b₁.dropIfEmpty s q = some b') : Forgets (b.heap.order o).id b b' := by
  obtain ⟨hk, hr⟩ := removeOrder_keeps h ho hq hb₁
  obtain ⟨hk', hlk, hof, hopen⟩ := dropIfEmpty_keeps hk.inv hb
  exact ⟨hk.trans hk', hlk.trans hr.lookup, hof.trans hr.orderOf, by rw [hopen, hr.openOrders]⟩

theorem cancelOpen_forgets (h : NodeInv b) {id : OrderId} {o : OrderPtr} (hl : b.lookup id = some o)
    (hb : b.cancelOpen o = some b') : Forgets id b b' := by
  obtain ⟨q, hq, hb⟩ := Option.bind_eq_some_iff.mp hb
  obtain ⟨b₁, hb₁, hb⟩ := Option.bind_eq_some_iff.mp hb
  have hc := h.setCounters (b.counters.cancel (b.heap.order o).qty)
  have hf := removeDrop_forgets hc.inv (h.mapped hl) hq hb₁ hb
  have hid : (b.heap.order o).id = id := h.id hl
  exact hid ▸ ⟨hc.trans hf.keeps, hf.lookup, hf.orderOf, hf.openOrders⟩

omit [LawfulLadder L] in
theorem Forgets.changes {id : OrderId} (h : Forgets id b b') (hid : b.orderOf id ≠ none) :
    Changes id none b b' := by
  obtain ⟨d, hd⟩ := Option.ne_none_iff_exists'.mp hid
  refine ⟨h.keeps.inv, h.keeps.validPrice, h.orderOf, ?_⟩
  rw [OrderBook.count, OrderBook.count, h.orderOf, hd, Function.update_self, ← h.openOrders]
  rfl

theorem cancel_orders (h : NodeInv b) {id : OrderId} {reply : Reply} (hb : b.cancel id = some (reply, b')) :
    Answered b reply b' ∧ Changes id none b b' := by
  rw [cancel, h.find_eq] at hb
  simp only [Option.bind_eq_bind, Option.bind_some] at hb
  cases hl : b.lookup id with
  | none =>
    have ho := orderOf_eq_none.mpr hl
    rw [hl] at hb
    cases hb
    exact ⟨.refused h _, ho ▸ Changes.refl h id⟩
  | some o =>
    rw [hl] at hb
    obtain ⟨b₁, hb₁, hb⟩ := Option.bind_eq_some_iff.mp hb
    cases hb
    have hf := cancelOpen_forgets h hl hb₁
    exact ⟨.accepted hf.keeps.inv rfl, hf.changes (by rw [orderOf, hl]; simp)⟩

omit [LawfulLadder L] in
/-- A change of one order in place. -/
theorem Keeps.changes (h : Keeps b b') {id : OrderId} {d d' : OrderData} (hd : b.orderOf id = some d)
    (ho : b'.orderOf = Function.update b.orderOf id (some d')) (hn : b'.openOrders = b.openOrders) :
    Changes id (some d') b b' := by
  refine ⟨h.inv, h.validPrice, ho, ?_⟩
  rw [count, count, ho, hd, Function.update_self, hn]
  rfl

end OrderBook

/-- What is left of an order with `qty` shares taken off it. -/
def OrderData.less (d : OrderData) (qty : Qty) : Option OrderData :=
  if qty = 0 ∨ qty < d.qty then some { d with qty := d.qty - qty } else none

namespace OrderBook

variable {L M : Type} [Ladder L] [LawfulLadder L] [IdMap M] [LawfulIdMap M] {b b' : OrderBook L M}

/-- An execution or a reduction takes what it can of its quantity. -/
theorem consume_orders (h : NodeInv b) {id : OrderId} {qty : Qty} {isExecution : Bool} {reply : Reply}
    (hb : b.consume id qty isExecution = some (reply, b')) :
    Answered b reply b' ∧ reply.taken = (b.orderOf id).elim 0 (fun d => min qty d.qty) ∧
      Changes id ((b.orderOf id).bind fun d => d.less qty) b b' := by
  rw [consume, h.find_eq] at hb
  simp only [Option.bind_eq_bind, Option.bind_some] at hb
  cases hl : b.lookup id with
  | none =>
    have ho := orderOf_eq_none.mpr hl
    rw [hl] at hb
    cases hb
    rw [ho]
    have hch : Changes id none b b := ho ▸ Changes.refl h id
    exact ⟨.refused h _, rfl, hch⟩
  | some o =>
    have ho : b.orderOf id = some (b.heap.order o).data := by rw [orderOf, hl, Option.map_some]
    rw [hl] at hb
    rw [ho, Option.elim_some, Option.bind_some, OrderData.less]
    dsimp only at hb
    split at hb
    · rename_i hq
      cases hb
      refine ⟨.refused h _, by rw [hq, Std.min_eq_if, if_pos UInt32.zero_le], ?_⟩
      rw [if_pos (.inl hq), hq, UInt32.sub_zero]
      exact ho ▸ Changes.refl h id
    rename_i hq
    obtain ⟨q, hlvl, hb⟩ := Option.bind_eq_some_iff.mp hb
    have htake : (if qty < (b.heap.order o).qty then qty else (b.heap.order o).qty) =
        min qty (b.heap.order o).data.qty := (min_eq_ite ..).symm
    rw [htake] at hb
    generalize (if isExecution = true then _ else _ : Counters) = counters at hb
    have hc := h.setCounters counters
    by_cases hlt : qty < (b.heap.order o).qty
    · have hmin : min qty (b.heap.order o).data.qty = qty := by
        rw [← htake, if_pos hlt]
      rw [hmin, if_neg (UInt32.ne_of_lt hlt)] at hb
      cases hb
      have hk := hc.trans (reduce_keeps hc.inv q o qty)
      refine ⟨.accepted hk.inv rfl, hmin.symm, ?_⟩
      rw [if_pos (.inr hlt)]
      exact hk.changes ho (hc.inv.orderOf_reduce hl q qty) rfl
    · have hmin : min qty (b.heap.order o).data.qty = (b.heap.order o).qty := by
        rw [← htake, if_neg hlt]
      rw [hmin, if_pos rfl] at hb
      obtain ⟨b₁, hb₁, hb⟩ := Option.bind_eq_some_iff.mp hb
      obtain ⟨b₂, hb₂, hb⟩ := Option.bind_eq_some_iff.mp hb
      cases hb
      have hid : (b.heap.order o).id = id := h.id hl
      have hf : Forgets id { b with counters } b' := hid ▸ removeDrop_forgets hc.inv (h.mapped hl) hlvl hb₁ hb₂
      have hch : Changes id none b b' := by
        obtain ⟨hinv, hp, hof, hn⟩ := hf.changes (by exact ho ▸ nofun)
        exact ⟨hinv, hp, hof, hn⟩
      refine ⟨.accepted hf.keeps.inv rfl, hmin.symm, ?_⟩
      rwa [if_neg (show ¬ (qty = 0 ∨ qty < (b.heap.order o).data.qty) from not_or.mpr ⟨hq, hlt⟩)]

end OrderBook

end Pricetime
