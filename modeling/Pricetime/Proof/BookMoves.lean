import Pricetime.Proof.Rejection

/-!
# What an operation does to the nodes

Whatever the operation, it first lets orders go, a step at a time (`Sheds`),
and then lets one order come to rest at most (`Enters`): `apply_moves`. What
such steps keep is kept along every run.
-/

namespace Pricetime

namespace OrderBook

variable {L M : Type} [Ladder L] [LawfulLadder L] [IdMap M] [LawfulIdMap M] {b b₁ b' : OrderBook L M}

/-- An order comes to rest, under an id that the book does not know. -/
def Enters (b b' : OrderBook L M) : Prop :=
  ∃ id side price qty actor, id ≠ 0 ∧ b.lookup id = none ∧ b.rest id side price qty actor = some b'

/-- Orders go, and then one may come to rest. -/
def Moves (b b' : OrderBook L M) : Prop := ∃ b₁, Sheds b b₁ ∧ (b' = b₁ ∨ Enters b₁ b')

omit [LawfulLadder L] in
theorem Moves.of_sheds (h : Sheds b b') : Moves b b' := ⟨b', h, .inl rfl⟩

omit [LawfulLadder L] in
theorem Moves.after (h : Sheds b b₁) (hm : Moves b₁ b') : Moves b b' := by
  obtain ⟨b₂, h₂, he⟩ := hm
  exact ⟨b₂, h.trans h₂, he⟩

omit [LawfulLadder L] in
theorem Moves.refl (b : OrderBook L M) : Moves b b := .of_sheds .refl

omit [LawfulLadder L] in
theorem cancelOpen_sheds (h : NodeInv b) {id : OrderId} {o : OrderPtr} (hl : b.lookup id = some o)
    (hb : b.cancelOpen o = some b') : Sheds b b' := by
  obtain ⟨q, hq, hb⟩ := Option.bind_eq_some_iff.mp hb
  obtain ⟨b₁, hb₁, hb⟩ := Option.bind_eq_some_iff.mp hb
  have hc : Sheds b _ := .single (.counters (b.counters.cancel (b.heap.order o).qty))
  have hr : Sheds b b₁ := hc.tail (.remove (h.mapped hl) hq hb₁)
  exact hr.tail (.drop hb)

theorem addLimitAs_moves (h : NodeInv b) {actor : ParticipantId} {id : OrderId} {side : Side}
    {price : Price} {qty : Qty} {reply : Reply} (hb : b.addLimitAs actor id side price qty = some (reply, b')) :
    Moves b b' := by
  obtain ⟨r, hr, hok⟩ := validate_spec h id price qty
  rw [addLimitAs, hr] at hb
  simp only [Option.bind_eq_bind, Option.bind_some] at hb
  split at hb
  · cases hb
    exact .refl b
  · rename_i hv
    obtain ⟨h0, -, -, hl⟩ := hok.mp (Classical.not_not.mp hv)
    obtain ⟨m, hm, hb⟩ := Option.bind_eq_some_iff.mp hb
    have hc : Sheds b _ := .single (.counters (b.counters.add qty))
    have hs : Sheds b m.1 := hc.trans (matchOrder_sheds (hc.keeps h).inv hm)
    split at hb
    · obtain ⟨b₂, hb₂, hb⟩ := Option.bind_eq_some_iff.mp hb
      cases hb
      exact ⟨m.1, hs, .inr ⟨id, side, price, m.2.1, actor, h0, (hs.keeps h).lookup_none hl, hb₂⟩⟩
    · cases hb
      exact .of_sheds hs

/-- An accepted order that may not rest. -/
theorem take_moves (h : NodeInv b) {actor : ParticipantId} {id : OrderId} {side : Side}
    {price : Option Price} {qty : Qty} {reply : Reply}
    (hb : (((b.countAdded qty).matchOrder id actor side price qty).bind fun m =>
      some ({ result := .ok, execs := m.2.2 }, m.1.countCanceled m.2.1)) = some (reply, b')) :
    Moves b b' := by
  obtain ⟨m, hm, hb⟩ := Option.bind_eq_some_iff.mp hb
  cases hb
  have hc : Sheds b _ := .single (.counters (b.counters.add qty))
  have hs : Sheds b m.1 := hc.trans (matchOrder_sheds (hc.keeps h).inv hm)
  exact .of_sheds (hs.tail (.counters (m.1.counters.cancel m.2.1)))

omit [LawfulLadder L] in
theorem insertPassive_moves (h : NodeInv b) {id : OrderId} {side : Side} {price : Price} {qty : Qty}
    {reply : Reply} (hb : b.insertPassive id side price qty = some (reply, b')) : Moves b b' := by
  obtain ⟨r, hr, hok⟩ := validate_spec h id price qty
  rw [insertPassive, hr] at hb
  simp only [Option.bind_eq_bind, Option.bind_some] at hb
  split at hb
  · cases hb
    exact .refl b
  · rename_i hv
    obtain ⟨h0, -, -, hl⟩ := hok.mp (Classical.not_not.mp hv)
    obtain ⟨b₁, hb₁, hb⟩ := Option.bind_eq_some_iff.mp hb
    cases hb
    exact ⟨_, .single (.counters (b.counters.add qty)), .inr ⟨id, side, price, qty, 0, h0, hl, hb₁⟩⟩

omit [LawfulLadder L] in
theorem consume_moves (h : NodeInv b) {id : OrderId} {qty : Qty} {isExecution : Bool} {reply : Reply}
    (hb : b.consume id qty isExecution = some (reply, b')) : Moves b b' := by
  rw [consume, h.find_eq] at hb
  simp only [Option.bind_eq_bind, Option.bind_some] at hb
  cases hl : b.lookup id with
  | none =>
    rw [hl] at hb
    cases hb
    exact .refl b
  | some o =>
    rw [hl] at hb
    dsimp only at hb
    split at hb
    · cases hb
      exact .refl b
    obtain ⟨q, hq, hb⟩ := Option.bind_eq_some_iff.mp hb
    generalize (if isExecution = true then _ else _ : Counters) = counters at hb
    have hc : Sheds b { b with counters } := .single (.counters counters)
    have ho : ({ b with counters } : OrderBook L M).Mapped o := h.mapped hl
    generalize (if qty < (b.heap.order o).qty then qty else (b.heap.order o).qty) = take at hb
    split at hb
    · obtain ⟨b₁, hb₁, hb⟩ := Option.bind_eq_some_iff.mp hb
      obtain ⟨b₂, hb₂, hb⟩ := Option.bind_eq_some_iff.mp hb
      cases hb
      have hr : Sheds b b₁ := hc.tail (.remove ho hq hb₁)
      exact .of_sheds (hr.tail (.drop hb₂))
    · cases hb
      exact .of_sheds (hc.tail (.reduce ho q take))

theorem apply_moves (h : NodeInv b) {op : Op} {reply : Reply} (hb : b.apply op = some (reply, b')) :
    Moves b b' := by
  cases op with
  | setSelfTradePolicy p =>
    cases hb
    exact .of_sheds (.single (.policy p))
  | reserveOrders n =>
    obtain ⟨b₁, hb₁, hb⟩ := Option.bind_eq_some_iff.mp hb
    cases hb
    exact .of_sheds (.single (.reserve hb₁))
  | addLimitAs actor id side price qty => exact addLimitAs_moves h hb
  | addIocAs actor id side price qty =>
    obtain ⟨r, hr, -⟩ := validate_spec h id price qty
    rw [apply, addIocAs, hr] at hb
    simp only [Option.bind_eq_bind, Option.bind_some] at hb
    split at hb
    · cases hb
      exact .refl b
    · exact take_moves h hb
  | addFokAs actor id side price qty =>
    obtain ⟨r, hr, -⟩ := validate_spec h id price qty
    rw [apply, addFokAs, hr] at hb
    simp only [Option.bind_eq_bind, Option.bind_some] at hb
    split at hb
    · cases hb
      exact .refl b
    · obtain ⟨t, -, hb⟩ := Option.bind_eq_some_iff.mp hb
      split at hb
      · cases hb
        exact .refl b
      · exact take_moves h hb
  | addMarketAs actor id side qty =>
    rw [apply, addMarketAs] at hb
    split at hb
    · cases hb
      exact .refl b
    split at hb
    · cases hb
      exact .refl b
    rw [h.find_eq] at hb
    simp only [Option.bind_eq_bind, Option.bind_some] at hb
    cases hl : b.lookup id with
    | some o =>
      rw [hl] at hb
      cases hb
      exact .refl b
    | none =>
      rw [hl] at hb
      exact take_moves h hb
  | cancel id =>
    rw [apply, cancel, h.find_eq] at hb
    simp only [Option.bind_eq_bind, Option.bind_some] at hb
    cases hl : b.lookup id with
    | none =>
      rw [hl] at hb
      cases hb
      exact .refl b
    | some o =>
      rw [hl] at hb
      obtain ⟨b₁, hb₁, hb⟩ := Option.bind_eq_some_iff.mp hb
      cases hb
      exact .of_sheds (cancelOpen_sheds h hl hb₁)
  | replace oldId newId newPrice newQty =>
    rcases replace_enters h hb with ⟨-, -, -, rfl, -⟩ | ⟨o, b₁, -, hl, hb₁, hb⟩
    · exact .refl b'
    · have hs := cancelOpen_sheds h hl hb₁
      exact .after hs (addLimitAs_moves (hs.keeps h).inv hb)
  | insertPassive id side price qty => exact insertPassive_moves h hb
  | executeResting id qty => exact consume_moves h hb
  | reduceResting id qty => exact consume_moves h hb

end OrderBook

end Pricetime
