import Pricetime.Proof.BookRefines
import Pricetime.Proof.NodeRuns

/-!
# Rejections leave no trace

In every reachable state, however many orders rest, an operation that is
rejected reports no execution and leaves the book as it is
(`rejection_atomic`). Only `replace` could do otherwise: it cancels before it
enters the new order. But its own checks, and the cancellation of the old
order, are all that the entry's checks need (`replace_answered`).
-/

namespace Pricetime

namespace OrderBook

variable {L M : Type} [Ladder L] [LawfulLadder L] [IdMap M] [LawfulIdMap M] {b b' : OrderBook L M}

/-- The checks of `replace` on its new order, the old one being `oldId`. -/
structure ReplaceChecks (b : OrderBook L M) (oldId newId : OrderId) (newPrice : Price) (newQty : Qty) :
    Prop where
  old : ∃ o, b.findOrder oldId = some (some o)
  id : newId ≠ 0
  qty : newQty ≠ 0
  price : Ladder.validPrice b.ladder newPrice = true
  free : newId ≠ oldId → b.findOrder newId = some none

omit [LawfulLadder L] in
/-- A replacement is refused, or its checks pass and the new order is entered
once the old one has gone. -/
theorem replace_enters (h : NodeInv b) {oldId newId : OrderId} {newPrice : Price} {newQty : Qty} {reply : Reply}
    (hb : b.replace oldId newId newPrice newQty = some (reply, b')) :
    (∃ r, reply = { result := r } ∧ r ≠ .ok ∧ b' = b ∧ ¬ ReplaceChecks b oldId newId newPrice newQty) ∨
    ∃ o b₁, ReplaceChecks b oldId newId newPrice newQty ∧ b.lookup oldId = some o ∧ b.cancelOpen o = some b₁ ∧
      b₁.addLimitAs (b.heap.order o).participant newId (b.heap.order o).side newPrice newQty = some (reply, b') := by
  rw [replace, h.find_eq] at hb
  simp only [Option.bind_eq_bind, Option.bind_some] at hb
  cases hl : b.lookup oldId with
  | none =>
    rw [hl] at hb
    cases hb
    refine .inl ⟨_, rfl, by decide, rfl, fun hc => ?_⟩
    obtain ⟨o, ho⟩ := hc.old
    rw [findOrder, h.find_eq, hl] at ho
    cases ho
  | some o =>
    have hold : b.findOrder oldId = some (some o) := by rw [findOrder, h.find_eq, hl]
    rw [hl] at hb
    dsimp only at hb
    split at hb
    · rename_i h0
      cases hb
      exact .inl ⟨_, rfl, by decide, rfl, fun hc => hc.id h0⟩
    split at hb
    · rename_i hq
      cases hb
      exact .inl ⟨_, rfl, by decide, rfl, fun hc => hc.qty hq⟩
    split at hb
    · rename_i hp
      cases hb
      exact .inl ⟨_, rfl, by decide, rfl, fun hc => by simp [hc.price] at hp⟩
    rename_i h0 hq hp
    have hprice : Ladder.validPrice b.ladder newPrice = true := by simpa using hp
    split at hb
    · rename_i hne
      rw [h.find_eq] at hb
      simp only [Option.bind_some] at hb
      cases hn : b.lookup newId with
      | some o' =>
        rw [hn] at hb
        cases hb
        refine .inl ⟨_, rfl, by decide, rfl, fun hc => ?_⟩
        have := hc.free hne
        rw [findOrder, h.find_eq, hn] at this
        cases this
      | none =>
        rw [hn] at hb
        obtain ⟨b₁, hb₁, hb⟩ := Option.bind_eq_some_iff.mp hb
        exact .inr ⟨o, b₁, ⟨⟨o, hold⟩, h0, hq, hprice, fun _ => by rw [findOrder, h.find_eq, hn]⟩, rfl, hb₁, hb⟩
    · rename_i he
      rw [if_neg (by decide)] at hb
      obtain ⟨b₁, hb₁, hb⟩ := Option.bind_eq_some_iff.mp hb
      exact .inr ⟨o, b₁, ⟨⟨o, hold⟩, h0, hq, hprice, fun hne => absurd hne he⟩, rfl, hb₁, hb⟩

theorem replace_answered (h : NodeInv b) {oldId newId : OrderId} {newPrice : Price} {newQty : Qty}
    {reply : Reply} (hb : b.replace oldId newId newPrice newQty = some (reply, b')) :
    Answered b reply b' ∧ (ReplaceChecks b oldId newId newPrice newQty → reply.result = .ok) := by
  rcases replace_enters h hb with ⟨r, rfl, -, rfl, hno⟩ | ⟨o, b₁, hc, hl, hb₁, hb⟩
  · exact ⟨.refused h r, fun hc => absurd hc hno⟩
  obtain ⟨hk, hlk, -, -⟩ := cancelOpen_forgets h hl hb₁
  -- once the old order is gone, the new one's id is free
  have hnew : b₁.lookup newId = none := by
    rw [hlk]
    by_cases e : newId = oldId
    · rw [e, Function.update_self]
    · have hfree := hc.free e
      rw [findOrder, h.find_eq] at hfree
      rw [Function.update_of_ne e]
      exact Option.some.inj hfree
  obtain ⟨ha, hok⟩ := addLimitAs_answered hk.inv hb
  have hres := hok hc.id hc.qty (by rw [hk.validPrice]; exact hc.price) hnew
  exact ⟨.accepted ha.inv hres, fun _ => hres⟩

/-- An operation keeps the nodes consistent, and a rejection changes nothing. -/
theorem apply_answered (h : NodeInv b) {op : Op} {reply : Reply} (hb : b.apply op = some (reply, b')) :
    Answered b reply b' := by
  cases op with
  | setSelfTradePolicy p =>
    cases hb
    have hp : NodeInv (b.setSelfTradePolicy p) := h.congr rfl rfl (fun _ => rfl) rfl
    exact .accepted hp rfl
  | reserveOrders n =>
    obtain ⟨b₁, hb₁, hb⟩ := Option.bind_eq_some_iff.mp hb
    obtain ⟨m, hm, hb₁⟩ := Option.bind_eq_some_iff.mp hb₁
    cases hb
    cases hb₁
    obtain ⟨m', hm', hok, hlk, hs⟩ := LawfulIdMap.reserve_spec h.ok n
    cases hm.symm.trans hm'
    have hr : NodeInv { b with orders := m } := h.congr_lookup hok hlk hs rfl (fun _ => rfl) rfl
    exact .accepted hr rfl
  | addLimitAs actor id side price qty => exact (addLimitAs_answered h hb).1
  | addIocAs actor id side price qty =>
    obtain ⟨r, hr, -⟩ := validate_spec h id price qty
    rw [apply, addIocAs, hr] at hb
    simp only [Option.bind_eq_bind, Option.bind_some] at hb
    split at hb
    · cases hb
      exact .refused h r
    · exact take_answered h hb
  | addFokAs actor id side price qty =>
    obtain ⟨r, hr, -⟩ := validate_spec h id price qty
    rw [apply, addFokAs, hr] at hb
    simp only [Option.bind_eq_bind, Option.bind_some] at hb
    split at hb
    · cases hb
      exact .refused h r
    · obtain ⟨t, -, hb⟩ := Option.bind_eq_some_iff.mp hb
      split at hb
      · cases hb
        exact .refused h _
      · exact take_answered h hb
  | addMarketAs actor id side qty =>
    rw [apply, addMarketAs] at hb
    split at hb
    · cases hb
      exact .refused h _
    split at hb
    · cases hb
      exact .refused h _
    rw [h.find_eq] at hb
    simp only [Option.bind_eq_bind, Option.bind_some] at hb
    cases hl : b.lookup id with
    | some o =>
      rw [hl] at hb
      cases hb
      exact .refused h _
    | none =>
      rw [hl] at hb
      exact take_answered h hb
  | cancel id => exact (cancel_orders h hb).1
  | replace oldId newId newPrice newQty => exact (replace_answered h hb).1
  | insertPassive id side price qty => exact (insertPassive_orders h hb).1
  | executeResting id qty => exact (consume_orders h hb).1
  | reduceResting id qty => exact (consume_orders h hb).1

theorem nodeInv_of_run {ladder : L} {b₀ : OrderBook L M} (h₀ : new ladder = some b₀) (ops : List Op)
    (hb : Runs.run apply b₀ ops = some b) : NodeInv b := by
  obtain ⟨b₁, hb₁, hinv, -⟩ := new_inv (M := M) ladder
  cases h₀.symm.trans hb₁
  exact Runs.inv_of_run (fun _ _ _ _ h hs => (apply_answered h hs).inv) ops hinv hb

/-- In every reachable state, a rejected operation reports no execution and
leaves the book as it is, and a `replace` whose checks pass is not rejected. -/
theorem rejection_atomic {ladder : L} {b₀ : OrderBook L M} (h₀ : new ladder = some b₀) (ops : List Op)
    (hb : Runs.run apply b₀ ops = some b) {op : Op} {reply : Reply} (hop : b.apply op = some (reply, b')) :
    (reply.result ≠ .ok → reply.execs = [] ∧ b' = b) ∧
      ∀ oldId newId newPrice newQty, op = .replace oldId newId newPrice newQty →
        ReplaceChecks b oldId newId newPrice newQty → reply.result = .ok := by
  have h := nodeInv_of_run h₀ ops hb
  refine ⟨(apply_answered h hop).rejected, ?_⟩
  rintro oldId newId newPrice newQty rfl
  exact (replace_answered h hop).2

/-- A replacement that keeps its id, of an order that has traded in part, and a
fill-or-kill order that finds too little. -/
theorem rejection_atomic_replace : ∃ (b₀ b b₁ b₂ : OrderBook MapLadder OpenAddressIdMap) (replaced killed : Reply),
    new {} = some b₀ ∧
    Runs.run apply b₀ [.addLimitAs 7 1 .bid 5 10, .addLimitAs 8 2 .ask 5 4] = some b ∧
    b.apply (.replace 1 1 6 9) = some (replaced, b₁) ∧ replaced.result = .ok ∧
    b.apply (.addFokAs 9 3 .ask 5 20) = some (killed, b₂) ∧ killed.result = .rejectedNoLiquidity ∧
    killed.execs = [] ∧ b₂ = b := by
  obtain ⟨b₀, h₀, hsim⟩ := new_sim (M := OpenAddressIdMap) MapLadder.vacant
  obtain ⟨b, a, hb, ha, h, hfew⟩ := run_sim Sim.within_of_few hsim
    [.addLimitAs 7 1 .bid 5 10, .addLimitAs 8 2 .ask 5 4] (along_few hsim _ (by decide))
  have hspec : ((Runs.run (specStep fun _ => true) {}
      [.addLimitAs 7 1 .bid 5 10, .addLimitAs 8 2 .ask 5 4]).map fun a =>
        ((a.find 1).isSome, (a.apply (fun _ => true) (.addFokAs 9 3 .ask 5 20)).1.result)) =
      some (true, .rejectedNoLiquidity) := by decide
  rw [show Runs.run (specStep fun _ => true) {} _ = some a from ha, Option.map_some, Option.some.injEq,
    Prod.mk.injEq] at hspec
  have hkilled : (a.apply (Ladder.validPrice ({} : MapLadder)) (.addFokAs 9 3 .ask 5 20)).1.result =
      .rejectedNoLiquidity := hspec.2
  have hold : ∃ o, b.findOrder 1 = some (some o) := by
    rcases h.find_cases 1 with ⟨-, hnone⟩ | ⟨o, ho, -⟩
    · rw [hnone] at hspec
      cases hspec.1
    · exact ⟨o, ho⟩
  obtain ⟨b₁, hb₁, -⟩ := h.apply (h.within_of_few hfew) (.replace 1 1 6 9)
  obtain ⟨b₂, hb₂, -⟩ := h.apply (h.within_of_few hfew) (.addFokAs 9 3 .ask 5 20)
  obtain ⟨hexecs, hsame⟩ := (rejection_atomic h₀ _ hb hb₂).1 (fun hok => by
    rw [hkilled] at hok
    cases hok)
  exact ⟨b₀, b, b₁, b₂, _, _, h₀, hb, hb₁,
    (rejection_atomic h₀ _ hb hb₁).2 1 1 6 9 rfl ⟨hold, by decide, by decide, rfl, fun hne => absurd rfl hne⟩,
    hb₂, hkilled, hexecs, hsame⟩

end OrderBook

end Pricetime
