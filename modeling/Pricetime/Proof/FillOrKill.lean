import Pricetime.Proof.Fills

/-!
# Fill-or-kill is all or nothing

What the scan before a fill-or-kill order counts is what matching then trades:
queue by queue (`matchQueue_scanned`) and over a side (`matchLevels_traded`),
under every policy. The order is therefore accepted exactly when an
immediate-or-cancel order would be filled in full, and then does what that
does (`fill_or_kill`).
-/

namespace Pricetime

namespace Spec

open FeedOrder (traded_cons)

theorem traded_append (xs ys : List Execution) : traded (xs ++ ys) = traded xs + traded ys := by
  simp only [traded, List.map_append, List.sum_append]

/-- A queue that an aggressor met, told by what it could trade with there and
whether it could get past. -/
structure Scanned (avail : Nat × Bool) (qty : Qty) (r : QueueMatch) : Prop where
  left : r.left.toNat = qty.toNat - avail.1
  traded : r.left.toNat + traded r.execs = qty.toNat
  killed : r.killed = true ↔ avail.2 = false ∧ avail.1 < qty.toNat

theorem matchQueue_scanned (policy : SelfTradePolicy) (aggressor : OrderId) (actor : ParticipantId) (price : Price) :
    ∀ (os : List Resting) (qty : Qty) (c : Counters),
      Scanned (availableQueue policy actor os) qty (matchQueue policy aggressor actor price os qty c)
  | [], qty, c => ⟨rfl, rfl, by simp [matchQueue, availableQueue]⟩
  | o :: os, qty, c => by
    have ih := matchQueue_scanned policy aggressor actor price os
    rw [availableQueue]
    unfold matchQueue
    by_cases h0 : qty = 0
    · subst h0
      rw [if_pos rfl]
      exact ⟨(Nat.zero_sub _).symm, rfl, by simp⟩
    rw [if_neg h0]
    have hpos : 0 < qty.toNat := UInt32.lt_iff_toNat_lt.mp (UInt32.pos_iff_ne_zero.mpr h0)
    by_cases hp : prevents policy actor o.participant = true
    · rw [if_pos hp, if_pos hp]
      cases policy with
      | none => simp [prevents] at hp
      | cancelResting => exact ih _ _
      | cancelAggressor => exact ⟨rfl, rfl, iff_of_true rfl ⟨rfl, hpos⟩⟩
      | cancelBoth => exact ⟨rfl, rfl, iff_of_true rfl ⟨rfl, hpos⟩⟩
    rw [if_neg hp, if_neg hp]
    by_cases hlt : qty < o.qty
    · have hlt' := UInt32.lt_iff_toNat_lt.mp hlt
      rw [if_pos hlt]
      refine ⟨?_, ?_, ?_⟩
      · show 0 = qty.toNat - (o.qty.toNat + _)
        omega
      · show 0 + traded [_] = _
        simp [traded]
      · refine iff_of_false Bool.false_ne_true fun h => ?_
        have : o.qty.toNat + _ < qty.toNat := h.2
        omega
    · have hle := UInt32.not_lt.mp hlt
      have hle' := UInt32.le_iff_toNat_le.mp hle
      have hsub : (qty - o.qty).toNat = qty.toNat - o.qty.toNat := UInt32.toNat_sub_of_le _ _ hle
      obtain ⟨hleft, htraded, hkilled⟩ := ih (qty - o.qty) (c.trade o.qty)
      rw [if_neg hlt]
      dsimp only
      generalize matchQueue policy aggressor actor price os (qty - o.qty) (c.trade o.qty) = r at hleft htraded hkilled ⊢
      refine ⟨?_, ?_, ?_⟩
      · show r.left.toNat = qty.toNat - (o.qty.toNat + _)
        omega
      · show r.left.toNat + traded (_ :: r.execs) = qty.toNat
        rw [traded_cons]
        dsimp only
        omega
      · show r.killed = true ↔ _ ∧ o.qty.toNat + _ < qty.toNat
        rw [hkilled]
        exact and_congr_right fun _ => by omega

/-- Matching trades what there is, up to the aggressor's shares. -/
theorem matchLevels_traded (policy : SelfTradePolicy) (aggressor : OrderId) (actor : ParticipantId)
    (reach : Price → Bool) : ∀ (ls : List PriceLevel) (qty : Qty) (c : Counters),
      traded (matchLevels policy aggressor actor reach ls qty c).execs =
        min qty.toNat (availableLevels policy actor reach ls)
  | [], qty, c => by simp [matchLevels, availableLevels, traded]
  | l :: ls, qty, c => by
    have ih := matchLevels_traded policy aggressor actor reach ls
    rw [availableLevels, matchLevels]
    by_cases h0 : qty = 0
    · subst h0
      simp [traded]
    rw [if_neg h0]
    by_cases hr : reach l.price = true
    · rw [if_pos hr, if_pos hr]
      obtain ⟨hleft, htraded, hkilled⟩ := matchQueue_scanned policy aggressor actor l.price l.orders qty c
      dsimp only
      generalize availableQueue policy actor l.orders = avail at hleft hkilled ⊢
      generalize matchQueue policy aggressor actor l.price l.orders qty c = r at hleft htraded hkilled ⊢
      by_cases hk : r.killed = true
      · obtain ⟨hstop, hless⟩ := hkilled.mp hk
        rw [if_pos hk, hstop, if_neg Bool.false_ne_true]
        dsimp only
        omega
      · rw [if_neg hk]
        dsimp only
        rw [traded_append, ih]
        by_cases hpast : avail.2 = true
        · rw [if_pos hpast]
          omega
        · have hall : ¬ avail.1 < qty.toNat := fun h => hk (hkilled.mpr ⟨Bool.eq_false_iff.mpr hpast, h⟩)
          rw [if_neg hpast]
          omega
    · rw [if_neg hr, if_neg hr]
      simp [traded]

namespace Book

theorem matchOrder_traded (a : Book) (aggressor : OrderId) (actor : ParticipantId) (side : Side)
    (limit : Option Price) (qty : Qty) :
    traded (a.matchOrder aggressor actor side limit qty).2.2 = min qty.toNat (a.available side limit actor) :=
  matchLevels_traded ..

end Book

end Spec

namespace OrderBook

variable {L M : Type} [Ladder L] [LawfulLadder L] [IdMap M] [LawfulIdMap M]

omit [LawfulLadder L] [LawfulIdMap M] in
/-- The answer of the scan, for an order that passes the checks. -/
theorem addFokAs_ok {b : OrderBook L M} {actor : ParticipantId} {id : OrderId} {side : Side} {price : Price}
    {qty : Qty} (hv : b.validate id price qty = some .ok) {t : UInt64}
    (ht : b.available side (some price) qty actor = some t) :
    b.addFokAs actor id side price qty =
      if t < qty.toUInt64 then some ({ result := .rejectedNoLiquidity }, b)
      else b.addIocAs actor id side price qty := by
  simp only [addFokAs, addIocAs, hv, ht, Option.bind_eq_bind, Option.bind_some, ne_eq, not_true_eq_false, if_false]

/-- In every reachable state, a fill-or-kill order that passes the checks does
what an immediate-or-cancel order does if that is filled in full, and nothing
otherwise. -/
theorem fill_or_kill {ladder : L} (hv : Vacant ladder) {b₀ : OrderBook L M} (h₀ : new ladder = some b₀)
    (ops : List Op) (hfew : Runs.Along apply Few b₀ ops) :
    ∃ b, Runs.run apply b₀ ops = some b ∧
      ∀ actor id side price qty, b.validate id price qty = some .ok →
        ∃ reply b', b.addIocAs actor id side price qty = some (reply, b') ∧ reply.result = .ok ∧
          (Spec.traded reply.execs = qty.toNat →
            b.addFokAs actor id side price qty = some (reply, b')) ∧
          (Spec.traded reply.execs ≠ qty.toNat →
            b.addFokAs actor id side price qty = some ({ result := .rejectedNoLiquidity }, b)) := by
  obtain ⟨b₁, hb₁, hsim⟩ := new_sim (M := M) hv
  cases h₀.symm.trans hb₁
  obtain ⟨b, a, hb, -, h, hbfew⟩ := run_sim Sim.within_of_few hsim ops hfew
  refine ⟨b, hb, fun actor id side price qty hok => ?_⟩
  have hw := h.within_of_few hbfew
  have hspec : a.validate (Ladder.validPrice ladder) id price qty = .ok :=
    Option.some.inj ((h.validate_eq id price qty).symm.trans hok)
  have hqty := (Spec.Book.validate_ok hspec).2.1
  obtain ⟨b', hb', -⟩ := h.addIocAs hw actor id side price qty
  obtain ⟨t, ht, hless⟩ := h.available_spec hw side (some price) hqty actor
  have htraded := Spec.Book.matchOrder_traded (a.countAdded qty) id actor side (some price) qty
  have havail : (a.countAdded qty).available side (some price) actor = a.available side (some price) actor := rfl
  have hexecs : (a.addIocAs (Ladder.validPrice ladder) actor id side price qty).1 =
      { result := .ok, execs := ((a.countAdded qty).matchOrder id actor side (some price) qty).2.2 } := by
    simp only [Spec.Book.addIocAs, hspec, ne_eq, not_true_eq_false, if_false]
  rw [hexecs] at hb'
  refine ⟨_, b', hb', rfl, fun hfull => ?_, fun hpart => ?_⟩
  · rw [addFokAs_ok hok ht, if_neg, hb']
    rw [hless]
    dsimp only at hfull
    omega
  · rw [addFokAs_ok hok ht, if_pos]
    rw [hless]
    dsimp only at hpart
    omega

/-- An order of the buyer's own is skipped between two others: ten shares can
be had, and eleven cannot. -/
theorem fill_or_kill_prevention : ∃ b₀ b b' : OrderBook MapLadder OpenAddressIdMap, new {} = some b₀ ∧
    Runs.run apply b₀ [.setSelfTradePolicy .cancelResting, .addLimitAs 8 1 .ask 5 4, .addLimitAs 7 2 .ask 5 4,
      .insertPassive 3 .ask 6 6] = some b ∧
    b.addFokAs 7 4 .bid 6 10 = some ({ result := .ok, execs := [⟨1, 4, 5, 4⟩, ⟨3, 4, 6, 6⟩] }, b') ∧
    b.addFokAs 7 4 .bid 6 11 = some ({ result := .rejectedNoLiquidity }, b) := by
  obtain ⟨b₀, h₀, hsim⟩ := new_sim (M := OpenAddressIdMap) MapLadder.vacant
  let ops : List Op := [.setSelfTradePolicy .cancelResting, .addLimitAs 8 1 .ask 5 4, .addLimitAs 7 2 .ask 5 4,
    .insertPassive 3 .ask 6 6]
  have hfew : Runs.Along apply Few b₀ ops := along_few hsim _ (by decide)
  obtain ⟨b, hb, hfok⟩ := fill_or_kill MapLadder.vacant h₀ ops hfew
  obtain ⟨b', a, hb', ha, h, hbfew⟩ := run_sim Sim.within_of_few hsim ops hfew
  cases hb.symm.trans hb'
  have hchecks : (Runs.run (specStep fun _ => true) {} ops).map (fun a =>
      (a.validate (fun _ => true) 4 6 10, a.validate (fun _ => true) 4 6 11)) = some (.ok, .ok) := by decide
  have hreplies : (Runs.run (specStep fun _ => true) {} ops).map (fun a =>
      ((a.addIocAs (fun _ => true) 7 4 .bid 6 10).1, (a.addIocAs (fun _ => true) 7 4 .bid 6 11).1)) =
        some ({ result := .ok, execs := [⟨1, 4, 5, 4⟩, ⟨3, 4, 6, 6⟩] },
          { result := .ok, execs := [⟨1, 4, 5, 4⟩, ⟨3, 4, 6, 6⟩] }) := by decide
  rw [show Runs.run (specStep fun _ => true) {} ops = some a from ha] at hchecks hreplies
  obtain ⟨hten, heleven⟩ := Prod.mk.inj (Option.some.inj hchecks)
  obtain ⟨hr, hr'⟩ := Prod.mk.inj (Option.some.inj hreplies)
  have answer : ∀ {qty : Qty} {reply : Reply}, (a.addIocAs (fun _ => true) 7 4 .bid 6 qty).1 = reply →
      ∀ {reply' b'}, b.addIocAs 7 4 .bid 6 qty = some (reply', b') → reply' = reply := by
    intro qty reply hr reply' b' hb'
    obtain ⟨b'', hb'', -⟩ := h.addIocAs (h.within_of_few hbfew) 7 4 .bid 6 qty
    exact (Prod.mk.inj (Option.some.inj (hb'.symm.trans hb''))).1.trans hr
  obtain ⟨reply, b₁, hioc, -, hfull, -⟩ := hfok 7 4 .bid 6 10 ((h.validate_eq 4 6 10).trans (congrArg some hten))
  obtain ⟨reply', b₂, hioc', -, -, hpart⟩ := hfok 7 4 .bid 6 11 ((h.validate_eq 4 6 11).trans (congrArg some heleven))
  cases answer hr hioc
  cases answer hr' hioc'
  exact ⟨b₀, b, b₁, h₀, hb, hfull (by decide), hpart (by decide)⟩

end OrderBook

end Pricetime
