import Pricetime.Proof.QueuePosition

/-!
# The sandbox's steps

The sandbox reads what a message does to an order before the book does it
(`peek`), and tells its simulated orders. `Holds s os`: the book of the tracked
symbol has the orders `os`. A message takes these to what `follow` says, and
the orders recorded ahead of a simulated order to what it leaves of them,
unless that is placed anew (`Holds.step`).
-/

namespace Pricetime

open Itch (Message Complete Replayer MsgType decode be32 be64)
open Spec (FeedOrder Rel)
open Spec.FeedOrder (queue lessen remnant follow Replaces)

/-! ## Peeking -/

section Fields

variable {msg : List UInt8}

/-- The fields that are read again of a message. -/
theorem executed_fields {e : Itch.OrderExecuted} (h : Itch.decodeOrderExecuted msg = some e) :
    be64 msg 11 = some e.reference ∧ be32 msg 19 = some e.shares := by
  obtain ⟨timestamp, -, h⟩ := Option.bind_eq_some_iff.mp h
  obtain ⟨reference, href, h⟩ := Option.bind_eq_some_iff.mp h
  obtain ⟨shares, hshares, h⟩ := Option.bind_eq_some_iff.mp h
  obtain ⟨matchNumber, -, h⟩ := Option.bind_eq_some_iff.mp h
  obtain ⟨type, -, h⟩ := Option.bind_eq_some_iff.mp h
  split at h
  · obtain ⟨printable, -, h⟩ := Option.bind_eq_some_iff.mp h
    obtain ⟨price, -, h⟩ := Option.bind_eq_some_iff.mp h
    cases h
    exact ⟨href, hshares⟩
  · cases h
    exact ⟨href, hshares⟩

theorem cancel_fields {e : Itch.OrderCancel} (h : Itch.decodeOrderCancel msg = some e) :
    be64 msg 11 = some e.reference ∧ be32 msg 19 = some e.shares := by
  obtain ⟨timestamp, -, h⟩ := Option.bind_eq_some_iff.mp h
  obtain ⟨reference, href, h⟩ := Option.bind_eq_some_iff.mp h
  obtain ⟨shares, hshares, h⟩ := Option.bind_eq_some_iff.mp h
  cases h
  exact ⟨href, hshares⟩

theorem delete_reference {e : Itch.OrderDelete} (h : Itch.decodeOrderDelete msg = some e) :
    be64 msg 11 = some e.reference := by
  obtain ⟨timestamp, -, h⟩ := Option.bind_eq_some_iff.mp h
  obtain ⟨reference, href, h⟩ := Option.bind_eq_some_iff.mp h
  cases h
  exact href

theorem replace_reference {e : Itch.OrderReplace} (h : Itch.decodeOrderReplace msg = some e) :
    be64 msg 11 = some e.originalReference := by
  obtain ⟨timestamp, -, h⟩ := Option.bind_eq_some_iff.mp h
  obtain ⟨reference, href, h⟩ := Option.bind_eq_some_iff.mp h
  obtain ⟨fresh, -, h⟩ := Option.bind_eq_some_iff.mp h
  obtain ⟨shares, -, h⟩ := Option.bind_eq_some_iff.mp h
  obtain ⟨price, -, h⟩ := Option.bind_eq_some_iff.mp h
  cases h
  exact href

end Fields

section Peek

variable {L M : Type} [Ladder L] [LawfulLadder L] [IdMap M] [LawfulIdMap M] {accepts : Price → Bool}
  {books : MultiBook L M} {a : Spec.MultiBook} {os : List FeedOrder}

/-- What is read of a message tells what the message does to every order. -/
def Peeks (os : List FeedOrder) (m : Message) : Option OrderEvent → Prop
  | none => ∀ o ∈ os, remnant m o = some o
  | some ev => (∃ o ∈ os, o.reference = ev.id ∧ o.side = ev.restingSide ∧ o.price = ev.price) ∧
    ∀ o ∈ os, remnant m o = lessen ev.id ev.shares o

/-- The order of a reference, in its book. -/
theorem resting_cases (h : books.Refines accepts a) (hrel : Rel a os) (ref : OrderId) :
    ((∀ o ∈ os, o.reference ≠ ref) ∧ books.bookForOrder ref = some none) ∨
    ∃ p b q, books.bookForOrder ref = some (some p) ∧ books.deref p = some b ∧ b.findOrder ref = some (some q) ∧
      ∃ o ∈ os, o.reference = ref ∧ o.side = (b.heap.order q).side ∧ o.price = (b.heap.order q).price ∧
        o.shares = (b.heap.order q).qty := by
  rcases h.bookForOrder ref with ⟨hm, ha⟩ | ⟨p, s, b, -, hm, hp, ha⟩
  · exact .inl ⟨hrel.owner_none.mp ha, hm⟩
  rcases hrel.cases ref with ⟨-, hown⟩ | ⟨xs, o, ys, rfl, rfl, -, hown, hfind⟩
  · cases ha.symm.trans hown
  cases ha.symm.trans hown
  rcases (h.book hp).find_cases o.reference with ⟨-, hno⟩ | ⟨q, hf, -, hq⟩
  · cases hfind.symm.trans hno
  have hplace := hfind.symm.trans hq
  refine .inr ⟨p, b, q, hm, MultiBook.deref_eq hp, hf, o, List.mem_append_right _ List.mem_cons_self, rfl, ?_⟩
  injection hplace with hplace
  injection hplace with hside hprice horder
  injection horder with _ hqty _
  exact ⟨hside, hprice, hqty⟩

/-- The types of the messages that are peeked at. -/
abbrev Peeked (type : UInt8) : Prop :=
  type = 'E'.toUInt8 ∨ type = 'C'.toUInt8 ∨ type = 'X'.toUInt8 ∨ type = 'D'.toUInt8 ∨ type = 'U'.toUInt8

omit [Ladder L] [LawfulLadder L] [LawfulIdMap M] in
theorem peek_other {msg : List UInt8} {type : UInt8} (ht : msg[0]? = some type) (hno : ¬ Peeked type) :
    peekEvent books msg = some none := by
  rw [peekEvent, ht]
  exact if_pos hno

/-- A message that takes `shares` from an order. -/
theorem peek_shares (h : books.Refines accepts a) (hrel : Rel a os) {msg : List UInt8} {type : UInt8} {ref : OrderId}
    {shares : Qty} (ht : msg[0]? = some type) (htype : type = 'E'.toUInt8 ∨ type = 'C'.toUInt8 ∨ type = 'X'.toUInt8)
    (href : be64 msg 11 = some ref) (hshares : be32 msg 19 = some shares) {m : Message}
    (hm : ∀ o, remnant m o = lessen ref shares o) : ∃ ev, peekEvent books msg = some ev ∧ Peeks os m ev := by
  have hpeeked : Peeked type := htype.imp_right fun h => h.imp_right .inl
  rw [peekEvent, ht]
  simp only [Option.bind_eq_bind, Option.bind_some, if_neg (Classical.not_not.mpr hpeeked), href, hshares]
  rcases resting_cases h hrel ref with ⟨habs, hnone⟩ | ⟨p, b, q, hp, hb, hq, o, ho, hor, hside, hprice, -⟩
  · rw [hnone]
    exact ⟨none, rfl, fun o ho => (hm o).trans (if_neg (habs o ho))⟩
  · simp only [hp, hb, hq, Option.bind_some]
    split
    · exact ⟨_, rfl, ⟨o, ho, hor, hside, hprice⟩, fun x _ => hm x⟩
    · rename_i hec
      have hx : type = 'X'.toUInt8 := by
        rcases htype with he | hc | hx
        · exact absurd (.inl he) hec
        · exact absurd (.inr hc) hec
        · exact hx
      rw [if_pos hx]
      exact ⟨_, rfl, ⟨o, ho, hor, hside, hprice⟩, fun x _ => hm x⟩

theorem lessen_all (hn : (os.map FeedOrder.reference).Nodup) {o x : FeedOrder} (ho : o ∈ os) (hx : x ∈ os) :
    lessen o.reference o.shares x = if x.reference = o.reference then none else some x := by
  rw [lessen]
  split
  · rename_i e
    rw [List.inj_on_of_nodup_map hn hx ho e]
    exact if_pos (by grind)
  · rfl

/-- A message that ends an order. -/
theorem peek_whole (h : books.Refines accepts a) (hrel : Rel a os) {msg : List UInt8} {type : UInt8} {ref : OrderId}
    (ht : msg[0]? = some type) (htype : type = 'D'.toUInt8 ∨ type = 'U'.toUInt8) (href : be64 msg 11 = some ref)
    {m : Message} (hm : ∀ o, remnant m o = if o.reference = ref then none else some o) :
    ∃ ev, peekEvent books msg = some ev ∧ Peeks os m ev := by
  have hpeeked : Peeked type := .inr (.inr (.inr htype))
  have hec : ¬ (type = 'E'.toUInt8 ∨ type = 'C'.toUInt8) := by rcases htype with rfl | rfl <;> decide
  have hx : ¬ type = 'X'.toUInt8 := by rcases htype with rfl | rfl <;> decide
  rw [peekEvent, ht]
  simp only [Option.bind_eq_bind, Option.bind_some, if_neg (Classical.not_not.mpr hpeeked), href]
  rcases resting_cases h hrel ref with ⟨habs, hnone⟩ | ⟨p, b, q, hp, hb, hq, o, ho, rfl, hside, hprice, hshares⟩
  · rw [hnone]
    exact ⟨none, rfl, fun o ho => (hm o).trans (if_neg (habs o ho))⟩
  · simp only [hp, hb, hq, Option.bind_some, if_neg hec, if_neg hx]
    refine ⟨_, rfl, ⟨o, ho, rfl, hside, hprice⟩, fun x hx => (hm x).trans ?_⟩
    rw [← hshares, lessen_all hrel.nodup ho hx]

theorem peek (h : books.Refines accepts a) (hrel : Rel a os) {msg : List UInt8} {m : Message}
    (hm : decode msg = some m) : ∃ ev, peekEvent books msg = some ev ∧ Peeks os m ev := by
  obtain ⟨type, ht, hm⟩ := Option.bind_eq_some_iff.mp hm
  -- a message that is not about an order on the list leaves them all
  have other (hno : ¬ Peeked type) (hr : ∀ o, remnant m o = some o) :
      ∃ ev, peekEvent books msg = some ev ∧ Peeks os m ev := ⟨none, peek_other ht hno, fun o _ => hr o⟩
  cases hof : MsgType.ofByte type with
  | none =>
    rw [hof] at hm
    cases hm
    refine other ?_ fun _ => rfl
    rintro (rfl | rfl | rfl | rfl | rfl) <;> exact absurd hof (by decide)
  | some t =>
    rw [hof] at hm
    obtain rfl := Itch.ofByte_code hof
    cases t with
    | addOrder =>
      obtain ⟨_, -, rfl⟩ := Option.map_eq_some_iff.mp hm
      exact other (by decide) fun _ => rfl
    | addOrderMpid =>
      obtain ⟨_, -, rfl⟩ := Option.map_eq_some_iff.mp hm
      exact other (by decide) fun _ => rfl
    | tradeNonCross =>
      obtain ⟨_, -, rfl⟩ := Option.map_eq_some_iff.mp hm
      exact other (by decide) fun _ => rfl
    | systemEvent =>
      obtain ⟨_, -, rfl⟩ := Option.map_eq_some_iff.mp hm
      exact other (by decide) fun _ => rfl
    | orderExecuted =>
      obtain ⟨e, he, rfl⟩ := Option.map_eq_some_iff.mp hm
      obtain ⟨href, hshares⟩ := executed_fields he
      exact peek_shares h hrel ht (.inl rfl) href hshares fun _ => rfl
    | orderExecutedWithPrice =>
      obtain ⟨e, he, rfl⟩ := Option.map_eq_some_iff.mp hm
      obtain ⟨href, hshares⟩ := executed_fields he
      exact peek_shares h hrel ht (.inr (.inl rfl)) href hshares fun _ => rfl
    | orderCancel =>
      obtain ⟨e, he, rfl⟩ := Option.map_eq_some_iff.mp hm
      obtain ⟨href, hshares⟩ := cancel_fields he
      exact peek_shares h hrel ht (.inr (.inr rfl)) href hshares fun _ => rfl
    | orderDelete =>
      obtain ⟨e, he, rfl⟩ := Option.map_eq_some_iff.mp hm
      exact peek_whole h hrel ht (.inl rfl) (delete_reference he) fun _ => rfl
    | orderReplace =>
      obtain ⟨e, he, rfl⟩ := Option.map_eq_some_iff.mp hm
      exact peek_whole h hrel ht (.inr rfl) (replace_reference he) fun _ => rfl
    | _ =>
      cases hm
      exact other (by decide) fun _ => rfl

end Peek

/-! ## The simulated orders -/

namespace QueuePosition

variable {q : QueuePosition}

theorem onSharesRemoved_same (q : QueuePosition) (id : OrderId) (shares : Qty) :
    (q.onSharesRemoved id shares).active = q.active ∧ (q.onSharesRemoved id shares).price = q.price ∧
      (q.onSharesRemoved id shares).side = q.side := by
  rw [onSharesRemoved]
  split <;> exact ⟨rfl, rfl, rfl⟩

theorem takeFill_active {shares : Qty} (h : (q.takeFill shares).2.active = true) : q.active = true := by
  cases hq : q.active with
  | true => rfl
  | false =>
    rw [takeFill] at h
    dsimp only at h
    rw [hq, ite_self] at h
    cases h

end QueuePosition

theorem Behind.takeFill {q : QueuePosition} {ahead : List FeedOrder} (h : Behind q ahead) (shares : Qty) :
    Behind (q.takeFill shares).2 ahead := ⟨h.ahead, h.shares⟩

namespace MmSandbox

variable {s : MmSandbox} {os : List FeedOrder}

/-- What a message that leaves `f o` of each order `o` does to a simulated
order, if that stays active. -/
def Told (os : List FeedOrder) (f : FeedOrder → Option FeedOrder) (side : Side) (q q' : QueuePosition) : Prop :=
  q'.active = true → q.active = true ∧ q'.price = q.price ∧ q'.side = q.side ∧
    ∀ ahead, ahead.Sublist (queue os side q.price) → Behind q ahead → Behind q' (ahead.filterMap f)

theorem Told.same {f : FeedOrder → Option FeedOrder} {side : Side} (q : QueuePosition)
    (h : ∀ o ∈ queue os side q.price, f o = some o) : Told os f side q q := by
  refine fun hq => ⟨hq, rfl, rfl, fun ahead hsub hb => ?_⟩
  rwa [FeedOrder.filterMap_absent fun o ho => h o (hsub.mem ho)]

theorem our_setOur (s : MmSandbox) (side : Side) (q : QueuePosition) (side' : Side) :
    (s.setOur side q).our side' = if side' = side then q else s.our side' := by
  cases side <;> cases side' <;> rfl

theorem setOur_same (s : MmSandbox) (side : Side) (q : QueuePosition) :
    (s.setOur side q).cfg = s.cfg ∧ (s.setOur side q).rep = s.rep ∧ (s.setOur side q).haveMid = s.haveMid := by
  cases side <;> exact ⟨rfl, rfl, rfl⟩

theorem ite_mm (s : MmSandbox) (c : Prop) [Decidable c] (mm : MarketMaker) :
    (if c then { s with mm } else s).cfg = s.cfg ∧ (if c then { s with mm } else s).rep = s.rep ∧
      (if c then { s with mm } else s).haveMid = s.haveMid ∧
      ∀ side, (if c then { s with mm } else s).our side = s.our side := by
  split
  · exact ⟨rfl, rfl, rfl, fun side => by cases side <;> rfl⟩
  · exact ⟨rfl, rfl, rfl, fun _ => rfl⟩

/-- The event is an execution at the price of a simulated order that is first
in its queue. -/
def Reaches (s : MmSandbox) (ev : OrderEvent) : Prop :=
  ev.isExecution = true ∧ (s.our ev.restingSide).active = true ∧ (s.our ev.restingSide).price = ev.price ∧
    (s.our ev.restingSide).atFront = true

/-- An event fills the simulated order that it reaches. Otherwise both are told
of the shares that leave. -/
theorem onEvent_spec (hmodel : s.cfg.queueModel = true) (ev : OrderEvent) (mid : Price) :
    ∃ s', s.onEvent ev mid = some s' ∧ s'.cfg = s.cfg ∧ s'.rep = s.rep ∧ s'.haveMid = s.haveMid ∧
      (Reaches s ev ∧
          (∀ side, s'.our side = if side = ev.restingSide then ((s.our side).takeFill ev.shares).2 else s.our side) ∨
        ∀ side, s'.our side = (s.our side).onSharesRemoved ev.id ev.shares) := by
  rw [onEvent]
  dsimp only
  generalize hs₁ : (if ev.isExecution = true then { s with printsSeen := s.printsSeen + 1 } else s) = s₁
  have hsame : s₁.cfg = s.cfg ∧ s₁.rep = s.rep ∧ s₁.haveMid = s.haveMid ∧ ∀ side, s₁.our side = s.our side := by
    rw [← hs₁]
    split
    · exact ⟨rfl, rfl, rfl, fun side => by cases side <;> rfl⟩
    · exact ⟨rfl, rfl, rfl, fun _ => rfl⟩
  obtain ⟨hcfg, hrep, hmid, hour⟩ := hsame
  rw [if_pos (by rw [hcfg]; exact hmodel)]
  by_cases hfront : ev.isExecution = true ∧ (s₁.our ev.restingSide).active = true ∧
      (s₁.our ev.restingSide).price = ev.price ∧ (s₁.our ev.restingSide).atFront = true
  · rw [if_pos hfront]
    obtain ⟨hcfg₂, hrep₂, hmid₂⟩ := s₁.setOur_same ev.restingSide ((s₁.our ev.restingSide).takeFill ev.shares).2
    have hour₂ := s₁.our_setOur ev.restingSide ((s₁.our ev.restingSide).takeFill ev.shares).2
    generalize s₁.setOur ev.restingSide ((s₁.our ev.restingSide).takeFill ev.shares).2 = s₂ at *
    obtain ⟨hcfg₃, hrep₃, hmid₃, hour₃⟩ := s₂.ite_mm (((s₁.our ev.restingSide).takeFill ev.shares).1 > 0)
      (s₂.mm.onFill ⟨ev.restingSide, ev.price, ((s₁.our ev.restingSide).takeFill ev.shares).1,
        s₁.rep.stats.lastTimestamp, mid⟩)
    refine ⟨_, rfl, hcfg₃.trans (hcfg₂.trans hcfg), hrep₃.trans (hrep₂.trans hrep), hmid₃.trans (hmid₂.trans hmid),
      .inl ⟨?_, fun side => ?_⟩⟩
    · rw [Reaches, ← hour]
      exact hfront
    · rw [hour₃, hour₂, ← hour]
      split
      · rename_i hs
        rw [hs]
      · rfl
  · rw [if_neg hfront]
    refine ⟨_, rfl, hcfg, hrep, hmid, .inr fun side => ?_⟩
    rw [← hour]
    cases side <;> rfl

/-- An event reaches both simulated orders. -/
theorem onEvent_told (hn : (os.map FeedOrder.reference).Nodup) (hmodel : s.cfg.queueModel = true) {m : Message}
    {ev : OrderEvent} (hp : Peeks os m (some ev)) (mid : Price) :
    ∃ s', s.onEvent ev mid = some s' ∧ s'.cfg = s.cfg ∧ s'.rep = s.rep ∧ s'.haveMid = s.haveMid ∧
      ∀ side, Told os (remnant m) side (s.our side) (s'.our side) := by
  obtain ⟨⟨o, ho, hid, hside, hprice⟩, hleft⟩ := hp
  obtain ⟨s', hs', hcfg, hrep, hmid, hour⟩ := onEvent_spec hmodel ev mid
  refine ⟨s', hs', hcfg, hrep, hmid, fun side => ?_⟩
  rcases hour with ⟨hreach, hour⟩ | hour <;> rw [hour]
  · split
    · rename_i hs
      subst hs
      -- nothing is ahead of it, so that it need not be told
      intro hq'
      have hq := QueuePosition.takeFill_active hq'
      refine ⟨hq, rfl, rfl, fun ahead _ hb => ?_⟩
      obtain rfl := (hb.atFront hq).mp hreach.2.2.2
      exact hb.takeFill ev.shares
    · rename_i hs
      refine Told.same _ fun x hx => ?_
      obtain ⟨hxos, hxq⟩ := List.mem_filter.mp hx
      rw [hleft x hxos]
      refine if_neg fun e => hs ?_
      rw [← (of_decide_eq_true hxq).1, ← hside, List.inj_on_of_nodup_map hn hxos ho (e.trans hid.symm)]
  · intro hq'
    obtain ⟨hact, hprice, hside⟩ := (s.our side).onSharesRemoved_same ev.id ev.shares
    refine ⟨hact ▸ hq', hprice, hside, fun ahead hsub hb => ?_⟩
    have hsubos := hsub.trans (queue_sublist os side _)
    rw [List.filterMap_congr fun x hx => hleft x (hsubos.mem hx)]
    exact hb.removed (hn.sublist (hsubos.map _)) ev.id ev.shares

/-! ## Quotes -/

/-- The sides `placed` are placed anew, behind all orders at their price. -/
structure Requoted (os : List FeedOrder) (s : MmSandbox) (placed : List Side) (s' : MmSandbox) : Prop where
  cfg : s'.cfg = s.cfg
  rep : s'.rep = s.rep
  haveMid : s'.haveMid = s.haveMid
  kept : ∀ side, side ∉ placed → s'.our side = s.our side
  fresh : ∀ side ∈ placed, (s'.our side).side = side ∧ Behind (s'.our side) (queue os side (s'.our side).price)

namespace Requoted

theorem refl (os : List FeedOrder) (s : MmSandbox) : Requoted os s [] s :=
  ⟨rfl, rfl, rfl, fun _ _ => rfl, nofun⟩

theorem trans {s₁ s₂ : MmSandbox} {placed placed' : List Side} (h : Requoted os s placed s₁)
    (h' : Requoted os s₁ placed' s₂) : Requoted os s (placed ++ placed') s₂ where
  cfg := h'.cfg.trans h.cfg
  rep := h'.rep.trans h.rep
  haveMid := h'.haveMid.trans h.haveMid
  kept side hs := by
    rw [List.mem_append, not_or] at hs
    exact (h'.kept side hs.2).trans (h.kept side hs.1)
  fresh side hs := by
    by_cases hs' : side ∈ placed'
    · exact h'.fresh side hs'
    · rw [h'.kept side hs']
      exact h.fresh side ((List.mem_append.mp hs).resolve_right hs')

end Requoted

theorem requote_spec {book : OrderBook MapLadder OpenAddressIdMap} {side : Side} (wants : Bool) (want : Price)
    (hbook : ordersAtLevel book side want = some ((queue os side want).map FeedOrder.entry)) :
    ∃ placed s', s.requote book side wants want = some (placed, s') ∧ Requoted os s placed s' := by
  rw [requote]
  dsimp only
  split
  · rw [hbook]
    have hb := Behind.place (s.our side).cancel want side s.cfg.mm.quoteSize (queue os side want)
    have hprice : ((s.our side).cancel.place want side s.cfg.mm.quoteSize
      ((queue os side want).map FeedOrder.entry)).price = want := rfl
    have hside : ((s.our side).cancel.place want side s.cfg.mm.quoteSize
      ((queue os side want).map FeedOrder.entry)).side = side := rfl
    simp only [Option.bind_eq_bind, Option.bind_some]
    generalize (s.our side).cancel.place want side s.cfg.mm.quoteSize ((queue os side want).map FeedOrder.entry) = q at *
    obtain ⟨hcfg, hrep, hmid⟩ := s.setOur_same side q
    have hour : ∀ side', ({ s.setOur side q with requotes := s.requotes + 1 } : MmSandbox).our side' =
        if side' = side then q else s.our side' := fun side' => by
      rw [← our_setOur]
      cases side' <;> rfl
    refine ⟨_, _, rfl, hcfg, hrep, hmid, fun side' hs => ?_, fun side' hs => ?_⟩
    · rw [hour, if_neg fun e => hs (List.mem_singleton.mpr e)]
    · obtain rfl := List.mem_singleton.mp hs
      rw [hour, if_pos rfl, hprice]
      exact ⟨hside, hb⟩
  · exact ⟨_, _, rfl, .refl os s⟩

theorem offGrid_eq (p : Price) {tick : Price} (h : tick ≠ 0) : offGrid p tick = some ((p % tick + tick) % tick) :=
  if_neg h

theorem refresh_spec (hmodel : s.cfg.queueModel = true) (htick : s.cfg.tick ≠ 0)
    (hbook : ∀ book ∈ s.rep.books.find s.cfg.symbol, ∀ side want,
      ordersAtLevel book side want = some ((queue os side want).map FeedOrder.entry)) :
    ∃ placed s₁ s', s.refresh = some (placed, s') ∧ s₁.cfg = s.cfg ∧ s₁.rep = s.rep ∧
      (∀ side, s₁.our side = s.our side) ∧ (s₁.haveMid = true ∨ s₁ = s ∧ placed = []) ∧ Requoted os s₁ placed s' := by
  rw [refresh]
  cases hf : s.rep.books.find s.cfg.symbol with
  | none => exact ⟨[], s, s, rfl, rfl, rfl, fun _ => rfl, .inr ⟨rfl, rfl⟩, .refl os s⟩
  | some book =>
    have hbook := hbook book hf
    dsimp only
    split
    · rename_i bid ask hbid hask
      generalize (bid.price + ask.price) / 2 = mid
      generalize hs₀ : (if ¬ s.haveMid = true ∨ mid ≠ s.lastMid then { s with
          mm := s.mm.onMid mid s.rep.stats.lastTimestamp, midUpdates := s.midUpdates + 1 } else s) = s₀
      have hsame : s₀.cfg = s.cfg ∧ s₀.rep = s.rep ∧ ∀ side, s₀.our side = s.our side := by
        rw [← hs₀]
        split
        · exact ⟨rfl, rfl, fun side => by cases side <;> rfl⟩
        · exact ⟨rfl, rfl, fun _ => rfl⟩
      obtain ⟨hcfg, hrep, hour⟩ := hsame
      have hmodel₀ : s₀.cfg.queueModel = true := hcfg ▸ hmodel
      have htick₀ : s₀.cfg.tick ≠ 0 := hcfg ▸ htick
      have hour₁ : ∀ side, ({ s₀ with lastMid := mid, haveMid := true } : MmSandbox).our side = s₀.our side :=
        fun side => by cases side <;> rfl
      obtain ⟨bids, s₂, hr₂, h₂⟩ := requote_spec (s := { s₀ with lastMid := mid, haveMid := true })
        s₀.mm.wantsBid (s₀.mm.bidQuote mid - (s₀.mm.bidQuote mid % s₀.cfg.tick + s₀.cfg.tick) % s₀.cfg.tick)
        (hbook .bid _)
      have htick₂ : s₂.cfg.tick ≠ 0 := h₂.cfg ▸ htick₀
      obtain ⟨want, hwant⟩ : ∃ want, snapAsk (s₂.mm.askQuote mid) s₂.cfg.tick = some want := by
        rw [snapAsk, offGrid_eq _ htick₂]
        exact ⟨_, rfl⟩
      obtain ⟨asks, s₃, hr₃, h₃⟩ := requote_spec (s := s₂) s₂.mm.wantsAsk want (hbook .ask want)
      refine ⟨bids ++ asks, { s₀ with lastMid := mid, haveMid := true }, s₃, ?_, hcfg, hrep,
        fun side => (hour₁ side).trans (hour side), .inl rfl, h₂.trans h₃⟩
      rw [if_pos hmodel₀, snapBid, offGrid_eq _ htick₀]
      simp only [Option.map_some, Option.bind_eq_bind, Option.bind_some]
      rw [hr₂]
      simp only [Option.bind_some]
      rw [hwant]
      simp only [Option.bind_some]
      rw [hr₃]
      rfl
    · exact ⟨[], s, s, rfl, rfl, rfl, fun _ => rfl, .inr ⟨rfl, rfl⟩, .refl os s⟩

/-! ## Steps -/

/-- A queue of the tracked symbol. -/
def queueAt (s : MmSandbox) (side : Side) (p : Price) : Option (List (OrderId × Qty)) :=
  (s.rep.books.walk s.cfg.symbol side).map (levelQueue p)

/-- The book of the tracked symbol has the orders `os`. -/
structure Holds (s : MmSandbox) (os : List FeedOrder) : Prop where
  books : ∃ a, Replayer.Refines (Ladder.validPrice ({} : MapLadder)) s.rep a ∧ Rel a.books os
  filter : s.rep.filter = [s.cfg.symbol.bits]
  symbol : ∀ o ∈ os, o.symbol = s.cfg.symbol
  tick : s.cfg.tick ≠ 0
  model : s.cfg.queueModel = true
  idle : s.haveMid = false → ∀ side, (s.our side).active = false

namespace Holds

variable {s' : MmSandbox}

theorem congr (h : Holds s os) (hcfg : s'.cfg = s.cfg) (hrep : s'.rep = s.rep)
    (hidle : s'.haveMid = false → ∀ side, (s'.our side).active = false) : Holds s' os where
  books := by
    rw [hrep]
    exact h.books
  filter := by
    rw [hrep, hcfg]
    exact h.filter
  symbol := by
    rw [hcfg]
    exact h.symbol
  tick := by
    rw [hcfg]
    exact h.tick
  model := by
    rw [hcfg]
    exact h.model
  idle := hidle

theorem nodup (h : Holds s os) : (os.map FeedOrder.reference).Nodup := by
  obtain ⟨a, -, hrel⟩ := h.books
  exact hrel.nodup

/-- Few orders in the books are few on the list. -/
theorem length_lt (h : Holds s os) (hb : s.rep.books.Few) : os.length < 2 ^ 32 := by
  obtain ⟨a, ha, hrel⟩ := h.books
  have hall : os.filter (fun o => o.symbol = s.cfg.symbol) = os :=
    List.filter_eq_self.mpr fun o ho => decide_eq_true (h.symbol o ho)
  have hlen := (hrel.flat s.cfg.symbol).openOrders (hrel.wf _)
  rw [FeedOrder.restingIn, List.length_map, hall] at hlen
  rw [← hlen]
  by_cases hs : s.cfg.symbol ∈ a.books.symbols
  · refine Nat.lt_of_le_of_lt ?_ hb
    rw [ha.openOrders_eq, Spec.MultiBook.total]
    exact List.le_sum_of_mem (List.mem_map_of_mem hs)
  · rw [ha.books.unseen _ hs]
    decide

theorem queueAt_eq (h : Holds s os) (hb : s.rep.books.Few) (side : Side) (p : Price) :
    s.queueAt side p = some ((queue os side p).map FeedOrder.entry) := by
  obtain ⟨a, ha, hrel⟩ := h.books
  rw [queueAt, ha.books.walk_eq hb, Option.map_some, hrel.levelQueue_eq h.symbol]

/-- What a new order is placed behind. -/
theorem orders (h : Holds s os) (hb : s.rep.books.Few) : ∀ book ∈ s.rep.books.find s.cfg.symbol, ∀ side want,
    ordersAtLevel book side want = some ((queue os side want).map FeedOrder.entry) := by
  intro book hbook side want
  obtain ⟨a, ha, hrel⟩ := h.books
  have hwalk := ha.books.walk_eq hb s.cfg.symbol side
  rw [MultiBook.walk, Option.mem_def.mp hbook, Option.elim_some] at hwalk
  rw [ordersAtLevel, hwalk, Option.map_some, hrel.ordersAt_eq h.symbol]

/-- The book takes in a message. -/
theorem receive (h : Holds s os) (hb : s.rep.books.Few) {msg : List UInt8} {m : Message} (hm : decode msg = some m) :
    ∃ out rep, s.rep.apply msg = some (out, rep) ∧ Holds { s with rep } (follow s.cfg.symbol os m) := by
  obtain ⟨a, ha, hrel⟩ := h.books
  obtain ⟨rep, hrep, ha'⟩ := ha.apply hb hm
  have hf : a.filter = [s.cfg.symbol.bits] := ha.filter.symm.trans h.filter
  refine ⟨_, rep, hrep, ⟨_, ha', ?_⟩, ?_, FeedOrder.follow_symbol h.symbol m, h.tick, h.model, h.idle⟩
  · exact Rel.follow (a := a.setStats _) (fun _ => rfl) hrel hf h.symbol m
  · rw [ha'.filter, Spec.Replayer.apply, Spec.Replayer.dispatch_filter]
    exact hf

/-- The simulated orders are told of it. -/
theorem told (h : Holds s os) {msg : List UInt8} {m : Message} (hm : decode msg = some m)
    (rep : Replayer MapLadder OpenAddressIdMap) : ∃ ev s₁, peekEvent s.rep.books msg = some ev ∧
      (match ev with
        | some ev => if s.haveMid then ({ s with rep } : MmSandbox).onEvent ev s.lastMid else some { s with rep }
        | none => some { s with rep }) = some s₁ ∧
      s₁.cfg = s.cfg ∧ s₁.rep = rep ∧ s₁.haveMid = s.haveMid ∧
      ∀ side, Told os (remnant m) side (s.our side) (s₁.our side) := by
  obtain ⟨a, ha, hrel⟩ := h.books
  obtain ⟨ev, hev, hpeeks⟩ := peek ha.books hrel hm
  refine ⟨ev, ?_⟩
  have hour : ∀ side, ({ s with rep } : MmSandbox).our side = s.our side := fun side => by cases side <;> rfl
  cases ev with
  | none =>
    refine ⟨_, hev, rfl, rfl, rfl, rfl, fun side => ?_⟩
    rw [hour]
    exact Told.same _ fun o ho => hpeeks o ((queue_sublist os side _).mem ho)
  | some ev =>
    by_cases hmid : s.haveMid = true
    · obtain ⟨s₁, hs₁, hcfg, hrep, hmid₁, htold⟩ := onEvent_told (s := { s with rep }) hrel.nodup h.model hpeeks
        s.lastMid
      refine ⟨s₁, hev, (if_pos hmid).trans hs₁, hcfg, hrep, hmid₁, fun side => ?_⟩
      rw [← hour]
      exact htold side
    · refine ⟨_, hev, if_neg hmid, rfl, rfl, rfl, fun side hq => ?_⟩
      rw [hour, h.idle (Bool.not_eq_true _ ▸ hmid) side] at hq
      cases hq

/-- Every message is processed. A simulated order is placed at the back of a
queue, or told of what the message does. -/
theorem step (h : Holds s os) (hb : s.rep.books.Few) {msg : List UInt8}
    (hb' : ∀ out rep, s.rep.apply msg = some (out, rep) → rep.books.Few) (hc : Complete msg) :
    ∃ m out placed s', decode msg = some m ∧ s.rep.apply msg = some (out, s'.rep) ∧
      s.step msg = some (placed, s') ∧ s'.cfg = s.cfg ∧ Holds s' (follow s.cfg.symbol os m) ∧
      (∀ side ∈ placed, (s'.our side).side = side ∧
        Behind (s'.our side) (queue (follow s.cfg.symbol os m) side (s'.our side).price)) ∧
      ∀ side, side ∉ placed → Told os (remnant m) side (s.our side) (s'.our side) := by
  obtain ⟨m, hm⟩ := hc.decode_some
  obtain ⟨out, rep, hrep, h₁⟩ := h.receive hb hm
  obtain ⟨ev, s₁, hev, hs₁, hcfg₁, hrep₁, hmid₁, htold⟩ := h.told hm rep
  have hidle : s₁.haveMid = false → ∀ side, (s₁.our side).active = false := fun hno side => by
    rw [← Bool.not_eq_true]
    intro hq
    have hq := (htold side hq).1
    rw [h.idle (hmid₁.symm.trans hno) side] at hq
    cases hq
  have h₂ : Holds s₁ (follow s.cfg.symbol os m) := h₁.congr hcfg₁ hrep₁ hidle
  obtain ⟨placed, s₂, s', hs', hcfg₂, hrep₂, hour₂, hmid₂, hre⟩ := refresh_spec h₂.model h₂.tick
    (h₂.orders (hrep₁ ▸ hb' out rep hrep))
  have hkept : ∀ side, side ∉ placed → s'.our side = s₁.our side := fun side hs =>
    (hre.kept side hs).trans (hour₂ side)
  refine ⟨m, out, placed, s', hm, ?_, ?_, hre.cfg.trans (hcfg₂.trans hcfg₁), ?_, hre.fresh, fun side hs => ?_⟩
  · rw [hre.rep, hrep₂, hrep₁]
    exact hrep
  · rw [MmSandbox.step]
    simp only [hev, hrep, Option.bind_eq_bind, Option.bind_some]
    cases ev with
    | none =>
      cases hs₁
      exact hs'
    | some ev =>
      dsimp only at hs₁ ⊢
      split at hs₁ <;> rename_i hmid
      · rw [if_pos hmid, hs₁]
        exact hs'
      · rw [if_neg hmid]
        cases hs₁
        exact hs'
  · refine h₂.congr (hre.cfg.trans hcfg₂) (hre.rep.trans hrep₂) fun hno side => ?_
    rcases hmid₂ with hmid₂ | ⟨rfl, rfl⟩
    · cases hno.symm.trans (hre.haveMid.trans hmid₂)
    · rw [hkept side List.not_mem_nil]
      exact hidle (hre.haveMid.symm.trans hno) side
  · rw [hkept side hs]
    exact htold side

end Holds

end MmSandbox

end Pricetime
