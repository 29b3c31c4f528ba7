import Pricetime.Proof.ItchWriter
import Pricetime.Proof.MmSandbox

/-!
# Queue positions are exact

The orders recorded ahead of a simulated order are those that have not left
the queue since it was placed. `Since` says so of one side, with the history
of the run: the step that placed it last, and the messages since. A step either
places the side anew (`Since.fresh`), or takes the orders ahead to what the
message leaves of them (`Since.told`).
-/

namespace Pricetime

open Itch (Message Complete Replayer WriterCall decode)
open Spec (FeedOrder Rel)
open Spec.FeedOrder (queue remnant follow Replaces)
open Runs (Exec)

namespace MmSandbox

/-! ## Histories -/

/-- An order of the tracked symbol rests at a price. -/
def RestsAt (side : Side) (p : Price) (id : OrderId) (s : MmSandbox) : Prop :=
  ∃ q ∈ s.queueAt side p, id ∈ q.map Prod.fst

/-- The run of `msgs` from `s₀` to `s` placed the simulated order of a side for
the last time in the step to `s₂`, before the messages `after`. -/
structure LastPlaced (s₀ : MmSandbox) (side : Side) (msgs : List (List UInt8)) (s₂ : MmSandbox)
    (after : List (List UInt8)) (s : MmSandbox) : Prop where
  placed : ∃ before msg outs s₁ sides, msgs = before ++ msg :: after ∧ Exec step s₀ before outs s₁ ∧
    step s₁ msg = some (sides, s₂) ∧ side ∈ sides
  since : ∃ outs, Exec step s₂ after outs s ∧ ∀ sides ∈ outs, side ∉ sides

/-- An order rests at a price all along the run of `after` from `s₂`: no
message ends it, and none replaces it under its own reference. -/
structure Stays (side : Side) (p : Price) (id : OrderId) (s₂ : MmSandbox) (after : List (List UInt8)) : Prop where
  rests : Runs.Along step (RestsAt side p id) s₂ after
  unreplaced : ∀ msg ∈ after, ∀ m ∈ decode msg, ¬ Replaces id m

section History

variable {s₀ s₂ s s' : MmSandbox} {side : Side} {p : Price} {id : OrderId} {past after : List (List UInt8)}
  {placed : List Side} {outs : List (List Side)} {msg : List UInt8} {os : List FeedOrder}

theorem LastPlaced.now (he : Exec step s₀ past outs s) (hs : step s msg = some (placed, s')) (hside : side ∈ placed) :
    LastPlaced s₀ side (past ++ [msg]) s' [] s' :=
  ⟨⟨past, msg, outs, s, placed, rfl, he, hs, hside⟩, [], .nil s', nofun⟩

theorem LastPlaced.later (h : LastPlaced s₀ side past s₂ after s) (hs : step s msg = some (placed, s'))
    (hside : side ∉ placed) : LastPlaced s₀ side (past ++ [msg]) s₂ (after ++ [msg]) s' := by
  obtain ⟨before, msg₁, outs₁, s₁, sides, rfl, he₁, hs₁, hsides⟩ := h.placed
  obtain ⟨outs, he, hno⟩ := h.since
  refine ⟨⟨before, msg₁, outs₁, s₁, sides, List.append_assoc .., he₁, hs₁, hsides⟩, outs ++ [placed], he.concat hs, ?_⟩
  rw [List.forall_mem_append, List.forall_mem_singleton]
  exact ⟨hno, hside⟩

theorem stays_nil : Stays side p id s [] ↔ RestsAt side p id s :=
  ⟨fun h => h.rests, fun h => ⟨h, nofun⟩⟩

theorem stays_concat {m : Message} (he : Exec step s₂ after outs s) (hs : step s msg = some (placed, s'))
    (hm : decode msg = some m) : Stays side p id s₂ (after ++ [msg]) ↔
      Stays side p id s₂ after ∧ RestsAt side p id s' ∧ ¬ Replaces id m := by
  constructor
  · intro h
    obtain ⟨hrests, hlast⟩ := (he.along_concat hs).mp h.rests
    exact ⟨⟨hrests, fun x hx => h.unreplaced x (List.mem_append_left _ hx)⟩, hlast,
      h.unreplaced msg (List.mem_append_right _ List.mem_cons_self) m hm⟩
  · rintro ⟨h, hlast, hno⟩
    refine ⟨(he.along_concat hs).mpr ⟨h.rests, hlast⟩, ?_⟩
    rw [List.forall_mem_append, List.forall_mem_singleton]
    refine ⟨h.unreplaced, fun m' hm' => ?_⟩
    cases hm.symm.trans hm'
    exact hno

theorem Holds.restsAt_iff (h : Holds s os) (hb : s.rep.books.Few) :
    RestsAt side p id s ↔ id ∈ (queue os side p).map FeedOrder.reference := by
  rw [RestsAt, h.queueAt_eq hb]
  simp only [Option.mem_some_iff, exists_eq_left', map_entry_fst]

end History

/-! ## The orders ahead -/

/-- The simulated order of a side is behind the orders that have stayed since it
was placed, and these come first in the queue. -/
def Since (s₀ : MmSandbox) (side : Side) (past : List (List UInt8)) (s : MmSandbox) (os : List FeedOrder) : Prop :=
  (s.our side).side = side ∧ ∃ s₂ after ahead later, LastPlaced s₀ side past s₂ after s ∧
    queue os side (s.our side).price = ahead ++ later ∧ Behind (s.our side) ahead ∧
    ∀ id, id ∈ ahead.map FeedOrder.reference ↔ Stays side (s.our side).price id s₂ after

section Ahead

variable {s₀ s s' : MmSandbox} {side : Side} {past : List (List UInt8)} {placed : List Side}
  {outs : List (List Side)} {msg : List UInt8} {os os' : List FeedOrder}

/-- A new order is behind all orders in the queue. -/
theorem Since.fresh (he : Exec step s₀ past outs s) (hs : step s msg = some (placed, s')) (hside : side ∈ placed)
    (h' : Holds s' os') (hb' : s'.rep.books.Few)
    (hp : (s'.our side).side = side ∧ Behind (s'.our side) (queue os' side (s'.our side).price)) :
    Since s₀ side (past ++ [msg]) s' os' := by
  refine ⟨hp.1, s', [], _, [], .now he hs hside, (List.append_nil _).symm, hp.2, fun id => ?_⟩
  rw [stays_nil, h'.restsAt_iff hb']

/-- The orders ahead that a message leaves in the queue are still ahead. -/
theorem Since.told (h : Since s₀ side past s os) (hos : Holds s os) {m : Message} (hm : decode msg = some m)
    (hs : step s msg = some (placed, s')) (hside : side ∉ placed)
    (h' : Holds s' (follow s.cfg.symbol os m)) (hb' : s'.rep.books.Few)
    (ht : Told os (remnant m) side (s.our side) (s'.our side)) (hq : (s'.our side).active = true) :
    Since s₀ side (past ++ [msg]) s' (follow s.cfg.symbol os m) := by
  obtain ⟨-, hprice, hsame, htold⟩ := ht hq
  obtain ⟨hown, s₂, after, ahead, later, hlast, hqueue, hb, hstays⟩ := h
  obtain ⟨outs, he, -⟩ := hlast.since
  obtain ⟨new, hnew, -⟩ := FeedOrder.follow_eq s.cfg.symbol os m
  have hqueue' := FeedOrder.queue_follow hnew hqueue
  have hsub : ahead.Sublist (queue os side (s.our side).price) := hqueue ▸ List.sublist_append_left ..
  refine ⟨hsame.trans hown, s₂, after ++ [msg], _, _, hlast.later hs hside, hprice ▸ hqueue', htold ahead hsub hb,
    fun id => ?_⟩
  · rw [hprice, stays_concat he hs hm, ← hstays, h'.restsAt_iff hb']
    exact FeedOrder.mem_remnants hos.nodup hqueue m id

end Ahead

/-! ## Runs -/

/-- What is known after the messages `past`. -/
structure Tracked (s₀ : MmSandbox) (past : List (List UInt8)) (s : MmSandbox) (os : List FeedOrder) : Prop where
  holds : Holds s os
  exec : ∃ outs, Exec step s₀ past outs s
  since : ∀ side, (s.our side).active = true → Since s₀ side past s os

namespace Tracked

variable {s₀ s : MmSandbox} {past : List (List UInt8)} {os : List FeedOrder}

theorem step (h : Tracked s₀ past s os) {msg : List UInt8} (hc : Complete msg) {msgs : List (List UInt8)}
    (hfew : Runs.Along Replayer.apply (fun r => r.books.Few) s.rep (msg :: msgs)) :
    ∃ placed s' os', MmSandbox.step s msg = some (placed, s') ∧ Tracked s₀ (past ++ [msg]) s' os' ∧
      Runs.Along Replayer.apply (fun r => r.books.Few) s'.rep msgs := by
  obtain ⟨m, out, placed, s', hm, hrep, hs, -, h', hplaced, htold⟩ := h.holds.step hfew.head
    (fun out rep hr => (hfew.2 out rep hr).head) hc
  have hfew' := hfew.2 out s'.rep hrep
  obtain ⟨outs, he⟩ := h.exec
  refine ⟨placed, s', _, hs, ⟨h', ⟨_, he.concat hs⟩, fun side hq => ?_⟩, hfew'⟩
  by_cases hside : side ∈ placed
  · exact .fresh he hs hside h' hfew'.head (hplaced side hside)
  · have ht := htold side hside
    exact (h.since side (ht hq).1).told h.holds hm hs hside h' hfew'.head ht hq

theorem run : ∀ {past : List (List UInt8)} {s : MmSandbox} {os : List FeedOrder} (msgs : List (List UInt8)),
    Tracked s₀ past s os → (∀ msg ∈ msgs, Complete msg) →
    Runs.Along Replayer.apply (fun r => r.books.Few) s.rep msgs →
    ∃ s' os', Runs.run MmSandbox.step s msgs = some s' ∧ Tracked s₀ (past ++ msgs) s' os' ∧ s'.rep.books.Few
  | past, s, os, [], h, _, hfew => ⟨s, os, rfl, (List.append_nil past).symm ▸ h, hfew⟩
  | past, s, os, msg :: msgs, h, hc, hfew => by
    obtain ⟨placed, s₁, os₁, hs, h₁, hfew₁⟩ := h.step (hc msg List.mem_cons_self) hfew
    obtain ⟨s', os', hs', h', hb'⟩ := h₁.run msgs (fun x hx => hc x (List.mem_cons_of_mem _ hx)) hfew₁
    rw [List.append_assoc] at h'
    exact ⟨s', os', (Runs.run_cons hs msgs).trans hs', h', hb'⟩

end Tracked

theorem new_tracked {cfg : SandboxConfig} (htick : 1 ≤ cfg.tick) (hmodel : cfg.queueModel = true) :
    ∃ s₀, MmSandbox.new cfg = some s₀ ∧ Tracked s₀ [] s₀ [] := by
  obtain ⟨r, hr, h⟩ := Replayer.new_refines (M := OpenAddressIdMap) MapLadder.vacant
  refine ⟨{ cfg, rep := r.trackOnly [cfg.symbol], mm := { cfg := cfg.mm } }, by rw [MmSandbox.new, hr]; rfl,
    ⟨⟨_, h.trackOnly [cfg.symbol], Rel.empty⟩, rfl, nofun, ?_, hmodel, fun _ side => by cases side <;> rfl⟩,
    ⟨[], .nil _⟩, fun side hq => ?_⟩
  · rintro (e : cfg.tick = 0)
    rw [e] at htick
    exact absurd htick (by decide)
  · cases side <;> cases hq

/-- In every run of complete messages, an active simulated order has recorded
the orders that have stayed in its queue since it was last placed, with the
shares that they now have. These are the first ones of the queue. -/
theorem queue_exact {cfg : SandboxConfig} (htick : 1 ≤ cfg.tick) (hmodel : cfg.queueModel = true) {s₀ : MmSandbox}
    (h₀ : MmSandbox.new cfg = some s₀) (msgs : List (List UInt8)) (hc : ∀ msg ∈ msgs, Complete msg)
    (hfew : Runs.Along Replayer.apply (fun r => r.books.Few) s₀.rep msgs) :
    ∃ s, Runs.run step s₀ msgs = some s ∧ ∀ side, (s.our side).active = true →
      (s.our side).side = side ∧ ∃ s₂ after ahead later, LastPlaced s₀ side msgs s₂ after s ∧
        s.queueAt side (s.our side).price = some (ahead ++ later) ∧ ((ahead ++ later).map Prod.fst).Nodup ∧
        (∀ e ∈ ahead ++ later, e ∈ ahead ↔ Stays side (s.our side).price e.1 s₂ after) ∧
        ((s.our side).ahead.map Prod.fst).Nodup ∧ (∀ e, e ∈ (s.our side).ahead ↔ e ∈ ahead) ∧
        (s.our side).sharesAhead.toNat = (ahead.map fun e => e.2.toNat).sum ∧
        ((s.our side).atFront = true ↔ ahead = []) := by
  obtain ⟨s₀', h₀', ht⟩ := new_tracked htick hmodel
  cases h₀.symm.trans h₀'
  obtain ⟨s, os, hs, h, hb⟩ := ht.run msgs hc hfew
  rw [List.nil_append] at h
  refine ⟨s, hs, fun side hq => ?_⟩
  obtain ⟨hside, s₂, after, ahead, later, hlast, hqueue, hbehind, hstays⟩ := h.since side hq
  have hsub : (ahead ++ later).Sublist os := hqueue ▸ queue_sublist os side _
  have hnd : ((ahead ++ later).map FeedOrder.reference).Nodup := h.holds.nodup.sublist (hsub.map _)
  have hlen : ahead.length < 2 ^ 32 :=
    Nat.lt_of_le_of_lt ((List.sublist_append_left ahead later).trans hsub).length_le (h.holds.length_lt hb)
  refine ⟨hside, s₂, after, ahead.map FeedOrder.entry, later.map FeedOrder.entry, hlast, ?_, ?_, ?_, ?_, ?_,
    hbehind.toNat_sharesAhead hlen, ?_⟩
  · rw [h.holds.queueAt_eq hb, hqueue, List.map_append]
  · rw [← List.map_append, map_entry_fst]
    exact hnd
  · rw [← List.map_append]
    intro e he
    obtain ⟨o, ho, rfl⟩ := List.mem_map.mp he
    rw [← hstays]
    constructor
    · intro hin
      obtain ⟨x, hx, hxo⟩ := List.mem_map.mp hin
      exact List.mem_map.mpr ⟨x, hx, congrArg Prod.fst hxo⟩
    · intro hin
      obtain ⟨x, hx, hxo⟩ := List.mem_map.mp hin
      rw [← List.inj_on_of_nodup_map hnd (List.mem_append_left _ hx) ho hxo]
      exact List.mem_map_of_mem hx
  · rw [hbehind.ahead, map_entry_fst]
    exact hnd.sublist ((List.sublist_append_left ..).map _)
  · rw [hbehind.ahead]
    exact fun _ => Iff.rfl
  · rw [hbehind.atFront hq, List.map_eq_nil_iff]

/-- A bid behind an order of 100 shares, of which 30 trade, and before another
order at its price. -/
theorem queue_exact_behind : ∃ (calls : List WriterCall) (s₀ s : MmSandbox) (ahead later : List (OrderId × Qty)),
    calls = [.addOrder 0 1 .bid 100 {} 100, .addOrder 0 2 .ask 100 {} 300, .addOrder 0 3 .bid 50 {} 100,
      .orderExecuted 0 1 30 7] ∧
    MmSandbox.new { symbol := {} } = some s₀ ∧ Runs.run step s₀ (calls.map WriterCall.body) = some s ∧
    s.ourBid.active = true ∧ s.queueAt .bid s.ourBid.price = some (ahead ++ later) ∧
    (∀ e, e ∈ s.ourBid.ahead ↔ e ∈ ahead) ∧ s.ourBid.sharesAhead.toNat = (ahead.map fun e => e.2.toNat).sum := by
  obtain ⟨r, hr, h⟩ := Replayer.new_refines (M := OpenAddressIdMap) MapLadder.vacant
  have h₀ : MmSandbox.new { symbol := {} } = some
      { cfg := { symbol := {} }, rep := r.trackOnly [{}], mm := { cfg := { halfSpreadTicks := 1 } } } := by
    rw [MmSandbox.new, hr]
    rfl
  have hfew := (h.trackOnly [{}]).along_few_of_empty rfl (List.map WriterCall.body
    [.addOrder 0 1 .bid 100 {} 100, .addOrder 0 2 .ask 100 {} 300, .addOrder 0 3 .bid 50 {} 100,
      .orderExecuted 0 1 30 7]) (by decide)
  obtain ⟨s, hs, hexact⟩ := queue_exact (by decide) rfl h₀ _ (Itch.body_complete _) hfew
  have hrun : ((MmSandbox.new { symbol := {} }).bind fun s => (Runs.run step s (List.map WriterCall.body
      [.addOrder 0 1 .bid 100 {} 100, .addOrder 0 2 .ask 100 {} 300, .addOrder 0 3 .bid 50 {} 100,
        .orderExecuted 0 1 30 7])).map fun s => s.ourBid.active) = some true := by decide +kernel
  rw [h₀, Option.bind_some, hs, Option.map_some] at hrun
  have hactive := Option.some.inj hrun
  obtain ⟨-, s₂, after, ahead, later, -, hqueue, -, -, -, hahead, hshares, -⟩ := hexact .bid hactive
  exact ⟨_, _, s, ahead, later, rfl, h₀, hs, hactive, hqueue, hahead, hshares⟩

end MmSandbox

end Pricetime
