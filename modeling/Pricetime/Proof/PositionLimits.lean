import Pricetime.Proof.ItchWriter
import Pricetime.Proof.SandboxSteps

/-!
# Position limits

The market maker wants a side while its position is inside the limit, and only
a side that it wants is quoted. But a simulated order that is filled in part
stays where it is, and is not asked again whether its side is wanted:
`Overfills` is the event that such an order meets. Where every part of an order
that is filled leaves the position inside the limit (`Contained`), there is
none, and neither is there under the optimistic fill model.
-/

namespace Pricetime

open Itch (WriterCall)

/-! ## Positions -/

/-- A quantity as a signed number. -/
theorem toInt_qty (n : Qty) : n.toUInt64.toInt64.toInt = n.toNat := by
  have hlt := n.toNat_lt
  have hnat : n.toUInt64.toInt64.toBitVec.toNat = n.toNat := UInt32.toNat_toUInt64 n
  rw [← Int64.toInt_toBitVec, BitVec.toInt_eq_toNat_of_lt (by omega), hnat]

namespace MarketMaker

/-- A fill is recorded inside the limit of its side. -/
def Inside (m : MarketMaker) (f : FillEvent) : Prop :=
  ¬ (f.side = .bid ∧ m.position ≥ m.cfg.maxPosition) ∧ ¬ (f.side = .ask ∧ m.position ≤ -m.cfg.maxPosition)

instance (m : MarketMaker) (f : FillEvent) : Decidable (m.Inside f) := inferInstanceAs (Decidable (_ ∧ _))

theorem inside_iff {m : MarketMaker} {f : FillEvent} : m.Inside f ↔ m.wants f.side = true := by
  rw [Inside]
  cases f.side with
  | bid =>
    simp only [true_and, false_and, not_false_iff, and_true, reduceCtorEq, wants, wantsBid, decide_eq_true_eq, ge_iff_le]
    exact Int64.not_le
  | ask =>
    simp only [true_and, false_and, not_false_iff, reduceCtorEq, wants, wantsAsk, decide_eq_true_eq]
    exact Int64.not_le

/-- Each fill of a log is recorded inside the limit of its side. -/
def Limited (cfg : MarketMakerConfig) (log : List FillEvent) : Prop := Runs.Folds onFill Inside { cfg } log

instance (cfg : MarketMakerConfig) (log : List FillEvent) : Decidable (Limited cfg log) :=
  inferInstanceAs (Decidable (Runs.Folds ..))

/-- A fill of `n` shares, without overflow. -/
theorem onFill_position {m : MarketMaker} {f : FillEvent} {p : Int}
    (hp : p = m.position.toInt + if f.side = .bid then (f.qty.toNat : Int) else -f.qty.toNat) (hle : -2 ^ 63 ≤ p)
    (hlt : p < 2 ^ 63) : (m.onFill f).position.toInt = p := by
  have hqty := f.qty.toNat_lt
  rw [onFill]
  dsimp only
  split <;> rename_i hs
  · rw [if_pos hs] at hp
    rw [Int64.toInt_add, toInt_qty, ← hp]
    exact Int.bmod_eq_of_le (by omega) (by omega)
  · rw [if_neg hs] at hp
    rw [Int64.toInt_add, Int64.toInt_neg, toInt_qty, Int.bmod_eq_of_le (n := -f.qty.toNat) (by omega) (by omega), ← hp]
    exact Int.bmod_eq_of_le (by omega) (by omega)

/-- A side's limit is not reached with `n` more shares. -/
def HasRoom (m : MarketMaker) (side : Side) (n : Qty) : Prop :=
  match side with
  | .bid => m.position.toInt + n.toNat < m.cfg.maxPosition.toInt
  | .ask => -m.cfg.maxPosition.toInt < m.position.toInt - n.toNat

theorem wants_iff {m : MarketMaker} (hmax : 0 < m.cfg.maxPosition) (side : Side) :
    m.wants side = true ↔ m.HasRoom side 0 := by
  have hpos : 0 < m.cfg.maxPosition.toInt := Int64.lt_iff_toInt_lt.mp hmax
  have hlt := m.cfg.maxPosition.toInt_lt
  have hzero : (0 : Qty).toNat = 0 := rfl
  cases side with
  | bid =>
    rw [wants, wantsBid, decide_eq_true_eq, Int64.lt_iff_toInt_lt, HasRoom]
    omega
  | ask =>
    rw [wants, wantsAsk, decide_eq_true_eq, gt_iff_lt, Int64.lt_iff_toInt_lt, Int64.toInt_neg,
      Int.bmod_eq_of_le (by omega) (by omega), HasRoom]
    omega

/-- After a fill on a side that was wanted, a side is still wanted that has
room for it. The other side's limit is the farther for it. -/
theorem wants_onFill {m : MarketMaker} {f : FillEvent} {side : Side} (hmax : 0 < m.cfg.maxPosition)
    (hroom : m.cfg.maxPosition.toInt + 2 ^ 32 ≤ 2 ^ 63) (hf : m.wants f.side = true) (hside : m.wants side = true)
    (hkeep : side = f.side → m.HasRoom side f.qty) : (m.onFill f).wants side = true := by
  have hn := f.qty.toNat_lt
  have hzero : (0 : Qty).toNat = 0 := rfl
  rw [wants_iff hmax] at hf hside
  rw [wants_iff (m := m.onFill f) hmax]
  have hlo := m.position.le_toInt
  have hhi := m.position.toInt_lt
  cases hs : f.side with
  | bid =>
    rw [hs] at hf hkeep
    have hbid : m.position.toInt + (0 : Qty).toNat < m.cfg.maxPosition.toInt := hf
    have hpos : (m.onFill f).position.toInt = m.position.toInt + f.qty.toNat :=
      onFill_position (by rw [if_pos hs]) (by omega) (by omega)
    cases side with
    | bid =>
      have hleft : m.position.toInt + f.qty.toNat < m.cfg.maxPosition.toInt := hkeep rfl
      show (m.onFill f).position.toInt + (0 : Qty).toNat < m.cfg.maxPosition.toInt
      omega
    | ask =>
      have hask : -m.cfg.maxPosition.toInt < m.position.toInt - (0 : Qty).toNat := hside
      show -m.cfg.maxPosition.toInt < (m.onFill f).position.toInt - (0 : Qty).toNat
      omega
  | ask =>
    rw [hs] at hf hkeep
    have hask : -m.cfg.maxPosition.toInt < m.position.toInt - (0 : Qty).toNat := hf
    have hpos : (m.onFill f).position.toInt = m.position.toInt - f.qty.toNat :=
      onFill_position (by rw [hs, if_neg nofun, Int.sub_eq_add_neg]) (by omega) (by omega)
    cases side with
    | bid =>
      have hbid : m.position.toInt + (0 : Qty).toNat < m.cfg.maxPosition.toInt := hside
      show (m.onFill f).position.toInt + (0 : Qty).toNat < m.cfg.maxPosition.toInt
      omega
    | ask =>
      have hleft : -m.cfg.maxPosition.toInt < m.position.toInt - f.qty.toNat := hkeep rfl
      show -m.cfg.maxPosition.toInt < (m.onFill f).position.toInt - (0 : Qty).toNat
      omega

end MarketMaker

theorem QueuePosition.takeFill_left {q : QueuePosition} {n : Qty} (h : (q.takeFill n).2.active = true) :
    q.active = true ∧ n < q.remaining := by
  refine ⟨takeFill_active h, ?_⟩
  by_contra hn
  rw [takeFill] at h
  simp only [if_neg hn, UInt32.sub_self, if_true] at h
  cases h

namespace MmSandbox

variable {s s' : MmSandbox} {msg : List UInt8} {placed : List Side}

/-! ## Overfills -/

/-- A message fills a simulated order on a side that is no longer wanted. -/
def Overfills (s : MmSandbox) (msg : List UInt8) : Prop :=
  ∃ ev ∈ s.eventOf msg, s.cfg.queueModel = true ∧ s.Reaches ev ∧ 0 < ev.shares ∧
    0 < (s.our ev.restingSide).remaining ∧ s.mm.wants ev.restingSide = false

/-- A fill that leaves shares of a simulated order leaves the position inside
the limit. -/
def Contained (s : MmSandbox) (msg : List UInt8) : Prop :=
  ∀ ev ∈ s.eventOf msg, s.cfg.queueModel = true → s.Reaches ev → ev.shares < (s.our ev.restingSide).remaining →
    s.mm.HasRoom ev.restingSide ev.shares

/-- The fill of a step. It is on a side that is not wanted just when the step
overfills one. -/
theorem step_fill (h : s.step msg = some (placed, s')) : ∃ fill : Option FillEvent, s'.mm.cfg = s.mm.cfg ∧
    s'.mm.fillsLog = s.mm.fillsLog ++ fill.toList ∧ s'.mm.position = (fill.elim s.mm s.mm.onFill).position ∧
      ((∀ f ∈ fill, s.mm.wants f.side = true) ↔ ¬ Overfills s msg) := by
  obtain ⟨out, rep, s₁, fill, -, hrec, htaken, href⟩ := step_cases h
  have hmm : s₁.mm = fill.elim s.mm s.mm.onFill := hrec.mm
  refine ⟨fill, href.mmCfg.trans ?_, href.fillsLog.trans ?_, href.position.trans (congrArg _ hmm), ?_⟩
  · rw [hmm]
    cases fill <;> rfl
  · rw [hmm]
    cases fill with
    | none => exact (List.append_nil _).symm
    | some f => rfl
  · cases hev : s.eventOf msg with
    | none =>
      rw [hev] at htaken
      rw [htaken.1]
      refine ⟨fun _ => ?_, fun _ => by simp⟩
      rintro ⟨ev, he, -⟩
      cases hev.symm.trans he
    | some ev =>
      rw [hev] at htaken
      have hover : Overfills s msg ↔ s.cfg.queueModel = true ∧ s.Reaches ev ∧ 0 < ev.shares ∧
          0 < (s.our ev.restingSide).remaining ∧ s.mm.wants ev.restingSide = false := by
        rw [Overfills, hev]
        exact ⟨fun ⟨_, he, h⟩ => (Option.some.inj he) ▸ h, fun h => ⟨ev, rfl, h⟩⟩
      have hreaches : Reaches { s with rep } ev ↔ s.Reaches ev := by
        rw [Reaches, Reaches, our_rep]
      rw [hover]
      cases htaken with
      | reached model reach our =>
        have hqty : (fillOf { s with rep } ev s.lastMid).qty > 0 ↔
            0 < ev.shares ∧ 0 < (s.our ev.restingSide).remaining := by
          rw [fillOf, our_rep]
          dsimp only [QueuePosition.takeFill]
          split
          · rename_i hlt
            exact ⟨fun h => ⟨h, UInt32.lt_trans h hlt⟩, And.left⟩
          · rename_i hle
            exact ⟨fun h => ⟨UInt32.lt_of_lt_of_le h (UInt32.not_lt.mp hle), h⟩, And.right⟩
        split
        · rename_i hpos
          obtain ⟨hshares, hrem⟩ := hqty.mp hpos
          refine ⟨fun hw h => ?_, ?_⟩
          · have hside : s.mm.wants ev.restingSide = true := hw _ rfl
            rw [h.2.2.2.2] at hside
            cases hside
          · rintro hno _ ⟨⟩
            by_contra hw
            exact hno ⟨model, hreaches.mp reach, hshares, hrem, Bool.not_eq_true _ ▸ hw⟩
        · rename_i hzero
          exact ⟨fun _ h => hzero (hqty.mpr ⟨h.2.2.1, h.2.2.2.1⟩), fun _ => by simp⟩
      | told model reach our => exact ⟨fun _ h => reach (hreaches.mpr h.2.1), fun _ => by simp⟩
      | optimistic model our _ execution wants timestamp =>
        exact ⟨fun _ h => (by cases h.1.symm.trans model), fun _ => wants⟩

/-! ## Runs -/

/-- The position is what the fills of the log make of it. -/
structure Accounted (c : MarketMakerConfig) (s : MmSandbox) : Prop where
  cfg : s.mm.cfg = c
  position : (s.mm.fillsLog.foldl MarketMaker.onFill { cfg := c }).position = s.mm.position

theorem Accounted.step {c : MarketMakerConfig} (hs : Accounted c s) (h : s.step msg = some (placed, s')) :
    Accounted c s' ∧ (MarketMaker.Limited c s'.mm.fillsLog ↔
      MarketMaker.Limited c s.mm.fillsLog ∧ ¬ Overfills s msg) := by
  obtain ⟨fill, hcfg, hlog, hpos, hover⟩ := step_fill h
  have hfold : ∀ (fs : List FillEvent) (m : MarketMaker), (fs.foldl MarketMaker.onFill m).cfg = m.cfg := by
    intro fs
    induction fs with
    | nil => exact fun _ => rfl
    | cons f fs ih => exact fun m => ih (m.onFill f)
  have hwants := MarketMaker.wants_congr (m := s.mm) ((hfold s.mm.fillsLog { cfg := c }).trans hs.cfg.symm) hs.position
  rw [← hover, hlog]
  cases fill with
  | none =>
    rw [Option.toList_none, List.append_nil] at hlog ⊢
    refine ⟨⟨hcfg.trans hs.cfg, ?_⟩, (and_iff_left nofun).symm⟩
    rw [hlog, hpos]
    exact hs.position
  | some f =>
    refine ⟨⟨hcfg.trans hs.cfg, ?_⟩, ?_⟩
    · have hnext : ∀ m : MarketMaker, m.position = s.mm.position →
          (m.onFill f).position = (s.mm.onFill f).position := fun m hm => by
        rw [MarketMaker.onFill, MarketMaker.onFill, hm]
      rw [hlog, hpos, Option.toList_some, List.foldl_concat]
      exact hnext _ hs.position
    · rw [Option.toList_some, MarketMaker.Limited, Runs.folds_concat, MarketMaker.inside_iff, hwants]
      exact and_congr_right fun _ => ⟨fun h => by rintro _ ⟨⟩; exact h, fun h => h f rfl⟩

/-- A simulated order is on a side that is wanted. -/
def Wanted (s : MmSandbox) : Prop := ∀ side, (s.our side).active = true → s.mm.wants side = true

theorem Wanted.not_overfills (hs : Wanted s) : ¬ Overfills s msg := by
  rintro ⟨ev, -, -, hreach, -, -, hno⟩
  cases (hs _ hreach.2.1).symm.trans hno

/-- A simulated order that is filled is gone, or the position stays inside the
limit of its side. The other side's limit is the farther for it. -/
theorem Wanted.step (hs : Wanted s) (hmodel : s.cfg.queueModel = true) (hmax : 0 < s.mm.cfg.maxPosition)
    (hroom : s.mm.cfg.maxPosition.toInt + 2 ^ 32 ≤ 2 ^ 63) (hc : Contained s msg)
    (h : s.step msg = some (placed, s')) : Wanted s' := by
  obtain ⟨out, rep, s₁, fill, -, hrec, htaken, href⟩ := step_cases h
  have hmm : s₁.mm = fill.elim s.mm s.mm.onFill := hrec.mm
  have hwants : ∀ side, s'.mm.wants side = s₁.mm.wants side := MarketMaker.wants_congr href.mmCfg href.position
  suffices h₁ : Wanted s₁ by
    intro side hq
    rw [hwants]
    by_cases hside : side ∈ placed
    · exact href.wanted side hside
    · exact h₁ side (href.kept side hside ▸ hq)
  -- where there is no fill, orders are as active as before
  have quiet (hno : fill = none) (hour : ∀ side, (s₁.our side).active = true → (s.our side).active = true) :
      Wanted s₁ := fun side hq => by
    rw [hmm, hno]
    exact hs side (hour side hq)
  cases hev : s.eventOf msg with
  | none =>
    rw [hev] at htaken
    obtain ⟨hno, rfl⟩ := htaken
    exact quiet hno fun side hq => by rwa [our_rep] at hq
  | some ev =>
    rw [hev] at htaken
    cases htaken with
    | told model reach our =>
      refine quiet rfl fun side hq => ?_
      rw [our, our_rep] at hq
      exact ((s.our side).onSharesRemoved_same ev.id ev.shares).1 ▸ hq
    | optimistic model our _ execution wants timestamp => cases hmodel.symm.trans model
    | reached model reach our =>
      rw [Reaches, our_rep] at reach
      have hin := hs ev.restingSide reach.2.1
      have hactive : ∀ side, (s₁.our side).active = true →
          (s.our side).active = true ∧ (side = ev.restingSide → ev.shares < (s.our side).remaining) := fun side hq => by
        rw [our, our_rep] at hq
        split at hq
        · exact (QueuePosition.takeFill_left hq).imp_right fun hlt _ => hlt
        · rename_i hside
          exact ⟨hq, fun e => absurd e hside⟩
      split at hmm
      · intro side hq
        obtain ⟨hact, hleft⟩ := hactive side hq
        have hside := hs side hact
        generalize hf : fillOf { s with rep } ev s.lastMid = f at hmm
        have hfside : f.side = ev.restingSide := by rw [← hf]; rfl
        have hqty : ev.shares < (s.our ev.restingSide).remaining → f.qty = ev.shares := fun hlt => by
          rw [← hf, fillOf, our_rep]
          exact if_pos hlt
        rw [hmm]
        refine MarketMaker.wants_onFill hmax hroom (hfside ▸ hin) hside fun e => ?_
        obtain rfl := e.trans hfside
        rw [hqty (hleft rfl)]
        exact hc ev hev model reach (hleft rfl)
      · exact quiet (if_neg ‹_›) fun side hq => (hactive side hq).1

/-- The fills of a run are inside the position limits exactly when no step
overfills a side. Under the optimistic model none does. Under the queue model
none does if each fill that leaves shares of an order leaves the position
inside the limit, which is far enough from an overflow. -/
theorem position_limits {cfg : SandboxConfig} {s₀ s : MmSandbox} {msgs : List (List UInt8)}
    (h₀ : MmSandbox.new cfg = some s₀) (h : Runs.run step s₀ msgs = some s) :
    (MarketMaker.Limited cfg.mm s.mm.fillsLog ↔ Runs.Steps step (fun s msg => ¬ Overfills s msg) s₀ msgs) ∧
    (cfg.queueModel = false → MarketMaker.Limited cfg.mm s.mm.fillsLog) ∧
    (0 < cfg.mm.maxPosition → cfg.mm.maxPosition.toInt + 2 ^ 32 ≤ 2 ^ 63 → Runs.Steps step Contained s₀ msgs →
      MarketMaker.Limited cfg.mm s.mm.fillsLog) := by
  obtain ⟨hcfg, -, hmm, -, hidle⟩ := new_eq h₀
  have hacc : Accounted cfg.mm s₀ := ⟨by rw [hmm], by rw [hmm]; rfl⟩
  have hempty : MarketMaker.Limited cfg.mm s₀.mm.fillsLog := by
    rw [hmm]
    trivial
  have hiff : MarketMaker.Limited cfg.mm s.mm.fillsLog ↔
      Runs.Steps step (fun s msg => ¬ Overfills s msg) s₀ msgs := by
    rw [Runs.end_iff_steps (fun _ _ _ _ hs hstep => hs.step hstep) msgs hacc h, and_iff_right hempty]
  have optimistic (hmodel : cfg.queueModel = false) : Runs.Steps step (fun s msg => ¬ Overfills s msg) s₀ msgs := by
    refine Runs.steps_of_steps (I := fun s => s.cfg = cfg) (fun s msg hs _ hover => ?_)
      (fun s msg out s' hs _ hstep => (step_cfg hstep).trans hs) msgs hcfg (Runs.steps_true s₀ msgs)
    obtain ⟨ev, -, hqueue, -⟩ := hover
    rw [hs, hmodel] at hqueue
    cases hqueue
  refine ⟨hiff, fun hmodel => hiff.mpr (optimistic hmodel), fun hmax hroom hc => hiff.mpr ?_⟩
  cases hmodel : cfg.queueModel with
  | false => exact optimistic hmodel
  | true =>
    refine Runs.steps_of_steps (I := fun s => s.cfg = cfg ∧ Accounted cfg.mm s ∧ Wanted s)
      (fun s msg hs _ => hs.2.2.not_overfills) (fun s msg out s' hs hc hstep => ?_) msgs
      ⟨hcfg, hacc, fun side hq => nomatch (hidle side).symm.trans hq⟩ hc
    obtain ⟨hs, hacc, hw⟩ := hs
    refine ⟨(step_cfg hstep).trans hs, (hacc.step hstep).1, hw.step (hs ▸ hmodel) ?_ ?_ hc hstep⟩
    · rw [hacc.cfg]
      exact hmax
    · rw [hacc.cfg]
      exact hroom

/-- A bid of 20 shares at the front of its queue, of which `n` and then `n'`
shares are wanted by others. -/
def twoPrints (n n' : Qty) : List WriterCall :=
  [.addOrder 1 1 .bid 1 {} 100, .addOrder 2 2 .ask 100 {} 300, .addOrder 3 3 .bid 50 {} 100, .orderDelete 4 1,
    .orderExecuted 5 3 n 7, .orderExecuted 6 3 n' 8]

/-- With a limit of 10 shares, it is filled up to 5 and then to 20. -/
theorem position_limits_filled : ∃ (cfg : SandboxConfig) (s₀ s : MmSandbox),
    cfg = { symbol := {}, mm := { halfSpreadTicks := 1, quoteSize := 20, maxPosition := 10 } } ∧
    MmSandbox.new cfg = some s₀ ∧ Runs.run step s₀ ((twoPrints 5 30).map WriterCall.body) = some s ∧
    s.mm.position = 20 ∧
    Runs.Steps step (fun s msg => ¬ Overfills s msg) s₀ ((twoPrints 5 30).map WriterCall.body) := by
  have hrun : ((MmSandbox.new { symbol := {}, mm := { halfSpreadTicks := 1, quoteSize := 20, maxPosition := 10 } }).bind
      fun s => (Runs.run step s ((twoPrints 5 30).map WriterCall.body)).map fun s => (s.mm.position,
        decide (MarketMaker.Limited { halfSpreadTicks := 1, quoteSize := 20, maxPosition := 10 } s.mm.fillsLog))) =
      some (20, true) := by decide +kernel
  obtain ⟨s₀, h₀, hrun⟩ := Option.bind_eq_some_iff.mp hrun
  obtain ⟨s, hs, hview⟩ := Option.map_eq_some_iff.mp hrun
  injection hview with hposition hlimited
  exact ⟨_, s₀, s, rfl, h₀, hs, hposition, (position_limits h₀ hs).1.mp (of_decide_eq_true hlimited)⟩

/-- Filled up to 10 shares, it is filled again. -/
theorem position_limits_overfilled : ∃ (cfg : SandboxConfig) (s₀ s : MmSandbox),
    cfg = { symbol := {}, mm := { halfSpreadTicks := 1, quoteSize := 20, maxPosition := 10 } } ∧
    MmSandbox.new cfg = some s₀ ∧ Runs.run step s₀ ((twoPrints 10 5).map WriterCall.body) = some s ∧
    s.mm.fillsLog.map (fun f => (f.side, f.qty)) = [(.bid, 10), (.bid, 5)] ∧
    ¬ MarketMaker.Limited cfg.mm s.mm.fillsLog := by
  have hrun : ((MmSandbox.new { symbol := {}, mm := { halfSpreadTicks := 1, quoteSize := 20, maxPosition := 10 } }).bind
      fun s => (Runs.run step s ((twoPrints 10 5).map WriterCall.body)).map fun s =>
        (s.mm.fillsLog.map (fun f => (f.side, f.qty)),
          decide (MarketMaker.Limited { halfSpreadTicks := 1, quoteSize := 20, maxPosition := 10 } s.mm.fillsLog))) =
      some ([(.bid, 10), (.bid, 5)], false) := by decide +kernel
  obtain ⟨s₀, h₀, hrun⟩ := Option.bind_eq_some_iff.mp hrun
  obtain ⟨s, hs, hview⟩ := Option.map_eq_some_iff.mp hrun
  injection hview with hfills hlimited
  exact ⟨_, s₀, s, rfl, h₀, hs, hfills, of_decide_eq_false hlimited⟩

end MmSandbox

end Pricetime
