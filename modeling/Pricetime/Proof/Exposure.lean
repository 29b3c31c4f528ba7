import Pricetime.Proof.PositionLimits

/-!
# Exposure

The position limit is only asked for when an order is placed or a print fills
it at once, so a position can pass it (`Overfills`). This is how far: a side is
quoted while the position is inside the limit, and with no more than the quote
size, and what is left of an order and what was filled of it stay the same
together. So the position stays inside the limit and one quote, in either fill
model and whatever the feed says.

`peak_abs_position` adds the fills of the log up anew. It is the greatest
absolute position of the run.
-/

namespace Pricetime

open Itch (WriterCall)

namespace MarketMaker

/-- The position, counted in the direction of a side's fills. -/
def toward (m : MarketMaker) : Side → Int
  | .bid => m.position.toInt
  | .ask => -m.position.toInt

/-- The position limit and one more quote. -/
def reach (cfg : MarketMakerConfig) : Int := cfg.maxPosition.toInt + cfg.quoteSize.toNat

/-- With a positive limit, a side that is wanted has its position inside it. -/
theorem wants_iff_toward {m : MarketMaker} (hmax : 0 < m.cfg.maxPosition) (side : Side) :
    m.wants side = true ↔ m.toward side < m.cfg.maxPosition.toInt := by
  rw [wants_iff hmax]
  have hzero : (0 : Qty).toNat = 0 := rfl
  cases side <;> simp only [HasRoom, toward] <;> omega

theorem toward_congr {m m' : MarketMaker} (h : m'.position = m.position) (side : Side) :
    m'.toward side = m.toward side := by
  cases side <;> rw [toward, toward, h]

/-- A fill moves the position toward its side, and away from the other. -/
theorem toward_onFill {m : MarketMaker} {f : FillEvent} (hin : ∀ side, m.toward side < 2 ^ 63)
    (hlt : m.toward f.side + f.qty.toNat < 2 ^ 63) (side : Side) : (m.onFill f).toward side =
      if side = f.side then m.toward side + f.qty.toNat else m.toward side - f.qty.toNat := by
  have hbid : m.position.toInt < 2 ^ 63 := hin .bid
  have hask : -m.position.toInt < 2 ^ 63 := hin .ask
  have hlo := m.position.le_toInt
  cases hs : f.side with
  | bid =>
    have hnext : m.position.toInt + f.qty.toNat < 2 ^ 63 := by rwa [hs] at hlt
    have hpos : (m.onFill f).position.toInt = m.position.toInt + f.qty.toNat :=
      onFill_position (by rw [if_pos hs]) (by omega) hnext
    cases side <;> simp only [toward, hpos, if_true, reduceCtorEq, if_false]
    omega
  | ask =>
    have hnext : -m.position.toInt + f.qty.toNat < 2 ^ 63 := by rwa [hs] at hlt
    have hpos : (m.onFill f).position.toInt = m.position.toInt - f.qty.toNat :=
      onFill_position (by rw [hs, if_neg nofun, Int.sub_eq_add_neg]) (by omega) (by omega)
    cases side <;> simp only [toward, hpos, if_true, reduceCtorEq, if_false]
    omega

end MarketMaker

/-- What an order has left pays for what is filled of it. -/
theorem QueuePosition.takeFill_total (q : QueuePosition) (n : Qty) :
    (q.takeFill n).1.toNat + (q.takeFill n).2.remaining.toNat = q.remaining.toNat := by
  rw [takeFill]
  dsimp only
  split
  · rename_i hlt
    rw [UInt32.toNat_sub_of_le _ _ (UInt32.le_of_lt hlt)]
    have hle : n.toNat < q.remaining.toNat := UInt32.lt_iff_toNat_lt.mp hlt
    omega
  · rw [UInt32.sub_self]
    rfl

theorem QueuePosition.onSharesRemoved_remaining (q : QueuePosition) (id : OrderId) (shares : Qty) :
    (q.onSharesRemoved id shares).remaining = q.remaining := by
  rw [onSharesRemoved]
  split <;> rfl

namespace MmSandbox

variable {c : MarketMakerConfig} {s s' : MmSandbox} {msg : List UInt8} {placed : List Side}

/-! ## The bound -/

/-- The position is short of the bound, and so it is with all that is left of
a simulated order. -/
structure Exposed (c : MarketMakerConfig) (s : MmSandbox) : Prop where
  cfg : s.mm.cfg = c
  quote : s.cfg.mm = c
  position : ∀ side, s.mm.toward side < MarketMaker.reach c
  working : s.cfg.queueModel = true → ∀ side, (s.our side).active = true →
    s.mm.toward side + (s.our side).remaining.toNat < MarketMaker.reach c

theorem Exposed.start {cfg : SandboxConfig} (h : MmSandbox.new cfg = some s) (hmax : 0 < cfg.mm.maxPosition) :
    Exposed cfg.mm s := by
  obtain ⟨hcfg, -, hmm, -, hidle⟩ := new_eq h
  have hpos : 0 < cfg.mm.maxPosition.toInt := Int64.lt_iff_toInt_lt.mp hmax
  refine ⟨by rw [hmm], by rw [hcfg], fun side => ?_, fun _ side ha => ?_⟩
  · rw [hmm, MarketMaker.reach]
    have hzero : (0 : Int64).toInt = 0 := rfl
    cases side <;> simp only [MarketMaker.toward, hzero] <;> omega
  · rw [hidle] at ha
    cases ha

/-- The fill of a step and the orders after it stay short of the bound. -/
theorem Exposed.taken {ev : OrderEvent} {mid : Price} {fill : Option FillEvent} (hs : Exposed c s)
    (hmax : 0 < c.maxPosition) (hroom : c.maxPosition.toInt + 2 ^ 32 ≤ 2 ^ 63) (hrec : Recorded s fill s')
    (h : Taken s ev mid s' fill) : Exposed c s' := by
  have hmm : s'.mm = fill.elim s.mm s.mm.onFill := hrec.mm
  have hsize := c.quoteSize.toNat_lt
  have hreach : MarketMaker.reach c = c.maxPosition.toInt + c.quoteSize.toNat := rfl
  have hin : ∀ side, s.mm.toward side < 2 ^ 63 := fun side => by
    have hp := hs.position side
    omega
  have hquote : s'.cfg.mm = c := hrec.cfg ▸ hs.quote
  cases h with
  | told model reach our =>
    refine ⟨hmm ▸ hs.cfg, hquote, fun side => hmm ▸ hs.position side, fun hm side ha => ?_⟩
    rw [our, ((s.our side).onSharesRemoved_same ev.id ev.shares).1] at ha
    rw [our, QueuePosition.onSharesRemoved_remaining, hmm]
    exact hs.working (hrec.cfg ▸ hm) side ha
  | optimistic model our _ execution wants timestamp size =>
    have hnone : s'.cfg.queueModel = false := hrec.cfg ▸ model
    cases fill with
    | none => exact ⟨hmm ▸ hs.cfg, hquote, fun side => hmm ▸ hs.position side, fun hm => by cases hnone.symm.trans hm⟩
    | some f =>
      have hwant := (MarketMaker.wants_iff_toward (hs.cfg.symm ▸ hmax) f.side).mp (wants f rfl)
      rw [hs.cfg] at hwant
      have hqty := UInt32.le_iff_toNat_le.mp (size f rfl)
      rw [hs.quote] at hqty
      refine ⟨hmm ▸ hs.cfg, hquote, fun side => ?_, fun hm => by cases hnone.symm.trans hm⟩
      rw [hmm, Option.elim_some, MarketMaker.toward_onFill hin (by omega)]
      have hp := hs.position side
      split
      · rename_i e
        rw [e]
        omega
      · omega
  | reached model reach our =>
    have hwork := hs.working model ev.restingSide reach.2.1
    have htotal := QueuePosition.takeFill_total (s.our ev.restingSide) ev.shares
    have hqty : (s.fillOf ev mid).qty = ((s.our ev.restingSide).takeFill ev.shares).1 := rfl
    rw [← hqty] at htotal
    -- with the fill or, when it is of no shares, without it
    have hpos : ∀ side, s'.mm.toward side =
        if side = ev.restingSide then s.mm.toward side + (s.fillOf ev mid).qty.toNat
        else s.mm.toward side - (s.fillOf ev mid).qty.toNat := fun side => by
      split at hmm
      · rw [hmm, Option.elim_some]
        exact MarketMaker.toward_onFill hin (by rw [show (s.fillOf ev mid).side = ev.restingSide from rfl]; omega) side
      · rename_i hzero
        have hn : (s.fillOf ev mid).qty.toNat = 0 := by
          have hle := UInt32.le_iff_toNat_le.mp (UInt32.not_lt.mp hzero)
          exact Nat.le_zero.mp hle
        rw [hmm, hn, Option.elim_none]
        split <;> omega
    refine ⟨?_, hquote, fun side => ?_, fun _ side ha => ?_⟩
    · rw [hmm]
      split <;> exact hs.cfg
    · have hp := hs.position side
      rw [hpos]
      split
      · rename_i e
        rw [e]
        omega
      · omega
    · rw [our] at ha ⊢
      rw [hpos]
      split at ha
      · rename_i e
        rw [if_pos e, if_pos e, e]
        omega
      · rename_i e
        rw [if_neg e, if_neg e]
        have hother := hs.working model side ha
        omega

/-- Orders that are placed are on sides that are wanted, of the quote size. -/
theorem Exposed.refreshed (hs : Exposed c s) (hmax : 0 < c.maxPosition) (h : Refreshed s placed s') : Exposed c s' := by
  have hpos := MarketMaker.toward_congr h.position
  refine ⟨h.mmCfg.trans hs.cfg, h.cfg ▸ hs.quote, fun side => (hpos side).symm ▸ hs.position side, fun hm side ha => ?_⟩
  rw [hpos]
  by_cases hside : side ∈ placed
  · have hwant := (MarketMaker.wants_iff_toward (hs.cfg.symm ▸ hmax) side).mp (h.wanted side hside)
    rw [h.size side hside, hs.quote, MarketMaker.reach]
    rw [hs.cfg] at hwant
    omega
  · rw [h.kept side hside] at ha ⊢
    exact hs.working (h.cfg ▸ hm) side ha

theorem Exposed.step (hs : Exposed c s) (hmax : 0 < c.maxPosition) (hroom : c.maxPosition.toInt + 2 ^ 32 ≤ 2 ^ 63)
    (h : s.step msg = some (placed, s')) : Exposed c s' := by
  obtain ⟨out, rep, s₁, fill, -, hrec, htaken, href⟩ := step_cases h
  have hread : Exposed c { s with rep } := ⟨hs.cfg, hs.quote, hs.position, fun hm side ha => by
    rw [our_rep] at ha ⊢
    exact hs.working hm side ha⟩
  refine Exposed.refreshed ?_ hmax href
  cases hev : s.eventOf msg with
  | none =>
    rw [hev] at htaken
    exact htaken.2 ▸ hread
  | some ev =>
    rw [hev] at htaken
    exact hread.taken hmax hroom hrec htaken

/-! ## The peak -/

/-- The absolute position. -/
def exposure (s : MmSandbox) : Nat := s.mm.position.toInt.natAbs

theorem Exposed.exposure_lt (hs : Exposed c s) : s.exposure < MarketMaker.reach c := by
  have hbid : s.mm.position.toInt < MarketMaker.reach c := hs.position .bid
  have hask : -s.mm.position.toInt < MarketMaker.reach c := hs.position .ask
  rw [exposure]
  omega

/-- The peak of the log is a position that was held, and none that was is
greater. -/
structure Peaked (c : MarketMakerConfig) (s : MmSandbox) : Prop where
  exposed : Exposed c s
  position : (s.mm.fillsLog.foldl MarketMaker.notePeak (0, 0)).2 = s.mm.position
  held : s.exposure ≤ s.mm.peakAbsPosition.toInt
  bound : s.mm.peakAbsPosition.toInt < MarketMaker.reach c

theorem toInt_abs {p : Int64} (h : -p.toInt < 2 ^ 63) : (if p < 0 then -p else p).toInt = p.toInt.natAbs := by
  have hzero : (0 : Int64).toInt = 0 := rfl
  have hlt := p.toInt_lt
  split
  · rename_i hneg
    have hneg := Int64.lt_iff_toInt_lt.mp hneg
    rw [Int64.toInt_neg, Int.bmod_eq_of_le (by omega) (by omega)]
    omega
  · rename_i hpos
    have hpos := Int64.le_iff_toInt_le.mp (Int64.not_lt.mp hpos)
    omega

theorem Peaked.step (hs : Peaked c s) (hmax : 0 < c.maxPosition) (hroom : c.maxPosition.toInt + 2 ^ 32 ≤ 2 ^ 63)
    (h : s.step msg = some (placed, s')) : Peaked c s' ∧
      s'.mm.peakAbsPosition.toInt.toNat = max s.mm.peakAbsPosition.toInt.toNat s'.exposure := by
  have hexposed := hs.exposed.step hmax hroom h
  have hlt := hexposed.exposure_lt
  have hsize := c.quoteSize.toNat_lt
  have hreach : MarketMaker.reach c = c.maxPosition.toInt + c.quoteSize.toNat := rfl
  have hheld := hs.held
  have hbound := hs.bound
  obtain ⟨fill, -, hlog, hpos, -⟩ := step_fill h
  cases fill with
  | none =>
    rw [Option.toList_none, List.append_nil] at hlog
    have hpeak : s'.mm.peakAbsPosition = s.mm.peakAbsPosition := by
      rw [MarketMaker.peakAbsPosition, MarketMaker.peakAbsPosition, hlog]
    have hsame : s'.exposure = s.exposure := by rw [exposure, exposure, hpos, Option.elim_none]
    refine ⟨⟨hexposed, by rw [hlog, hs.position, hpos]; rfl, ?_, ?_⟩, ?_⟩ <;> rw [hpeak]
    · rwa [hsame]
    · exact hbound
    · omega
  | some f =>
    rw [Option.toList_some] at hlog
    rw [Option.elim_some] at hpos
    have hnote : s'.mm.fillsLog.foldl MarketMaker.notePeak (0, 0) =
        (if (if s'.mm.position < 0 then -s'.mm.position else s'.mm.position) > s.mm.peakAbsPosition then
          (if s'.mm.position < 0 then -s'.mm.position else s'.mm.position) else s.mm.peakAbsPosition,
            s'.mm.position) := by
      rw [hlog, List.foldl_concat, MarketMaker.notePeak, hs.position, hpos]
      rfl
    have habs : (if s'.mm.position < 0 then -s'.mm.position else s'.mm.position).toInt = s'.exposure :=
      toInt_abs (by rw [exposure] at hlt; omega)
    generalize (if s'.mm.position < 0 then -s'.mm.position else s'.mm.position) = a at hnote habs
    have hpeak : s'.mm.peakAbsPosition.toInt = max s.mm.peakAbsPosition.toInt s'.exposure := by
      rw [MarketMaker.peakAbsPosition, hnote]
      dsimp only
      split
      · rename_i hgt
        have hgt := Int64.lt_iff_toInt_lt.mp hgt
        omega
      · rename_i hle
        have hle := Int64.le_iff_toInt_le.mp (Int64.not_lt.mp hle)
        omega
    refine ⟨⟨hexposed, by rw [hnote], ?_, ?_⟩, ?_⟩ <;> omega

/-- In every run of the sandbox, in either fill model, the position stays inside
the limit and one quote, and `peak_abs_position` is the greatest absolute
position that was held. -/
theorem peak_bounded {cfg : SandboxConfig} {s₀ s : MmSandbox} {msgs : List (List UInt8)}
    (h₀ : MmSandbox.new cfg = some s₀) (h : Runs.run step s₀ msgs = some s) (hmax : 0 < cfg.mm.maxPosition)
    (hroom : cfg.mm.maxPosition.toInt + 2 ^ 32 ≤ 2 ^ 63) :
    s.mm.peakAbsPosition.toInt = Runs.peak step exposure s₀ msgs ∧
    s.mm.peakAbsPosition.toInt < cfg.mm.maxPosition.toInt + cfg.mm.quoteSize.toNat := by
  have hmm : s₀.mm = { cfg := cfg.mm } := (new_eq h₀).2.2.1
  have hexposed := Exposed.start h₀ hmax
  have hpeak : s₀.mm.peakAbsPosition = 0 := by rw [hmm]; rfl
  have hzero : (0 : Int64).toInt = 0 := rfl
  have hnone : s₀.exposure = 0 := by rw [exposure, hmm]; rfl
  have hlt := hexposed.exposure_lt
  have hstart : Peaked cfg.mm s₀ :=
    ⟨hexposed, by rw [hmm]; rfl, by rw [hpeak, hnone, hzero]; rfl, by rw [hpeak, hzero]; omega⟩
  obtain ⟨hend, hmark⟩ := Runs.peak_of_steps (Q := fun _ _ => True) (f := exposure)
    (g := fun s => s.mm.peakAbsPosition.toInt.toNat) (fun _ _ _ _ hs _ hstep => hs.step hmax hroom hstep) msgs hstart
    (by rw [hnone]; omega) (Runs.steps_true s₀ msgs) h
  have hheld := hend.held
  have hbound := hend.bound
  rw [hpeak, hzero] at hmark
  refine ⟨?_, hbound⟩
  omega

/-- A bid of 20 shares is filled up to 9, and is quoted anew at the front of a
better price. -/
def twoQuotes : List WriterCall :=
  [.addOrder 1 1 .bid 1 {} 100, .addOrder 2 2 .ask 100 {} 300, .addOrder 3 3 .bid 50 {} 100, .orderDelete 4 1,
    .orderExecuted 5 3 9 7, .addOrder 6 4 .bid 1 {} 200, .addOrder 7 5 .bid 50 {} 200, .orderDelete 8 4,
    .orderExecuted 9 5 20 8]

/-- With a limit of 10 shares, it is then filled up to 29: there is no better
bound. -/
theorem peak_bounded_reached : ∃ (cfg : SandboxConfig) (s₀ s : MmSandbox),
    cfg = { symbol := {}, mm := { halfSpreadTicks := 1, quoteSize := 20, maxPosition := 10 } } ∧
    MmSandbox.new cfg = some s₀ ∧ Runs.run step s₀ (twoQuotes.map WriterCall.body) = some s ∧
    Runs.peak step exposure s₀ (twoQuotes.map WriterCall.body) = 29 ∧
    s.mm.peakAbsPosition.toInt + 1 = cfg.mm.maxPosition.toInt + cfg.mm.quoteSize.toNat ∧
    s.mm.peakAbsPosition.toInt < cfg.mm.maxPosition.toInt + cfg.mm.quoteSize.toNat := by
  have hrun : ((MmSandbox.new { symbol := {}, mm := { halfSpreadTicks := 1, quoteSize := 20, maxPosition := 10 } }).bind
      fun s => (Runs.run step s (twoQuotes.map WriterCall.body)).map fun s => s.mm.peakAbsPosition) = some 29 := by
    decide +kernel
  obtain ⟨s₀, h₀, hrun⟩ := Option.bind_eq_some_iff.mp hrun
  obtain ⟨s, hs, hpeak⟩ := Option.map_eq_some_iff.mp hrun
  obtain ⟨hmost, hbound⟩ := peak_bounded h₀ hs (by decide) (by decide)
  have hvalue : s.mm.peakAbsPosition.toInt = 29 := by rw [hpeak]; rfl
  refine ⟨_, s₀, s, rfl, h₀, hs, ?_, ?_, hbound⟩
  · rw [hvalue] at hmost
    exact Int.ofNat.inj hmost.symm
  · rw [hvalue]
    rfl

end MmSandbox

end Pricetime
