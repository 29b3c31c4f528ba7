import Pricetime.Proof.MmSandbox

/-!
# What a step of the sandbox does

A step takes in the message (`rep.apply`), then the event that was read of it
(`Taken`), then the mid of the book (`Refreshed`). Nothing is assumed of the
message here, and both fill models are covered: `step_cases` is what any step
that goes through did.
-/

namespace Pricetime

open Itch (Replayer)

/-! ## The market maker -/

namespace MarketMaker

/-- `wants_bid` or `wants_ask`. -/
def wants (m : MarketMaker) : Side → Bool
  | .bid => m.wantsBid
  | .ask => m.wantsAsk

theorem wants_congr {m m' : MarketMaker} (hcfg : m'.cfg = m.cfg) (hpos : m'.position = m.position) (side : Side) :
    m'.wants side = m.wants side := by
  cases side <;> simp only [wants, wantsBid, wantsAsk, hcfg, hpos]

end MarketMaker

namespace MmSandbox

variable {s s' : MmSandbox} {ev : OrderEvent} {mid : Price} {placed : List Side} {msg : List UInt8}

/-! ## Events -/

/-- The fill of a simulated order by the event that reaches it. -/
def fillOf (s : MmSandbox) (ev : OrderEvent) (mid : Price) : FillEvent :=
  { side := ev.restingSide, price := ev.price, qty := ((s.our ev.restingSide).takeFill ev.shares).1
    timestamp := s.rep.stats.lastTimestamp, midAtFill := mid }

/-- What the simulated orders make of an event, and the fill it is to the
market maker. -/
inductive Taken (s : MmSandbox) (ev : OrderEvent) (mid : Price) (s' : MmSandbox) : Option FillEvent → Prop
  | reached (model : s.cfg.queueModel = true) (reach : s.Reaches ev)
    (our : ∀ side, s'.our side = if side = ev.restingSide then ((s.our side).takeFill ev.shares).2 else s.our side) :
    Taken s ev mid s' (if (s.fillOf ev mid).qty > 0 then some (s.fillOf ev mid) else none)
  | told (model : s.cfg.queueModel = true) (reach : ¬ s.Reaches ev)
    (our : ∀ side, s'.our side = (s.our side).onSharesRemoved ev.id ev.shares) : Taken s ev mid s' none
  | optimistic (model : s.cfg.queueModel = false) (our : ∀ side, s'.our side = s.our side) (fill : Option FillEvent)
    (execution : ∀ f ∈ fill, ev.isExecution = true) (wants : ∀ f ∈ fill, s.mm.wants f.side = true)
    (timestamp : ∀ f ∈ fill, f.timestamp = s.rep.stats.lastTimestamp)
    (size : ∀ f ∈ fill, f.qty ≤ s.cfg.mm.quoteSize) (midAtFill : ∀ f ∈ fill, f.midAtFill = mid) :
    Taken s ev mid s' fill

/-- The rest of the state when a fill is recorded, if there is one. -/
structure Recorded (s : MmSandbox) (fill : Option FillEvent) (s' : MmSandbox) : Prop where
  cfg : s'.cfg = s.cfg
  rep : s'.rep = s.rep
  haveMid : s'.haveMid = s.haveMid
  lastMid : s'.lastMid = s.lastMid
  mm : s'.mm = fill.elim s.mm s.mm.onFill

theorem Recorded.refl (s : MmSandbox) : Recorded s none s := ⟨rfl, rfl, rfl, rfl, rfl⟩

theorem setOur_recorded (s : MmSandbox) (side : Side) (q : QueuePosition) : Recorded s none (s.setOur side q) := by
  cases side <;> exact ⟨rfl, rfl, rfl, rfl, rfl⟩

theorem printsSeen_recorded (s : MmSandbox) (n : UInt64) : Recorded s none { s with printsSeen := n } :=
  ⟨rfl, rfl, rfl, rfl, rfl⟩

theorem fill_recorded (s : MmSandbox) (f : FillEvent) : Recorded s (some f) { s with mm := s.mm.onFill f } :=
  ⟨rfl, rfl, rfl, rfl, rfl⟩

theorem Recorded.trans {s₁ : MmSandbox} {fill : Option FillEvent} (h : Recorded s none s₁)
    (h' : Recorded s₁ fill s') : Recorded s fill s' where
  cfg := h'.cfg.trans h.cfg
  rep := h'.rep.trans h.rep
  haveMid := h'.haveMid.trans h.haveMid
  lastMid := h'.lastMid.trans h.lastMid
  mm := by
    have hmm : s₁.mm = s.mm := h.mm
    rw [h'.mm, hmm]

theorem our_mm (s : MmSandbox) (mm : MarketMaker) (side : Side) : ({ s with mm } : MmSandbox).our side = s.our side := by
  cases side <;> rfl

theorem onEvent_cases (h : s.onEvent ev mid = some s') :
    ∃ fill, Recorded s fill s' ∧ Taken s ev mid s' fill := by
  rw [onEvent] at h
  dsimp only at h
  generalize hs₁ : (if ev.isExecution = true then { s with printsSeen := s.printsSeen + 1 } else s) = s₁ at h
  have hsame : Recorded s none s₁ ∧ ∀ side, s₁.our side = s.our side := by
    rw [← hs₁]
    split
    · exact ⟨s.printsSeen_recorded _, fun side => by cases side <;> rfl⟩
    · exact ⟨.refl s, fun _ => rfl⟩
  obtain ⟨hrec, hour⟩ := hsame
  have hfill : ∀ f : FillEvent, Recorded s (some f) { s₁ with mm := s₁.mm.onFill f } := fun f =>
    hrec.trans (s₁.fill_recorded f)
  split at h
  · rename_i hmodel
    rw [hrec.cfg] at hmodel
    split at h
    · rename_i hreach
      have hreach : s.Reaches ev := by
        rw [Reaches, ← hour]
        exact hreach
      cases h
      have hset := hrec.trans (s₁.setOur_recorded ev.restingSide ((s₁.our ev.restingSide).takeFill ev.shares).2)
      have hours := s₁.our_setOur ev.restingSide ((s₁.our ev.restingSide).takeFill ev.shares).2
      generalize s₁.setOur ev.restingSide ((s₁.our ev.restingSide).takeFill ev.shares).2 = s₂ at hset hours ⊢
      have hqty : (s.fillOf ev mid).qty = ((s₁.our ev.restingSide).takeFill ev.shares).1 := by rw [hour]; rfl
      have hf : s.fillOf ev mid = ⟨ev.restingSide, ev.price, ((s₁.our ev.restingSide).takeFill ev.shares).1,
          s₁.rep.stats.lastTimestamp, mid⟩ := by
        rw [hour, hrec.rep]
        rfl
      have hours : ∀ side, s₂.our side =
          if side = ev.restingSide then ((s.our side).takeFill ev.shares).2 else s.our side := fun side => by
        rw [hours, ← hour side]
        split
        · rename_i hs
          rw [hs]
        · rfl
      refine ⟨_, ?_, .reached hmodel hreach fun side => ?_⟩
      · rw [hqty, hf]
        split
        · exact hset.trans (s₂.fill_recorded _)
        · exact hset
      · rw [← hours]
        split
        · exact s₂.our_mm _ side
        · rfl
    · rename_i hreach
      cases h
      refine ⟨none, hrec.trans ⟨rfl, rfl, rfl, rfl, rfl⟩, .told hmodel (fun h => hreach ?_) fun side => ?_⟩
      · rw [hour]
        exact h
      · rw [← hour]
        cases side <;> rfl
  · rename_i hmodel
    rw [hrec.cfg, Bool.not_eq_true] at hmodel
    have hwants : ∀ side, s₁.mm.wants side = s.mm.wants side := MarketMaker.wants_congr
      (by rw [hrec.mm]; rfl) (by rw [hrec.mm]; rfl)
    have hstamp : s₁.rep.stats.lastTimestamp = s.rep.stats.lastTimestamp := by rw [hrec.rep]
    split at h
    · rename_i hexec
      -- one fill, on a side that is wanted
      have hone : ∀ (f : FillEvent), s₁.mm.wants f.side = true → f.timestamp = s₁.rep.stats.lastTimestamp →
          f.qty = (if ev.shares < s₁.cfg.mm.quoteSize then ev.shares else s₁.cfg.mm.quoteSize) → f.midAtFill = mid →
            Taken s ev mid { s₁ with mm := s₁.mm.onFill f } (some f) := fun f hw ht hn hmid => by
        refine .optimistic hmodel (fun side => (s₁.our_mm _ side).trans (hour side)) _ (fun _ _ => hexec) ?_ ?_ ?_ ?_
        · rintro _ ⟨⟩
          exact hwants f.side ▸ hw
        · rintro _ ⟨⟩
          exact ht.trans hstamp
        · rintro _ ⟨⟩
          rw [hn, hrec.cfg]
          split
          · exact UInt32.le_of_lt ‹_›
          · exact UInt32.le_refl _
        · rintro _ ⟨⟩
          exact hmid
      obtain ⟨obid, -, h⟩ := Option.bind_eq_some_iff.mp h
      obtain ⟨oask, -, h⟩ := Option.bind_eq_some_iff.mp h
      cases h
      split
      · rename_i hbid
        exact ⟨_, hfill _, hone _ hbid.2.1 rfl rfl rfl⟩
      · split
        · rename_i hask
          exact ⟨_, hfill _, hone _ hask.2.1 rfl rfl rfl⟩
        · exact ⟨none, hrec, .optimistic hmodel hour none (by simp) (by simp) (by simp) (by simp) (by simp)⟩
    · cases h
      exact ⟨none, hrec, .optimistic hmodel hour none (by simp) (by simp) (by simp) (by simp) (by simp)⟩

theorem Taken.midAtFill {fill : Option FillEvent} (h : Taken s ev mid s' fill) : ∀ f ∈ fill, f.midAtFill = mid := by
  cases h with
  | reached model reach our =>
    intro f hf
    split at hf <;> cases hf
    rfl
  | told => nofun
  | optimistic model our _ execution wants timestamp size midAtFill => exact midAtFill

/-! ## The mid -/

/-- The mid of the tracked book, if it has both sides. -/
def quote (s : MmSandbox) : Option Price := do
  let book ← s.rep.books.find s.cfg.symbol
  let bid ← book.best .bid
  let ask ← book.best .ask
  some ((bid.price + ask.price) / 2)

/-- The mid is recorded when it is not the last one, and the sides `placed`,
which are wanted, are quoted anew. -/
structure Refreshed (s : MmSandbox) (placed : List Side) (s' : MmSandbox) : Prop where
  cfg : s'.cfg = s.cfg
  rep : s'.rep = s.rep
  mmCfg : s'.mm.cfg = s.mm.cfg
  position : s'.mm.position = s.mm.position
  cash : s'.mm.cash = s.mm.cash
  fillsLog : s'.mm.fillsLog = s.mm.fillsLog
  kept : ∀ side, side ∉ placed → s'.our side = s.our side
  wanted : ∀ side ∈ placed, s.mm.wants side = true
  size : ∀ side ∈ placed, (s'.our side).remaining = s.cfg.mm.quoteSize
  unquoted : s.quote = none → s' = s ∧ placed = []
  quoted : ∀ mid ∈ s.quote, s'.haveMid = true ∧ s'.lastMid = mid ∧ s'.mm.midHistory =
    if s.haveMid = true ∧ mid = s.lastMid then s.mm.midHistory
    else s.mm.midHistory ++ [⟨s.rep.stats.lastTimestamp, mid⟩]

/-- A side that is quoted anew is wanted. -/
structure Placed (s : MmSandbox) (side : Side) (wants : Bool) (placed : List Side) (s' : MmSandbox) : Prop where
  cfg : s'.cfg = s.cfg
  rep : s'.rep = s.rep
  mm : s'.mm = s.mm
  haveMid : s'.haveMid = s.haveMid
  lastMid : s'.lastMid = s.lastMid
  kept : ∀ side', side' ∉ placed → s'.our side' = s.our side'
  wanted : ∀ side' ∈ placed, side' = side ∧ wants = true
  size : ∀ side' ∈ placed, (s'.our side').remaining = s.cfg.mm.quoteSize

theorem requote_cases {book : OrderBook MapLadder OpenAddressIdMap} {side : Side} {wants : Bool} {want : Price}
    (h : s.requote book side wants want = some (placed, s')) : Placed s side wants placed s' := by
  rw [requote] at h
  dsimp only at h
  split at h
  · rename_i hw
    obtain ⟨ahead, -, h⟩ := Option.bind_eq_some_iff.mp h
    cases h
    have hrec := s.setOur_recorded side ((s.our side).cancel.place want side s.cfg.mm.quoteSize ahead)
    have hours := s.our_setOur side ((s.our side).cancel.place want side s.cfg.mm.quoteSize ahead)
    generalize s.setOur side ((s.our side).cancel.place want side s.cfg.mm.quoteSize ahead) = s₁ at hrec hours ⊢
    have hour : ∀ side', ({ s₁ with requotes := s.requotes + 1 } : MmSandbox).our side' = s₁.our side' := fun side' => by
      cases side' <;> rfl
    refine ⟨hrec.cfg, hrec.rep, hrec.mm, hrec.haveMid, hrec.lastMid, fun side' hs => ?_, fun side' hs => ?_,
      fun side' hs => ?_⟩
    · rw [hour, hours, if_neg fun e => hs (List.mem_singleton.mpr e)]
    · exact ⟨List.mem_singleton.mp hs, hw.1⟩
    · rw [hour, hours, if_pos (List.mem_singleton.mp hs)]
      rfl
  · cases h
    exact ⟨rfl, rfl, rfl, rfl, rfl, fun _ _ => rfl, by simp, by simp⟩

theorem refresh_cases (h : s.refresh = some (placed, s')) : Refreshed s placed s' := by
  have unquoted (hq : s.quote = none) : Refreshed s [] s :=
    ⟨rfl, rfl, rfl, rfl, rfl, rfl, fun _ _ => rfl, nofun, nofun, fun _ => ⟨rfl, rfl⟩, fun _ hm => nomatch hq.symm.trans hm⟩
  rw [refresh] at h
  cases hf : s.rep.books.find s.cfg.symbol with
  | none =>
    rw [hf] at h
    cases h
    exact unquoted (by rw [quote, hf]; rfl)
  | some book =>
    rw [hf] at h
    dsimp only at h
    split at h
    · rename_i bid ask hbid hask
      have hq : s.quote = some ((bid.price + ask.price) / 2) := by
        rw [quote, hf]
        simp only [Option.bind_eq_bind, Option.bind_some, hbid, hask]
      generalize (bid.price + ask.price) / 2 = mid at h hq
      generalize hs₀ : (if ¬ s.haveMid = true ∨ mid ≠ s.lastMid then { s with
          mm := s.mm.onMid mid s.rep.stats.lastTimestamp, midUpdates := s.midUpdates + 1 } else s) = s₀ at h
      have hsame : s₀.cfg = s.cfg ∧ s₀.rep = s.rep ∧ s₀.mm.cfg = s.mm.cfg ∧ s₀.mm.position = s.mm.position ∧
          s₀.mm.cash = s.mm.cash ∧ s₀.mm.fillsLog = s.mm.fillsLog ∧ (∀ side, s₀.our side = s.our side) ∧
          s₀.mm.midHistory = if s.haveMid = true ∧ mid = s.lastMid then s.mm.midHistory
            else s.mm.midHistory ++ [⟨s.rep.stats.lastTimestamp, mid⟩] := by
        rw [← hs₀]
        by_cases hnew : s.haveMid = true ∧ mid = s.lastMid
        · have hold : ¬ (¬ s.haveMid = true ∨ mid ≠ s.lastMid) := by grind
          rw [if_pos hnew, if_neg hold]
          exact ⟨rfl, rfl, rfl, rfl, rfl, rfl, fun _ => rfl, rfl⟩
        · have hold : ¬ s.haveMid = true ∨ mid ≠ s.lastMid := by grind
          rw [if_neg hnew, if_pos hold]
          exact ⟨rfl, rfl, rfl, rfl, rfl, rfl, fun side => by cases side <;> rfl, rfl⟩
      obtain ⟨hcfg, hrep, hmmCfg, hpos, hcash, hlog, hour, hhist⟩ := hsame
      have hwants : ∀ side, s₀.mm.wants side = s.mm.wants side := MarketMaker.wants_congr hmmCfg hpos
      have hour₁ : ∀ side, ({ s₀ with lastMid := mid, haveMid := true } : MmSandbox).our side = s₀.our side :=
        fun side => by cases side <;> rfl
      split at h
      · obtain ⟨wantBid, -, h⟩ := Option.bind_eq_some_iff.mp h
        obtain ⟨⟨bids, s₂⟩, hbids, h⟩ := Option.bind_eq_some_iff.mp h
        obtain ⟨wantAsk, -, h⟩ := Option.bind_eq_some_iff.mp h
        obtain ⟨⟨asks, s₃⟩, hasks, h⟩ := Option.bind_eq_some_iff.mp h
        cases h
        have h₂ := requote_cases hbids
        have h₃ := requote_cases hasks
        have hmm : s₃.mm = s₀.mm := h₃.mm.trans h₂.mm
        refine ⟨h₃.cfg.trans (h₂.cfg.trans hcfg), h₃.rep.trans (h₂.rep.trans hrep), hmm ▸ hmmCfg, hmm ▸ hpos, hmm ▸ hcash,
          hmm ▸ hlog, fun side hs => ?_, fun side hs => ?_, fun side hs => ?_, fun hno => (nomatch hno.symm.trans hq), fun mid' hmid => ?_⟩
        · rw [List.mem_append, not_or] at hs
          rw [h₃.kept side hs.2, h₂.kept side hs.1, hour₁, hour]
        · rw [← hwants]
          rcases List.mem_append.mp hs with hs | hs
          · obtain ⟨rfl, hw⟩ := h₂.wanted side hs
            exact hw
          · obtain ⟨rfl, hw⟩ := h₃.wanted side hs
            exact h₂.mm ▸ hw
        · rw [← hcfg]
          by_cases hask : side ∈ asks
          · rw [h₃.size side hask, h₂.cfg]
          · rw [h₃.kept side hask, h₂.size side ((List.mem_append.mp hs).resolve_right hask)]
        · cases hq.symm.trans hmid
          exact ⟨h₃.haveMid.trans h₂.haveMid, h₃.lastMid.trans h₂.lastMid, hmm ▸ hhist⟩
      · cases h
        refine ⟨hcfg, hrep, hmmCfg, hpos, hcash, hlog, fun side _ => (hour₁ side).trans (hour side), nofun, nofun,
          fun hno => (nomatch hno.symm.trans hq), fun mid' hmid => ?_⟩
        cases hq.symm.trans hmid
        exact ⟨rfl, rfl, hhist⟩
    · rename_i hno
      cases h
      refine unquoted ?_
      rw [quote, hf]
      simp only [Option.bind_eq_bind, Option.bind_some]
      cases hbid : book.best .bid with
      | none => rfl
      | some bid =>
        cases hask : book.best .ask with
        | none => rfl
        | some ask => exact (hno bid ask hbid hask).elim

/-! ## Steps -/

/-- The event that a step takes in: there is none before the first mid. -/
def eventOf (s : MmSandbox) (msg : List UInt8) : Option OrderEvent :=
  if s.haveMid then (peekEvent s.rep.books msg).join else none

/-- A step takes in the message, then the event, then the mid. -/
theorem step_cases (h : s.step msg = some (placed, s')) : ∃ out rep s₁ fill, s.rep.apply msg = some (out, rep) ∧
    Recorded { s with rep } fill s₁ ∧
    (match s.eventOf msg with
      | some ev => Taken { s with rep } ev s.lastMid s₁ fill
      | none => fill = none ∧ s₁ = { s with rep }) ∧
    Refreshed s₁ placed s' := by
  rw [step] at h
  obtain ⟨ev, hev, h⟩ := Option.bind_eq_some_iff.mp h
  obtain ⟨⟨out, rep⟩, hrep, h⟩ := Option.bind_eq_some_iff.mp h
  rw [eventOf, hev]
  cases ev with
  | none =>
    rw [Option.join_some, ite_self]
    exact ⟨out, rep, _, none, hrep, .refl _, ⟨rfl, rfl⟩, refresh_cases h⟩
  | some ev =>
    dsimp only at h
    split at h <;> rename_i hmid
    · obtain ⟨s₁, hs₁, h⟩ := Option.bind_eq_some_iff.mp h
      obtain ⟨fill, hrec, htaken⟩ := onEvent_cases hs₁
      rw [if_pos hmid]
      exact ⟨out, rep, s₁, fill, hrep, hrec, htaken, refresh_cases h⟩
    · rw [if_neg hmid]
      exact ⟨out, rep, _, none, hrep, .refl _, ⟨rfl, rfl⟩, refresh_cases h⟩

theorem our_rep (s : MmSandbox) (rep : Itch.Replayer MapLadder OpenAddressIdMap) (side : Side) :
    ({ s with rep } : MmSandbox).our side = s.our side := by
  cases side <;> rfl

theorem step_cfg (h : s.step msg = some (placed, s')) : s'.cfg = s.cfg := by
  obtain ⟨out, rep, s₁, fill, -, hrec, -, href⟩ := step_cases h
  exact href.cfg.trans hrec.cfg

theorem new_eq {cfg : SandboxConfig} {s₀ : MmSandbox} (h : MmSandbox.new cfg = some s₀) :
    s₀.cfg = cfg ∧ s₀.quote = none ∧ s₀.mm = { cfg := cfg.mm } ∧ s₀.haveMid = false ∧
      ∀ side, (s₀.our side).active = false := by
  rw [MmSandbox.new] at h
  obtain ⟨rep, hrep, h⟩ := Option.bind_eq_some_iff.mp h
  rw [Replayer.new] at hrep
  obtain ⟨books, hbooks, hrep⟩ := Option.bind_eq_some_iff.mp hrep
  rw [MultiBook.new] at hbooks
  obtain ⟨owner, -, hbooks⟩ := Option.bind_eq_some_iff.mp hbooks
  cases h
  cases hrep
  cases hbooks
  exact ⟨rfl, rfl, rfl, rfl, fun side => by cases side <;> rfl⟩

end MmSandbox

end Pricetime
