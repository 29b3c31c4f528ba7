import Pricetime.Proof.GenItch

/-!
# A session replayed

`gen_itch` writes nothing but calls that fit (`main_calls`), so that a
replayer of its bytes follows its table to the end (`session_replays`).
-/

namespace Pricetime

open Itch (Writer WriterCall Replayer forEachFramedMessage)
open Keyed (Lists)
open Spec (Entry Standing)

namespace GenItch

/-- The orders that stand after some calls. -/
def leaves (st : Standing) (calls : List WriterCall) : Standing := calls.foldl (fun st c => st.after c.said) st

/-- Calls, each of which fits what the ones before it have left. -/
def Fitting (symbols : List Symbol) : Standing → List WriterCall → Prop :=
  Runs.Folds (fun st c => st.after c.said) fun st c => Standing.Fits (within symbols) st c.said

theorem leaves_append (st : Standing) (calls rest : List WriterCall) :
    leaves st (calls ++ rest) = leaves (leaves st calls) rest := List.foldl_append

section Loop

variable {symbols : List Symbol} {g : GenItch} {st : Standing}

/-- The loop ends, with its table that of the messages it has written. -/
theorem loop_calls (hne : symbols ≠ []) (hlen : symbols.length ≤ 17000) (target : UInt64) :
    ∀ (fuel : Nat) {g : GenItch} {st : Standing}, Table symbols g st → target.toNat ≤ g.w.messageCount + fuel →
      ∃ g' calls, loop symbols (mids symbols) target fuel g = some g' ∧ g'.w = calls.foldl Writer.call g.w ∧
        Fitting symbols st calls ∧ Table symbols g' (leaves st calls)
  | 0, g, st, h, hfuel => by
    rw [loop, if_neg (by omega)]
    exact ⟨g, [], rfl, rfl, trivial, h⟩
  | fuel + 1, g, st, h, hfuel => by
    rw [loop]
    by_cases hlt : g.w.messageCount < target.toNat
    · have hroom : g.w.messageCount + 1 < 2 ^ 64 := by
        have := target.toNat_lt
        omega
      obtain ⟨g₁, hg₁, c, hw, hfits, h₁⟩ := step_emits hne hlen h hroom
      have hcount : g₁.w.messageCount = g.w.messageCount + 1 := by rw [hw, call_count]
      obtain ⟨g', calls, hg', hw', hcalls, h'⟩ := loop_calls hne hlen target fuel h₁ (by omega)
      rw [if_pos hlt, hg₁, Option.bind_eq_bind, Option.bind_some]
      refine ⟨g', c :: calls, hg', ?_, ⟨hfits, hcalls⟩, h'⟩
      rw [List.foldl_cons, ← hw]
      exact hw'
    · rw [if_neg hlt]
      exact ⟨g, [], rfl, rfl, trivial, h⟩

end Loop

/-! ## The session around the loop -/

/-- A call that no order hears of. -/
def Quiet (c : WriterCall) : Prop := ∀ st : Standing, st.after c.said = st ∧ ∀ p, st.Fits p c.said

theorem quiet_systemEvent (ts : UInt64) (code : UInt8) : Quiet (.systemEvent ts code) := fun _ => ⟨rfl, fun _ => trivial⟩

theorem quiet_stockDirectory (ts : UInt64) (s : Symbol) (category : UInt8) : Quiet (.stockDirectory ts s category) :=
  fun _ => ⟨rfl, fun _ => trivial⟩

theorem fitting_quiet {symbols : List Symbol} : ∀ {st : Standing} {calls : List WriterCall}, (∀ c ∈ calls, Quiet c) →
    Fitting symbols st calls ∧ leaves st calls = st
  | _, [], _ => ⟨trivial, rfl⟩
  | st, c :: calls, h => by
    obtain ⟨hafter, hfits⟩ := h c List.mem_cons_self st
    obtain ⟨hrest, hfold⟩ := @fitting_quiet symbols st calls fun c hc => h c (List.mem_cons_of_mem _ hc)
    refine ⟨⟨hfits _, ?_⟩, ?_⟩
    · show Fitting symbols (st.after c.said) calls
      rw [hafter]
      exact hrest
    · rw [leaves, List.foldl_cons, hafter]
      exact hfold

/-- The calls ahead of the loop. -/
def opening (symbols : List Symbol) : List WriterCall :=
  .systemEvent (9 * 3600 * 1000000000) 'O'.toUInt8 ::
    (symbols.map fun s => .stockDirectory (9 * 3600 * 1000000000) s 'Q'.toUInt8) ++
    [.systemEvent (9 * 3600 * 1000000000 + 1800 * 1000000000) 'Q'.toUInt8]

/-- The calls that follow the loop. -/
def closing : List WriterCall :=
  [.systemEvent (16 * 3600 * 1000000000) 'M'.toUInt8, .systemEvent (16 * 3600 * 1000000000 + 1) 'C'.toUInt8]

theorem quiet_opening (symbols : List Symbol) : ∀ c ∈ opening symbols, Quiet c := fun c hc => by
  rcases List.mem_append.mp hc with hc | hc
  · rcases List.mem_cons.mp hc with rfl | hc
    · exact quiet_systemEvent _ _
    · obtain ⟨s, -, rfl⟩ := List.mem_map.mp hc
      exact quiet_stockDirectory _ _ _
  · cases List.mem_singleton.mp hc
    exact quiet_systemEvent _ _

theorem quiet_closing : ∀ c ∈ closing, Quiet c := fun c hc => by
  rcases List.mem_cons.mp hc with rfl | hc
  · exact quiet_systemEvent _ _
  · cases List.mem_singleton.mp hc
    exact quiet_systemEvent _ _

theorem calls_count : ∀ (calls : List WriterCall) (w : Writer),
    (calls.foldl Writer.call w).messageCount = w.messageCount + calls.length
  | [], _ => rfl
  | c :: calls, w => by
    rw [List.foldl_cons, calls_count calls, call_count, List.length_cons]
    omega

/-- The session as calls of a writer, the table being what stands after them. -/
theorem main_calls {given symbols : List Symbol} (hs : sessionSymbols given = symbols) (hne : symbols ≠ [])
    (hlen : symbols.length ≤ 17000) (seed target : UInt64) :
    ∃ g calls, main seed target given = some g ∧ g.w = calls.foldl Writer.call {} ∧
      Fitting symbols (fun _ => none) calls ∧
      Lists (g.live.map (row symbols)) (leaves (fun _ => none) calls) ∧
      ∀ o ∈ g.live, o.symbolIndex < symbols.length := by
  obtain ⟨hopen, hopened⟩ := @fitting_quiet symbols (fun _ => none) _ (quiet_opening symbols)
  let w := (opening symbols).foldl Writer.call {}
  let ts : UInt64 := 9 * 3600 * 1000000000 + 1800 * 1000000000
  have hcount : w.messageCount = symbols.length + 2 := by
    rw [calls_count, opening, List.length_append, List.length_cons, List.length_map]
    show 0 + (symbols.length + 1 + 1) = _
    omega
  have h₀ : Table symbols { w, ts, seed } fun _ => none := by
    refine ⟨Lists.nil, fun o ho => absurd ho List.not_mem_nil, ⟨by show (0 : UInt64) < 1; decide, ?_⟩, Nat.zero_le _⟩
    show 1 ≤ w.messageCount
    omega
  obtain ⟨g, calls, hg, hw, hcalls, h⟩ := loop_calls hne hlen target target.toNat h₀ (Nat.le_add_left _ _)
  obtain ⟨hclose, hclosed⟩ := @fitting_quiet symbols (leaves (fun _ => none) calls) _ quiet_closing
  refine ⟨{ g with w := closing.foldl Writer.call g.w, ts := 16 * 3600 * 1000000000 },
    opening symbols ++ calls ++ closing, ?_, ?_, ?_, ?_, fun o ho => (h.rows o ho).index⟩
  · have hopening : w = ((symbols.foldl (fun w s => w.stockDirectory (9 * 3600 * 1000000000) s 'Q'.toUInt8)
        (({} : Writer).systemEvent (9 * 3600 * 1000000000) 'O'.toUInt8)).systemEvent ts 'Q'.toUInt8) := by
      show (opening symbols).foldl Writer.call {} = _
      rw [opening, List.foldl_append, List.foldl_cons, List.foldl_cons, List.foldl_map]
      rfl
    rw [main, hs]
    dsimp only
    rw [← hopening, hg]
    rfl
  · rw [List.foldl_append, List.foldl_append, ← hw]
  · refine Runs.folds_append (Runs.folds_append hopen ?_) ?_
    · show Fitting symbols (leaves _ (opening symbols)) calls
      rw [hopened]
      exact hcalls
    · show Fitting symbols (leaves _ (opening symbols ++ calls)) closing
      rw [leaves_append, hopened]
      exact hclose
  · rw [leaves_append, leaves_append, hopened, hclosed]
    exact h.lists

/-- The symbols of a session, given or not. -/
theorem sessionSymbols_spec {symbols : List Symbol} (hn : symbols.Nodup) (hlen : symbols.length ≤ 17000) :
    sessionSymbols symbols ≠ [] ∧ (sessionSymbols symbols).Nodup ∧ (sessionSymbols symbols).length ≤ 17000 := by
  rw [sessionSymbols]
  by_cases e : symbols = []
  · rw [if_pos e]
    decide
  · rw [if_neg e]
    exact ⟨e, hn, hlen⟩

section Replay

variable {L M : Type} [Ladder L] [LawfulLadder L] [TreeLadder L] [IdMap M] [LawfulIdMap M]

/-- What a replayer makes of a session: its bytes are read to the end, with no
reference missed and no removal clamped, nowhere is a book crossed or locked,
and the orders that rest at the end are the rows of the generator's table. -/
theorem session_replays {ladder : L} (hv : Vacant ladder) {r₀ : Replayer L M} (h₀ : Replayer.new ladder = some r₀)
    {symbols : List Symbol} (hn : symbols.Nodup) (hlen : symbols.length ≤ 17000) (seed targetMessages : UInt64) :
    ∃ g msgs res r, main seed targetMessages symbols = some g ∧
      forEachFramedMessage g.w.bytes = some (msgs, res) ∧ res.status = .ok ∧
      Runs.run Replayer.apply r₀ msgs = some r ∧ r.stats.unknownReference = 0 ∧ r.stats.clamped = 0 ∧
      Runs.Along Replayer.apply (fun r => ∀ e ∈ r.books.books,
        ∀ bid ∈ e.2.best .bid, ∀ ask ∈ e.2.best .ask, bid.price < ask.price) r₀ msgs ∧
      (g.live.map LiveOrder.ref).Nodup ∧
      ∀ (id : OrderId) (e : Entry), r.books.RestsAs id e ↔ ∃ o ∈ g.live, o.ref = id ∧
        (sessionSymbols symbols)[o.symbolIndex]? = some e.symbol ∧ o.side = e.side ∧ o.shares = e.shares := by
  obtain ⟨hne, hn, hlen⟩ := sessionSymbols_spec hn hlen
  obtain ⟨g, calls, hg, hw, hcalls, hlists, hindex⟩ := main_calls rfl hne hlen seed targetMessages
  obtain ⟨res, hread, hok, -⟩ := Writer.calls_read calls
  obtain ⟨r, hrun, h, halong⟩ :=
    Replayer.Reflects.run calls (Replayer.new_reflects hv h₀ (within (sessionSymbols symbols))) hcalls
  refine ⟨g, _, res, r, hg, by rw [hw]; exact hread, hok, hrun, h.clean.1, h.clean.2, ?_, ?_, fun id e => ?_⟩
  · refine halong.imp fun r ⟨st, hr⟩ => hr.uncrossed fun s p q hp hq => within_lt hn hp hq
  · have hrefs := hlists.nodup
    rw [List.map_map] at hrefs
    exact hrefs
  · rw [h.stands.indexed.restsAs_iff, h.stands.standing]
    refine (hlists.mem id e).symm.trans (List.mem_map.trans (exists_congr fun o => and_congr_right fun ho => ?_))
    obtain ⟨s, side, shares⟩ := e
    rw [row, Prod.mk.injEq, Entry.mk.injEq, List.getElem?_eq_getElem (hindex o ho), Option.getD_some, Option.some.injEq]

/-- A session for two symbols that goes through the executions, cancels,
deletes and replaces of its orders, replayed on the default ladder. -/
theorem session_replays_two : ∃ (r₀ r : Replayer MapLadder OpenAddressIdMap) (g : GenItch) (msgs : List (List UInt8))
    (res : Itch.ReadResult), Replayer.new {} = some r₀ ∧
    main 17 10 [Symbol.ofTicker "AAPL".toList, Symbol.ofTicker "MSFT".toList] = some g ∧
    forEachFramedMessage g.w.bytes = some (msgs, res) ∧ Runs.run Replayer.apply r₀ msgs = some r ∧
    (r.stats.adds, r.stats.executions, r.stats.cancels, r.stats.deletes, r.stats.replaces) = (2, 1, 1, 1, 1) ∧
    r.stats.unknownReference = 0 ∧ r.stats.clamped = 0 := by
  obtain ⟨r₀, hr₀, -⟩ := Replayer.new_refines (M := OpenAddressIdMap) MapLadder.vacant
  obtain ⟨g, msgs, res, r, hg, hread, -, hrun, hu, hc, -⟩ := session_replays MapLadder.vacant hr₀
    (show [Symbol.ofTicker "AAPL".toList, Symbol.ofTicker "MSFT".toList].Nodup by decide) (by decide) 17 10
  have hstats : ((main 17 10 [Symbol.ofTicker "AAPL".toList, Symbol.ofTicker "MSFT".toList]).bind fun g =>
      (forEachFramedMessage g.w.bytes).bind fun read =>
        (Replayer.new {} : Option (Replayer MapLadder OpenAddressIdMap)).bind fun r₀ =>
          (Runs.run Replayer.apply r₀ read.1).map fun r =>
            (r.stats.adds, r.stats.executions, r.stats.cancels, r.stats.deletes, r.stats.replaces)) =
      some (2, 1, 1, 1, 1) := by decide +kernel
  rw [hg, Option.bind_some, hread, Option.bind_some, hr₀, Option.bind_some, hrun] at hstats
  exact ⟨r₀, r, g, msgs, res, hr₀, hg, hread, hrun, Option.some.inj hstats, hu, hc⟩

end Replay

end GenItch

end Pricetime
