import Pricetime.Proof.EngineOrders
import Pricetime.Proof.FeedRefines

/-!
# The feed rebuilds the book

A replayer that is given the engine's messages keeps, in the book of the
engine's symbol, the orders of the engine's own (`feed_integrity`). Both follow
the one flat list: the messages of a request take it where the request does
(`Feeds.handled`), although in another order, since a replaced order is still
there when the executions are told.
-/

namespace Pricetime

open Wire (Request Response ReqKind)
open Itch (WriterCall Message timestampField priceField)
open Spec (FeedOrder Lists)
open Spec.FeedOrder (place restingIn)

/-! ## The orders of all books -/

namespace Spec

/-- Orders counted by symbol are counted once. -/
theorem sum_restingIn_le : ∀ {symbols : List Symbol}, symbols.Nodup → ∀ os : List FeedOrder,
    (symbols.map fun s => (restingIn os s).length).sum ≤ os.length
  | [], _, _ => Nat.zero_le _
  | s :: symbols, hn, os => by
    have ih := sum_restingIn_le (List.nodup_cons.mp hn).2 (os.filter fun o => o.symbol ≠ s)
    have hrest : (symbols.map fun t => (restingIn (os.filter fun o => o.symbol ≠ s) t).length) =
        symbols.map fun t => (restingIn os t).length := by
      refine List.map_congr_left fun t ht => ?_
      have hne : t ≠ s := fun e => (List.nodup_cons.mp hn).1 (e ▸ ht)
      rw [restingIn, List.filter_filter]
      refine congrArg (fun xs => (xs.map place).length) (List.filter_congr fun o _ => ?_)
      by_cases ho : o.symbol = t
      · simp [ho, hne]
      · simp [ho]
    have hsplit : (restingIn os s).length + (os.filter fun o => o.symbol ≠ s).length = os.length := by
      rw [restingIn, List.length_map]
      simpa using (List.length_eq_length_filter_add (l := os) fun o => decide (o.symbol = s)).symm
    rw [hrest] at ih
    rw [List.map_cons, List.sum_cons]
    omega

end Spec

namespace MultiBook

variable {L M : Type} [Ladder L] [IdMap M]

/-- The state hash of a symbol's book: that of an empty one before the symbol
has a book. -/
def stateHash (m : MultiBook L M) (s : Symbol) : Option UInt64 :=
  match m.find s with
  | some b => b.stateHash
  | none => do
    let b ← OrderBook.new (M := M) m.ladder
    b.stateHash

theorem Refines.stateHash_eq [LawfulLadder L] [LawfulIdMap M] {accepts : Price → Bool} {m : MultiBook L M}
    {a : Spec.MultiBook} (h : Refines accepts m a) (hb : m.Few) (s : Symbol) :
    m.stateHash s = some (a.book s).stateHash := by
  rw [stateHash]
  cases hf : m.find s with
  | none =>
    have hs : s ∉ a.symbols := fun hs => by
      rw [← h.symbols] at hs
      obtain ⟨e, he, rfl⟩ := List.mem_map.mp hs
      simpa using List.find?_eq_none.mp (Option.map_eq_none_iff.mp hf) e he
    obtain ⟨b, hb, hsim⟩ := OrderBook.new_sim (M := M) h.vacant
    simp only [hb, Option.bind_eq_bind, Option.bind_some, h.unseen s hs]
    exact hsim.stateHash_eq (hsim.within_of_few (by rw [OrderBook.Few, hsim.openOrders_eq]; decide))
  | some b =>
    obtain ⟨p, hp⟩ := List.mem_iff_getElem?.mp ((find_eq_some (h.symbols ▸ h.nodup)).mp hf)
    exact (h.book hp).stateHash_eq ((h.book hp).within_of_few (hb.book hp))

end MultiBook

/-! ## A feed that follows -/

namespace Itch.Replayer

variable {L M : Type} [Ladder L] [LawfulLadder L] [IdMap M] [LawfulIdMap M] {accepts : Price → Bool}
  {r : Replayer L M} {os : List FeedOrder}

namespace Feeds

theorem few (h : Feeds accepts r os) (hlen : os.length < 2 ^ 32) : r.books.Few := by
  obtain ⟨a, ha, hrel⟩ := h.books
  have hsum : r.books.openOrders = (a.books.symbols.map fun s => (restingIn os s).length).sum :=
    ha.openOrders_eq.trans (congrArg _ (List.map_congr_left fun s _ => (hrel.flat s).openOrders (hrel.wf s)))
  rw [MultiBook.Few, hsum]
  exact Nat.lt_of_le_of_lt (Spec.sum_restingIn_le ha.books.nodup os) hlen

/-- The message of a call is received. -/
theorem said (hacc : ∀ p, accepts p = true) (h : Feeds accepts r os) (hlen : os.length < 2 ^ 32) (c : WriterCall)
    (hf : FeedOrder.Fresh os c.said) :
    ∃ r', Runs.run apply r [c.body] = some r' ∧ Feeds accepts r' (FeedOrder.apply os c.said) := by
  have hfresh : Fresh r c.body := (h.fresh_iff c.body).mpr fun m hm => by
    rw [decode_body] at hm
    cases hm
    exact hf
  obtain ⟨out, r', hr', h'⟩ := h.receive hacc (h.few hlen) (body_complete [c] _ List.mem_cons_self) hfresh
  refine ⟨r', Runs.run_cons hr' [], ?_⟩
  rwa [FeedOrder.receive, decode_body] at h'

/-- Executions are told one by one. -/
theorem executed (hacc : ∀ p, accepts p = true) (ts : UInt64) : ∀ (execs : List Execution) (n : UInt64)
    {r : Replayer L M} {os : List FeedOrder}, Feeds accepts r os → os.length < 2 ^ 32 →
    ∃ r', Runs.run apply r ((Engine.executedCalls ts n execs).map WriterCall.body) = some r' ∧
      Feeds accepts r' (FeedOrder.fills os execs)
  | [], _, r, _, h, _ => ⟨r, rfl, h⟩
  | x :: execs, n, r, os, h, hlen => by
    obtain ⟨r₁, hr₁, h₁⟩ := h.said hacc hlen (.orderExecuted ts x.restingId x.qty (n + 1)) trivial
    have hlen₁ := Nat.lt_of_le_of_lt (FeedOrder.length_take_le os x.restingId x.qty) hlen
    obtain ⟨r', hr', h'⟩ := executed hacc ts execs (n + 1) h₁ hlen₁
    refine ⟨r', ?_, h'⟩
    show Runs.run apply r ([WriterCall.body _] ++ (Engine.executedCalls ts (n + 1) execs).map WriterCall.body) = _
    rw [Runs.run_append, hr₁]
    exact hr'

/-- Executions, and then what is shown of the order that met them. -/
theorem executedThen (hacc : ∀ p, accepts p = true) (h : Feeds accepts r os) (hlen : os.length < 2 ^ 32)
    (ts n : UInt64) (execs : List Execution) (c : WriterCall) (hf : FeedOrder.Fresh (FeedOrder.fills os execs) c.said) :
    ∃ r', Runs.run apply r ((Engine.executedCalls ts n execs ++ [c]).map WriterCall.body) = some r' ∧
      Feeds accepts r' (FeedOrder.apply (FeedOrder.fills os execs) c.said) := by
  obtain ⟨r₁, hr₁, h₁⟩ := h.executed hacc ts execs n hlen
  obtain ⟨r', hr', h'⟩ := h₁.said hacc (Nat.lt_of_le_of_lt (FeedOrder.length_fills_le execs os) hlen) c hf
  refine ⟨r', ?_, h'⟩
  rw [List.map_append, Runs.run_append, hr₁]
  exact hr'

/-- The messages of a request. -/
theorem handled (hacc : ∀ p, accepts p = true) (h : Feeds accepts r os) (hlen : os.length < 2 ^ 32) {symbol : Symbol}
    {ts n : UInt64} {req : Request} {resps : List Response} {calls : List WriterCall} {os' : List FeedOrder}
    (hn : (os.map FeedOrder.reference).Nodup) (hs : ∀ o ∈ os, o.symbol = symbol)
    (hprice : priceField req.price = req.price) (hh : Engine.Handled symbol ts n req os resps calls os') :
    ∃ r', Runs.run apply r (calls.map WriterCall.body) = some r' ∧ Feeds accepts r' os' := by
  cases hh with
  | ignored => exact ⟨r, rfl, h⟩
  | refused => exact ⟨r, rfl, h⟩
  | @entered left execs hk hent =>
    have hfresh : ∀ x ∈ FeedOrder.fills os execs, x.reference ≠ req.id := fun x hx => by
      obtain ⟨y, hy, e, -⟩ := FeedOrder.mem_fills hx
      exact e ▸ hent.fresh y hy
    rw [Lists.entered]
    split
    · obtain ⟨r', hr', h'⟩ := h.executedThen hacc hlen ts n execs
        (.addOrder ts req.id (.ofByte req.side) left symbol req.price) fun _ => hfresh
      rw [WriterCall.said, hprice] at h'
      exact ⟨r', hr', h'⟩
    · rename_i hleft
      have h0 : left = 0 := UInt32.le_zero_iff.mp (UInt32.not_lt.mp hleft)
      rw [List.append_nil, FeedOrder.append, if_neg fun e => e.2 h0]
      exact h.executed hacc ts execs n hlen
  | @canceled o ho hid => exact h.said hacc hlen (.orderDelete ts req.id) trivial
  | @reduced o taken ho hid hle => exact h.said hacc hlen (.orderCancel ts req.id taken) trivial
  | @replaced o left execs hk ho hid hent =>
    -- no execution is of the order that is replaced
    have hother : ∀ x ∈ execs, req.id ≠ x.restingId := fun x hx e => by
      obtain ⟨y, hy, hr⟩ := FeedOrder.rests_mem hent.fills.rests x hx
      exact of_decide_eq_true (List.mem_filter.mp hy).2 (hr.trans e.symm)
    have hfind : (FeedOrder.fills os execs).find? (fun x => x.reference = req.id) = some o := by
      obtain ⟨xs, ys, rfl, hne⟩ := FeedOrder.exists_middle hn ho
      rw [FeedOrder.find_fills hother, ← hid]
      exact FeedOrder.find_middle hne
    rw [Lists.entered, ← FeedOrder.remove_fills]
    split
    · obtain ⟨r', hr', h'⟩ := h.executedThen hacc hlen ts n execs (.orderReplace ts req.id req.newId left req.price)
        fun _ _ x hx hne => by
          obtain ⟨y, hy, e, -⟩ := FeedOrder.mem_fills hx
          exact e ▸ hent.fresh y (List.mem_filter.mpr ⟨hy, by simpa using e ▸ hne⟩)
      simp only [WriterCall.said, hprice, FeedOrder.apply, hfind, hs o ho] at h'
      exact ⟨r', hr', h'⟩
    · rename_i hleft
      have h0 : left = 0 := UInt32.le_zero_iff.mp (UInt32.not_lt.mp hleft)
      rw [FeedOrder.append, if_neg fun e => e.2 h0]
      exact h.executedThen hacc hlen ts n execs (.orderDelete ts req.id) trivial

/-- What an observer sees of a symbol that all orders are of. -/
theorem shows (h : Feeds accepts r os) (hlen : os.length < 2 ^ 32) {symbol : Symbol} {b : OrderBook L M} {a : Spec.Book}
    (hs : ∀ o ∈ os, o.symbol = symbol) (hsim : OrderBook.Sim accepts b a) (hl : Lists a os) (hb : b.Few) :
    (∀ side, ∃ ls, b.walk side = some ls ∧ r.books.walk symbol side = some ls) ∧
      ∃ v, b.stateHash = some v ∧ r.books.stateHash symbol = some v := by
  obtain ⟨a', ha, hrel⟩ := h.books
  have hresting : restingIn os symbol = os.map place := by
    rw [restingIn, List.filter_eq_self.mpr fun o ho => by simpa using hs o ho]
  have hlevels : ∀ side, (a'.books.book symbol).walk side = a.walk side := fun side => by
    rw [Spec.Book.walk, Spec.Book.walk, (hrel.flat symbol).levels_eq (hrel.wf symbol), hl.flat.levels_eq hl.wf,
      hresting]
  have hw := hsim.within_of_few hb
  have hfew := h.few hlen
  refine ⟨fun side => ⟨a.walk side, hsim.walk_eq hw side, ?_⟩, a.stateHash, hsim.stateHash_eq hw, ?_⟩
  · rw [ha.books.walk_eq hfew, hlevels]
  · rw [ha.books.stateHash_eq hfew, Spec.Book.stateHash, hlevels, hlevels]
    rfl

end Feeds

end Itch.Replayer

namespace Engine

open Itch.Replayer (Feeds)

/-- A replayer of the feed has the book of the engine. -/
theorem feed_integrity {symbol : Symbol} {mdPort : UInt16} (hport : mdPort ≠ 0) {e₀ : Engine}
    (h₀ : new symbol mdPort = some e₀) {r₀ : Itch.Replayer MapLadder OpenAddressIdMap}
    (hr₀ : Itch.Replayer.new {} = some r₀) (reqs : List (UInt64 × Request))
    (hprice : ∀ op ∈ reqs, 0 ≤ op.2.price.toInt ∧ op.2.price.toInt < 2 ^ 32)
    (hfew : Runs.Along step (fun e => e.book.Few) e₀ reqs) :
    ∃ outs e r, Runs.trace step e₀ reqs = some outs ∧ Runs.run step e₀ reqs = some e ∧
      Runs.run Itch.Replayer.apply r₀ (outs.flatMap fun out => out.messages.map MdMsg.payload) = some r ∧
      (∀ side, ∃ ls, e.book.walk side = some ls ∧ r.books.walk symbol side = some ls) ∧
      ∃ v, e.book.stateHash = some v ∧ r.books.stateHash symbol = some v := by
  obtain ⟨e₁, he₁, hsym, hmd, ho⟩ := Orders.new symbol mdPort
  cases h₀.symm.trans he₁
  obtain ⟨r₁, hr₁, hfeeds⟩ := Itch.Replayer.new_feeds (M := OpenAddressIdMap) MapLadder.vacant
  cases hr₀.symm.trans hr₁
  obtain ⟨outs, e, hexec, ⟨r, os, hr, ho, hf, hsym, -⟩, hfewe⟩ := Runs.exec_collect
    (g := fun _ out => out.messages.map MdMsg.payload)
    (R := fun e msgs => ∃ r os, Runs.run Itch.Replayer.apply r₀ msgs = some r ∧ Orders e os ∧
      Feeds (Ladder.validPrice ({} : MapLadder)) r os ∧ e.symbol = symbol ∧ e.mdPort = mdPort)
    (A := fun op : UInt64 × Request => 0 ≤ op.2.price.toInt ∧ op.2.price.toInt < 2 ^ 32)
    (fun e msgs op ⟨r, os, hr, ho, hf, hsym, hmd⟩ hfew ⟨hp0, hp⟩ => by
      obtain ⟨out, e', resps, calls, os', hs', -, hmsgs, hh, ho', hsym', hmd'⟩ := ho.step hfew op
      obtain ⟨r', hr', hf'⟩ := hf.handled (fun _ => rfl) (ho.length_eq ▸ hfew) ho.nodup ho.symbol
        (Itch.priceField_of_fits hp0 hp) hh
      refine ⟨out, e', hs', r', os', ?_, ho', hf', hsym'.trans hsym, hmd'.trans hmd⟩
      rw [hmsgs, hmd, if_neg hport, List.map_map, Runs.run_append, hr]
      exact hr')
    [] reqs ⟨r₀, [], rfl, ho, hfeeds, hsym, hmd⟩ hprice hfew
  have hzip : (reqs.zip outs).flatMap (fun p => p.2.messages.map MdMsg.payload) =
      outs.flatMap fun out => out.messages.map MdMsg.payload := by
    conv_rhs => rw [← List.map_snd_zip (Nat.le_of_eq hexec.length_eq)]
    exact (List.flatMap_map Prod.snd (fun out : Pushes => out.messages.map MdMsg.payload) (reqs.zip outs)).symm
  rw [List.nil_append, hzip] at hr
  obtain ⟨a, hsim, hl, -⟩ := ho.book
  exact ⟨outs, e, r, hexec.trace, hexec.run, hr,
    hf.shows (ho.length_eq ▸ hfewe) (fun o hm => (ho.symbol o hm).trans hsym) hsim hl hfewe⟩

/-- An order that crosses another in part, a replacement that crosses, and one
that is refused. -/
theorem feed_integrity_cross : ∃ (reqs : List (UInt64 × Request)) (e₀ e : Engine) (outs : List Pushes)
    (r₀ r : Itch.Replayer MapLadder OpenAddressIdMap),
    reqs = [(1, { id := 1, side := 1, qty := 5, price := 10 }), (2, { id := 2, qty := 8, price := 11 }),
      (3, { id := 3, side := 1, qty := 4, price := 20 }),
      (4, { kind := ReqKind.replace, id := 3, newId := 3, qty := 9, price := 7 }),
      (5, { kind := ReqKind.replace, id := 3, newId := 0, qty := 1, price := 1 })] ∧
    new {} 1 = some e₀ ∧ Itch.Replayer.new {} = some r₀ ∧ Runs.trace step e₀ reqs = some outs ∧
    Runs.run step e₀ reqs = some e ∧
    Runs.run Itch.Replayer.apply r₀ (outs.flatMap fun out => out.messages.map MdMsg.payload) = some r ∧
    ∃ v, e.book.stateHash = some v ∧ r.books.stateHash {} = some v := by
  obtain ⟨e₀, h₀, -, -, ho⟩ := Orders.new {} 1
  obtain ⟨r₀, hr₀, -⟩ := Itch.Replayer.new_feeds (M := OpenAddressIdMap) MapLadder.vacant
  obtain ⟨outs, e, r, ht, hr, hrun, -, hhash⟩ := feed_integrity (by decide) h₀ hr₀
    [(1, { id := 1, side := 1, qty := 5, price := 10 }), (2, { id := 2, qty := 8, price := 11 }),
      (3, { id := 3, side := 1, qty := 4, price := 20 }),
      (4, { kind := ReqKind.replace, id := 3, newId := 3, qty := 9, price := 7 }),
      (5, { kind := ReqKind.replace, id := 3, newId := 0, qty := 1, price := 1 })] (by decide)
      (ho.along_few _ (by decide))
  exact ⟨_, e₀, e, outs, r₀, r, rfl, h₀, hr₀, ht, hr, hrun, hhash⟩

end Engine

end Pricetime
