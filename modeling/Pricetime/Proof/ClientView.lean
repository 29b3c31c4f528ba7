import Pricetime.Proof.EngineOrders
import Pricetime.Spec.Client

/-!
# The client's view of the book

A client that keeps a map of its orders by nothing but the responses has, after
each request, the orders of the engine's book with their shares and prices, and
is never told to take off what it does not have (`client_view`).
-/

namespace Pricetime

open Wire (Request Response ReqKind RespKind)
open Spec (FeedOrder Lists ClientMap)
open Spec.FeedOrder (place)

namespace Spec

/-! ## The map of a list -/

/-- The map of a list of orders. -/
def view (os : List FeedOrder) : ClientMap := fun id =>
  (os.find? fun o => o.reference = id).map fun o => (o.shares, o.price)

/-- What a map has of an order. -/
def entry (left : Qty) (price : Price) : Option (Qty × Price) := if left = 0 then none else some (left, price)

variable {os : List FeedOrder} {o : FeedOrder}

theorem view_absent {id : OrderId} (h : ∀ o ∈ os, o.reference ≠ id) : view os id = none := by
  rw [view, List.find?_eq_none.mpr fun o ho => by simpa using h o ho]
  rfl

theorem view_mem (hn : (os.map FeedOrder.reference).Nodup) (ho : o ∈ os) :
    view os o.reference = some (o.shares, o.price) := by
  obtain ⟨xs, ys, rfl, hne⟩ := FeedOrder.exists_middle hn ho
  rw [view, FeedOrder.find_middle hne]
  rfl

theorem view_append (h0 : o.reference ≠ 0) (hid : ∀ x ∈ os, x.reference ≠ o.reference) :
    view (FeedOrder.append os o) = Function.update (view os) o.reference (entry o.shares o.price) := by
  rw [FeedOrder.append, entry]
  by_cases hq : o.shares = 0
  · rw [if_neg fun h => h.2 hq, if_pos hq, ← view_absent hid, Function.update_eq_self]
  · rw [if_pos ⟨h0, hq⟩, if_neg hq]
    funext id
    by_cases hr : id = o.reference
    · subst hr
      rw [Function.update_self, view, List.find?_append, List.find?_eq_none.mpr fun x hx => by simpa using hid x hx,
        List.find?_cons_of_pos (by simp)]
      rfl
    · rw [Function.update_of_ne hr, view, view, List.find?_append, List.find?_cons_of_neg (by simpa using Ne.symm hr),
        List.find?_nil, Option.or_none]

theorem view_remove (os : List FeedOrder) (id : OrderId) :
    view (FeedOrder.remove os id) = Function.update (view os) id none := by
  funext id'
  by_cases hr : id' = id
  · subst hr
    rw [Function.update_self]
    exact view_absent fun o ho => by simpa using (List.mem_filter.mp ho).2
  · rw [Function.update_of_ne hr, view, view, FeedOrder.remove, List.find?_filter]
    refine congrArg _ (congrArg (List.find? · os) (funext fun o => ?_))
    by_cases ho : o.reference = id'
    · simp [ho, hr]
    · simp [ho]

theorem view_take (hn : (os.map FeedOrder.reference).Nodup) (ho : o ∈ os) {shares : Qty} (hle : shares ≤ o.shares) :
    view (FeedOrder.take os o.reference shares) = (view os).subtract o.reference shares := by
  funext id
  by_cases hr : id = o.reference
  · subst hr
    rw [ClientMap.subtract, Function.update_self, view_mem hn ho, Option.bind_some]
    dsimp only
    obtain ⟨xs, ys, rfl, hne⟩ := FeedOrder.exists_middle hn ho
    by_cases hlt : shares < o.shares
    · rw [FeedOrder.take_middle_part hne hlt, if_neg (sub_ne_zero hlt), view]
      have hfind := FeedOrder.find_middle (o := { o with shares := o.shares - shares }) hne
      rw [hfind]
      rfl
    · have he : shares = o.shares := UInt32.le_antisymm hle (UInt32.not_lt.mp hlt)
      rw [FeedOrder.take_middle_whole hne hlt, he, if_pos (UInt32.sub_self _)]
      exact view_absent hne
  · rw [ClientMap.subtract, Function.update_of_ne hr, view, view, FeedOrder.find_take_of_ne hr]

/-! ## Hearing -/

namespace ClientMap

variable {m : ClientMap} {req : Request} {r : Response}

/-- An acknowledged order. -/
theorem hear_accepted (hk : r.kind = RespKind.accepted) : m.hear (req, r) =
    Function.update (if req.kind = ReqKind.replace then Function.update m req.id none else m) r.id
      (some (r.qty, r.price)) := if_pos hk

theorem hear_subtract (hk : r.kind = RespKind.executed ∨ r.kind = RespKind.reduced) :
    m.hear (req, r) = m.subtract r.id r.qty := by
  have hne : r.kind ≠ RespKind.accepted := by
    rcases hk with hk | hk <;> rw [hk] <;> decide
  rw [hear]
  dsimp only
  rw [if_neg hne, if_pos hk]

theorem hear_canceled (hk : r.kind = RespKind.canceled) :
    m.hear (req, r) = Function.update m r.id none := by
  simp only [hear, hk]
  rfl

theorem hear_rejected (hk : r.kind = RespKind.rejected) : m.hear (req, r) = m := by
  simp only [hear, hk]
  rfl

/-- Other responses take nothing off. -/
theorem covers_of_kind {k : RespKind} (hk : r.kind = k)
    (hne : ¬ (k = RespKind.executed ∨ k = RespKind.reduced)) : m.Covers (req, r) :=
  fun h => absurd (hk ▸ h) hne

theorem subtract_entry (m : ClientMap) (id : OrderId) {left qty : Qty} (price : Price) (h0 : left ≠ 0) :
    subtract (Function.update m id (entry left price)) id qty = Function.update m id (entry (left - qty) price) := by
  rw [subtract, Function.update_self, Function.update_idem, entry, if_neg h0, Option.bind_some]
  rfl

theorem subtract_of_ne (m : ClientMap) {id id' : OrderId} (hne : id' ≠ id) (v : Option (Qty × Price)) (qty : Qty) :
    subtract (Function.update m id v) id' qty = Function.update (subtract m id' qty) id v := by
  rw [subtract, subtract, Function.update_of_ne hne, Function.update_comm hne.symm]

end ClientMap

open ClientMap (hear Covers)

/-- The two responses to each execution keep the map that of the list, with
what is left of the aggressor. -/
theorem hear_fills (req : Request) {id : OrderId} (price : Price) : ∀ {execs : List Execution} {os : List FeedOrder}
    {left left' : Qty}, (os.map FeedOrder.reference).Nodup → (∀ x ∈ os, x.reference ≠ id) →
    Lists.Fills os id left left' execs →
    Runs.Folds hear Covers (Function.update (view os) id (entry left price))
      ((Engine.fillResponses req execs).map fun r => (req, r)) ∧
    ((Engine.fillResponses req execs).map fun r => (req, r)).foldl hear
      (Function.update (view os) id (entry left price)) =
        Function.update (view (FeedOrder.fills os execs)) id (entry left' price)
  | [], os, left, left', _, _, h => by
    have hleft : left' = left := UInt32.toNat_inj.mp h.left
    rw [hleft]
    exact ⟨trivial, rfl⟩
  | ⟨resting, aggressor, xprice, xqty⟩ :: execs, os, left, left', hn, hid, h => by
    obtain ⟨⟨hqty, o, ho, hr, hle⟩, hrests⟩ := h.rests
    obtain rfl : aggressor = id := h.aggressor _ List.mem_cons_self
    dsimp only at hqty hr hle
    have hne : resting ≠ aggressor := hr ▸ hid o ho
    have hsum := h.left
    rw [FeedOrder.traded_cons] at hsum
    dsimp only at hsum
    have hx : xqty ≤ left := UInt32.le_iff_toNat_le.mpr (by omega)
    have h0 : left ≠ 0 := fun e => hqty (UInt32.le_zero_iff.mp (e ▸ hx))
    have hknown : view os resting = some (o.shares, o.price) := hr ▸ view_mem hn ho
    -- what the aggressor's copy tells, and then the resting order's
    have hsecond : ClientMap.subtract (Function.update (view os) aggressor (entry (left - xqty) price)) resting xqty =
        Function.update (view (FeedOrder.fill os ⟨resting, aggressor, xprice, xqty⟩)) aggressor
          (entry (left - xqty) price) := by
      rw [ClientMap.subtract_of_ne _ hne, FeedOrder.fill, ← hr, view_take hn ho hle]
    have hsub : (left - xqty).toNat = left.toNat - xqty.toNat := UInt32.toNat_sub_of_le _ _ hx
    have hrest : Lists.Fills (FeedOrder.fill os ⟨resting, aggressor, xprice, xqty⟩) aggressor
      (left - xqty) left' execs :=
      ⟨fun y hy => h.aggressor y (List.mem_cons_of_mem _ hy), hrests, by omega⟩
    obtain ⟨ihf, ihv⟩ := hear_fills req price (hn.sublist (FeedOrder.take_sublist os resting xqty))
      (fun y hy => by
        obtain ⟨z, hz, e, -⟩ := FeedOrder.mem_take hy
        exact e ▸ hid z hz) hrest
    have hfirst : hear (Function.update (view os) aggressor (entry left price))
        (req, ⟨RespKind.executed, Result.ok.code, xqty, xprice, aggressor, resting, req.clientTs⟩) =
          Function.update (view os) aggressor (entry (left - xqty) price) :=
      (ClientMap.hear_subtract (.inl rfl)).trans (ClientMap.subtract_entry (view os) aggressor price h0)
    have hboth : hear (Function.update (view os) aggressor (entry (left - xqty) price))
        (req, ⟨RespKind.executed, Result.ok.code, xqty, xprice, resting, aggressor, req.clientTs⟩) = _ :=
      (ClientMap.hear_subtract (.inl rfl)).trans hsecond
    have hlist : (Engine.fillResponses req (⟨resting, aggressor, xprice, xqty⟩ :: execs)).map (fun r => (req, r)) =
        (req, ⟨RespKind.executed, Result.ok.code, xqty, xprice, aggressor, resting, req.clientTs⟩) ::
        (req, ⟨RespKind.executed, Result.ok.code, xqty, xprice, resting, aggressor, req.clientTs⟩) ::
        (Engine.fillResponses req execs).map fun r => (req, r) := rfl
    rw [hlist, List.foldl_cons, List.foldl_cons, hfirst, hboth]
    refine ⟨⟨fun _ => ⟨left, price, ?_, hx⟩, ?_⟩, ihv⟩
    · rw [Function.update_self, entry, if_neg h0]
    · rw [hfirst]
      refine ⟨fun _ => ⟨o.shares, o.price, ?_, hle⟩, ?_⟩
      · exact (Function.update_of_ne hne ..).trans hknown
      · rw [hboth]
        exact ihf

/-- The responses to a request, heard by a client that knows the orders before
it. -/
theorem hear_handled {symbol : Symbol} {ts n : UInt64} {req : Request} {os os' : List FeedOrder}
    {resps : List Response} {calls : List Itch.WriterCall} (hn : (os.map FeedOrder.reference).Nodup)
    (h : Engine.Handled symbol ts n req os resps calls os') :
    Runs.Folds hear Covers (view os) (resps.map fun r => (req, r)) ∧
      (resps.map fun r => (req, r)).foldl hear (view os) = view os' := by
  -- an accepted order, over the list `xs` of the others
  have entered : ∀ {xs : List FeedOrder} {o : FeedOrder} {left : Qty} {execs : List Execution} {r : Response},
      (xs.map FeedOrder.reference).Nodup → Lists.Entered xs o left execs → r.kind = RespKind.accepted →
      hear (view os) (req, r) = Function.update (view xs) o.reference (some (o.shares, o.price)) →
      Runs.Folds hear Covers (view os) ((r :: Engine.fillResponses req execs).map fun r => (req, r)) ∧
        ((r :: Engine.fillResponses req execs).map fun r => (req, r)).foldl hear (view os) =
          view (Lists.entered xs o left execs) := by
    intro xs o left execs r hn h hk hack
    have hentry : some (o.shares, o.price) = entry o.shares o.price := (if_neg h.qty).symm
    obtain ⟨hf, hv⟩ := hear_fills req o.price hn h.fresh h.fills
    have hfresh : ∀ x ∈ FeedOrder.fills xs execs, x.reference ≠ o.reference := fun x hx => by
      obtain ⟨y, hy, e, -⟩ := FeedOrder.mem_fills hx
      exact e ▸ h.fresh y hy
    rw [hentry] at hack
    rw [List.map_cons, List.foldl_cons, hack]
    refine ⟨⟨ClientMap.covers_of_kind hk (by decide), hack ▸ hf⟩, hv.trans ?_⟩
    exact (view_append (o := { o with shares := left }) h.id hfresh).symm
  cases h with
  | ignored => exact ⟨trivial, rfl⟩
  | refused code id qty price =>
    refine ⟨⟨ClientMap.covers_of_kind (k := RespKind.rejected) rfl (by decide), trivial⟩, ?_⟩
    exact @ClientMap.hear_rejected (view os) req ⟨RespKind.rejected, code, qty, price, id, 0, req.clientTs⟩ rfl
  | entered hk h =>
    refine entered hn h rfl ((ClientMap.hear_accepted rfl).trans ?_)
    rw [if_neg (by rw [hk]; decide)]
  | canceled ho hid =>
    refine ⟨⟨ClientMap.covers_of_kind (k := RespKind.canceled) rfl (by decide), trivial⟩, ?_⟩
    rw [view_remove]
    exact @ClientMap.hear_canceled (view os) req ⟨RespKind.canceled, Result.ok.code, 0, 0, req.id, 0, req.clientTs⟩ rfl
  | @reduced o taken ho hid hle =>
    rw [← hid]
    refine ⟨⟨fun _ => ⟨o.shares, o.price, view_mem hn ho, hle⟩, trivial⟩, ?_⟩
    rw [view_take hn ho hle]
    exact @ClientMap.hear_subtract (view os) req
      ⟨RespKind.reduced, Result.ok.code, taken, 0, o.reference, 0, req.clientTs⟩ (.inr rfl)
  | replaced hk ho hid h =>
    refine entered (hn.sublist (List.filter_sublist.map _)) h rfl ((ClientMap.hear_accepted rfl).trans ?_)
    rw [if_pos hk, view_remove]

end Spec

namespace OrderBook

variable {L M : Type} [Ladder L] [IdMap M]

/-- The remaining quantity and the price of an order that rests. -/
def remaining (b : OrderBook L M) (id : OrderId) : Option (Qty × Price) :=
  (b.findOrder id).join.map fun o => ((b.heap.order o).qty, (b.heap.order o).price)

variable [LawfulLadder L] [LawfulIdMap M] {accepts : Price → Bool} {b : OrderBook L M} {a : Spec.Book}
  {os : List FeedOrder}

theorem Sim.remaining_eq (h : Sim accepts b a) (id : OrderId) :
    b.remaining id = (a.find id).map fun pl => (pl.order.qty, pl.price) := by
  rw [remaining, findOrder]
  rcases h.find_cases id with ⟨hb, ha⟩ | ⟨o, hb, -, ha⟩
  · rw [hb, ha]
    rfl
  · rw [hb, ha]
    rfl

theorem Sim.remaining_view (h : Sim accepts b a) (hl : Lists a os) : b.remaining = Spec.view os := by
  funext id
  rw [h.remaining_eq, hl.find, Option.map_map]
  rfl

/-- The orders by id are those of the walks over the two sides. -/
theorem Sim.remaining_iff (h : Sim accepts b a) (hw : Within L a) (hwf : a.Wf) {id : OrderId} {qty : Qty}
    {price : Price} : b.remaining id = some (qty, price) ↔
      ∃ side ls l, b.walk side = some ls ∧ l ∈ ls ∧ l.price = price ∧ (id, qty) ∈ l.orders := by
  rw [h.remaining_eq, Option.map_eq_some_iff]
  constructor
  · rintro ⟨pl, hf, e⟩
    cases e
    obtain ⟨hpl, rfl⟩ := Spec.Book.find_some hf
    obtain ⟨l, hl, hp, ho⟩ := Spec.Book.mem_places.mp hpl
    exact ⟨pl.side, _, l.view, h.walk_eq hw pl.side, List.mem_map_of_mem hl, hp, List.mem_map_of_mem ho⟩
  · rintro ⟨side, ls, l, hls, hl, rfl, ho⟩
    cases (h.walk_eq hw side).symm.trans hls
    obtain ⟨l, hl, rfl⟩ := List.mem_map.mp hl
    obtain ⟨o, ho, e⟩ := List.mem_map.mp ho
    cases e
    have hpl : (⟨side, l.price, o⟩ : Spec.Place) ∈ a.places := Spec.Book.mem_places.mpr ⟨l, ‹_›, rfl, ‹_›⟩
    exact ⟨_, (Spec.Book.find_eq_some_iff hwf.nodup).mpr ⟨hpl, rfl⟩, rfl⟩

end OrderBook

namespace Engine

open Spec.ClientMap (hear Covers)

/-- What is heard in a run: the responses, each with its request. -/
def heard (reqs : List (UInt64 × Request)) (outs : List Pushes) : List (Request × Response) :=
  (reqs.zip outs).flatMap fun p => p.2.responses.map fun r => (p.1.2, r)

/-- A client that has heard every response has the orders of the book. -/
theorem client_view {symbol : Symbol} {mdPort : UInt16} {e₀ : Engine} (h₀ : new symbol mdPort = some e₀)
    (reqs : List (UInt64 × Request)) (hfew : Runs.Along step (fun e => e.book.Few) e₀ reqs) :
    ∃ outs e, Runs.trace step e₀ reqs = some outs ∧ Runs.run step e₀ reqs = some e ∧
      Runs.Folds hear Covers (fun _ => none) (heard reqs outs) ∧
      (heard reqs outs).foldl hear (fun _ => none) = e.book.remaining ∧
      ∀ id qty price, e.book.remaining id = some (qty, price) ↔
        ∃ side ls l, e.book.walk side = some ls ∧ l ∈ ls ∧ l.price = price ∧ (id, qty) ∈ l.orders := by
  obtain ⟨e₁, he₁, -, -, ho⟩ := Orders.new symbol mdPort
  cases h₀.symm.trans he₁
  obtain ⟨outs, e, hexec, ⟨os, ho, hf, hv⟩, hfewe⟩ := Runs.exec_collect
    (g := fun op out => out.responses.map fun r => (op.2, r))
    (R := fun e hs => ∃ os, Orders e os ∧ Runs.Folds hear Covers (fun _ => none) hs ∧
      hs.foldl hear (fun _ => none) = Spec.view os)
    (fun e hs op ⟨os, ho, hf, hv⟩ hfew _ => by
      obtain ⟨out, e', resps, calls, os', hs', hresps, -, hh, ho', -, -⟩ := ho.step hfew op
      obtain ⟨hf', hv'⟩ := Spec.hear_handled ho.nodup hh
      refine ⟨out, e', hs', os', ho', ?_, ?_⟩
      · rw [hresps]
        exact Runs.folds_append hf (hv ▸ hf')
      · rw [hresps, List.foldl_append, hv, hv'])
    [] reqs ⟨[], ho, trivial, rfl⟩ (A := fun _ => True) (fun _ _ => trivial) hfew
  obtain ⟨a, hsim, hl, -⟩ := ho.book
  refine ⟨outs, e, hexec.trace, hexec.run, hf, ?_, fun id qty price => ?_⟩
  · exact hv.trans (hsim.remaining_view hl).symm
  · exact hsim.remaining_iff (hsim.within_of_few hfewe) hl.wf

/-- An order that crosses two others, and a replacement under its own id. -/
theorem client_view_cross : ∃ (reqs : List (UInt64 × Request)) (e₀ e : Engine) (outs : List Pushes),
    reqs = [(1, { id := 1, side := 1, qty := 5, price := 10 }), (2, { id := 2, side := 1, qty := 5, price := 11 }),
      (3, { id := 3, qty := 8, price := 11 }), (4, { kind := ReqKind.replace, id := 2, newId := 2, qty := 9, price := 7 })] ∧
    new {} 0 = some e₀ ∧ Runs.trace step e₀ reqs = some outs ∧ Runs.run step e₀ reqs = some e ∧
    (heard reqs outs).foldl hear (fun _ => none) = e.book.remaining := by
  obtain ⟨e₀, h₀, -, -, ho⟩ := Orders.new {} 0
  obtain ⟨outs, e, ht, hr, -, hv, -⟩ := client_view h₀ [(1, { id := 1, side := 1, qty := 5, price := 10 }),
    (2, { id := 2, side := 1, qty := 5, price := 11 }), (3, { id := 3, qty := 8, price := 11 }),
    (4, { kind := ReqKind.replace, id := 2, newId := 2, qty := 9, price := 7 })] (ho.along_few _ (by decide))
  exact ⟨_, e₀, e, outs, rfl, h₀, ht, hr, hv⟩

end Engine

end Pricetime
