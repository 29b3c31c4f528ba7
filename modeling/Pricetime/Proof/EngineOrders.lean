import Pricetime.Proof.Engine
import Pricetime.Proof.IdMapLayout
import Pricetime.Proof.SelfTrade

/-!
# The engine on the flat list of its orders

`Handled` is what handling a request comes to: the responses, the messages and
the list of resting orders after it, one case for each kind of request. It
depends on nothing but the list before, so that a client and a feed can be
compared with the engine by way of it.
-/

namespace Pricetime

open Wire (Request Response ReqKind RespKind)
open Itch (WriterCall)
open Spec (FeedOrder Lists)

namespace Engine

/-- What a request does, given the orders `os` that rest before it. -/
inductive Handled (symbol : Symbol) (ts n : UInt64) (req : Request) (os : List FeedOrder) :
    List Response → List WriterCall → List FeedOrder → Prop
  | ignored : Handled symbol ts n req os [] [] os
  | refused (code : UInt8) (id : OrderId) (qty : Qty) (price : Price) : Handled symbol ts n req os
    [{ kind := RespKind.rejected, code, qty, price, id, clientTs := req.clientTs }] [] os
  | entered {left : Qty} {execs : List Execution} (hk : req.kind = ReqKind.enter)
    (h : Lists.Entered os ⟨req.id, symbol, .ofByte req.side, req.price, req.qty⟩ left execs) :
    Handled symbol ts n req os
      ({ kind := RespKind.accepted, qty := req.qty, price := req.price, id := req.id, clientTs := req.clientTs } ::
        fillResponses req execs)
      (executedCalls ts n execs ++ if left > 0 then
        [.addOrder ts req.id (.ofByte req.side) left symbol req.price] else [])
      (Lists.entered os ⟨req.id, symbol, .ofByte req.side, req.price, req.qty⟩ left execs)
  | canceled {o : FeedOrder} (ho : o ∈ os) (hid : o.reference = req.id) : Handled symbol ts n req os
    [{ kind := RespKind.canceled, id := req.id, clientTs := req.clientTs }] [.orderDelete ts req.id]
    (FeedOrder.remove os req.id)
  | reduced {o : FeedOrder} {taken : Qty} (ho : o ∈ os) (hid : o.reference = req.id) (hle : taken ≤ o.shares) :
    Handled symbol ts n req os
      [{ kind := RespKind.reduced, qty := taken, id := req.id, clientTs := req.clientTs }]
      [.orderCancel ts req.id taken] (FeedOrder.take os req.id taken)
  | replaced {o : FeedOrder} {left : Qty} {execs : List Execution} (hk : req.kind = ReqKind.replace) (ho : o ∈ os)
    (hid : o.reference = req.id)
    (h : Lists.Entered (FeedOrder.remove os req.id) ⟨req.newId, symbol, o.side, req.price, req.qty⟩ left execs) :
    Handled symbol ts n req os
      ({ kind := RespKind.accepted, qty := req.qty, price := req.price, id := req.newId, clientTs := req.clientTs } ::
        fillResponses req execs)
      (executedCalls ts n execs ++ if left > 0 then [.orderReplace ts req.id req.newId left req.price]
        else [.orderDelete ts req.id])
      (Lists.entered (FeedOrder.remove os req.id) ⟨req.newId, symbol, o.side, req.price, req.qty⟩ left execs)

theorem toNat_filledQty (execs : List Execution) : (filledQty execs).toNat = Spec.traded execs % 2 ^ 32 := by
  have step : ∀ (execs : List Execution) (filled : Qty),
      (execs.foldl (fun filled x => filled + x.qty) filled).toNat = (filled.toNat + Spec.traded execs) % 2 ^ 32 := by
    intro execs
    induction execs with
    | nil =>
      intro filled
      exact (Nat.mod_eq_of_lt filled.toNat_lt).symm
    | cons x execs ih =>
      intro filled
      rw [List.foldl_cons, ih, Spec.FeedOrder.traded_cons, UInt32.toNat_add]
      omega
  rw [filledQty, step]
  exact congrArg (· % 2 ^ 32) (Nat.zero_add _)

/-- `req.qty - filled` is what matching has left. -/
theorem remainder_eq {os : List FeedOrder} {id : OrderId} {req : Request} {left : Qty} (reply : Reply)
    (h : Lists.Fills os id req.qty left reply.execs) : remainder req reply = left := by
  have hsum := h.left
  have hqty := req.qty.toNat_lt
  have hfilled := toNat_filledQty reply.execs
  refine UInt32.toNat_inj.mp ?_
  rw [remainder, UInt32.toNat_sub_of_le _ _ (UInt32.le_iff_toNat_le.mpr (by omega))]
  omega

variable {symbol : Symbol} {ts n : UInt64} {req : Request} {os : List FeedOrder} {accepts : Price → Bool}
  {a : Spec.Book}

theorem handled_refused (k : Ask) {result : Result} (hr : result ≠ .ok) :
    Handled symbol ts n req os (k.responses req { result }) (k.calls ts n { result }) os := by
  rw [Ask.responses, Ask.primary, Ask.calls, if_neg hr, if_neg hr]
  exact .refused ..

theorem handled_reduced {o : FeedOrder} {taken : Qty} (ho : o ∈ os) (hid : o.reference = req.id) (h0 : taken ≠ 0)
    (hle : taken ≤ o.shares) : Handled symbol ts n req os
      [{ kind := RespKind.reduced, qty := taken, id := req.id, clientTs := req.clientTs }]
      (if taken > 0 then [.orderCancel ts req.id taken] else []) (FeedOrder.take os req.id taken) := by
  rw [if_pos (UInt32.pos_iff_ne_zero.mpr h0)]
  exact .reduced ho hid hle

/-- The order that a request names. -/
theorem named (h : Lists a os) {id : OrderId} {pl : Spec.Place} (hf : a.find id = some pl) :
    ∃ o ∈ os, o.reference = id ∧ o.place = pl := by
  obtain ⟨hpl, rfl⟩ := Spec.Book.find_some hf
  obtain ⟨o, ho, rfl⟩ := h.mem_places.mp hpl
  exact ⟨o, ho, rfl, rfl⟩

/-- The answer of the abstract book, on the list. -/
theorem asked {k : Ask} (hk : ask symbol ts req = some k) (h : Lists a os) (hstp : a.stp = .none)
    {r : Reply × Spec.Book}
    (hr : a.apply accepts k.op = r) :
    ∃ os', Lists r.2 os' ∧ Handled symbol ts n req os (k.responses req r.1) (k.calls ts n r.1) os' := by
  rw [ask] at hk
  split_ifs at hk with henter hcancel hreduce hreplace
  · cases hk
    have he : Spec.Book.Enters a req.id 0 (.ofByte req.side) req.price req.qty r := hr ▸
      Spec.Book.addLimitAs_enters ..
    cases he with
    | rejected hno => exact ⟨os, h, handled_refused _ hno⟩
    | entered h0 hq hid =>
      obtain ⟨hent, hl⟩ := h.enter (o := ⟨req.id, symbol, .ofByte req.side, req.price, req.qty⟩) hstp h0 hq hid
      refine ⟨_, hl, ?_⟩
      have hleft := remainder_eq { result := .ok, execs := _ } hent.fills
      simp only [Ask.responses, Ask.primary, Ask.calls, if_true, hleft]
      exact .entered henter hent
  · cases hk
    have hr : a.cancel req.id = r := hr
    rw [Spec.Book.cancel] at hr
    cases hf : a.find req.id with
    | none =>
      rw [hf] at hr
      subst hr
      exact ⟨os, h, handled_refused _ (by decide)⟩
    | some pl =>
      rw [hf] at hr
      subst hr
      obtain ⟨o, ho, hid, rfl⟩ := named h hf
      refine ⟨_, h.cancelOpen ho, ?_⟩
      rw [hid]
      exact .canceled ho hid
  · cases hk
    have hc : Spec.Book.Consumes a req.id req.qty false r := hr ▸ Spec.Book.consume_consumes ..
    cases hc with
    | rejected hno _ => exact ⟨os, h, handled_refused _ hno⟩
    | removed hf hq hle =>
      obtain ⟨o, ho, hid, rfl⟩ := named h hf
      refine ⟨_, (h.setCounters _).whole ho (UInt32.lt_irrefl _), ?_⟩
      rw [hid]
      exact handled_reduced ho hid (h.shares_ne_zero ho) (UInt32.le_refl _)
    | reduced hf hq hlt =>
      obtain ⟨o, ho, hid, rfl⟩ := named h hf
      refine ⟨_, (h.setCounters _).part ho hlt, ?_⟩
      rw [hid]
      exact handled_reduced ho hid hq (UInt32.le_of_lt hlt)
  · cases hk
    have hr : a.replace accepts req.id req.newId req.price req.qty = r := hr
    rcases Spec.Book.replace_entered h.wf accepts req.id req.newId req.price req.qty with
      ⟨result, hno, e⟩ | ⟨pl, hf, hok, he⟩
    · rw [e] at hr
      subst hr
      exact ⟨os, h, handled_refused _ hno⟩
    · rw [hr] at hok he
      obtain ⟨o, ho, hid, rfl⟩ := named h hf
      have he : Spec.Book.Enters (a.cancelOpen o.place) req.newId 0 o.side req.price req.qty r := he
      cases he with
      | rejected hno => exact absurd hok hno
      | entered h0 hq hnew =>
        obtain ⟨hent, hl⟩ := (h.cancelOpen ho).enter (o := ⟨req.newId, symbol, o.side, req.price, req.qty⟩) hstp h0 hq hnew
        refine ⟨_, hl, ?_⟩
        have hleft := remainder_eq { result := .ok, execs := _ } hent.fills
        simp only [Ask.responses, Ask.primary, Ask.calls, if_true, hleft]
        rw [hid] at hent ⊢
        exact .replaced hreplace ho hid hent

theorem ask_isPolicy {k : Ask} (hk : ask symbol ts req = some k) : k.op.isPolicy = false := by
  rw [ask] at hk
  split_ifs at hk <;> cases hk <;> rfl

/-- All that the list holds, a request brings in or leaves under the symbol. -/
theorem Handled.keepsSymbol {resps : List Response} {calls : List WriterCall} {os' : List FeedOrder}
    (h : Handled symbol ts n req os resps calls os') (hs : ∀ o ∈ os, o.symbol = symbol) :
    ∀ o ∈ os', o.symbol = symbol := by
  have entered : ∀ {os : List FeedOrder} {o : FeedOrder} {left : Qty} {execs : List Execution},
      (∀ o ∈ os, o.symbol = symbol) → o.symbol = symbol → ∀ x ∈ Lists.entered os o left execs, x.symbol = symbol := by
    intro os o left execs hs ho x hx
    have hold : ∀ x ∈ FeedOrder.fills os execs, x.symbol = symbol := fun x hx => by
      obtain ⟨y, hy, -, e⟩ := Spec.FeedOrder.mem_fills hx
      exact e ▸ hs y hy
    rw [Lists.entered, FeedOrder.append] at hx
    split at hx
    · rcases List.mem_append.mp hx with hx | hx
      · exact hold x hx
      · rw [List.mem_singleton.mp hx]
        exact ho
    · exact hold x hx
  have removed : ∀ {id}, ∀ x ∈ FeedOrder.remove os id, x.symbol = symbol := fun x hx => hs x (List.mem_filter.mp hx).1
  cases h with
  | ignored => exact hs
  | refused => exact hs
  | entered hk h => exact entered hs rfl
  | canceled ho hid => exact removed
  | reduced ho hid hle =>
    intro x hx
    obtain ⟨y, hy, -, e⟩ := Spec.FeedOrder.mem_take hx
    exact e ▸ hs y hy
  | replaced hk ho hid h => exact entered removed rfl

theorem length_entered_le (os : List FeedOrder) (o : FeedOrder) (left : Qty) (execs : List Execution) :
    (Lists.entered os o left execs).length ≤ os.length + 1 := by
  have hle := Spec.FeedOrder.length_fills_le execs os
  rw [Lists.entered, FeedOrder.append]
  split
  · rw [List.length_append, List.length_singleton]
    omega
  · omega

/-- A request brings in one order at most. -/
theorem Handled.length_le {resps : List Response} {calls : List WriterCall} {os' : List FeedOrder}
    (h : Handled symbol ts n req os resps calls os') : os'.length ≤ os.length + 1 := by
  have hremove : (FeedOrder.remove os req.id).length ≤ os.length := List.length_filter_le ..
  cases h with
  | ignored => omega
  | refused => omega
  | entered hk h => exact length_entered_le ..
  | canceled ho hid => omega
  | @reduced o taken ho hid hle =>
    have := Spec.FeedOrder.length_take_le os req.id taken
    omega
  | @replaced o left execs hk ho hid h =>
    have := length_entered_le (FeedOrder.remove os req.id) ⟨req.newId, symbol, o.side, req.price, req.qty⟩ left execs
    omega

/-! ## The engine's orders -/

/-- An engine before its first request. -/
def idle (symbol : Symbol) (mdPort : UInt16) : Engine where
  symbol := symbol
  mdPort := mdPort
  book := { ladder := {}, orders := OpenAddressMap.empty (2 ^ 21) }

theorem new_eq (symbol : Symbol) (mdPort : UInt16) : new symbol mdPort = some (idle symbol mdPort) := by
  have hbook : (OrderBook.new {} : Option (OrderBook MapLadder OpenAddressIdMap)) =
      some { ladder := {}, orders := OpenAddressMap.empty (2 ^ 17) } := by
    have horders : IdMap.reserve (OpenAddressMap.empty OpenAddressMap.kInitialCapacity : OpenAddressIdMap) (2 ^ 16) =
        some (OpenAddressMap.empty (2 ^ 17)) := OpenAddressMap.reserve_empty (by decide +kernel) (by decide)
    have hnew : (IdMap.new : Option OpenAddressIdMap) = some (OpenAddressMap.empty OpenAddressMap.kInitialCapacity) :=
      OpenAddressMap.new_eq
    rw [OrderBook.new, hnew, Option.bind_eq_bind, Option.bind_some, horders]
    rfl
  have hreserve : IdMap.reserve (OpenAddressMap.empty (2 ^ 17) : OpenAddressIdMap) (2 ^ 20) =
      some (OpenAddressMap.empty (2 ^ 21)) := OpenAddressMap.reserve_empty (by decide +kernel) (by decide)
  rw [new, hbook, Option.bind_eq_bind, Option.bind_some, OrderBook.reserveOrders, hreserve]
  rfl

/-- The book of a new engine is empty. -/
theorem new_sim (symbol : Symbol) (mdPort : UInt16) :
    ∃ b, new symbol mdPort = some { symbol, mdPort, book := b } ∧
      OrderBook.Sim (Ladder.validPrice ({} : MapLadder)) b {} := by
  obtain ⟨b, hb, hsim⟩ := OrderBook.new_sim (M := OpenAddressIdMap) MapLadder.vacant
  obtain ⟨b', hb', hsim'⟩ := hsim.reserveOrders (2 ^ 20)
  refine ⟨b', ?_, hsim'⟩
  simp only [new, hb, hb', Option.bind_eq_bind, Option.bind_some]

/-- A request to sell, and one to buy more than that at the same price. -/
def sellFive : Request := { id := 1, side := 'S'.toUInt8, qty := 5, price := 10, clientTs := 9 }

def buyEight : Request := { id := 2, qty := 8, price := 10, clientTs := 9 }

/-- The orders of the engine's book, which prevents no self-trades. -/
structure Orders (e : Engine) (os : List FeedOrder) : Prop where
  book : ∃ a, OrderBook.Sim (Ladder.validPrice ({} : MapLadder)) e.book a ∧ Lists a os ∧ a.stp = .none
  symbol : ∀ o ∈ os, o.symbol = e.symbol

namespace Orders

variable {e : Engine}

theorem length_eq (h : Orders e os) : e.book.openOrders = os.length := by
  obtain ⟨a, hsim, hl, -⟩ := h.book
  rw [hsim.openOrders_eq, hl.openOrders]

/-- A request is handled. -/
theorem handle (h : Orders e os) (hfew : e.book.Few) (ts : UInt64) (req : Request) :
    ∃ e' book resps calls k os', e.handle ts req = some e' ∧ Pushed { e with book } e' resps calls k ∧
      Handled e.symbol ts e.matchNumber req os resps calls os' ∧ Orders e' os' := by
  obtain ⟨a, hsim, hl, hstp⟩ := h.book
  cases hk : ask e.symbol ts req with
  | none => exact ⟨e, e.book, [], [], 0, os, handle_ignored hk, .refl e, .ignored, h⟩
  | some k =>
    obtain ⟨b, hb, hsim'⟩ := hsim.apply (hsim.within_of_few hfew) k.op
    obtain ⟨e', he', hp⟩ := handle_spec hk hb
    obtain ⟨os', hl', hh⟩ := asked (n := e.matchNumber) hk hl hstp rfl
    refine ⟨e', b, _, _, _, os', he', hp, hh, ⟨⟨_, hp.book ▸ hsim', hl', ?_⟩, hp.symbol ▸ hh.keepsSymbol h.symbol⟩⟩
    rw [Spec.Book.apply_stp _ _ (ask_isPolicy hk), hstp]

theorem nodup (h : Orders e os) : (os.map FeedOrder.reference).Nodup := by
  obtain ⟨a, -, hl, -⟩ := h.book
  exact hl.nodup

/-- A step pushes what the request comes to, and no more. -/
theorem step (h : Orders e os) (hfew : e.book.Few) (op : UInt64 × Request) :
    ∃ out e' resps calls os', step e op = some (out, e') ∧ out.responses = resps ∧
      out.messages = (if e.mdPort = 0 then [] else calls.map WriterCall.message) ∧
      Handled e.symbol op.1 e.matchNumber op.2 os resps calls os' ∧ Orders e' os' ∧ e'.symbol = e.symbol ∧
      e'.mdPort = e.mdPort := by
  have hdrained : Orders { e with qOut := [], qMd := [] } os := ⟨h.book, h.symbol⟩
  obtain ⟨e', book, resps, calls, k, os', he', hp, hh, ho'⟩ := hdrained.handle hfew op.1 op.2
  refine ⟨⟨e'.qOut, e'.qMd⟩, e', resps, calls, os', ?_, hp.qOut, hp.qMd, hh, ho', hp.symbol, hp.mdPort⟩
  simp only [Engine.step, he', Option.bind_eq_bind, Option.bind_some]

/-- A new engine has no orders. -/
theorem new (symbol : Symbol) (mdPort : UInt16) :
    ∃ e, Engine.new symbol mdPort = some e ∧ e.symbol = symbol ∧ e.mdPort = mdPort ∧ Orders e [] := by
  obtain ⟨b, hb, hsim⟩ := Engine.new_sim symbol mdPort
  exact ⟨_, hb, rfl, rfl, ⟨{}, hsim, .empty, rfl⟩, nofun⟩

/-- A run with fewer than `2^32` requests has few orders throughout. -/
theorem along_few (h : Orders e os) (reqs : List (UInt64 × Request)) (hlen : os.length + reqs.length < 2 ^ 32) :
    Runs.Along Engine.step (fun e => e.book.Few) e reqs := by
  refine Runs.along_le (n := fun e => e.book.openOrders) (I := fun e => ∃ os, Orders e os) ?_ reqs ⟨os, h⟩
    (by rwa [h.length_eq])
  rintro e op out e' ⟨os, h⟩ hfew hs
  obtain ⟨out₁, e₁, resps, calls, os₁, hs₁, -, -, hh, h₁, -, -⟩ := h.step hfew op
  cases hs.symm.trans hs₁
  refine ⟨⟨os₁, h₁⟩, ?_⟩
  rw [h₁.length_eq, h.length_eq]
  exact hh.length_le

end Orders

end Engine

end Pricetime
