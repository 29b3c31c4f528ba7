import Pricetime.Impl.Engine
import Pricetime.Proof.BookRefines
import Pricetime.Proof.Fills
import Pricetime.Proof.ItchWriter
import Pricetime.Proof.MdLoop

/-!
# What the engine pushes for a request

A request with a name is an `Ask`: an operation on the book, and what is made
of its answer. The first response acknowledges it, each execution is then told
to both of its orders, and the feed is told of the executions and of what the
book displays after them (`handle_spec`).
-/

namespace Pricetime

open Wire (Request Response ReqKind RespKind)
open Itch (Writer WriterCall)

namespace Itch

theorem MsgType.length_le (t : MsgType) : t.length ≤ 62 := by
  cases t <;> decide

/-- The message of a call, framed. -/
def WriterCall.message (c : WriterCall) : MdMsg where
  bytes := Spec.frame c.body
  fits := by
    have := c.type.length_le
    rw [Mold.frame_length, body_length]
    omega

theorem WriterCall.payload_message (c : WriterCall) : c.message.payload = c.body := rfl

end Itch

namespace OrderBook

variable {L M : Type} [Ladder L] [IdMap M] {b b' : OrderBook L M} {reply : Reply} {id : OrderId}

theorem cancel_execs (h : b.cancel id = some (reply, b')) : reply.execs = [] := by
  obtain ⟨o, -, h⟩ := Option.bind_eq_some_iff.mp h
  cases o with
  | none =>
    cases h
    rfl
  | some o =>
    obtain ⟨b₁, -, h⟩ := Option.bind_eq_some_iff.mp h
    cases h
    rfl

theorem consume_execs {qty : Qty} {isExecution : Bool} (h : b.consume id qty isExecution = some (reply, b')) :
    reply.execs = [] := by
  obtain ⟨o, -, h⟩ := Option.bind_eq_some_iff.mp h
  cases o with
  | none =>
    cases h
    rfl
  | some o =>
    by_cases hq : qty = 0
    · simp only [hq, if_true] at h
      cases h
      rfl
    simp only [if_neg hq] at h
    obtain ⟨lvl, -, h⟩ := Option.bind_eq_some_iff.mp h
    by_cases htake : (if qty < (b.heap.order o).qty then qty else (b.heap.order o).qty) = (b.heap.order o).qty
    · rw [if_pos htake] at h
      obtain ⟨b₁, -, h⟩ := Option.bind_eq_some_iff.mp h
      obtain ⟨b₂, -, h⟩ := Option.bind_eq_some_iff.mp h
      cases h
      rfl
    · rw [if_neg htake] at h
      cases h
      rfl

end OrderBook

namespace Engine

/-! ## What is pushed -/

/-- `e'` is `e` after it has pushed `resps`, and the messages of `calls` if
the market data is on. -/
structure Pushed (e e' : Engine) (resps : List Response) (calls : List WriterCall) (executions : Nat) : Prop where
  symbol : e'.symbol = e.symbol
  mdPort : e'.mdPort = e.mdPort
  book : e'.book = e.book
  matchNumber : e'.matchNumber = e.matchNumber + UInt64.ofNat executions
  qOut : e'.qOut = e.qOut ++ resps
  qMd : e'.qMd = e.qMd ++ if e.mdPort = 0 then [] else calls.map WriterCall.message

namespace Pushed

variable {e e₁ e' : Engine} {resps resps' : List Response} {calls calls' : List WriterCall} {n n' : Nat}

theorem refl (e : Engine) : Pushed e e [] [] 0 :=
  ⟨rfl, rfl, rfl, (UInt64.add_zero _).symm, (List.append_nil _).symm, by rw [List.map_nil, ite_self, List.append_nil]⟩

theorem trans (h : Pushed e e₁ resps calls n) (h' : Pushed e₁ e' resps' calls' n') :
    Pushed e e' (resps ++ resps') (calls ++ calls') (n + n') where
  symbol := h'.symbol.trans h.symbol
  mdPort := h'.mdPort.trans h.mdPort
  book := h'.book.trans h.book
  matchNumber := by rw [h'.matchNumber, h.matchNumber, UInt64.ofNat_add, UInt64.add_assoc]
  qOut := by rw [h'.qOut, h.qOut, List.append_assoc]
  qMd := by
    rw [h'.qMd, h.qMd, h.mdPort, List.append_assoc]
    split
    · rfl
    · rw [List.map_append]

end Pushed

theorem pushResponse_pushed (e : Engine) (r : Response) : Pushed e (e.pushResponse r) [r] [] 0 where
  symbol := rfl
  mdPort := rfl
  book := rfl
  matchNumber := (UInt64.add_zero _).symm
  qOut := rfl
  qMd := by rw [List.map_nil, ite_self, List.append_nil]; rfl

/-- The writer is clear, so that it writes the message and no more. -/
theorem mdWrite_pushed (e : Engine) (c : WriterCall) : Pushed e (e.mdWrite fun w => w.call c) [] [c] 0 := by
  have hbytes : (e.md.clear.call c).bytes = c.message.bytes := by
    rw [Writer.call_eq]
    rfl
  have hfits : (e.md.clear.call c).bytes.length ≤ 64 := hbytes ▸ c.message.fits
  have hmsg : (⟨_, hfits⟩ : MdMsg) = c.message := MdMsg.mk.injEq .. ▸ hbytes
  rw [mdWrite, mdPush]
  dsimp only
  split
  · rename_i h
    exact ⟨rfl, rfl, rfl, (UInt64.add_zero _).symm, (List.append_nil _).symm, by rw [if_pos h, List.append_nil]⟩
  · rename_i h
    refine ⟨rfl, rfl, rfl, (UInt64.add_zero _).symm, (List.append_nil _).symm, ?_⟩
    rw [if_neg h, List.map_singleton, ← hmsg]

/-! ## Executions -/

/-- The two responses to each execution. -/
def fillResponses (req : Request) (execs : List Execution) : List Response :=
  execs.flatMap fun x =>
    let fill : Response := {
      kind := RespKind.executed, code := Result.ok.code, qty := x.qty, price := x.price
      clientTs := req.clientTs, id := x.aggressorId, peer := x.restingId }
    [fill, { fill with id := x.restingId, peer := x.aggressorId }]

/-- The executions on the feed, numbered from `n + 1` on. -/
def executedCalls (ts : UInt64) : UInt64 → List Execution → List WriterCall
  | _, [] => []
  | n, x :: execs => .orderExecuted ts x.restingId x.qty (n + 1) :: executedCalls ts (n + 1) execs

/-- `filled`, after the loop. -/
def filledQty (execs : List Execution) : Qty := execs.foldl (fun filled x => filled + x.qty) 0

theorem fill_pushed (ts : UInt64) (req : Request) (filled : Qty) (e : Engine) (x : Execution) :
    Pushed e (fill ts req (filled, e) x).2 (fillResponses req [x]) (executedCalls ts e.matchNumber [x]) 1 := by
  have hcount : Pushed e { e with stats := { e.stats with executions := e.stats.executions + 1 } } [] [] 0 :=
    ⟨rfl, rfl, rfl, (UInt64.add_zero _).symm, (List.append_nil _).symm, by
      rw [List.map_nil, ite_self, List.append_nil]⟩
  have hexecute : ∀ e : Engine, Pushed e (e.mdExecute ts x) [] (executedCalls ts e.matchNumber [x]) 1 := fun e => by
    have h := mdWrite_pushed { e with matchNumber := e.matchNumber + 1 } (.orderExecuted ts x.restingId x.qty
      (e.matchNumber + 1))
    exact ⟨h.symbol, h.mdPort, h.book, h.matchNumber.trans (UInt64.add_zero _), h.qOut, h.qMd⟩
  exact ((hcount.trans (pushResponse_pushed _ _)).trans (pushResponse_pushed _ _)).trans (hexecute _)

theorem fills_pushed (ts : UInt64) (req : Request) : ∀ (execs : List Execution) (filled : Qty) (e : Engine),
    Pushed e (execs.foldl (fill ts req) (filled, e)).2 (fillResponses req execs)
      (executedCalls ts e.matchNumber execs) execs.length ∧
    (execs.foldl (fill ts req) (filled, e)).1 = execs.foldl (fun filled x => filled + x.qty) filled
  | [], _, e => ⟨.refl e, rfl⟩
  | x :: execs, filled, e => by
    have hx := fill_pushed ts req filled e x
    obtain ⟨h, hq⟩ := fills_pushed ts req execs (filled + x.qty) (fill ts req (filled, e) x).2
    have hn : (fill ts req (filled, e) x).2.matchNumber = e.matchNumber + 1 := hx.matchNumber
    have hboth := hx.trans h
    rw [hn, Nat.add_comm] at hboth
    exact ⟨hboth, hq⟩

/-! ## Requests -/

/-- What a request asks of the book, and what it makes of the answer: the
response, if that is not a rejection, and what the feed shows after the
executions. -/
structure Ask where
  op : OrderBook.Op
  kind : RespKind
  id : OrderId
  qty : Reply → Qty := fun _ => 0
  price : Price := 0
  shown : Reply → List WriterCall

/-- What is left of an order after its executions. -/
def remainder (req : Request) (reply : Reply) : Qty := req.qty - filledQty reply.execs

def ask (symbol : Symbol) (ts : UInt64) (req : Request) : Option Ask :=
  if req.kind = ReqKind.enter then some {
    op := .addLimitAs 0 req.id (.ofByte req.side) req.price req.qty
    kind := RespKind.accepted, id := req.id, qty := fun _ => req.qty, price := req.price
    shown := fun reply =>
      if remainder req reply > 0 then
        [.addOrder ts req.id (.ofByte req.side) (remainder req reply) symbol req.price]
      else [] }
  else if req.kind = ReqKind.cancel then some {
    op := .cancel req.id, kind := RespKind.canceled, id := req.id, shown := fun _ => [.orderDelete ts req.id] }
  else if req.kind = ReqKind.reduce then some {
    op := .reduceResting req.id req.qty, kind := RespKind.reduced, id := req.id, qty := Reply.taken
    shown := fun reply => if reply.taken > 0 then [.orderCancel ts req.id reply.taken] else [] }
  else if req.kind = ReqKind.replace then some {
    op := .replace req.id req.newId req.price req.qty
    kind := RespKind.accepted, id := req.newId, qty := fun _ => req.qty, price := req.price
    shown := fun reply =>
      if remainder req reply > 0 then [.orderReplace ts req.id req.newId (remainder req reply) req.price]
      else [.orderDelete ts req.id] }
  else none

namespace Ask

/-- The first response. -/
def primary (a : Ask) (req : Request) (reply : Reply) : Response where
  kind := if reply.result = .ok then a.kind else RespKind.rejected
  code := reply.result.code
  qty := a.qty reply
  price := a.price
  id := a.id
  clientTs := req.clientTs

def responses (a : Ask) (req : Request) (reply : Reply) : List Response :=
  a.primary req reply :: fillResponses req reply.execs

def calls (a : Ask) (ts n : UInt64) (reply : Reply) : List WriterCall :=
  executedCalls ts n reply.execs ++ if reply.result = .ok then a.shown reply else []

end Ask

variable {e : Engine} {ts : UInt64} {req : Request}

/-- The stages of `handle`: what the switch pushes, the executions, and what is
shown after them. -/
theorem handle_of_serve (resps : List Response) (calls shown : List WriterCall)
    {b : OrderBook MapLadder OpenAddressIdMap} {r : Result} {execs : List Execution} {e₁ : Engine}
    (hs : e.serve ts req = some (r, execs, e₁))
    (hp : Pushed { e with book := b } e₁ resps calls 0)
    (hd : ∀ e₂ : Engine, e₂.symbol = e.symbol → Pushed e₂ (e₂.display ts req r (filledQty execs)) [] shown 0) :
    ∃ e', e.handle ts req = some e' ∧ Pushed { e with book := b } e' (resps ++ fillResponses req execs)
      (calls ++ executedCalls ts e.matchNumber execs ++ shown) execs.length := by
  obtain ⟨hf, hfilled⟩ := fills_pushed ts req execs 0 e₁
  have hn : e₁.matchNumber = e.matchNumber := hp.matchNumber.trans (UInt64.add_zero _)
  rw [hn] at hf
  have hpf := hp.trans hf
  have hall := hpf.trans (hd _ hpf.symbol)
  rw [List.append_nil, Nat.zero_add, Nat.add_zero] at hall
  refine ⟨_, ?_, hall⟩
  rw [handle, hs]
  simp only [Option.bind_eq_bind, Option.bind_some, hfilled, filledQty]

theorem display_enter (hk : req.kind = ReqKind.enter) (e : Engine) (r : Result) (execs : List Execution) :
    Pushed e (e.display ts req r (filledQty execs)) [] (if r = .ok then
      if req.qty - filledQty execs > 0 then
        [.addOrder ts req.id (.ofByte req.side) (req.qty - filledQty execs) e.symbol req.price]
      else [] else []) 0 := by
  rw [display]
  by_cases hr : r = .ok
  · rw [if_pos ⟨hr, hk⟩, if_pos hr]
    dsimp only
    split
    · exact mdWrite_pushed e (.addOrder ts req.id (.ofByte req.side) (req.qty - filledQty execs) e.symbol req.price)
    · exact .refl e
  · rw [if_neg fun h => hr h.1, if_neg fun h => hr h.1, if_neg hr]
    exact .refl e

theorem display_replace (hk : req.kind = ReqKind.replace) (e : Engine) (r : Result) (execs : List Execution) :
    Pushed e (e.display ts req r (filledQty execs)) [] (if r = .ok then
      if req.qty - filledQty execs > 0 then
        [.orderReplace ts req.id req.newId (req.qty - filledQty execs) req.price]
      else [.orderDelete ts req.id] else []) 0 := by
  have hne : req.kind ≠ ReqKind.enter := by rw [hk]; decide
  rw [display, if_neg fun h => hne h.2]
  by_cases hr : r = .ok
  · rw [if_pos ⟨hr, hk⟩, if_pos hr]
    dsimp only
    split
    · exact mdWrite_pushed e (.orderReplace ts req.id req.newId (req.qty - filledQty execs) req.price)
    · exact mdWrite_pushed e (.orderDelete ts req.id)
  · rw [if_neg fun h => hr h.1, if_neg hr]
    exact .refl e

/-- Other requests enter no order to show. -/
theorem display_other (henter : req.kind ≠ ReqKind.enter) (hreplace : req.kind ≠ ReqKind.replace) (e : Engine)
    (r : Result) (filled : Qty) : e.display ts req r filled = e := by
  rw [display, if_neg fun h => henter h.2, if_neg fun h => hreplace h.2]

/-- Such a request answers, and shows what it does in the switch. -/
theorem handle_quiet {a : Ask} {reply : Reply} {b : OrderBook MapLadder OpenAddressIdMap}
    (henter : req.kind ≠ ReqKind.enter) (hreplace : req.kind ≠ ReqKind.replace) (hexecs : reply.execs = [])
    (md : Engine → Engine)
    (hs : e.serve ts req = some (reply.result, [], md ({ e with book := b }.pushResponse (a.primary req reply))))
    (hp : ∀ e₁, Pushed e₁ (md e₁) [] (if reply.result = .ok then a.shown reply else []) 0) :
    ∃ e', e.handle ts req = some e' ∧
      Pushed { e with book := b } e' (a.responses req reply) (a.calls ts e.matchNumber reply) reply.execs.length := by
  obtain ⟨e', he', hp'⟩ := handle_of_serve _ _ [] hs ((pushResponse_pushed _ _).trans (hp _)) fun e₂ _ => by
    rw [display_other henter hreplace]
    exact .refl e₂
  refine ⟨e', he', ?_⟩
  rw [Ask.responses, Ask.calls, hexecs]
  rwa [List.append_nil, List.append_nil, List.nil_append, executedCalls, List.append_nil] at hp'

/-- What a request pushes, from the answer of the book. -/
theorem handle_spec {a : Ask} (ha : ask e.symbol ts req = some a) {reply : Reply}
    {book : OrderBook MapLadder OpenAddressIdMap} (hb : e.book.apply a.op = some (reply, book)) :
    ∃ e', e.handle ts req = some e' ∧
      Pushed { e with book } e' (a.responses req reply) (a.calls ts e.matchNumber reply) reply.execs.length := by
  rw [ask] at ha
  split_ifs at ha with henter hcancel hreduce hreplace
  · cases ha
    have hb : e.book.addLimitAs 0 req.id (.ofByte req.side) req.price req.qty = some (reply, book) := hb
    refine handle_of_serve (r := reply.result) [_] [] _ ?_ (pushResponse_pushed _ _) fun e₂ hs => ?_
    · rw [serve, if_pos henter, hb]
      rfl
    · rw [← hs]
      exact display_enter henter e₂ reply.result reply.execs
  · cases ha
    have hb : e.book.cancel req.id = some (reply, book) := hb
    refine handle_quiet henter (by rw [hcancel]; decide) (OrderBook.cancel_execs hb)
      (fun e₁ => if reply.result = .ok then e₁.mdDelete ts req.id else e₁) ?_ fun e₁ => ?_
    · rw [serve, if_neg henter, if_pos hcancel, hb]
      rfl
    · split
      · exact mdWrite_pushed e₁ (.orderDelete ts req.id)
      · exact .refl e₁
  · cases ha
    have hb : e.book.consume req.id req.qty false = some (reply, book) := hb
    refine handle_quiet henter (by rw [hreduce]; decide) (OrderBook.consume_execs hb)
      (fun e₁ => if reply.result = .ok ∧ reply.taken > 0 then e₁.mdCancel ts req.id reply.taken else e₁) ?_ fun e₁ => ?_
    · rw [serve, if_neg henter, if_neg hcancel, if_pos hreduce, OrderBook.reduceResting, hb]
      rfl
    · dsimp only
      by_cases hr : reply.result = .ok
      · by_cases htaken : reply.taken > 0
        · rw [if_pos ⟨hr, htaken⟩, if_pos hr, if_pos htaken]
          exact mdWrite_pushed e₁ (.orderCancel ts req.id reply.taken)
        · rw [if_neg fun h => htaken h.2, if_pos hr, if_neg htaken]
          exact .refl e₁
      · rw [if_neg fun h => hr h.1, if_neg hr]
        exact .refl e₁
  · cases ha
    have hb : e.book.replace req.id req.newId req.price req.qty = some (reply, book) := hb
    refine handle_of_serve (r := reply.result) [_] [] _ ?_ (pushResponse_pushed _ _) fun e₂ _ => ?_
    · rw [serve, if_neg henter, if_neg hcancel, if_neg hreduce, if_pos hreplace, hb]
      rfl
    · exact display_replace hreplace e₂ reply.result reply.execs

theorem handle_ignored (ha : ask e.symbol ts req = none) : e.handle ts req = some e := by
  rw [ask] at ha
  split_ifs at ha with henter hcancel hreduce hreplace
  rw [handle, serve, if_neg henter, if_neg hcancel, if_neg hreduce, if_neg hreplace]
  exact congrArg some (display_other henter hreplace e .ok 0)

/-- If a request with a name is handled, the book has answered it. -/
theorem handle_answered {a : Ask} (ha : ask e.symbol ts req = some a) {e' : Engine} (hh : e.handle ts req = some e') :
    ∃ reply book, e.book.apply a.op = some (reply, book) ∧
      Pushed { e with book } e' (a.responses req reply) (a.calls ts e.matchNumber reply) reply.execs.length := by
  have hsome : ∃ r, e.book.apply a.op = some r := by
    refine Option.ne_none_iff_exists'.mp fun hb => ?_
    have hs : e.serve ts req = none := by
      rw [ask] at ha
      split_ifs at ha with henter hcancel hreduce hreplace
      · cases ha
        have hb : e.book.addLimitAs 0 req.id (.ofByte req.side) req.price req.qty = none := hb
        rw [serve, if_pos henter, hb]
        rfl
      · cases ha
        have hb : e.book.cancel req.id = none := hb
        rw [serve, if_neg henter, if_pos hcancel, hb]
        rfl
      · cases ha
        have hb : e.book.reduceResting req.id req.qty = none := hb
        rw [serve, if_neg henter, if_neg hcancel, if_pos hreduce, hb]
        rfl
      · cases ha
        have hb : e.book.replace req.id req.newId req.price req.qty = none := hb
        rw [serve, if_neg henter, if_neg hcancel, if_neg hreduce, if_pos hreplace, hb]
        rfl
    rw [handle, hs] at hh
    cases hh
  obtain ⟨⟨reply, book⟩, hb⟩ := hsome
  obtain ⟨e₁, he₁, hp⟩ := handle_spec ha hb
  cases hh.symm.trans he₁
  exact ⟨reply, book, hb, hp⟩

end Engine

end Pricetime
