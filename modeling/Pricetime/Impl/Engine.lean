import Pricetime.Impl.Book
import Pricetime.Impl.ItchWriter
import Pricetime.Impl.Stages

/-!
# The matching engine

`Engine.handle` is what the match thread does with a request, at the time `ts`
that its clock reads. `qOut` and `qMd` are what it has pushed on its two
queues. `step` is one request and what is pushed for it.

A kind byte that has no name matches no case of the switch.
-/

namespace Pricetime

open Wire (Request Response ReqKind RespKind)
open Itch (Writer)

structure EngineStats where
  responses : UInt64 := 0
  executions : UInt64 := 0
  deriving DecidableEq, Repr

/-- `mdPort = 0` turns the market data off. -/
structure Engine where
  symbol : Symbol
  mdPort : UInt16 := 0
  book : OrderBook MapLadder OpenAddressIdMap
  md : Writer := {}
  matchNumber : UInt64 := 0
  stats : EngineStats := {}
  qOut : List Response := []
  qMd : List MdMsg := []

/-- What is pushed for a request. -/
structure Pushes where
  responses : List Response := []
  messages : List MdMsg := []
  deriving DecidableEq, Repr

namespace Engine

/-- An engine whose match thread has started. -/
def new (symbol : Symbol) (mdPort : UInt16) : Option Engine := do
  let book ← OrderBook.new {}
  let book ← book.reserveOrders (2 ^ 20)
  some { symbol, mdPort, book }

/-! ## Responses -/

def pushResponse (e : Engine) (r : Response) : Engine :=
  { e with stats := { e.stats with responses := e.stats.responses + 1 }, qOut := e.qOut ++ [r] }

def respond (e : Engine) (kind : RespKind) (code : Result) (req : Request) (id : OrderId) (qty : Qty)
    (price : Price) : Engine :=
  e.pushResponse { kind, code := code.code, qty, price, id, clientTs := req.clientTs }

/-! ## Market-data emission -/

def mdPush (e : Engine) (w : Writer) : Engine :=
  if e.mdPort = 0 then e
  else if fits : w.bytes.length ≤ 64 then { e with qMd := e.qMd ++ [⟨w.bytes, fits⟩] }
  else e

/-- `md_.clear()`, a call of the writer, and `md_push(md_)`. -/
def mdWrite (e : Engine) (write : Writer → Writer) : Engine :=
  let e := { e with md := write e.md.clear }
  e.mdPush e.md

def mdExecute (e : Engine) (ts : UInt64) (x : Execution) : Engine :=
  let e := { e with matchNumber := e.matchNumber + 1 }
  e.mdWrite fun w => w.orderExecuted ts x.restingId x.qty e.matchNumber

def mdDelete (e : Engine) (ts : UInt64) (id : OrderId) : Engine := e.mdWrite fun w => w.orderDelete ts id

def mdCancel (e : Engine) (ts : UInt64) (id : OrderId) (shares : Qty) : Engine :=
  e.mdWrite fun w => w.orderCancel ts id shares

/-! ## Requests -/

/-- The switch of `handle`: the result, `execs_` and the engine after it. -/
def serve (e : Engine) (ts : UInt64) (req : Request) : Option (Result × List Execution × Engine) :=
  if req.kind = ReqKind.enter then do
    let (reply, book) ← e.book.addLimitAs 0 req.id (.ofByte req.side) req.price req.qty
    let r := reply.result
    let kind := if r = .ok then RespKind.accepted else RespKind.rejected
    some (r, reply.execs, { e with book }.respond kind r req req.id req.qty req.price)
  else if req.kind = ReqKind.cancel then do
    let (reply, book) ← e.book.cancel req.id
    let r := reply.result
    let kind := if r = .ok then RespKind.canceled else RespKind.rejected
    let e := { e with book }.respond kind r req req.id 0 0
    some (r, [], if r = .ok then e.mdDelete ts req.id else e)
  else if req.kind = ReqKind.reduce then do
    let (reply, book) ← e.book.reduceResting req.id req.qty
    let r := reply.result
    let removed := reply.taken
    let kind := if r = .ok then RespKind.reduced else RespKind.rejected
    let e := { e with book }.respond kind r req req.id removed 0
    some (r, [], if r = .ok ∧ removed > 0 then e.mdCancel ts req.id removed else e)
  else if req.kind = ReqKind.replace then do
    let (reply, book) ← e.book.replace req.id req.newId req.price req.qty
    let r := reply.result
    let kind := if r = .ok then RespKind.accepted else RespKind.rejected
    some (r, reply.execs, { e with book }.respond kind r req req.newId req.qty req.price)
  else some (.ok, [], e)

/-- One turn of the loop over `execs_`, which also adds up `filled`. -/
def fill (ts : UInt64) (req : Request) (s : Qty × Engine) (x : Execution) : Qty × Engine :=
  let (filled, e) := s
  let e := { e with stats := { e.stats with executions := e.stats.executions + 1 } }
  let fill : Response := {
    kind := RespKind.executed, code := Result.ok.code, qty := x.qty, price := x.price
    clientTs := req.clientTs, id := x.aggressorId, peer := x.restingId }
  let e := e.pushResponse fill
  let e := e.pushResponse { fill with id := x.restingId, peer := x.aggressorId }
  (filled + x.qty, e.mdExecute ts x)

/-- What the feed shows of an accepted order after its executions. -/
def display (e : Engine) (ts : UInt64) (req : Request) (r : Result) (filled : Qty) : Engine :=
  if r = .ok ∧ req.kind = ReqKind.enter then
    let remainder := req.qty - filled
    if remainder > 0 then
      e.mdWrite fun w => w.addOrder ts req.id (.ofByte req.side) remainder e.symbol req.price
    else e
  else if r = .ok ∧ req.kind = ReqKind.replace then
    let remainder := req.qty - filled
    if remainder > 0 then e.mdWrite fun w => w.orderReplace ts req.id req.newId remainder req.price
    else e.mdDelete ts req.id
  else e

def handle (e : Engine) (ts : UInt64) (req : Request) : Option Engine := do
  let (r, execs, e) ← e.serve ts req
  let (filled, e) := execs.foldl (fill ts req) (0, e)
  some (e.display ts req r filled)

/-- A request and the time it is handled at, with the queues drained before. -/
def step (e : Engine) (op : UInt64 × Request) : Option (Pushes × Engine) := do
  let e ← { e with qOut := [], qMd := [] }.handle op.1 op.2
  some (⟨e.qOut, e.qMd⟩, e)

end Engine

end Pricetime
