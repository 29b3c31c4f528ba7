import Pricetime.Impl.MoldUdp64
import Pricetime.Impl.Wire

/-!
# The stages that drain a queue

A `Stage` is a loop, the queue it drains, and what the stage before it has
still to push before it stores its done flag. The queue is an atomic FIFO of
at most `bound` items. `step` is one step of either stage: a push or the store,
or a `try_pop` or a load of the flag, with the work that follows on it.
-/

namespace Pricetime

/-- What `md_push` queues: a framed message, `bytes[0 .. len)`. -/
structure MdMsg where
  bytes : List UInt8
  fits : bytes.length ≤ 64
  deriving DecidableEq, Repr

structure Stage (T L : Type) where
  pending : List T
  queue : List T := []
  done : Bool := false
  loop : L
  deriving DecidableEq, Repr

/-- What a step does with an item: `taken` by the loop's own `try_pop`, or
popped and dropped. -/
inductive StageEvent (T : Type) where
  | quiet
  | taken (item : T)
  | dropped (item : T)
  deriving DecidableEq, Repr

/-- `sent` is what `send_all` answers, if it is called in the step. -/
inductive StageOp where
  | upstream
  | downstream (sent : Bool)
  deriving DecidableEq, Repr

namespace Stage

variable {T L : Type}

/-- `push_spin`, and the store of the flag after the last item. -/
def upstream (bound : Nat) (s : Stage T L) : Stage T L :=
  match s.pending with
  | [] => { s with done := true }
  | item :: pending =>
    if s.queue.length < bound then { s with pending, queue := s.queue ++ [item] } else s

def step (bound : Nat) (loop : Bool → Stage T L → Option (StageEvent T × Stage T L)) (s : Stage T L) :
    StageOp → Option (StageEvent T × Stage T L)
  | .upstream => some (.quiet, s.upstream bound)
  | .downstream sent => loop sent s

end Stage

/-! ## The loops -/

/-- Where `match_loop` or `md_loop` is: before its `try_pop`, before the load
of the flag, before the second `try_pop`, or after the loop. -/
inductive DrainPc where
  | pop
  | flag
  | retest
  | exited
  deriving DecidableEq, Repr

structure Drain (S : Type) where
  pc : DrainPc := .pop
  state : S
  deriving DecidableEq, Repr

/-- The loop that `match_loop` and `md_loop` have in common: `body` is done for
each item, and `finish` after the loop. -/
def Drain.loop {T S : Type} (body : S → T → Option S) (finish : S → Option S) (s : Stage T (Drain S)) :
    Option (StageEvent T × Stage T (Drain S)) :=
  match s.loop.pc with
  | .pop =>
    match s.queue with
    | [] => some (.quiet, { s with loop := { s.loop with pc := .flag } })
    | item :: queue => do
      let state ← body s.loop.state item
      some (.taken item, { s with queue, loop := { s.loop with state } })
  | .flag =>
    if s.done then some (.quiet, { s with loop := { s.loop with pc := .retest } })
    else some (.quiet, { s with loop := { s.loop with pc := .pop } })
  | .retest =>
    match s.queue with
    | [] => do
      let state ← finish s.loop.state
      some (.quiet, { s with loop := { pc := .exited, state } })
    | item :: queue => some (.dropped item, { s with queue, loop := { s.loop with pc := .pop } })
  | .exited => some (.quiet, s)

/-- `match_loop`, over what `handle` does to the engine. -/
def matchLoop {Engine : Type} (handle : Engine → Wire.Request → Option Engine) :
    Stage Wire.Request (Drain Engine) → Option (StageEvent Wire.Request × Stage Wire.Request (Drain Engine)) :=
  Drain.loop handle some

/-- The locals of `md_loop`, and the packets it has built so far. -/
structure MdLoop where
  packer : Mold.Packer := Mold.Packer.new Mold.Packer.defaultSession
  seq : UInt64 := 1
  packets : List (List UInt8) := []
  deriving DecidableEq, Repr

namespace MdLoop

/-- One message per packet. -/
def pack (l : MdLoop) (m : MdMsg) : Option MdLoop :=
  let l := { l with packer := l.packer.start l.seq }
  if m.bytes.length ≥ 2 then do
    let (ok, packer) ← l.packer.add (m.bytes.drop 2)
    if ok then do
      let packer ← packer.close
      some { packer, seq := l.seq + packer.count.toUInt64, packets := l.packets ++ [packer.bytes] }
    else some { l with packer }
  else some l

def finish (l : MdLoop) : Option MdLoop := do
  let packer ← l.packer.closeEndOfSession l.seq
  some { l with packer, packets := l.packets ++ [packer.bytes] }

end MdLoop

def mdLoop : Stage MdMsg (Drain MdLoop) → Option (StageEvent MdMsg × Stage MdMsg (Drain MdLoop)) :=
  Drain.loop MdLoop.pack MdLoop.finish

/-- Where `send_loop` is: as `DrainPc`, or before a `try_pop` of the loop that
fills the buffer, before `send_all`, or before a `try_pop` of the loop that
drops what is left for a client that is gone. -/
inductive SendPc where
  | pop
  | flag
  | retest
  | fill
  | send
  | discard
  | exited
  deriving DecidableEq, Repr

/-- `buf` is the filled part of the buffer, and `sends` what was given to
`send_all` so far. -/
structure SendLoop where
  pc : SendPc := .pop
  buf : List UInt8 := []
  sends : List (List UInt8) := []
  deriving DecidableEq, Repr

namespace SendLoop

def kBufSize : Nat := Wire.kMessageSize * 256

/-- `wire::encode(resp, buf + k)`. -/
def encode (l : SendLoop) (r : Wire.Response) : Option SendLoop :=
  if l.buf.length + Wire.kMessageSize ≤ kBufSize then some { l with pc := .fill, buf := l.buf ++ r.encode } else none

end SendLoop

def sendLoop (sent : Bool) (s : Stage Wire.Response SendLoop) :
    Option (StageEvent Wire.Response × Stage Wire.Response SendLoop) :=
  match s.loop.pc with
  | .pop =>
    match s.queue with
    | [] => some (.quiet, { s with loop := { s.loop with pc := .flag } })
    | resp :: queue => do
      let loop ← { s.loop with buf := [] }.encode resp
      some (.taken resp, { s with queue, loop })
  | .flag =>
    if s.done then some (.quiet, { s with loop := { s.loop with pc := .retest } })
    else some (.quiet, { s with loop := { s.loop with pc := .pop } })
  | .retest =>
    match s.queue with
    | [] => some (.quiet, { s with loop := { s.loop with pc := .exited } })
    | resp :: queue => some (.dropped resp, { s with queue, loop := { s.loop with pc := .pop } })
  | .fill =>
    if s.loop.buf.length ≥ SendLoop.kBufSize then some (.quiet, { s with loop := { s.loop with pc := .send } })
    else match s.queue with
      | [] => some (.quiet, { s with loop := { s.loop with pc := .send } })
      | resp :: queue => do
        let loop ← s.loop.encode resp
        some (.taken resp, { s with queue, loop })
  | .send =>
    let loop := { s.loop with pc := if sent then .pop else .discard, sends := s.loop.sends ++ [s.loop.buf] }
    some (.quiet, { s with loop })
  | .discard =>
    match s.queue with
    | [] => some (.quiet, { s with loop := { s.loop with pc := .pop } })
    | resp :: queue => some (.dropped resp, { s with queue })
  | .exited => some (.quiet, s)

end Pricetime
