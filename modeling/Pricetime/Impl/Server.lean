import Pricetime.Impl.Engine
import Pricetime.Impl.RecvLoop

/-!
# The server

The four threads of the engine, from the accepted connection on, with the
queues and flags between them. `step` is one step of a thread, and the threads
take their steps in any order. The queues are atomic FIFOs of at most `bound`
items.

What a thread does with data of its own is one step: `recv_loop` decodes all
that a call of `recv_some` has brought, and `handle` does all that a request
asks for. The pushes of either come after that, one by one, each as soon as
there is room.
-/

namespace Pricetime

open Wire (Request Response)

/-- A push of the match thread. -/
inductive Push where
  | response (r : Response)
  | message (m : MdMsg)
  deriving DecidableEq, Repr

namespace Pushes

/-- The loop over `execs_` pushes two responses and a message for each, as long
as there are any; what is left is pushed after it. -/
def fillsInOrder : List Response → List MdMsg → List Push
  | r :: r' :: rs, m :: ms => .response r :: .response r' :: .message m :: fillsInOrder rs ms
  | rs, ms => rs.map .response ++ ms.map .message

/-- The pushes of a request in the order in which `handle` makes them. -/
def inOrder (p : Pushes) : List Push :=
  match p.responses with
  | [] => p.messages.map .message
  | r :: rs => .response r :: fillsInOrder rs p.messages

end Pushes

/-- The state of the match thread: `pushes` are those that it has still to
make. -/
structure Matcher where
  engine : Engine
  pushes : List Push := []

/-- `fromRecv` are the requests that `recv_loop` has still to push. -/
structure Server where
  recv : RecvLoop
  fromRecv : List Request := []
  stopping : Bool := false
  qIn : List Request := []
  recvDone : Bool := false
  matcher : Drain Matcher
  qOut : List Response := []
  qMd : List MdMsg := []
  matchDone : Bool := false
  sender : SendLoop := {}
  md : Drain MdLoop := { state := {} }

/-- What a step shows: what `recv_some` has brought, or what a thread does with
the item it pops. -/
inductive ServerEvent where
  | quiet
  | received (data : List UInt8)
  | request (ts : UInt64) (ev : StageEvent Request)
  | response (ev : StageEvent Response)
  | message (ev : StageEvent MdMsg)

/-- A step: `stop()` sets its flag, or a thread does the next thing. `data` is
what there is for `recv_some` to read, none of it being the end of the
connection; `ts` is the time, and `sent` what `send_all` answers. -/
inductive ServerOp where
  | stop
  | recv (data : List UInt8)
  | handle (ts : UInt64)
  | send (sent : Bool)
  | md
  deriving DecidableEq, Repr

namespace Server

def start (buf : RecvBuffer) (e : Engine) : Server := { recv := { buf }, matcher := { state := { engine := e } } }

def engine (s : Server) : Engine := s.matcher.state.engine

def recvStep (bound : Nat) (data : List UInt8) (s : Server) : Option (ServerEvent × Server) :=
  match s.fromRecv with
  | req :: reqs =>
    some (.quiet, if s.qIn.length < bound then { s with fromRecv := reqs, qIn := s.qIn ++ [req] } else s)
  | [] =>
    if s.recv.alive ∧ ¬ s.stopping then do
      let n ← s.recv.space
      let data := data.take n
      let (_, recv) ← s.recv.step data
      some (.received data, { s with recv := { recv with qIn := [] }, fromRecv := recv.qIn })
    else some (.quiet, { s with recvDone := true })

/-- `handle`, its pushes put off. -/
def serve (ts : UInt64) (m : Matcher) (req : Request) : Option Matcher := do
  let (pushes, engine) ← m.engine.step (ts, req)
  some { engine, pushes := pushes.inOrder }

def handleStep (bound : Nat) (ts : UInt64) (s : Server) : Option (ServerEvent × Server) :=
  match s.matcher.state.pushes with
  | .response r :: pushes =>
    some (.quiet, if s.qOut.length < bound then
      { s with qOut := s.qOut ++ [r], matcher := { s.matcher with state := { s.matcher.state with pushes } } } else s)
  | .message m :: pushes =>
    some (.quiet, if s.qMd.length < bound then
      { s with qMd := s.qMd ++ [m], matcher := { s.matcher with state := { s.matcher.state with pushes } } } else s)
  | [] =>
    if s.matcher.pc = .exited then some (.quiet, { s with matchDone := true })
    else do
      let (ev, stage) ← matchLoop (serve ts) ⟨[], s.qIn, s.recvDone, s.matcher⟩
      some (.request ts ev, { s with qIn := stage.queue, matcher := stage.loop })

def sendStep (sent : Bool) (s : Server) : Option (ServerEvent × Server) := do
  let (ev, stage) ← sendLoop sent ⟨[], s.qOut, s.matchDone, s.sender⟩
  some (.response ev, { s with qOut := stage.queue, sender := stage.loop })

def mdStep (s : Server) : Option (ServerEvent × Server) := do
  let (ev, stage) ← mdLoop ⟨[], s.qMd, s.matchDone, s.md⟩
  some (.message ev, { s with qMd := stage.queue, md := stage.loop })

def step (bound : Nat) (s : Server) : ServerOp → Option (ServerEvent × Server)
  | .stop => some (.quiet, { s with stopping := true })
  | .recv data => s.recvStep bound data
  | .handle ts => s.handleStep bound ts
  | .send sent => s.sendStep sent
  | .md => s.mdStep

/-- All four threads have ended. -/
def Ended (s : Server) : Prop :=
  s.recvDone = true ∧ s.matchDone = true ∧ s.sender.pc = .exited ∧ s.md.pc = .exited

end Server

end Pricetime
