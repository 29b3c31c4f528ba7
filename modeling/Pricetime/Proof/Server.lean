import Pricetime.Impl.Server
import Pricetime.Proof.FeedIntegrity
import Pricetime.Proof.RecvLoop
import Pricetime.Proof.Shutdown

/-!
# Whole sessions of the server

The four threads take their steps in any order. Whatever it is, each queue is
passed on in order, so that what the server sends is what the engine answers to
the requests of the client's stream, one after the other (`Follows`):

* `Follows.recvStep`, `Follows.handleStep`, `Follows.sendStep`,
  `Follows.mdStep`: each thread's step goes through, and keeps it;
* `session_in_order`: it holds after every run. Once all threads have ended,
  nothing is left on the way.
-/

namespace Pricetime

open Wire (Request Response RespKind kMessageSize)
open Itch (sizeSub)
open Spec (blocks tagged FeedOrder)
open Stage (popped taken)
open RecvLoop (Intake Decoded)
open Engine (sellFive buyEight)

/-! ## The order of the pushes -/

namespace Push

def response? : Push → Option Response
  | .response r => some r
  | .message _ => none

def message? : Push → Option MdMsg
  | .response _ => none
  | .message m => some m

/-- The responses of some pushes. -/
def responses (ps : List Push) : List Response := ps.filterMap response?

/-- Their messages. -/
def messages (ps : List Push) : List MdMsg := ps.filterMap message?

theorem responses_map (rs : List Response) : responses (rs.map .response) = rs := by
  rw [responses, List.filterMap_map]
  exact List.filterMap_some

theorem responses_map_message (ms : List MdMsg) : responses (ms.map .message) = [] := by
  rw [responses, List.filterMap_map]
  exact List.filterMap_eq_nil_iff.mpr fun _ _ => rfl

theorem messages_map (ms : List MdMsg) : messages (ms.map .message) = ms := by
  rw [messages, List.filterMap_map]
  exact List.filterMap_some

theorem messages_map_response (rs : List Response) : messages (rs.map .response) = [] := by
  rw [messages, List.filterMap_map]
  exact List.filterMap_eq_nil_iff.mpr fun _ _ => rfl

theorem responses_append (ps qs : List Push) : responses (ps ++ qs) = responses ps ++ responses qs :=
  List.filterMap_append

theorem messages_append (ps qs : List Push) : messages (ps ++ qs) = messages ps ++ messages qs :=
  List.filterMap_append

end Push

namespace Pushes

theorem fillsInOrder_spec (rs : List Response) (ms : List MdMsg) :
    Push.responses (fillsInOrder rs ms) = rs ∧ Push.messages (fillsInOrder rs ms) = ms := by
  fun_induction fillsInOrder rs ms with
  | case1 r r' rs m ms ih =>
    exact ⟨congrArg (r :: r' :: ·) ih.1, congrArg (m :: ·) ih.2⟩
  | case2 rs ms h =>
    rw [Push.responses_append, Push.messages_append, Push.responses_map, Push.responses_map_message,
      Push.messages_map_response, Push.messages_map, List.append_nil]
    exact ⟨rfl, rfl⟩

/-- The order of the pushes keeps the order on each queue. -/
theorem inOrder_spec (p : Pushes) :
    Push.responses p.inOrder = p.responses ∧ Push.messages p.inOrder = p.messages := by
  obtain ⟨rs, ms⟩ := p
  cases rs with
  | nil => exact ⟨Push.responses_map_message ms, Push.messages_map ms⟩
  | cons r rs =>
    obtain ⟨hr, hm⟩ := fillsInOrder_spec rs ms
    exact ⟨congrArg (r :: ·) hr, hm⟩

end Pushes

/-! ## What a run shows -/

/-- What has come of a run: the bytes read, and the items that each loop has
popped, those apart that it did its work for. -/
structure ServerLog where
  received : List UInt8 := []
  requests : List Request := []
  handled : List (UInt64 × Request) := []
  responses : List Response := []
  encoded : List Response := []
  messages : List MdMsg := []
  packed : List MdMsg := []

/-- How many bytes there are to read. -/
def ServerOp.offered : ServerOp → Nat
  | .recv data => data.length
  | _ => 0

namespace ServerLog

def add (l : ServerLog) : ServerEvent → ServerLog
  | .quiet => l
  | .received data => { l with received := l.received ++ data }
  | .request ts ev => { l with
      requests := l.requests ++ ev.popped?.toList
      handled := l.handled ++ ev.taken?.toList.map fun req => (ts, req) }
  | .response ev => { l with
      responses := l.responses ++ ev.popped?.toList
      encoded := l.encoded ++ ev.taken?.toList }
  | .message ev => { l with
      messages := l.messages ++ ev.popped?.toList
      packed := l.packed ++ ev.taken?.toList }

def of (evs : List ServerEvent) : ServerLog := evs.foldl add {}

theorem handled_le_add (l : ServerLog) (ev : ServerEvent) : l.handled.length ≤ (l.add ev).handled.length := by
  cases ev with
  | request ts ev =>
    show l.handled.length ≤ (l.handled ++ _).length
    rw [List.length_append]
    exact Nat.le_add_right _ _
  | quiet => exact Nat.le_refl _
  | received data => exact Nat.le_refl _
  | response ev => exact Nat.le_refl _
  | message ev => exact Nat.le_refl _

/-- Each loop did its work for all that it popped. -/
structure Lossless (l : ServerLog) : Prop where
  handled : l.handled.map Prod.snd = l.requests
  encoded : l.encoded = l.responses
  packed : l.packed = l.messages

instance (l : ServerLog) : Decidable l.Lossless :=
  decidable_of_iff (l.handled.map Prod.snd = l.requests ∧ l.encoded = l.responses ∧ l.packed = l.messages)
    ⟨fun h => ⟨h.1, h.2.1, h.2.2⟩, fun h => ⟨h.handled, h.encoded, h.packed⟩⟩

end ServerLog

/-! ## The receive loop, its queue cleared -/

def RecvBuffer.blank : RecvBuffer := ⟨List.replicate kRecvBytes 0, List.length_replicate⟩

namespace RecvLoop

/-- What is queued already makes no difference to the loop. -/
theorem takeMessages_queued (qs : List Request) : ∀ (fuel off : Nat) (s : RecvLoop),
    takeMessages fuel off { s with qIn := qs ++ s.qIn } =
      (takeMessages fuel off s).map fun r => (r.1, { r.2 with qIn := qs ++ r.2.qIn })
  | 0, _, _ => rfl
  | fuel + 1, off, s => by
    rw [takeMessages, takeMessages]
    cases sizeSub s.held off with
    | none => rfl
    | some left =>
      simp only [Option.bind_eq_bind, Option.bind_some]
      split
      · cases Request.decode (s.buf.bytes.drop off) with
        | none => rfl
        | some decoded =>
          cases decoded with
          | none => rfl
          | some req =>
            have ih := takeMessages_queued qs fuel (off + Wire.kMessageSize) { s with qIn := s.qIn ++ [req] }
            simp only [Option.bind_some, List.append_assoc] at ih ⊢
            exact ih
      · rfl

theorem step_queued (qs : List Request) (s : RecvLoop) (piece : List UInt8) :
    step { s with qIn := qs ++ s.qIn } piece = (s.step piece).map fun r => (r.1, { r.2 with qIn := qs ++ r.2.qIn }) := by
  rw [step, step]
  split
  · rfl
  split
  · rfl
  rw [turn, turn]
  cases s.buf.write s.held piece with
  | none => rfl
  | some buf =>
    have h := takeMessages_queued qs (s.held + piece.length + 1) 0 { s with buf, held := s.held + piece.length }
    simp only [Option.bind_eq_bind, Option.bind_some] at h ⊢
    rw [h]
    cases takeMessages (s.held + piece.length + 1) 0 { s with buf, held := s.held + piece.length } with
    | none => rfl
    | some r =>
      obtain ⟨off, t⟩ := r
      simp only [Option.map_some, Option.bind_some]
      cases sizeSub t.held off with
      | none => rfl
      | some left =>
        simp only [Option.bind_some]
        split
        · cases t.buf.moveDown off left <;> rfl
        · rfl

end RecvLoop

/-! ## The lanes -/

namespace Server

/-- A thread that drains a queue knows of the flag only once it is set, and has
left its loop only when there is nothing to come. -/
structure Heeds {T : Type} (knows exited : Prop) (done : Bool) (queue : List T) : Prop where
  knows : knows → done = true
  exited : exited → done = true ∧ queue = []

section Heeds

variable {T L : Type} {knows exited : Prop} {done : Bool} {queue : List T}

theorem Heeds.push (h : Heeds knows exited done queue) (hdone : done ≠ true) (item : T) :
    Heeds knows exited done (queue ++ [item]) := ⟨h.knows, fun hx => absurd (h.exited hx).1 hdone⟩

theorem Heeds.setDone (h : Heeds knows exited done queue) : Heeds knows exited true queue :=
  ⟨fun _ => rfl, fun hx => ⟨rfl, (h.exited hx).2⟩⟩

theorem Heeds.moves {knows exited : L → Prop} {drops : Stage T L → Prop} {s s' : Stage T L} {ev : StageEvent T}
    (hm : Stage.Moves knows exited drops s ev s') (h : Heeds (knows s.loop) (exited s.loop) s.done s.queue) :
    Heeds (knows s'.loop) (exited s'.loop) s.done s'.queue := by
  have hpops := hm.pops
  refine ⟨fun hk => (hm.learns hk).elim h.knows id, fun hx => ?_⟩
  rcases hm.leaves hx with hx | ⟨hk, hq⟩
  · obtain ⟨hd, hq⟩ := h.exited hx
    rw [hq] at hpops
    exact ⟨hd, (List.append_eq_nil_iff.mp hpops.symm).2⟩
  · rw [hq] at hpops
    exact ⟨h.knows hk, (List.append_eq_nil_iff.mp hpops.symm).2⟩

end Heeds

/-- `all` are the requests of the bytes `seen`, as `recv_loop` decodes them. -/
structure Intakes (recv : RecvLoop) (all : List Request) (seen : List UInt8) : Prop where
  cleared : recv.qIn = []
  intake : ∃ r, Intake r seen ∧ r.qIn = all ∧ (recv.alive = true → r = { recv with qIn := all })

theorem Intakes.start (buf : RecvBuffer) : Intakes { buf } [] [] := ⟨rfl, _, .new buf, rfl, fun _ => rfl⟩

/-- A call of `recv_some`, and what is made of it. -/
theorem Intakes.step {recv : RecvLoop} {all : List Request} {seen : List UInt8} (h : Intakes recv all seen)
    (hgo : recv.alive = true) (data : List UInt8) :
    ∃ n recv', recv.space = some n ∧ recv.step (data.take n) = some ((), recv') ∧
      Intakes { recv' with qIn := [] } (all ++ recv'.qIn) (seen ++ data.take n) ∧
      (data = [] → recv'.alive = false ∧ recv'.qIn = []) := by
  obtain ⟨hclear, r, hr, rfl, hsame⟩ := h
  have hr' : r = { recv with qIn := r.qIn ++ recv.qIn } := by
    rw [hclear, List.append_nil]
    exact hsame hgo
  have hgo' : r.alive = true := by
    rw [hr']
    exact hgo
  obtain ⟨-, hspace⟩ := RecvLoop.offers ⟨seen, hr⟩
  obtain ⟨n, hn, hpos⟩ := hspace hgo'
  have hrecv : recv.space = some n := by
    rw [hr'] at hn
    exact hn
  by_cases hdata : data = []
  · -- the connection has ended
    subst hdata
    refine ⟨n, { recv with alive := false }, hrecv, ?_, ⟨rfl, r, ?_, ?_, fun e => absurd e Bool.false_ne_true⟩,
      fun _ => ⟨rfl, hclear⟩⟩
    · rw [List.take_nil, RecvLoop.step, if_neg (by simp [hgo]), if_pos rfl]
    · rwa [List.take_nil, List.append_nil]
    · rw [hclear, List.append_nil]
  · have hne : data.take n ≠ [] := fun e => by
      rcases List.take_eq_nil_iff.mp e with h0 | hnil
      · omega
      · exact hdata hnil
    have hoffer : RecvLoop.Offered r (data.take n) := fun _ => by
      refine ⟨hne, fun k hk => ?_⟩
      cases hn.symm.trans hk
      exact List.length_take_le n data
    obtain ⟨r₁, hr₁, hi⟩ := hr.step hoffer
    rw [hr', RecvLoop.step_queued] at hr₁
    obtain ⟨⟨_, recv'⟩, hrecv', e⟩ := Option.map_eq_some_iff.mp hr₁
    obtain rfl : { recv' with qIn := r.qIn ++ recv'.qIn } = r₁ := congrArg Prod.snd e
    exact ⟨n, recv', hrecv, hrecv', ⟨rfl, _, hi, rfl, fun _ => rfl⟩, fun e => absurd e hdata⟩

/-- A replayer that is given `msgs` is in step with the engine, if the prices
of the requests fit their field in the feed. -/
def Fed (e₀ e : Engine) (ops : List (UInt64 × Request)) (msgs : List MdMsg) : Prop :=
  e₀.mdPort ≠ 0 → (∀ op ∈ ops, 0 ≤ op.2.price.toInt ∧ op.2.price.toInt < 2 ^ 32) →
    ∃ (r₀ r : Itch.Replayer MapLadder OpenAddressIdMap) (os : List FeedOrder), Itch.Replayer.new {} = some r₀ ∧
      Runs.run Itch.Replayer.apply r₀ (msgs.map MdMsg.payload) = some r ∧ Engine.Orders e os ∧
      Itch.Replayer.Feeds (Ladder.validPrice ({} : MapLadder)) r os

theorem Fed.start {e₀ : Engine} (h : Engine.Orders e₀ []) : Fed e₀ e₀ [] [] := fun _ _ => by
  obtain ⟨r₀, hr₀, hf⟩ := Itch.Replayer.new_feeds (M := OpenAddressIdMap) MapLadder.vacant
  exact ⟨r₀, r₀, [], hr₀, rfl, h, hf⟩

theorem Fed.step {e₀ e e' : Engine} {ops : List (UInt64 × Request)} {msgs : List MdMsg} {pushes : Pushes}
    {op : UInt64 × Request} (h : Fed e₀ e ops msgs) (hmd : e.mdPort = e₀.mdPort) (hfew : e.book.Few)
    (hs : e.step op = some (pushes, e')) : Fed e₀ e' (ops ++ [op]) (msgs ++ pushes.messages) := by
  intro hport hprice
  obtain ⟨r₀, r, os, hr₀, hr, ho, hf⟩ := h hport fun o ho => hprice o (List.mem_append_left _ ho)
  obtain ⟨hp0, hp⟩ := hprice op (List.mem_append_right _ (List.mem_singleton_self op))
  obtain ⟨out, e₁, resps, calls, os', hs₁, -, hmsgs, hh, ho', -, -⟩ := ho.step hfew op
  cases hs.symm.trans hs₁
  obtain ⟨r', hr', hf'⟩ := hf.handled (fun _ => rfl) (ho.length_eq ▸ hfew) ho.nodup ho.symbol
    (Itch.priceField_of_fits hp0 hp) hh
  refine ⟨r₀, r', os', hr₀, ?_, ho', hf'⟩
  rw [List.map_append, Runs.run_append, hr, hmsgs, hmd, if_neg hport, List.map_map]
  exact hr'

/-- Engine `e`, once it has handled `ops`, has answered with `resps` and
`msgs`. -/
structure Answers (e₀ e : Engine) (ops : List (UInt64 × Request)) (resps : List Response) (msgs : List MdMsg) :
    Prop where
  orders : ∃ os, Engine.Orders e os
  exec : ∃ outs, Runs.Exec Engine.step e₀ ops outs e ∧ outs.flatMap Pushes.responses = resps ∧
    outs.flatMap Pushes.messages = msgs
  framed : ∀ m ∈ msgs, m.Framed
  fed : Fed e₀ e ops msgs
  symbol : e.symbol = e₀.symbol
  mdPort : e.mdPort = e₀.mdPort

theorem framed_message (c : Itch.WriterCall) : c.message.Framed := by
  refine ⟨c.body, fun e => ?_, rfl⟩
  have hhead := Itch.body_head c
  rw [e] at hhead
  cases hhead

theorem Answers.step {e₀ e : Engine} {ops : List (UInt64 × Request)} {resps : List Response} {msgs : List MdMsg}
    (h : Answers e₀ e ops resps msgs) (hfew : e.book.Few) (op : UInt64 × Request) :
    ∃ pushes e', e.step op = some (pushes, e') ∧
      Answers e₀ e' (ops ++ [op]) (resps ++ pushes.responses) (msgs ++ pushes.messages) := by
  obtain ⟨⟨os, ho⟩, ⟨outs, he, hr, hm⟩, hframed, hfed, hsym, hmd⟩ := h
  obtain ⟨out, e', resps', calls, os', hs, -, hmsgs, -, ho', hsym', hmd'⟩ := ho.step hfew op
  refine ⟨out, e', hs, ⟨os', ho'⟩, ⟨outs ++ [out], he.concat hs, ?_, ?_⟩, fun m hmem => ?_, hfed.step hmd hfew hs,
    hsym'.trans hsym, hmd'.trans hmd⟩
  · rw [List.flatMap_append, hr, List.flatMap_singleton]
  · rw [List.flatMap_append, hm, List.flatMap_singleton]
  · rcases List.mem_append.mp hmem with hmem | hmem
    · exact hframed m hmem
    · rw [hmsgs] at hmem
      split at hmem
      · exact absurd hmem List.not_mem_nil
      · obtain ⟨c, -, rfl⟩ := List.mem_map.mp hmem
        exact framed_message c

/-- `send_loop` has encoded `resps`, whole messages at a time. -/
structure Sends (l : SendLoop) (resps : List Response) : Prop where
  encoded : l.encoded = resps.flatMap Response.encode
  whole : Wire.kMessageSize ∣ l.buf.length
  fits : l.buf.length ≤ SendLoop.kBufSize

theorem Sends.start : Sends {} [] := ⟨rfl, Nat.dvd_zero _, Nat.zero_le _⟩

theorem length_encode (r : Response) : r.encode.length = Wire.kMessageSize := by
  rw [Response.encode_eq]
  exact Wire.message_length ..

/-- Whole messages that do not fill the buffer leave room for one more. -/
theorem Sends.room {l : SendLoop} {resps : List Response} (h : Sends l resps)
    (hfull : ¬ l.buf.length ≥ SendLoop.kBufSize) : l.buf.length + Wire.kMessageSize ≤ SendLoop.kBufSize := by
  have hmsg : Wire.kMessageSize = 40 := rfl
  have hbuf : SendLoop.kBufSize = 10240 := rfl
  obtain ⟨k, hk⟩ := h.whole
  rw [hmsg] at hk ⊢
  rw [hbuf] at hfull ⊢
  omega

theorem encode_room {l : SendLoop} (h : l.buf.length + Wire.kMessageSize ≤ SendLoop.kBufSize) (r : Response) :
    l.encode r = some { l with pc := .fill, buf := l.buf ++ r.encode } := if_pos h

/-- The loop goes on, within its buffer. -/
theorem Sends.goes {s : Stage Response SendLoop} {resps : List Response} (h : Sends s.loop resps) (sent : Bool) :
    ∃ ev s', sendLoop sent s = some (ev, s') := by
  obtain ⟨pending, queue, done, l⟩ := s
  rw [sendLoop]
  cases hpc : l.pc with
  | pop =>
    cases queue with
    | nil => exact ⟨_, _, rfl⟩
    | cons r queue =>
      have hroom : ({ l with buf := [] } : SendLoop).buf.length + Wire.kMessageSize ≤ SendLoop.kBufSize := by
        show 0 + Wire.kMessageSize ≤ SendLoop.kBufSize
        decide
      simp only [encode_room hroom r, Option.bind_eq_bind, Option.bind_some]
      exact ⟨_, _, rfl⟩
  | flag =>
    dsimp only
    split <;> exact ⟨_, _, rfl⟩
  | retest => cases queue <;> exact ⟨_, _, rfl⟩
  | fill =>
    dsimp only
    split
    · exact ⟨_, _, rfl⟩
    · rename_i hfull
      cases queue with
      | nil => exact ⟨_, _, rfl⟩
      | cons r queue =>
        simp only [encode_room (h.room hfull) r, Option.bind_eq_bind, Option.bind_some]
        exact ⟨_, _, rfl⟩
  | send => exact ⟨_, _, rfl⟩
  | discard => cases queue <;> exact ⟨_, _, rfl⟩
  | exited => exact ⟨_, _, rfl⟩

theorem Sends.step {s s' : Stage Response SendLoop} {ev : StageEvent Response} {sent : Bool} {resps : List Response}
    (h : Sends s.loop resps) (hs : sendLoop sent s = some (ev, s')) : Sends s'.loop (resps ++ ev.taken?.toList) := by
  have hone : Wire.kMessageSize ≤ SendLoop.kBufSize := by decide
  have henc : s'.loop.encoded = (resps ++ ev.taken?.toList).flatMap Response.encode := by
    rw [SendLoop.encoded_step hs, h.encoded, List.flatMap_append]
  have hfill : ∀ {r : Response}, s.loop.pc = .fill → ev = .taken r →
      s.loop.buf.length + Wire.kMessageSize ≤ SendLoop.kBufSize := fun hpc hev => by
    refine h.room fun hfull => ?_
    rw [sendLoop, hpc] at hs
    dsimp only at hs
    rw [if_pos hfull, hev] at hs
    cases hs
  rcases SendLoop.loop_cases hs with ⟨_, _, rfl, rfl⟩ | ⟨r, queue, _, _, rfl, rfl⟩ | ⟨_, rfl, rfl⟩ |
    ⟨_, _, rfl, rfl⟩ | ⟨r, queue, _, _, rfl, rfl⟩ | ⟨_, rfl, rfl⟩ | ⟨r, queue, hpc, _, rfl, rfl⟩ |
    ⟨_, rfl, rfl⟩ | ⟨_, _, rfl, rfl⟩ | ⟨_, rfl, rfl⟩
  · exact ⟨henc, h.whole, h.fits⟩
  · exact ⟨henc, Dvd.intro 1 (length_encode r).symm, (length_encode r).trans_le hone⟩
  · exact ⟨henc, h.whole, h.fits⟩
  · exact ⟨henc, h.whole, h.fits⟩
  · exact ⟨henc, h.whole, h.fits⟩
  · exact ⟨henc, h.whole, h.fits⟩
  · have hlen : (s.loop.buf ++ r.encode).length = s.loop.buf.length + Wire.kMessageSize := by
      rw [List.length_append, length_encode]
    refine ⟨henc, ?_, ?_⟩
    · rw [hlen]
      exact Nat.dvd_add h.whole (Nat.dvd_refl _)
    · rw [hlen]
      exact hfill hpc rfl
  · exact ⟨henc, h.whole, h.fits⟩
  · exact ⟨henc, h.whole, h.fits⟩
  · exact ⟨henc, h.whole, h.fits⟩

/-- `md_loop` has packed `ms`. -/
structure Packs (md : Drain MdLoop) (ms : List MdMsg) : Prop where
  framed : ∀ m ∈ ms, m.Framed
  did : ∃ l, ms.foldlM MdLoop.pack {} = some l ∧ Drain.Did MdLoop.finish l md

theorem Packs.start : Packs { state := {} } [] :=
  ⟨fun _ hm => absurd hm List.not_mem_nil, {}, rfl, rfl⟩

/-- A drain goes on if its body does for the next item, and what follows the
loop. -/
theorem drain_goes {T S : Type} {body : S → T → Option S} {finish : S → Option S} {s : Stage T (Drain S)}
    (hbody : ∀ item queue, s.loop.pc = .pop → s.queue = item :: queue → ∃ state, body s.loop.state item = some state)
    (hfinish : s.loop.pc = .retest → ∃ state, finish s.loop.state = some state) :
    ∃ ev s', Drain.loop body finish s = some (ev, s') := by
  obtain ⟨pending, queue, done, pc, state⟩ := s
  cases pc with
  | pop =>
    cases queue with
    | nil => exact ⟨_, _, rfl⟩
    | cons item queue =>
      obtain ⟨state', hb⟩ := hbody item queue rfl rfl
      simp only [Drain.loop, hb, Option.bind_eq_bind, Option.bind_some]
      exact ⟨_, _, rfl⟩
  | flag => cases done <;> exact ⟨_, _, rfl⟩
  | retest =>
    cases queue with
    | nil =>
      obtain ⟨state', hf⟩ := hfinish rfl
      simp only [Drain.loop, hf, Option.bind_eq_bind, Option.bind_some]
      exact ⟨_, _, rfl⟩
    | cons item queue => exact ⟨_, _, rfl⟩
  | exited => exact ⟨_, _, rfl⟩

/-- What was packed, and the next message. -/
theorem Packs.goes {s : Stage MdMsg (Drain MdLoop)} {ms : List MdMsg} (h : Packs s.loop ms)
    (hq : ∀ m ∈ s.queue, m.Framed) : ∃ ev s', mdLoop s = some (ev, s') := by
  obtain ⟨hframed, l, hl, hd⟩ := h
  obtain ⟨l₁, hl₁, hok, -⟩ := MdLoop.foldlM_pack MdLoop.start_ok (rfl : (1 : UInt64) = UInt64.ofNat 1) hframed
  cases hl.symm.trans hl₁
  refine drain_goes (fun m queue hpc hqueue => ?_) fun hpc => ?_
  · rw [Drain.did_iff (by simp [hpc])] at hd
    obtain ⟨l', hl', -⟩ := MdLoop.pack_spec hok (hq m (hqueue ▸ List.mem_cons_self))
    exact ⟨l', hd ▸ hl'⟩
  · rw [Drain.did_iff (by simp [hpc])] at hd
    obtain ⟨l', hl', -⟩ := MdLoop.finish_spec hok
    exact ⟨l', hd ▸ hl'⟩

theorem Packs.step {s s' : Stage MdMsg (Drain MdLoop)} {ev : StageEvent MdMsg} {ms : List MdMsg} (h : Packs s.loop ms)
    (hq : ∀ m ∈ s.queue, m.Framed) (hs : mdLoop s = some (ev, s')) : Packs s'.loop (ms ++ ev.taken?.toList) := by
  obtain ⟨hframed, l, hl, hd⟩ := h
  obtain ⟨l', hl', hd'⟩ := Drain.did_step hs hd
  refine ⟨fun m hm => ?_, l', ?_, hd'⟩
  · rcases List.mem_append.mp hm with hm | hm
    · exact hframed m hm
    · refine hq m ?_
      rw [(Drain.moves hs).pops]
      refine List.mem_append_left _ ?_
      cases ev with
      | taken item => exact hm
      | quiet => exact absurd hm List.not_mem_nil
      | dropped item => exact absurd hm List.not_mem_nil
  · rw [List.foldlM_append, hl]
    exact hl'

/-! ## Steps -/

variable {bound : Nat} {data : List UInt8} {ts : UInt64} {sent : Bool} {s s' : Server} {ev : ServerEvent} {op : ServerOp}

/-- What a step of `recv_loop` does: a push, or a wait for room; a call of
`recv_some`; or the store of the flag. -/
theorem recvStep_cases (h : s.recvStep bound data = some (ev, s')) :
    (∃ req reqs, s.fromRecv = req :: reqs ∧ s.qIn.length < bound ∧ ev = .quiet ∧
      s' = { s with fromRecv := reqs, qIn := s.qIn ++ [req] }) ∨
    (s.fromRecv ≠ [] ∧ ¬ s.qIn.length < bound ∧ ev = .quiet ∧ s' = s) ∨
    (∃ n recv, s.fromRecv = [] ∧ s.recv.alive = true ∧ s.stopping = false ∧ s.recv.space = some n ∧
      s.recv.step (data.take n) = some ((), recv) ∧ ev = .received (data.take n) ∧
      s' = { s with recv := { recv with qIn := [] }, fromRecv := recv.qIn }) ∨
    (s.fromRecv = [] ∧ (s.recv.alive = false ∨ s.stopping = true) ∧ ev = .quiet ∧
      s' = { s with recvDone := true }) := by
  rw [recvStep] at h
  cases hf : s.fromRecv with
  | cons req reqs =>
    rw [hf] at h
    dsimp only at h
    split at h
    · rename_i hroom
      cases h
      exact .inl ⟨req, reqs, rfl, hroom, rfl, rfl⟩
    · rename_i hroom
      cases h
      exact .inr (.inl ⟨by simp, hroom, rfl, rfl⟩)
  | nil =>
    rw [hf] at h
    dsimp only at h
    split at h
    · rename_i hgo
      obtain ⟨n, hn, h⟩ := Option.bind_eq_some_iff.mp h
      obtain ⟨⟨⟨⟩, recv⟩, hr, h⟩ := Option.bind_eq_some_iff.mp h
      cases h
      exact .inr (.inr (.inl ⟨n, recv, rfl, hgo.1, by simpa using hgo.2, hn, hr, rfl, rfl⟩))
    · rename_i hstop
      cases h
      refine .inr (.inr (.inr ⟨rfl, ?_, rfl, rfl⟩))
      rw [not_and_or, not_not] at hstop
      exact hstop.imp_left Bool.eq_false_of_not_eq_true

/-- The next push of the match thread finds its queue full. -/
def Blocked (bound : Nat) (s : Server) : Prop :=
  match s.matcher.state.pushes with
  | .response _ :: _ => ¬ s.qOut.length < bound
  | .message _ :: _ => ¬ s.qMd.length < bound
  | [] => False

/-- What a step of `match_loop` does: a push, or a wait for room; the store of
the flag; or a step of its loop. -/
theorem handleStep_cases (h : s.handleStep bound ts = some (ev, s')) :
    (∃ r pushes, s.matcher.state.pushes = .response r :: pushes ∧ s.qOut.length < bound ∧ ev = .quiet ∧
      s' = { s with
        qOut := s.qOut ++ [r], matcher := { s.matcher with state := { s.matcher.state with pushes } } }) ∨
    (∃ m pushes, s.matcher.state.pushes = .message m :: pushes ∧ s.qMd.length < bound ∧ ev = .quiet ∧
      s' = { s with
        qMd := s.qMd ++ [m], matcher := { s.matcher with state := { s.matcher.state with pushes } } }) ∨
    (s.Blocked bound ∧ ev = .quiet ∧ s' = s) ∨
    (s.matcher.state.pushes = [] ∧ s.matcher.pc = .exited ∧ ev = .quiet ∧ s' = { s with matchDone := true }) ∨
    (∃ ev' stage, s.matcher.state.pushes = [] ∧ s.matcher.pc ≠ .exited ∧
      matchLoop (serve ts) ⟨[], s.qIn, s.recvDone, s.matcher⟩ = some (ev', stage) ∧ ev = .request ts ev' ∧
      s' = { s with qIn := stage.queue, matcher := stage.loop }) := by
  rw [handleStep] at h
  cases hp : s.matcher.state.pushes with
  | cons push pushes =>
    rw [hp] at h
    cases push with
    | response r =>
      dsimp only at h
      split at h
      · rename_i hroom
        cases h
        exact .inl ⟨r, pushes, rfl, hroom, rfl, rfl⟩
      · rename_i hroom
        cases h
        exact .inr (.inr (.inl ⟨by rwa [Blocked, hp], rfl, rfl⟩))
    | message m =>
      dsimp only at h
      split at h
      · rename_i hroom
        cases h
        exact .inr (.inl ⟨m, pushes, rfl, hroom, rfl, rfl⟩)
      · rename_i hroom
        cases h
        exact .inr (.inr (.inl ⟨by rwa [Blocked, hp], rfl, rfl⟩))
  | nil =>
    rw [hp] at h
    dsimp only at h
    split at h
    · rename_i hpc
      cases h
      exact .inr (.inr (.inr (.inl ⟨rfl, hpc, rfl, rfl⟩)))
    · rename_i hpc
      obtain ⟨⟨ev', stage⟩, hl, h⟩ := Option.bind_eq_some_iff.mp h
      cases h
      exact .inr (.inr (.inr (.inr ⟨ev', stage, rfl, hpc, hl, rfl, rfl⟩)))

theorem sendStep_cases (h : s.sendStep sent = some (ev, s')) :
    ∃ ev' stage, sendLoop sent ⟨[], s.qOut, s.matchDone, s.sender⟩ = some (ev', stage) ∧ ev = .response ev' ∧
      s' = { s with qOut := stage.queue, sender := stage.loop } := by
  obtain ⟨⟨ev', stage⟩, hl, h⟩ := Option.bind_eq_some_iff.mp h
  cases h
  exact ⟨ev', stage, hl, rfl, rfl⟩

theorem mdStep_cases (h : s.mdStep = some (ev, s')) :
    ∃ ev' stage, mdLoop ⟨[], s.qMd, s.matchDone, s.md⟩ = some (ev', stage) ∧ ev = .message ev' ∧
      s' = { s with qMd := stage.queue, md := stage.loop } := by
  obtain ⟨⟨ev', stage⟩, hl, h⟩ := Option.bind_eq_some_iff.mp h
  cases h
  exact ⟨ev', stage, hl, rfl, rfl⟩

/-! ## The invariant -/

/-- What server `s` has come to, from engine `e₀` on. -/
structure Follows (e₀ : Engine) (s : Server) (log : ServerLog) : Prop where
  intake : Intakes s.recv (log.requests ++ s.qIn ++ s.fromRecv) log.received
  recvDone : s.recvDone = true → s.fromRecv = [] ∧ (s.recv.alive = false ∨ s.stopping = true)
  matcher : Heeds (s.matcher.pc = .retest ∨ s.matcher.pc = .exited) (s.matcher.pc = .exited) s.recvDone s.qIn
  busy : s.matcher.state.pushes ≠ [] → s.matcher.pc = .pop
  matchDone : s.matchDone = true → s.matcher.pc = .exited
  answers : Answers e₀ s.engine log.handled (log.responses ++ s.qOut ++ Push.responses s.matcher.state.pushes)
    (log.messages ++ s.qMd ++ Push.messages s.matcher.state.pushes)
  sender : Heeds (s.sender.pc = .retest ∨ s.sender.pc = .exited) (s.sender.pc = .exited) s.matchDone s.qOut
  sends : Sends s.sender log.encoded
  md : Heeds (s.md.pc = .retest ∨ s.md.pc = .exited) (s.md.pc = .exited) s.matchDone s.qMd
  packs : Packs s.md log.packed

namespace Follows

variable {e₀ : Engine} {log : ServerLog}

theorem start (buf : RecvBuffer) (h : Engine.Orders e₀ []) : Follows e₀ (Server.start buf e₀) {} where
  intake := .start buf
  recvDone h := absurd h Bool.false_ne_true
  matcher := ⟨fun h => by simp [Server.start] at h, fun h => by simp [Server.start] at h⟩
  busy h := absurd rfl h
  matchDone h := absurd h Bool.false_ne_true
  answers := ⟨⟨[], h⟩, ⟨[], .nil e₀, rfl, rfl⟩, fun _ hm => absurd hm List.not_mem_nil, .start h, rfl, rfl⟩
  sender := ⟨fun h => by simp [Server.start] at h, fun h => by simp [Server.start] at h⟩
  sends := .start
  md := ⟨fun h => by simp [Server.start] at h, fun h => by simp [Server.start] at h⟩
  packs := .start

/-- The flag is set only once all is pushed. -/
theorem not_recvDone (h : Follows e₀ s log) {req : Request} {reqs : List Request} (hf : s.fromRecv = req :: reqs) :
    s.recvDone ≠ true := fun hd => by
  cases hf.symm.trans (h.recvDone hd).1

theorem not_matchDone (h : Follows e₀ s log) (hp : s.matcher.state.pushes ≠ []) : s.matchDone ≠ true := fun hd => by
  have hpc := h.matchDone hd
  rw [h.busy hp] at hpc
  cases hpc

theorem recv (h : Follows e₀ s log) (hs : s.recvStep bound data = some (ev, s')) : Follows e₀ s' (log.add ev) := by
  rcases recvStep_cases hs with ⟨req, reqs, hf, -, rfl, rfl⟩ | ⟨-, -, rfl, rfl⟩ |
    ⟨n, recv, hf, hgo, hstop, hn, hr, rfl, rfl⟩ | ⟨hf, hend, rfl, rfl⟩
  · have hdone := h.not_recvDone hf
    refine { h with intake := ?_, recvDone := fun hd => absurd hd hdone, matcher := h.matcher.push hdone req }
    have hi := h.intake
    rw [hf] at hi
    show Intakes s.recv (log.requests ++ (s.qIn ++ [req]) ++ reqs) log.received
    rwa [List.append_assoc, List.append_assoc, List.singleton_append, ← List.append_assoc]
  · exact h
  · obtain ⟨n', recv', hn', hr', hi, -⟩ := h.intake.step hgo data
    cases hn.symm.trans hn'
    cases hr.symm.trans hr'
    rw [hf, List.append_nil] at hi
    refine { h with intake := hi, recvDone := fun hd => ?_ }
    -- a thread that has ended reads no more
    rcases (h.recvDone hd).2 with hend | hend
    · cases hgo.symm.trans hend
    · cases hstop.symm.trans hend
  · exact { h with recvDone := fun _ => ⟨hf, hend⟩, matcher := h.matcher.setDone }

/-- A push makes no difference to what has been answered. -/
theorem handle (h : Follows e₀ s log) (hs : s.handleStep bound ts = some (ev, s')) (hfew : s.engine.book.Few) :
    Follows e₀ s' (log.add ev) := by
  rcases handleStep_cases hs with ⟨r, pushes, hp, -, rfl, rfl⟩ | ⟨m, pushes, hp, -, rfl, rfl⟩ | ⟨-, rfl, rfl⟩ |
    ⟨hp, hpc, rfl, rfl⟩ | ⟨ev', stage, hp, hpc, hl, rfl, rfl⟩
  · have hne : s.matcher.state.pushes ≠ [] := by simp [hp]
    have hdone := h.not_matchDone hne
    refine { h with
      busy := fun _ => h.busy hne, answers := ?_, sender := h.sender.push hdone r }
    have ha := h.answers
    rw [hp] at ha
    show Answers e₀ s.engine log.handled (log.responses ++ (s.qOut ++ [r]) ++ Push.responses pushes) _
    rwa [List.append_assoc, List.append_assoc, List.singleton_append, ← List.append_assoc]
  · have hne : s.matcher.state.pushes ≠ [] := by simp [hp]
    have hdone := h.not_matchDone hne
    refine { h with
      busy := fun _ => h.busy hne, answers := ?_, md := h.md.push hdone m }
    have ha := h.answers
    rw [hp] at ha
    show Answers e₀ s.engine log.handled _ (log.messages ++ (s.qMd ++ [m]) ++ Push.messages pushes)
    rwa [List.append_assoc log.messages, List.append_assoc s.qMd, List.singleton_append, ← List.append_assoc]
  · exact h
  · exact { h with matchDone := fun _ => hpc, sender := h.sender.setDone, md := h.md.setDone }
  · have hm := Drain.moves hl
    have hheeds := Heeds.moves hm h.matcher
    have hpops := hm.pops
    have hmdone : s.matchDone = true → stage.loop.pc = .exited := fun hd => absurd (h.matchDone hd) hpc
    have hintake : Intakes s.recv (log.requests ++ ev'.popped?.toList ++ stage.queue ++ s.fromRecv) log.received := by
      have hi := h.intake
      rwa [show s.qIn = _ from hpops, ← List.append_assoc log.requests] at hi
    -- what is answered is answered to the item taken, if one is
    have hrest : (∀ req, ev' ≠ .taken req) → stage.loop.state = s.matcher.state →
        Follows e₀ { s with qIn := stage.queue, matcher := stage.loop } (log.add (.request ts ev')) := fun hno hsame => by
      have htaken : ev'.taken? = none := by
        cases ev' with
        | taken req => exact absurd rfl (hno req)
        | quiet => rfl
        | dropped req => rfl
      refine { h with
        intake := hintake, matcher := hheeds, busy := fun hne => absurd hp (hsame ▸ hne), matchDone := hmdone, answers := ?_ }
      show Answers e₀ stage.loop.state.engine (log.handled ++ ev'.taken?.toList.map fun req => (ts, req)) _ _
      rw [htaken, hsame]
      exact (List.append_nil log.handled).symm ▸ h.answers
    rcases Drain.loop_cases hl with ⟨_, _, rfl, rfl⟩ | ⟨req, queue, state, hpop, hq, hbody, rfl, rfl⟩ | ⟨_, rfl, rfl⟩ |
      ⟨state, _, _, hf, rfl, rfl⟩ | ⟨req, queue, _, _, rfl, rfl⟩ | ⟨_, rfl, rfl⟩
    · exact hrest (fun req => by simp) rfl
    · obtain ⟨pushes, e', hstep, ha⟩ := h.answers.step hfew (ts, req)
      obtain ⟨hr, hms⟩ := pushes.inOrder_spec
      obtain ⟨⟨pushes', e''⟩, hstep', hbody⟩ := Option.bind_eq_some_iff.mp hbody
      cases hstep.symm.trans hstep'
      cases hbody
      refine { h with
        intake := hintake, matcher := hheeds, busy := fun _ => hpop, matchDone := hmdone, answers := ?_ }
      rw [hp] at ha
      show Answers e₀ e' (log.handled ++ [(ts, req)]) (log.responses ++ s.qOut ++ Push.responses pushes.inOrder)
        (log.messages ++ s.qMd ++ Push.messages pushes.inOrder)
      rw [hr, hms]
      simpa [Push.responses, Push.messages] using ha
    · exact hrest (fun req => by simp) rfl
    · cases hf
      exact hrest (fun req => by simp) rfl
    · exact hrest (fun req => by simp) rfl
    · exact hrest (fun req => by simp) rfl

theorem send (h : Follows e₀ s log) (hs : s.sendStep sent = some (ev, s')) : Follows e₀ s' (log.add ev) := by
  obtain ⟨ev', stage, hl, rfl, rfl⟩ := sendStep_cases hs
  have hm := SendLoop.moves hl
  have ha := h.answers
  rw [show s.qOut = _ from hm.pops, ← List.append_assoc log.responses] at ha
  exact { h with answers := ha, sender := Heeds.moves hm h.sender, sends := Sends.step h.sends hl }

theorem messages_framed (h : Follows e₀ s log) : ∀ m ∈ s.qMd, m.Framed := fun m hm =>
  h.answers.framed m (List.mem_append_left _ (List.mem_append_right _ hm))

theorem pack (h : Follows e₀ s log) (hs : s.mdStep = some (ev, s')) : Follows e₀ s' (log.add ev) := by
  obtain ⟨ev', stage, hl, rfl, rfl⟩ := mdStep_cases hs
  have hm := Drain.moves hl
  have ha := h.answers
  rw [show s.qMd = _ from hm.pops, ← List.append_assoc log.messages] at ha
  exact { h with answers := ha, md := Heeds.moves hm h.md, packs := Packs.step h.packs h.messages_framed hl }

/-- The step lemma. -/
theorem step (h : Follows e₀ s log) (hs : s.step bound op = some (ev, s')) (hfew : s.engine.book.Few) :
    Follows e₀ s' (log.add ev) := by
  cases op with
  | stop =>
    cases hs
    exact { h with recvDone := fun hd => ⟨(h.recvDone hd).1, .inr rfl⟩ }
  | recv data => exact h.recv hs
  | handle ts => exact h.handle hs hfew
  | send sent => exact h.send hs
  | md => exact h.pack hs

/-- No step goes wrong. -/
theorem goes (h : Follows e₀ s log) (hfew : s.engine.book.Few) (bound : Nat) (op : ServerOp) :
    ∃ ev s', s.step bound op = some (ev, s') := by
  cases op with
  | stop => exact ⟨_, _, rfl⟩
  | recv data =>
    show ∃ ev s', s.recvStep bound data = some (ev, s')
    rw [recvStep]
    cases s.fromRecv with
    | cons req reqs => exact ⟨_, _, rfl⟩
    | nil =>
      dsimp only
      split
      · rename_i hgo
        obtain ⟨n, recv, hn, hr, -⟩ := h.intake.step hgo.1 data
        rw [hn, Option.bind_eq_bind, Option.bind_some, hr]
        exact ⟨_, _, rfl⟩
      · exact ⟨_, _, rfl⟩
  | handle ts =>
    show ∃ ev s', s.handleStep bound ts = some (ev, s')
    rw [handleStep]
    cases s.matcher.state.pushes with
    | cons push pushes => cases push <;> exact ⟨_, _, rfl⟩
    | nil =>
      dsimp only
      split
      · exact ⟨_, _, rfl⟩
      · have hl : ∃ ev' stage, matchLoop (serve ts) ⟨[], s.qIn, s.recvDone, s.matcher⟩ = some (ev', stage) := by
          refine drain_goes (fun req queue hpc hq => ?_) fun hpc => ⟨_, rfl⟩
          obtain ⟨pushes, e', hstep, -⟩ := h.answers.step hfew (ts, req)
          refine ⟨{ engine := e', pushes := pushes.inOrder }, ?_⟩
          show (s.engine.step (ts, req)).bind _ = _
          rw [hstep]
          rfl
        obtain ⟨ev', stage, hl⟩ := hl
        rw [hl]
        exact ⟨_, _, rfl⟩
  | send sent =>
    have hl : ∃ ev' stage, sendLoop sent ⟨[], s.qOut, s.matchDone, s.sender⟩ = some (ev', stage) :=
      Sends.goes h.sends sent
    obtain ⟨ev', stage, hl⟩ := hl
    show ∃ ev s', s.sendStep sent = some (ev, s')
    rw [sendStep, hl]
    exact ⟨_, _, rfl⟩
  | md =>
    have hl : ∃ ev' stage, mdLoop ⟨[], s.qMd, s.matchDone, s.md⟩ = some (ev', stage) :=
      Packs.goes h.packs h.messages_framed
    obtain ⟨ev', stage, hl⟩ := hl
    show ∃ ev s', s.mdStep = some (ev, s')
    rw [mdStep, hl]
    exact ⟨_, _, rfl⟩

/-- The requests of the stream. -/
theorem requests (h : Follows e₀ s log) :
    Decoded ((blocks log.received).takeWhile tagged) (log.requests ++ (s.qIn ++ s.fromRecv)) := by
  obtain ⟨-, r, hr, hq, -⟩ := h.intake
  rw [← List.append_assoc, ← hq]
  cases hr with
  | going _ hchops _ hdec _ =>
    obtain ⟨rfl, -⟩ := chops_blocks hchops
    exact hdec
  | ended _ hchops _ hdec _ =>
    obtain ⟨rfl, -⟩ := chops_blocks hchops
    exact hdec

/-- When all threads have ended, nothing is on the way. -/
theorem ended (h : Follows e₀ s log) (he : s.Ended) :
    s.fromRecv = [] ∧ s.qIn = [] ∧ s.matcher.state.pushes = [] ∧ s.qOut = [] ∧ s.qMd = [] := by
  obtain ⟨hrecv, hmatch, hsend, hmd⟩ := he
  have hpc := h.matchDone hmatch
  refine ⟨(h.recvDone hrecv).1, (h.matcher.exited hpc).2, ?_, (h.sender.exited hsend).2, (h.md.exited hmd).2⟩
  by_contra hne
  rw [h.busy hne] at hpc
  cases hpc

theorem packets (h : Follows e₀ s log) : s.md.state.packets = MdLoop.dataPackets 1 (log.packed.map MdMsg.payload) ++
    if s.md.pc = .exited then [MdLoop.endPacket (UInt64.ofNat (log.packed.length + 1))] else [] := by
  obtain ⟨hframed, l, hl, hd⟩ := h.packs
  by_cases hpc : s.md.pc = .exited
  · rw [Drain.Did, if_pos hpc] at hd
    rw [if_pos hpc, MdLoop.packets_eq hframed hl hd]
  · obtain ⟨l', hl', -, -, hp⟩ := MdLoop.foldlM_pack MdLoop.start_ok (rfl : (1 : UInt64) = UInt64.ofNat 1) hframed
    cases hl.symm.trans hl'
    rw [Drain.did_iff hpc] at hd
    rw [if_neg hpc, hd, hp, List.append_nil]
    rfl

end Follows

/-! ## Sessions -/

theorem taken_sublist {T : Type} (ev : StageEvent T) : ev.taken?.toList.Sublist ev.popped?.toList := by
  cases ev with
  | quiet => exact .refl _
  | taken item => exact .refl _
  | dropped item => exact List.nil_sublist _

end Server

/-- What a loop did its work for are items that it popped, in order. -/
structure ServerLog.Ordered (l : ServerLog) : Prop where
  handled : (l.handled.map Prod.snd).Sublist l.requests
  encoded : l.encoded.Sublist l.responses
  packed : l.packed.Sublist l.messages

theorem ServerLog.Ordered.add {l : ServerLog} (h : l.Ordered) (ev : ServerEvent) : (l.add ev).Ordered := by
  cases ev with
  | quiet => exact h
  | received data => exact ⟨h.handled, h.encoded, h.packed⟩
  | request ts ev =>
    refine ⟨?_, h.encoded, h.packed⟩
    show ((l.handled ++ ev.taken?.toList.map fun req => (ts, req)).map Prod.snd).Sublist _
    rw [List.map_append, List.map_map]
    exact h.handled.append (by simpa using Server.taken_sublist ev)
  | response ev => exact ⟨h.handled, h.encoded.append (Server.taken_sublist ev), h.packed⟩
  | message ev => exact ⟨h.handled, h.encoded, h.packed.append (Server.taken_sublist ev)⟩

namespace Server

/-- A session is in order: the requests popped are the first of the stream, the
engine has handled those of them that were not dropped, and each queue that it
pushes on is popped in its order. Nothing is on the way when all threads have
ended. -/
structure InOrder (e₀ : Engine) (s : Server) (log : ServerLog) (outs : List Pushes) : Prop where
  ordered : log.Ordered
  requests : ∃ queued, Decoded ((blocks log.received).takeWhile tagged) (log.requests ++ queued) ∧ (s.Ended → queued = [])
  handled : Runs.Exec Engine.step e₀ log.handled outs s.engine
  responses : ∃ queued, outs.flatMap Pushes.responses = log.responses ++ queued ∧ (s.Ended → queued = [])
  sent : ∃ held, log.encoded.flatMap Response.encode = s.sender.sends.flatten ++ held ∧ (s.Ended → held = [])
  messages : ∃ queued, outs.flatMap Pushes.messages = log.messages ++ queued ∧ (s.Ended → queued = [])
  packets : s.md.state.packets = MdLoop.dataPackets 1 (log.packed.map MdMsg.payload) ++
    if s.md.pc = .exited then [MdLoop.endPacket (UInt64.ofNat (log.packed.length + 1))] else []

theorem Follows.inOrder {e₀ : Engine} {log : ServerLog} (h : Follows e₀ s log) (ho : log.Ordered) :
    ∃ outs, InOrder e₀ s log outs := by
  obtain ⟨outs, he, hr, hm⟩ := h.answers.exec
  refine ⟨outs, ho, ⟨_, h.requests, fun hend => ?_⟩, he, ⟨s.qOut ++ Push.responses s.matcher.state.pushes, ?_, fun hend => ?_⟩,
    ⟨if s.sender.pc = .fill ∨ s.sender.pc = .send then s.sender.buf else [], h.sends.encoded.symm, fun hend => ?_⟩,
    ⟨s.qMd ++ Push.messages s.matcher.state.pushes, ?_, fun hend => ?_⟩, h.packets⟩
  · obtain ⟨hf, hq, -⟩ := h.ended hend
    rw [hf, hq, List.append_nil]
  · rw [hr, List.append_assoc]
  · obtain ⟨-, -, hp, hq, -⟩ := h.ended hend
    rw [hp, hq]
    rfl
  · rw [if_neg]
    simp [hend.2.2.1]
  · rw [hm, List.append_assoc]
  · obtain ⟨-, -, hp, -, hq⟩ := h.ended hend
    rw [hp, hq]
    rfl

/-- The run lemma. -/
theorem exec_follows {e₀ : Engine} {log : ServerLog} (bound : Nat) (h : Follows e₀ s log) (ho : log.Ordered)
    (ops : List ServerOp) (hfew : Runs.Along (step bound) (fun s => s.engine.book.Few) s ops) :
    ∃ evs s', Runs.Exec (step bound) s ops evs s' ∧ Follows e₀ s' (evs.foldl ServerLog.add log) ∧
      (evs.foldl ServerLog.add log).Ordered ∧ s'.engine.book.Few := by
  obtain ⟨evs, s', he, ⟨h', ho'⟩, hfew'⟩ := Runs.exec_of_inv
    (R := fun s evs => Follows e₀ s (evs.foldl ServerLog.add log) ∧ (evs.foldl ServerLog.add log).Ordered)
    (fun s evs op ⟨h, ho⟩ hfew => by
      obtain ⟨ev, s', hs⟩ := h.goes hfew bound op
      refine ⟨ev, s', hs, ?_⟩
      rw [List.foldl_append]
      exact ⟨h.step hs hfew, ho.add ev⟩)
    [] ops ⟨h, ho⟩ hfew
  exact ⟨evs, s', he, h', ho', hfew'⟩

/-- No step of a session goes wrong, and it is in order at any time, however
the threads take their steps. -/
theorem session_in_order (bound : Nat) {symbol : Symbol} {mdPort : UInt16} {e₀ : Engine}
    (h₀ : Engine.new symbol mdPort = some e₀) (buf : RecvBuffer) (ops : List ServerOp)
    (hfew : Runs.Along (step bound) (fun s => s.engine.book.Few) (start buf e₀) ops) :
    ∃ evs s outs, Runs.Exec (step bound) (start buf e₀) ops evs s ∧ InOrder e₀ s (ServerLog.of evs) outs := by
  obtain ⟨e₁, he₁, -, -, ho⟩ := Engine.Orders.new symbol mdPort
  cases h₀.symm.trans he₁
  obtain ⟨evs, s, he, h, hord, -⟩ := exec_follows bound (.start buf ho) ⟨.slnil, .slnil, .slnil⟩ ops hfew
  obtain ⟨outs, hin⟩ := h.inOrder hord
  exact ⟨evs, s, outs, he, hin⟩

/-! ## Few orders -/

section Few

variable {bound : Nat} {s s' : Server} {ev : ServerEvent} {op : ServerOp} {e₀ : Engine} {log : ServerLog}

theorem received_step (log : ServerLog) (hs : s.step bound op = some (ev, s')) :
    (log.add ev).received.length ≤ log.received.length + op.offered := by
  cases op with
  | stop =>
    cases hs
    exact Nat.le_refl _
  | recv data =>
    rcases recvStep_cases hs with ⟨_, _, _, _, rfl, _⟩ | ⟨_, _, rfl, _⟩ | ⟨n, _, _, _, _, _, _, rfl, _⟩ | ⟨_, _, rfl, _⟩
    · exact Nat.le_add_right _ _
    · exact Nat.le_add_right _ _
    · show (log.received ++ data.take n).length ≤ log.received.length + data.length
      rw [List.length_append, List.length_take]
      omega
    · exact Nat.le_add_right _ _
  | handle ts =>
    rcases handleStep_cases hs with ⟨_, _, _, _, rfl, _⟩ | ⟨_, _, _, _, rfl, _⟩ | ⟨_, rfl, _⟩ | ⟨_, _, rfl, _⟩ |
      ⟨_, _, _, _, _, rfl, _⟩
    · exact Nat.le_refl _
    · exact Nat.le_refl _
    · exact Nat.le_refl _
    · exact Nat.le_refl _
    · exact Nat.le_refl _
  | send sent =>
    obtain ⟨_, _, _, rfl, _⟩ := sendStep_cases hs
    exact Nat.le_refl _
  | md =>
    obtain ⟨_, _, _, rfl, _⟩ := mdStep_cases hs
    exact Nat.le_refl _

/-- A request that is handled brings in one order at most. -/
theorem openOrders_step (h : Follows e₀ s log) (hfew : s.engine.book.Few)
    (hs : s.step bound op = some (ev, s')) :
    s'.engine.book.openOrders + log.handled.length ≤ s.engine.book.openOrders + (log.add ev).handled.length := by
  have same : s'.engine = s.engine →
      s'.engine.book.openOrders + log.handled.length ≤ s.engine.book.openOrders + (log.add ev).handled.length := fun e => by
    rw [e]
    exact Nat.add_le_add_left (log.handled_le_add ev) _
  cases op with
  | stop =>
    cases hs
    exact same rfl
  | recv data =>
    rcases recvStep_cases hs with ⟨_, _, _, _, _, rfl⟩ | ⟨_, _, _, rfl⟩ | ⟨_, _, _, _, _, _, _, _, rfl⟩ | ⟨_, _, _, rfl⟩
    · exact same rfl
    · exact same rfl
    · exact same rfl
    · exact same rfl
  | send sent =>
    obtain ⟨_, _, _, _, rfl⟩ := sendStep_cases hs
    exact same rfl
  | md =>
    obtain ⟨_, _, _, _, rfl⟩ := mdStep_cases hs
    exact same rfl
  | handle ts =>
    rcases handleStep_cases hs with ⟨_, _, _, _, _, rfl⟩ | ⟨_, _, _, _, _, rfl⟩ | ⟨_, _, rfl⟩ | ⟨_, _, _, rfl⟩ |
      ⟨ev', stage, _, _, hl, rfl, rfl⟩
    · exact same rfl
    · exact same rfl
    · exact same rfl
    · exact same rfl
    · rcases Drain.loop_cases hl with ⟨_, _, _, rfl⟩ | ⟨req, queue, state, _, _, hbody, rfl, rfl⟩ | ⟨_, _, rfl⟩ |
        ⟨state, _, _, hf, _, rfl⟩ | ⟨_, _, _, _, _, rfl⟩ | ⟨_, _, rfl⟩
      · exact same rfl
      · obtain ⟨⟨os, ho⟩, -⟩ := h.answers
        obtain ⟨out, e', resps, calls, os', hstep, -, -, hh, ho', -, -⟩ := ho.step hfew (ts, req)
        obtain ⟨⟨pushes, e''⟩, hstep', hbody⟩ := Option.bind_eq_some_iff.mp hbody
        cases hstep.symm.trans hstep'
        cases hbody
        show e'.book.openOrders + log.handled.length ≤ s.engine.book.openOrders + (log.handled ++ [(ts, req)]).length
        have hle := hh.length_le
        rw [← ho'.length_eq, ← ho.length_eq] at hle
        rw [List.length_append, List.length_singleton]
        omega
      · exact same rfl
      · cases hf
        exact same rfl
      · exact same rfl
      · exact same rfl

/-- Each order in the book was a block of the stream. -/
theorem Follows.openOrders_le (h : Follows e₀ s log) (ho : log.Ordered)
    (hle : s.engine.book.openOrders ≤ log.handled.length) :
    kMessageSize * s.engine.book.openOrders ≤ log.received.length := by
  have hhandled : log.handled.length ≤ log.requests.length := by
    simpa using ho.handled.length_le
  have hdec := congrArg List.length h.requests
  rw [List.length_map, List.length_map, List.length_append] at hdec
  have hblocks : ((blocks log.received).takeWhile tagged).length ≤ log.received.length / kMessageSize := by
    refine (List.takeWhile_sublist _).length_le.trans ?_
    rw [blocks, List.length_map, List.length_range]
  have hsize := Nat.mul_div_le log.received.length kMessageSize
  exact (Nat.mul_le_mul_left kMessageSize (by omega)).trans hsize

/-- A session, `more` bytes of which are to come: fewer than 2^32 blocks in all
leave the book with fewer orders. -/
structure Kept (e₀ : Engine) (s : Server) (log : ServerLog) (more : Nat) : Prop where
  follows : Follows e₀ s log
  ordered : log.Ordered
  orders : s.engine.book.openOrders ≤ log.handled.length
  bytes : log.received.length + more < kMessageSize * 2 ^ 32

namespace Kept

variable {more : Nat}

theorem start (buf : RecvBuffer) (ho : Engine.Orders e₀ []) (hmore : more < kMessageSize * 2 ^ 32) :
    Kept e₀ (Server.start buf e₀) {} more where
  follows := .start buf ho
  ordered := ⟨.slnil, .slnil, .slnil⟩
  orders := ho.length_eq.le
  bytes := by
    show 0 + more < _
    omega

theorem book_few (h : Kept e₀ s log more) : s.engine.book.Few := by
  refine Nat.lt_of_mul_lt_mul_left (a := kMessageSize) ?_
  have hle := h.follows.openOrders_le h.ordered h.orders
  have hbytes := h.bytes
  omega

theorem step (h : Kept e₀ s log (op.offered + more)) (hs : s.step bound op = some (ev, s')) :
    Kept e₀ s' (log.add ev) more := by
  have horders := openOrders_step h.follows h.book_few hs
  have hread := received_step log hs
  have hle := h.orders
  have hbytes := h.bytes
  exact ⟨h.follows.step hs h.book_few, h.ordered.add ev, by omega, by omega⟩

theorem along_few (bound : Nat) : ∀ {s : Server} {log : ServerLog} (ops : List ServerOp),
    Kept e₀ s log (ops.map ServerOp.offered).sum → Runs.Along (Server.step bound) (fun s => s.engine.book.Few) s ops
  | _, _, [], h => h.book_few
  | _, _, _ :: ops, h => ⟨h.book_few, fun _ _ hs => along_few bound ops (h.step hs)⟩

theorem exec {ops : List ServerOp} {evs : List ServerEvent} (he : Runs.Exec (Server.step bound) s ops evs s') :
    ∀ {log : ServerLog}, Kept e₀ s log (ops.map ServerOp.offered).sum → Kept e₀ s' (evs.foldl ServerLog.add log) 0 := by
  induction he with
  | nil s => exact fun h => h
  | cons hs _ ih => exact fun h => ih (h.step hs)

end Kept

end Few

/-! ## Two orders that trade -/

/-- `n` times a step of each thread but `recv_loop`. -/
def turns (n : Nat) : List ServerOp := (List.replicate n [.handle 7, .send true, .md]).flatten

/-- A client that sends both orders at once. The turns leave no item queued when a
flag is stored, so that none is dropped. -/
def trading : List ServerOp :=
  [.recv (sellFive.encode ++ buyEight.encode), .recv []] ++ turns 3 ++ [.recv []] ++ turns 7 ++ [.recv [], .recv []] ++
    turns 7

instance (s : Server) : Decidable s.Ended :=
  inferInstanceAs (Decidable (s.recvDone = true ∧ s.matchDone = true ∧ s.sender.pc = .exited ∧ s.md.pc = .exited))

/-- A session is what its run and its trace evaluate to. -/
theorem exec_of_eval {A B : Type} {bound : Nat} {s : Server} {ops : List ServerOp} {f : Server → A}
    {g : List ServerEvent → B} {a : A} {b : B} (hs : (Runs.run (step bound) s ops).map f = some a)
    (ht : (Runs.trace (step bound) s ops).map g = some b) :
    ∃ evs s', Runs.Exec (step bound) s ops evs s' ∧ f s' = a ∧ g evs = b := by
  obtain ⟨s', hs', ha⟩ := Option.map_eq_some_iff.mp hs
  obtain ⟨evs, ht', he⟩ := Runs.exec_of_run hs'
  rw [ht', Option.map_some, Option.some.injEq] at ht
  exact ⟨evs, s', he, ha, ht⟩

/-- Both orders are answered and filled, and what rests of the second is
shown. -/
theorem trading_exec : ∃ evs s, Runs.Exec (step 1) (start .blank (Engine.idle {} 1)) trading evs s ∧ s.Ended ∧
    (ServerLog.of evs).Lossless ∧ (ServerLog.of evs).handled = [(7, sellFive), (7, buyEight)] ∧
    (ServerLog.of evs).encoded.map Response.kind =
      [RespKind.accepted, RespKind.accepted, RespKind.executed, RespKind.executed] ∧
    (ServerLog.of evs).packed.length = 3 := by
  have hend : (Runs.run (step 1) (start .blank (Engine.idle {} 1)) trading).map (fun s => decide s.Ended) =
      some true := by decide +kernel
  have hlog : (Runs.trace (step 1) (start .blank (Engine.idle {} 1)) trading).map (fun evs =>
      let log := ServerLog.of evs
      (decide log.Lossless, log.handled, log.encoded.map Response.kind, log.packed.length)) =
      some (true, [(7, sellFive), (7, buyEight)],
        [RespKind.accepted, RespKind.accepted, RespKind.executed, RespKind.executed], 3) := by decide +kernel
  obtain ⟨evs, s, he, hend, hlog⟩ := exec_of_eval hend hlog
  simp only [Prod.mk.injEq, decide_eq_true_eq] at hend hlog
  exact ⟨evs, s, he, hend, hlog⟩

theorem trading_few : Runs.Along (step 1) (fun s => s.engine.book.Few) (start .blank (Engine.idle {} 1)) trading := by
  obtain ⟨e₀, h₀, -, -, ho⟩ := Engine.Orders.new {} 1
  cases h₀.symm.trans (Engine.new_eq {} 1)
  exact Kept.along_few 1 trading (Kept.start .blank ho (by decide +kernel))

theorem session_in_order_trade : ∃ (evs : List ServerEvent) (s : Server) (outs : List Pushes),
    Engine.new {} 1 = some (Engine.idle {} 1) ∧
    Runs.Exec (step 1) (start .blank (Engine.idle {} 1)) trading evs s ∧ s.Ended ∧
    (ServerLog.of evs).handled = [(7, sellFive), (7, buyEight)] ∧
    (ServerLog.of evs).encoded.map Response.kind =
      [RespKind.accepted, RespKind.accepted, RespKind.executed, RespKind.executed] ∧
    InOrder (Engine.idle {} 1) s (ServerLog.of evs) outs := by
  obtain ⟨evs, s, he, hend, -, hhandled, hencoded, -⟩ := trading_exec
  obtain ⟨evs', s', outs, he', hin⟩ := session_in_order 1 (Engine.new_eq {} 1) .blank trading trading_few
  cases he.trace.symm.trans he'.trace
  cases he.run.symm.trans he'.run
  exact ⟨evs, s, outs, Engine.new_eq {} 1, he, hend, hhandled, hencoded, hin⟩

end Server

end Pricetime
