import Pricetime.Proof.Framework.Fairness
import Pricetime.Proof.Server

/-!
# Every session ends

Once the client is gone or the server is stopped, all four threads end,
whatever the order of their steps, if none of them stops taking any. No thread
waits for another that waits for it: the match thread waits for room in its
two queues, whose loops never wait for it while there is something to pop.

`rank` counts what is left to do, the requests first and then what is pushed
for them, and `Helps s t` says that a step of thread `t` lowers it:

* `Follows.recv_turn`, `Follows.handle_turn`, `Follows.send_turn`,
  `Follows.md_turn`: a step of a thread that does not help changes nothing
  that another waits for;
* `Follows.exists_helps`: some thread helps until all have ended;
* `session_ends`: under every fair schedule all have ended in time.
-/

namespace Pricetime

open Wire (Request Response kMessageSize)
open Engine (sellFive buyEight)

/-! ## The loops -/

/-- How many steps a loop has to its end, from here on, if the queue stays
empty and the flag is set. -/
def DrainPc.left : DrainPc → Nat
  | .pop => 3
  | .flag => 2
  | .retest => 1
  | .exited => 0

/-- How many steps it may have to its next `try_pop`. -/
def DrainPc.toPop : DrainPc → Nat
  | .pop => 0
  | .flag => 2
  | .retest => 1
  | .exited => 0

def SendPc.left : SendPc → Nat
  | .fill => 6
  | .send => 5
  | .discard => 4
  | .pop => 3
  | .flag => 2
  | .retest => 1
  | .exited => 0

def SendPc.toPop : SendPc → Nat
  | .fill => 4
  | .send => 3
  | .flag => 2
  | .retest => 1
  | .discard => 0
  | .pop => 0
  | .exited => 0

theorem DrainPc.left_eq_zero {pc : DrainPc} : pc.left = 0 ↔ pc = .exited := by
  cases pc <;> decide

theorem DrainPc.toPop_le (pc : DrainPc) : pc.toPop ≤ max 3 pc.left := by
  cases pc <;> decide

theorem SendPc.left_eq_zero {pc : SendPc} : pc.left = 0 ↔ pc = .exited := by
  cases pc <;> decide

theorem SendPc.toPop_le (pc : SendPc) : pc.toPop ≤ max 3 pc.left := by
  cases pc <;> decide

/-- What a loop has left to do. Without the flag an empty queue keeps it going
round, so that the last three of its steps count as one place. -/
def loopRank {T : Type} (weight left toPop : Nat) (done : Bool) : List T → Nat
  | [] => if done then left else max 3 left
  | _ :: queue => weight * (queue.length + 1) + toPop

/-- There is nothing to do. -/
def Idle {T : Type} (left : Nat) (done : Bool) (queue : List T) : Prop :=
  queue = [] ∧ (done = false ∧ left ≤ 3 ∨ left = 0)

section Loops

variable {T : Type} {weight left toPop : Nat} {done : Bool}

theorem loopRank_push (h : toPop ≤ max 3 left) (queue : List T) (item : T) :
    loopRank weight left toPop false (queue ++ [item]) ≤ loopRank weight left toPop false queue + weight := by
  cases queue with
  | nil =>
    show weight * (0 + 1) + toPop ≤ max 3 left + weight
    omega
  | cons x queue =>
    show weight * ((queue ++ [item]).length + 1) + toPop ≤ weight * (queue.length + 1) + toPop + weight
    rw [List.length_append, List.length_singleton, Nat.mul_add, Nat.mul_add]
    omega

theorem loopRank_done (queue : List T) :
    loopRank weight left toPop true queue ≤ loopRank weight left toPop done queue := by
  cases queue with
  | nil =>
    cases done with
    | false => exact Nat.le_max_right 3 left
    | true => exact Nat.le_refl _
  | cons x queue => exact Nat.le_refl _

/-- An item popped, wherever the loop is then. -/
theorem loopRank_pop {left' toPop' : Nat} (h : max 3 left' < weight) (h' : toPop' < weight) (item : T) (queue : List T) :
    loopRank weight left' toPop' done queue < loopRank weight left toPop done (item :: queue) := by
  cases queue with
  | nil =>
    have hle : loopRank weight left' toPop' done ([] : List T) ≤ max 3 left' := by
      cases done with
      | false => exact Nat.le_refl _
      | true => exact Nat.le_max_right 3 left'
    show _ < weight * (0 + 1) + toPop
    omega
  | cons x queue =>
    show weight * (queue.length + 1) + toPop' < weight * (queue.length + 1 + 1) + toPop
    rw [Nat.mul_add weight (queue.length + 1)]
    omega

theorem not_idle_cons {item : T} {queue : List T} : ¬ Idle left done (item :: queue) := fun h => by cases h.1

end Loops

namespace Drain

variable {T S : Type} {body : S → T → Option S} {finish : S → Option S} {s s' : Stage T (Drain S)} {ev : StageEvent T}

/-- A step of the loop leaves less to do, unless it is idle: it then goes round
once more, or has ended. -/
theorem rank_step (h : Drain.loop body finish s = some (ev, s'))
    (hheeds : Server.Heeds (s.loop.pc = .retest ∨ s.loop.pc = .exited) (s.loop.pc = .exited) s.done s.queue) :
    (¬ Idle s.loop.pc.left s.done s.queue →
      loopRank 4 s'.loop.pc.left s'.loop.pc.toPop s.done s'.queue < loopRank 4 s.loop.pc.left s.loop.pc.toPop s.done s.queue) ∧
    (Idle s.loop.pc.left s.done s.queue → s'.queue = s.queue ∧ s'.loop.state = s.loop.state ∧
      loopRank 4 s'.loop.pc.left s'.loop.pc.toPop s.done s'.queue = loopRank 4 s.loop.pc.left s.loop.pc.toPop s.done s.queue) := by
  obtain ⟨pending, queue, done, pc, state⟩ := s
  rcases loop_cases h with ⟨rfl, rfl, rfl, rfl⟩ | ⟨item, queue', state', rfl, rfl, _, rfl, rfl⟩ | ⟨rfl, rfl, rfl⟩ |
    ⟨state', rfl, rfl, _, rfl, rfl⟩ | ⟨item, queue', rfl, rfl, rfl, rfl⟩ | ⟨rfl, rfl, rfl⟩
  · cases done <;> simp [Idle, loopRank, DrainPc.left]
  · refine ⟨fun _ => ?_, fun hi => absurd hi not_idle_cons⟩
    exact loopRank_pop (by simp [DrainPc.left]) (by simp [DrainPc.toPop]) item queue'
  · cases done <;> cases queue <;> simp [Idle, loopRank, DrainPc.left, DrainPc.toPop]
  · obtain rfl : done = true := hheeds.knows (.inl rfl)
    simp [Idle, loopRank, DrainPc.left]
  · refine ⟨fun _ => ?_, fun hi => absurd hi not_idle_cons⟩
    exact loopRank_pop (by simp [DrainPc.left]) (by simp [DrainPc.toPop]) item queue'
  · obtain rfl : queue = [] := (hheeds.exited rfl).2
    simp [Idle, DrainPc.left]

end Drain

namespace SendLoop

variable {sent : Bool} {s s' : Stage Response SendLoop} {ev : StageEvent Response}

theorem rank_step (h : sendLoop sent s = some (ev, s'))
    (hheeds : Server.Heeds (s.loop.pc = .retest ∨ s.loop.pc = .exited) (s.loop.pc = .exited) s.done s.queue) :
    (¬ Idle s.loop.pc.left s.done s.queue →
      loopRank 7 s'.loop.pc.left s'.loop.pc.toPop s.done s'.queue < loopRank 7 s.loop.pc.left s.loop.pc.toPop s.done s.queue) ∧
    (Idle s.loop.pc.left s.done s.queue → s'.queue = s.queue ∧
      loopRank 7 s'.loop.pc.left s'.loop.pc.toPop s.done s'.queue = loopRank 7 s.loop.pc.left s.loop.pc.toPop s.done s.queue) := by
  obtain ⟨pending, queue, done, pc, buf, sends⟩ := s
  rcases loop_cases h with ⟨rfl, rfl, rfl, rfl⟩ | ⟨r, queue', rfl, rfl, rfl, rfl⟩ | ⟨rfl, rfl, rfl⟩ |
    ⟨rfl, rfl, rfl, rfl⟩ | ⟨r, queue', hpc, rfl, rfl, rfl⟩ | ⟨rfl, rfl, rfl⟩ | ⟨r, queue', rfl, rfl, rfl, rfl⟩ |
    ⟨rfl, rfl, rfl⟩ | ⟨rfl, rfl, rfl, rfl⟩ | ⟨rfl, rfl, rfl⟩
  · cases done <;> simp [Idle, loopRank, SendPc.left]
  · refine ⟨fun _ => ?_, fun hi => absurd hi not_idle_cons⟩
    exact loopRank_pop (by simp [SendPc.left]) (by simp [SendPc.toPop]) r queue'
  · cases done <;> cases queue <;> simp [Idle, loopRank, SendPc.left, SendPc.toPop]
  · obtain rfl : done = true := hheeds.knows (.inl rfl)
    simp [Idle, loopRank, SendPc.left]
  · refine ⟨fun _ => ?_, fun hi => absurd hi not_idle_cons⟩
    rcases hpc with rfl | rfl
    · exact loopRank_pop (by simp [SendPc.left]) (by simp [SendPc.toPop]) r queue'
    · exact loopRank_pop (by simp [SendPc.left]) (by simp [SendPc.toPop]) r queue'
  · cases done <;> cases queue <;> simp [Idle, loopRank, SendPc.left, SendPc.toPop]
  · refine ⟨fun _ => ?_, fun hi => absurd hi not_idle_cons⟩
    exact loopRank_pop (by simp [SendPc.left]) (by simp [SendPc.toPop]) r queue'
  · cases done <;> cases sent <;> cases queue <;> simp [Idle, loopRank, SendPc.left, SendPc.toPop]
  · cases done <;> simp [Idle, loopRank, SendPc.left]
  · obtain rfl : queue = [] := (hheeds.exited rfl).2
    simp [Idle, SendPc.left]

end SendLoop

/-! ## What is left to do -/

/-- The threads of the server. -/
inductive ServerThread where
  | recv
  | matcher
  | sender
  | md
  deriving DecidableEq

/-- The thread whose step it is. -/
def ServerOp.thread? : ServerOp → Option ServerThread
  | .stop => none
  | .recv _ => some .recv
  | .handle _ => some .matcher
  | .send _ => some .sender
  | .md => some .md

namespace Server

variable {bound : Nat} {data : List UInt8} {ts : UInt64} {sent : Bool} {s s' : Server} {ev : ServerEvent}
  {op : ServerOp} {e₀ : Engine} {log : ServerLog}

/-- The turns of `recv_loop`, once there is nothing to read. -/
def turnsLeft (s : Server) : Nat := if s.recvDone then 0 else if s.recv.alive ∧ ¬ s.stopping then 2 else 1

/-- The requests, -/
def requestsLeft (s : Server) : Nat :=
  5 * s.fromRecv.length + s.turnsLeft + loopRank 4 s.matcher.pc.left s.matcher.pc.toPop s.recvDone s.qIn

/-- and what is pushed for them. -/
def pushesLeft (s : Server) : Nat :=
  8 * s.matcher.state.pushes.length + (if s.matchDone then 0 else 1) +
    loopRank 7 s.sender.pc.left s.sender.pc.toPop s.matchDone s.qOut +
    loopRank 4 s.md.pc.left s.md.pc.toPop s.matchDone s.qMd

def rank (s : Server) : ℕ ×ₗ ℕ := toLex (s.requestsLeft, s.pushesLeft)

/-- A step of the thread leaves less to do. -/
def Helps (bound : Nat) (s : Server) : ServerThread → Prop
  | .recv => s.recvDone = false ∧ (s.fromRecv = [] ∨ s.qIn.length < bound)
  | .matcher =>
    if s.matcher.state.pushes = [] then
      s.matchDone = false ∧ (s.matcher.pc = .exited ∨ ¬ Idle s.matcher.pc.left s.recvDone s.qIn)
    else ¬ s.Blocked bound
  | .sender => ¬ Idle s.sender.pc.left s.matchDone s.qOut
  | .md => ¬ Idle s.md.pc.left s.matchDone s.qMd

theorem rank_lt_of_requests (h : s'.requestsLeft < s.requestsLeft) : s'.rank < s.rank :=
  Prod.Lex.toLex_lt_toLex.mpr (.inl h)

theorem rank_lt_of_pushes (h : s'.requestsLeft = s.requestsLeft) (h' : s'.pushesLeft < s.pushesLeft) :
    s'.rank < s.rank := Prod.Lex.toLex_lt_toLex.mpr (.inr ⟨h, h'⟩)

theorem rank_eq (h : s'.requestsLeft = s.requestsLeft) (h' : s'.pushesLeft = s.pushesLeft) : s'.rank = s.rank := by
  rw [rank, rank, h, h']

/-- What is needed of a step of a thread. -/
structure Turn (bound : Nat) (t : ServerThread) (s s' : Server) : Prop where
  lower : Helps bound s t → s'.rank < s.rank
  same : ¬ Helps bound s t → s'.rank = s.rank ∧ ∀ u, Helps bound s u → Helps bound s' u

/-- A step that changes nothing. -/
theorem Turn.idle {t : ServerThread} (h : ¬ Helps bound s t) : Turn bound t s s :=
  ⟨fun h' => absurd h' h, fun _ => ⟨rfl, fun _ hu => hu⟩⟩

theorem Turn.of_lower {t : ServerThread} (h : s'.rank < s.rank) (ht : Helps bound s t) : Turn bound t s s' :=
  ⟨fun _ => h, fun hn => absurd ht hn⟩

/-- A turn of `recv_loop` that has nothing to read. -/
theorem Follows.recv_turn (h : Follows e₀ s log) (hs : s.recvStep bound data = some (ev, s'))
    (hclosed : data = [] ∨ s.stopping = true) : Turn bound .recv s s' := by
  rcases recvStep_cases hs with ⟨req, reqs, hf, hroom, -, rfl⟩ | ⟨hf, hroom, -, rfl⟩ |
    ⟨n, recv, hf, hgo, hstop, hn, hr, -, rfl⟩ | ⟨hf, hend, -, rfl⟩
  · have hdone : s.recvDone = false := Bool.eq_false_of_not_eq_true (h.not_recvDone hf)
    refine .of_lower (rank_lt_of_requests ?_) ⟨hdone, .inr hroom⟩
    have hpush := @loopRank_push _ 4 _ _ s.matcher.pc.toPop_le s.qIn req
    simp only [requestsLeft, turnsLeft, hdone, hf, List.length_cons] at hpush ⊢
    omega
  · exact .idle fun hh => hh.2.elim hf hroom
  · have hdone : s.recvDone = false := Bool.eq_false_of_not_eq_true fun hd => by
      rcases (h.recvDone hd).2 with hend | hend
      · cases hgo.symm.trans hend
      · cases hstop.symm.trans hend
    rcases hclosed with rfl | hstop'
    · obtain ⟨n', recv', hn', hr', -, hnone⟩ := h.intake.step hgo []
      cases hn.symm.trans hn'
      cases hr.symm.trans hr'
      obtain ⟨hend, hq⟩ := hnone rfl
      refine .of_lower (rank_lt_of_requests ?_) ⟨hdone, .inl hf⟩
      simp [requestsLeft, turnsLeft, hdone, hf, hgo, hstop, hend, hq]
    · cases hstop.symm.trans hstop'
  · by_cases hdone : s.recvDone = true
    · have hsame : { s with recvDone := true } = s := by
        rw [← hdone]
      rw [hsame]
      exact .idle fun hh => absurd (hdone.symm.trans hh.1) (by decide)
    · have hdone := Bool.eq_false_of_not_eq_true hdone
      refine .of_lower (rank_lt_of_requests ?_) ⟨hdone, .inl hf⟩
      have hflag := @loopRank_done _ 4 s.matcher.pc.left s.matcher.pc.toPop false s.qIn
      have hgo : ¬ (s.recv.alive = true ∧ ¬ s.stopping = true) := by
        rcases hend with hend | hend <;> simp [hend]
      simp only [requestsLeft, turnsLeft, hdone, if_neg hgo, if_true, Bool.false_eq_true, if_false] at hflag ⊢
      omega

theorem not_blocked_response {r : Response} {pushes : List Push} (hp : s.matcher.state.pushes = .response r :: pushes)
    (hroom : s.qOut.length < bound) : ¬ s.Blocked bound := by
  rw [Blocked, hp]
  exact not_not_intro hroom

theorem not_blocked_message {m : MdMsg} {pushes : List Push} (hp : s.matcher.state.pushes = .message m :: pushes)
    (hroom : s.qMd.length < bound) : ¬ s.Blocked bound := by
  rw [Blocked, hp]
  exact not_not_intro hroom

theorem Blocked.pushes_ne_nil (h : s.Blocked bound) : s.matcher.state.pushes ≠ [] := fun e => by
  rw [Blocked, e] at h
  exact h

/-- A push: what it takes from the pushes to come is more than it adds to a
queue. A step of the loop leaves the pushes alone, or leaves fewer requests. -/
theorem Follows.handle_turn (h : Follows e₀ s log) (hs : s.handleStep bound ts = some (ev, s')) :
    Turn bound .matcher s s' := by
  rcases handleStep_cases hs with ⟨r, pushes, hp, hroom, -, rfl⟩ | ⟨m, pushes, hp, hroom, -, rfl⟩ | ⟨hb, -, rfl⟩ |
    ⟨hp, hpc, -, rfl⟩ | ⟨ev', stage, hp, hpc, hl, -, rfl⟩
  · have hne : s.matcher.state.pushes ≠ [] := by simp [hp]
    have hdone := Bool.eq_false_of_not_eq_true (h.not_matchDone hne)
    refine .of_lower (rank_lt_of_pushes rfl ?_) ?_
    · have hpush := @loopRank_push _ 7 _ _ s.sender.pc.toPop_le s.qOut r
      simp only [pushesLeft, hdone, hp, List.length_cons, Bool.false_eq_true, if_false] at hpush ⊢
      omega
    · rw [Helps, if_neg hne]
      exact not_blocked_response hp hroom
  · have hne : s.matcher.state.pushes ≠ [] := by simp [hp]
    have hdone := Bool.eq_false_of_not_eq_true (h.not_matchDone hne)
    refine .of_lower (rank_lt_of_pushes rfl ?_) ?_
    · have hpush := @loopRank_push _ 4 _ _ s.md.pc.toPop_le s.qMd m
      simp only [pushesLeft, hdone, hp, List.length_cons, Bool.false_eq_true, if_false] at hpush ⊢
      omega
    · rw [Helps, if_neg hne]
      exact not_blocked_message hp hroom
  · refine .idle ?_
    rw [Helps, if_neg hb.pushes_ne_nil]
    exact not_not_intro hb
  · by_cases hdone : s.matchDone = true
    · have hsame : { s with matchDone := true } = s := by
        rw [← hdone]
      rw [hsame]
      refine .idle ?_
      rw [Helps, if_pos hp]
      exact fun hh => absurd (hdone.symm.trans hh.1) (by decide)
    · have hdone := Bool.eq_false_of_not_eq_true hdone
      refine .of_lower (rank_lt_of_pushes rfl ?_) ?_
      · have hsend := @loopRank_done _ 7 s.sender.pc.left s.sender.pc.toPop false s.qOut
        have hmd := @loopRank_done _ 4 s.md.pc.left s.md.pc.toPop false s.qMd
        simp only [pushesLeft, hdone, if_true, Bool.false_eq_true, if_false] at hsend hmd ⊢
        omega
      · rw [Helps, if_pos hp]
        exact ⟨hdone, .inl hpc⟩
  · have hdone : s.matchDone = false := Bool.eq_false_of_not_eq_true fun hd => hpc (h.matchDone hd)
    obtain ⟨hlower, hsame⟩ := Drain.rank_step hl h.matcher
    have hhelps : Helps bound s .matcher ↔ ¬ Idle s.matcher.pc.left s.recvDone s.qIn := by
      rw [Helps, if_pos hp]
      exact ⟨fun hh => hh.2.resolve_left hpc, fun hh => ⟨hdone, .inr hh⟩⟩
    refine ⟨fun hh => rank_lt_of_requests ?_, fun hh => ?_⟩
    · exact Nat.add_lt_add_left (hlower (hhelps.mp hh)) _
    · obtain ⟨hq, hstate, hrank⟩ := hsame (not_not.mp fun hi => hh (hhelps.mpr hi))
      refine ⟨rank_eq (congrArg (_ + ·) hrank) ?_, fun u hu => ?_⟩
      · simp only [pushesLeft, hstate]
      · cases u with
        | recv =>
          refine ⟨hu.1, hu.2.imp_right fun hroom => ?_⟩
          rw [hq]
          exact hroom
        | matcher => exact absurd hu hh
        | sender => exact hu
        | md => exact hu

theorem Follows.send_turn (h : Follows e₀ s log) (hs : s.sendStep sent = some (ev, s')) : Turn bound .sender s s' := by
  obtain ⟨ev', stage, hl, -, rfl⟩ := sendStep_cases hs
  obtain ⟨hlower, hsame⟩ := SendLoop.rank_step hl h.sender
  refine ⟨fun hh => rank_lt_of_pushes rfl ?_, fun hh => ?_⟩
  · have hlt := hlower hh
    simp only [pushesLeft] at hlt ⊢
    omega
  · obtain ⟨hq, hrank⟩ := hsame (not_not.mp hh)
    refine ⟨rank_eq rfl ?_, fun u hu => ?_⟩
    · simp only [pushesLeft] at hrank ⊢
      omega
    · cases u with
      | recv => exact hu
      | matcher =>
        rw [Helps, Blocked] at hu ⊢
        simp only [hq]
        exact hu
      | sender => exact absurd hu hh
      | md => exact hu

theorem Follows.md_turn (h : Follows e₀ s log) (hs : s.mdStep = some (ev, s')) : Turn bound .md s s' := by
  obtain ⟨ev', stage, hl, -, rfl⟩ := mdStep_cases hs
  obtain ⟨hlower, hsame⟩ := Drain.rank_step hl h.md
  refine ⟨fun hh => rank_lt_of_pushes rfl ?_, fun hh => ?_⟩
  · have hlt := hlower hh
    simp only [pushesLeft] at hlt ⊢
    omega
  · obtain ⟨hq, -, hrank⟩ := hsame (not_not.mp hh)
    refine ⟨rank_eq rfl ?_, fun u hu => ?_⟩
    · simp only [pushesLeft] at hrank ⊢
      omega
    · cases u with
      | recv => exact hu
      | matcher =>
        rw [Helps, Blocked] at hu ⊢
        simp only [hq]
        exact hu
      | sender => exact hu
      | md => exact absurd hu hh

/-- Until all threads have ended, a step of one of them leaves less to do. -/
theorem Follows.exists_helps (h : Follows e₀ s log) (hbound : 0 < bound) (hend : ¬ s.Ended) :
    ∃ t, Helps bound s t := by
  by_contra hno
  rw [not_exists] at hno
  -- a loop that is idle and has heard the flag has ended
  have hidle : ∀ {T : Type} {left : Nat} {done : Bool} {queue : List T}, ¬ ¬ Idle left done queue → done = true → left = 0 :=
    fun hi hd => (not_not.mp hi).2.elim (fun hl => absurd (hd.symm.trans hl.1) (by decide)) id
  have hsend := hno .sender
  have hmd := hno .md
  have hmatch := hno .matcher
  have hrecv := hno .recv
  have hmatchDone : s.matchDone = true := by
    by_contra hdone
    have hdone := Bool.eq_false_of_not_eq_true hdone
    rw [Helps] at hmatch
    by_cases hp : s.matcher.state.pushes = []
    · rw [if_pos hp] at hmatch
      have hpc : s.matcher.pc ≠ .exited := fun e => hmatch ⟨hdone, .inl e⟩
      have hi : Idle s.matcher.pc.left s.recvDone s.qIn := not_not.mp fun hi => hmatch ⟨hdone, .inr hi⟩
      have hleft : s.matcher.pc.left ≠ 0 := fun e => hpc (DrainPc.left_eq_zero.mp e)
      refine hrecv ⟨(hi.2.resolve_right hleft).1, .inr ?_⟩
      rw [hi.1]
      exact hbound
    · rw [if_neg hp] at hmatch
      have hb := not_not.mp hmatch
      rw [Blocked] at hb
      -- the queue is full, so that its loop has something to pop
      cases hpushes : s.matcher.state.pushes with
      | nil => exact hp hpushes
      | cons push pushes =>
        rw [hpushes] at hb
        cases push with
        | response r =>
          have hq := (not_not.mp hsend).1
          rw [hq] at hb
          exact hb hbound
        | message m =>
          have hq := (not_not.mp hmd).1
          rw [hq] at hb
          exact hb hbound
  have hpc := h.matchDone hmatchDone
  refine hend ⟨h.matcher.knows (.inr hpc), hmatchDone, ?_, ?_⟩
  · exact SendPc.left_eq_zero.mp (hidle hsend hmatchDone)
  · exact DrainPc.left_eq_zero.mp (hidle hmd hmatchDone)

/-! ## Whole schedules -/

/-- `stop()` leaves no more to do. -/
theorem rank_stopping (s : Server) : ({ s with stopping := true } : Server).rank ≤ s.rank := by
  have hturns : ({ s with stopping := true } : Server).turnsLeft ≤ s.turnsLeft := by
    unfold turnsLeft
    show (if s.recvDone = true then 0 else if s.recv.alive = true ∧ ¬ true = true then 2 else 1) ≤ _
    split
    · exact Nat.le_refl 0
    · rw [if_neg fun hgo => hgo.2 rfl]
      split <;> decide
  have hpushes : ({ s with stopping := true } : Server).pushesLeft = s.pushesLeft := rfl
  rcases Nat.lt_or_eq_of_le hturns with hlt | heq
  · refine (rank_lt_of_requests ?_).le
    simp only [requestsLeft] at hlt ⊢
    omega
  · refine (rank_eq ?_ hpushes).le
    simp only [requestsLeft] at heq ⊢
    omega

theorem step_stopping (hs : s.step bound op = some (ev, s')) (hstop : s.stopping = true) : s'.stopping = true := by
  cases op with
  | stop =>
    cases hs
    rfl
  | recv data =>
    rcases recvStep_cases hs with ⟨_, _, _, _, _, rfl⟩ | ⟨_, _, _, rfl⟩ | ⟨_, _, _, _, _, _, _, _, rfl⟩ | ⟨_, _, _, rfl⟩
    · exact hstop
    · exact hstop
    · exact hstop
    · exact hstop
  | handle ts =>
    rcases handleStep_cases hs with ⟨_, _, _, _, _, rfl⟩ | ⟨_, _, _, _, _, rfl⟩ | ⟨_, _, rfl⟩ | ⟨_, _, _, rfl⟩ |
      ⟨_, _, _, _, _, _, rfl⟩
    · exact hstop
    · exact hstop
    · exact hstop
    · exact hstop
    · exact hstop
  | send sent =>
    obtain ⟨_, _, _, _, rfl⟩ := sendStep_cases hs
    exact hstop
  | md =>
    obtain ⟨_, _, _, _, rfl⟩ := mdStep_cases hs
    exact hstop

/-- Once there is nothing more to read, every step of the server is one of a
schedule that ends. -/
theorem Follows.advances (h : Follows e₀ s log) (hs : s.step bound op = some (ev, s'))
    (hclosed : ∀ data, op = .recv data → data = [] ∨ s.stopping = true) : s'.rank < s.rank ∨
      s'.rank = s.rank ∧ (∀ t, Helps bound s t → Helps bound s' t) ∧ ∀ t, op.thread? = some t → ¬ Helps bound s t := by
  have of_turn : ∀ {t : ServerThread}, op.thread? = some t → Turn bound t s s' → s'.rank < s.rank ∨
      s'.rank = s.rank ∧ (∀ t, Helps bound s t → Helps bound s' t) ∧ ∀ t, op.thread? = some t → ¬ Helps bound s t := by
    intro t ht hturn
    by_cases hh : Helps bound s t
    · exact .inl (hturn.lower hh)
    · obtain ⟨hrank, hmore⟩ := hturn.same hh
      refine .inr ⟨hrank, hmore, fun u hu => ?_⟩
      cases ht.symm.trans hu
      exact hh
  cases op with
  | stop =>
    cases hs
    rcases (rank_stopping s).lt_or_eq with hlt | heq
    · exact .inl hlt
    · refine .inr ⟨heq, fun t ht => ?_, fun t ht => absurd ht (by simp [ServerOp.thread?])⟩
      cases t <;> exact ht
  | recv data => exact of_turn rfl (h.recv_turn hs (hclosed data rfl))
  | handle ts => exact of_turn rfl (h.handle_turn hs)
  | send sent => exact of_turn rfl (h.send_turn hs)
  | md => exact of_turn rfl (h.md_turn hs)

/-- Every thread goes on taking steps. -/
def FairOps (ops : ℕ → ServerOp) : Prop := Fairness.Fair fun n t => (ops n).thread? = some t

/-- From some step on there is nothing to read any more, or the server is
stopped. -/
def Closing (ops : ℕ → ServerOp) : Prop :=
  ∃ n, (∀ m, n ≤ m → ∀ data, ops m = .recv data → data = []) ∨ ops n = .stop

/-- Once the client has closed the connection, or the server is stopped, all
four threads end, if none of them stops taking steps. -/
theorem session_ends {bound : Nat} (hbound : 0 < bound) {symbol : Symbol} {mdPort : UInt16} {e₀ : Engine}
    (h₀ : Engine.new symbol mdPort = some e₀) (buf : RecvBuffer) {ops : ℕ → ServerOp} (hfair : FairOps ops)
    (hclosing : Closing ops)
    (hfew : ∀ n, Runs.Along (step bound) (fun s => s.engine.book.Few) (start buf e₀) (Runs.first ops n)) :
    ∃ n s, Runs.run (step bound) (start buf e₀) (Runs.first ops n) = some s ∧ s.Ended := by
  obtain ⟨e₁, he₁, -, -, ho⟩ := Engine.Orders.new symbol mdPort
  cases h₀.symm.trans he₁
  have hreach : ∀ n, ∃ s, Runs.run (step bound) (start buf e₀) (Runs.first ops n) = some s ∧
      ∃ log, Follows e₀ s log := fun n => by
    obtain ⟨evs, s, he, h, -⟩ := exec_follows bound (.start buf ho) ⟨.slnil, .slnil, .slnil⟩ _ (hfew n)
    exact ⟨s, he.run, _, h⟩
  obtain ⟨st, hst⟩ := Runs.exists_states hreach
  -- after `N` steps there is nothing more to read
  have hquiet : ∃ N, ∀ n, N ≤ n → ∀ data, ops n = .recv data → data = [] ∨ (st n).stopping = true := by
    obtain ⟨n, hread | hstop⟩ := hclosing
    · exact ⟨n, fun m hm data hop => .inl (hread m hm data hop)⟩
    · have hstopping : ∀ k, (st (n + 1 + k)).stopping = true := fun k => by
        induction k with
        | zero =>
          obtain ⟨-, -, ev, hs⟩ := hst n
          rw [hstop] at hs
          rw [Nat.add_zero, ← (Prod.mk.inj (Option.some.inj hs)).2]
        | succ k ih =>
          obtain ⟨-, -, ev, hs⟩ := hst (n + 1 + k)
          exact step_stopping hs ih
      refine ⟨n + 1, fun m hm data _ => .inr ?_⟩
      obtain ⟨k, rfl⟩ := Nat.exists_eq_add_of_le hm
      exact hstopping k
  obtain ⟨N, hquiet⟩ := hquiet
  have hhelps : ∀ n, ¬ (st (N + n)).Ended → ∃ t, Helps bound (st (N + n)) t := fun n hno => by
    obtain ⟨-, ⟨log, h⟩, -⟩ := hst (N + n)
    exact h.exists_helps hbound hno
  have hadvances : ∀ n, ¬ (st (N + n)).Ended →
      Fairness.Advances rank (Helps bound) (fun n t => (ops n).thread? = some t) st (N + n) := fun n _ => by
    obtain ⟨-, ⟨log, h⟩, ev, hs⟩ := hst (N + n)
    exact h.advances hs (hquiet (N + n) (Nat.le_add_right N n))
  obtain ⟨n, hend⟩ := Fairness.exists_final (hfair.shift N) hhelps hadvances
  exact ⟨N + n, st (N + n), (hst (N + n)).1, hend⟩

/-- A client that sends two orders, which trade, and closes the connection; the
threads take turns. -/
def twoOrders : ℕ → ServerOp
  | 0 => .recv (sellFive.encode ++ buyEight.encode)
  | n + 1 =>
    match n % 4 with
    | 0 => .handle 7
    | 1 => .send true
    | 2 => .md
    | _ => .recv []

theorem twoOrders_fair : FairOps twoOrders := by
  intro t n
  cases t with
  | matcher =>
    refine ⟨4 * n + 1, by omega, ?_⟩
    show (twoOrders (4 * n + 1)).thread? = some .matcher
    rw [twoOrders, show 4 * n % 4 = 0 by omega]
    rfl
  | sender =>
    refine ⟨4 * n + 1 + 1, by omega, ?_⟩
    show (twoOrders (4 * n + 1 + 1)).thread? = some .sender
    rw [twoOrders, show (4 * n + 1) % 4 = 1 by omega]
    rfl
  | md =>
    refine ⟨4 * n + 2 + 1, by omega, ?_⟩
    show (twoOrders (4 * n + 2 + 1)).thread? = some .md
    rw [twoOrders, show (4 * n + 2) % 4 = 2 by omega]
    rfl
  | recv =>
    refine ⟨4 * n + 3 + 1, by omega, ?_⟩
    show (twoOrders (4 * n + 3 + 1)).thread? = some .recv
    rw [twoOrders, show (4 * n + 3) % 4 = 3 by omega]
    rfl

theorem twoOrders_closed (n : ℕ) : twoOrders (n + 1) = .recv [] ∨ (twoOrders (n + 1)).offered = 0 := by
  rw [twoOrders]
  split
  · exact .inr rfl
  · exact .inr rfl
  · exact .inr rfl
  · exact .inl rfl

theorem twoOrders_closing : Closing twoOrders := by
  refine ⟨1, .inl fun m hm data hop => ?_⟩
  obtain ⟨n, rfl⟩ := Nat.exists_eq_add_of_le' hm
  rcases twoOrders_closed n with h | h
  · rw [h] at hop
    cases hop
    rfl
  · rw [hop] at h
    exact List.length_eq_zero_iff.mp h

theorem twoOrders_offered (n : ℕ) : ((Runs.first twoOrders n).map ServerOp.offered).sum ≤ 2 * kMessageSize := by
  match n with
  | 0 => exact Nat.zero_le _
  | n + 1 =>
    induction n with
    | zero => decide
    | succ n ih =>
      have hzero : (twoOrders (n + 1)).offered = 0 := (twoOrders_closed n).elim (fun h => h ▸ rfl) id
      rw [Runs.first_succ, List.map_append, List.sum_append, List.map_singleton, List.sum_singleton, hzero]
      exact ih

/-- All have ended in time, and 24 steps are enough for the orders to trade. -/
theorem session_ends_trade : Engine.new {} 1 = some (Engine.idle {} 1) ∧
    (∃ n s, Runs.run (step 1) (start .blank (Engine.idle {} 1)) (Runs.first twoOrders n) = some s ∧ s.Ended) ∧
    ∃ s, Runs.run (step 1) (start .blank (Engine.idle {} 1)) (Runs.first twoOrders 24) = some s ∧
      s.engine.book.counters.tradedQty = 5 := by
  obtain ⟨e₀, h₀, -, -, ho⟩ := Engine.Orders.new {} 1
  cases h₀.symm.trans (Engine.new_eq {} 1)
  have htraded : (Runs.run (step 1) (start .blank (Engine.idle {} 1)) (Runs.first twoOrders 24)).map
      (fun s => s.engine.book.counters.tradedQty) = some 5 := by decide +kernel
  refine ⟨h₀, ?_, Option.map_eq_some_iff.mp htraded⟩
  refine session_ends Nat.one_pos h₀ .blank twoOrders_fair twoOrders_closing fun n => ?_
  refine Kept.along_few 1 _ (.start .blank ho ?_)
  exact (twoOrders_offered n).trans_lt (by decide)

end Server

end Pricetime
