import Pricetime.Proof.ServerEnds

/-!
# Nothing need be lost

A loop that has heard the flag pops once more, and drops what that gets it; and
once a send has failed, the responses are dropped. While neither has happened,
the server can still end with nothing lost (`exists_lossless`): what is on the
way is passed on first (`Follows.exists_helps_calm`), and only then does
`recv_loop` set its flag.
-/

namespace Pricetime

open Wire (Request Response kMessageSize)
open Engine (sellFive buyEight)

theorem StageEvent.taken_eq_popped {T : Type} {ev : StageEvent T} (h : ∀ item, ev ≠ .dropped item) :
    ev.taken? = ev.popped? := by
  cases ev with
  | quiet => rfl
  | taken item => rfl
  | dropped item => exact absurd rfl (h item)

/-- No item is dropped. -/
def ServerEvent.Clean : ServerEvent → Prop
  | .quiet => True
  | .received _ => True
  | .request _ ev => ∀ item, ev ≠ .dropped item
  | .response ev => ∀ item, ev ≠ .dropped item
  | .message ev => ∀ item, ev ≠ .dropped item

theorem ServerLog.Lossless.add {l : ServerLog} (h : l.Lossless) {ev : ServerEvent} (hev : ev.Clean) :
    (l.add ev).Lossless := by
  cases ev with
  | quiet => exact h
  | received data => exact ⟨h.handled, h.encoded, h.packed⟩
  | request ts ev =>
    refine ⟨?_, h.encoded, h.packed⟩
    show (l.handled ++ ev.taken?.toList.map fun req => (ts, req)).map Prod.snd = l.requests ++ ev.popped?.toList
    rw [List.map_append, h.handled, List.map_map, StageEvent.taken_eq_popped hev]
    exact congrArg (l.requests ++ ·) (List.map_id _)
  | response ev =>
    refine ⟨h.handled, ?_, h.packed⟩
    show l.encoded ++ ev.taken?.toList = l.responses ++ ev.popped?.toList
    rw [h.encoded, StageEvent.taken_eq_popped hev]
  | message ev =>
    refine ⟨h.handled, h.encoded, ?_⟩
    show l.packed ++ ev.taken?.toList = l.messages ++ ev.popped?.toList
    rw [h.packed, StageEvent.taken_eq_popped hev]

/-- A step of a thread, with nothing new to read. -/
def ServerThread.op : ServerThread → ServerOp
  | .recv => .recv []
  | .matcher => .handle 0
  | .sender => .send true
  | .md => .md

theorem ServerThread.offered_op (t : ServerThread) : t.op.offered = 0 := by
  cases t <;> rfl

namespace Server

/-- `recv_loop` has not set its flag, and no send has failed. -/
structure Calm (s : Server) : Prop where
  recvDone : s.recvDone = false
  sender : s.sender.pc ≠ .discard

/-- Nothing is on the way. -/
structure Drained (s : Server) : Prop where
  fromRecv : s.fromRecv = []
  qIn : s.qIn = []
  pushes : s.matcher.state.pushes = []
  qOut : s.qOut = []
  qMd : s.qMd = []

variable {bound : Nat} {s s' : Server} {ev : ServerEvent} {t : ServerThread} {e₀ : Engine} {log : ServerLog}

namespace Follows

/-- No loop has heard the flag. -/
theorem calm_unaware (h : Follows e₀ s log) (hc : s.Calm) :
    s.matcher.pc ≠ .retest ∧ s.matchDone = false ∧ s.sender.pc ≠ .retest ∧ s.md.pc ≠ .retest := by
  have hrecv : s.recvDone ≠ true := by
    rw [hc.recvDone]
    decide
  have hmatch : s.matchDone ≠ true := fun hd => hrecv (h.matcher.knows (.inr (h.matchDone hd)))
  exact ⟨fun hpc => hrecv (h.matcher.knows (.inl hpc)), Bool.eq_false_of_not_eq_true hmatch,
    fun hpc => hmatch (h.sender.knows (.inl hpc)), fun hpc => hmatch (h.md.knows (.inl hpc))⟩

theorem turn (h : Follows e₀ s log) (hs : s.step bound t.op = some (ev, s')) : Turn bound t s s' := by
  cases t with
  | recv => exact h.recv_turn hs (.inl rfl)
  | matcher => exact h.handle_turn hs
  | sender => exact h.send_turn hs
  | md => exact h.md_turn hs

theorem clean_step (h : Follows e₀ s log) (hc : s.Calm ∨ s.Drained) (hs : s.step bound t.op = some (ev, s')) :
    ev.Clean := by
  cases t with
  | recv =>
    rcases recvStep_cases hs with ⟨_, _, _, _, rfl, _⟩ | ⟨_, _, rfl, _⟩ | ⟨_, _, _, _, _, _, _, rfl, _⟩ | ⟨_, _, rfl, _⟩
    · trivial
    · trivial
    · trivial
    · trivial
  | matcher =>
    rcases handleStep_cases hs with ⟨_, _, _, _, rfl, _⟩ | ⟨_, _, _, _, rfl, _⟩ | ⟨_, rfl, _⟩ | ⟨_, _, rfl, _⟩ |
      ⟨ev', stage, _, _, hl, rfl, _⟩
    · trivial
    · trivial
    · trivial
    · trivial
    · intro item hdrop
      obtain ⟨hpc, hq⟩ := (Drain.moves hl).dropped_iff.mp ⟨item, hdrop⟩
      exact hc.elim (fun hc => (h.calm_unaware hc).1 hpc) fun hd => hq hd.qIn
  | sender =>
    obtain ⟨ev', stage, hl, rfl, -⟩ := sendStep_cases hs
    intro item hdrop
    obtain ⟨hpc, hq⟩ := (SendLoop.moves hl).dropped_iff.mp ⟨item, hdrop⟩
    exact hc.elim (fun hc => hpc.elim (h.calm_unaware hc).2.2.1 hc.sender) fun hd => hq hd.qOut
  | md =>
    obtain ⟨ev', stage, hl, rfl, -⟩ := mdStep_cases hs
    intro item hdrop
    obtain ⟨hpc, hq⟩ := (Drain.moves hl).dropped_iff.mp ⟨item, hdrop⟩
    exact hc.elim (fun hc => (h.calm_unaware hc).2.2.2 hpc) fun hd => hq hd.qMd

/-- All but a turn of `recv_loop` that finds nothing to push. -/
theorem calm_step (hc : s.Calm) (ht : t = .recv → s.fromRecv ≠ []) (hs : s.step bound t.op = some (ev, s')) :
    s'.Calm := by
  cases t with
  | recv =>
    rcases recvStep_cases hs with ⟨_, _, _, _, _, rfl⟩ | ⟨_, _, _, rfl⟩ | ⟨_, _, hf, _⟩ | ⟨hf, _⟩
    · exact ⟨hc.recvDone, hc.sender⟩
    · exact hc
    · exact absurd hf (ht rfl)
    · exact absurd hf (ht rfl)
  | matcher =>
    rcases handleStep_cases hs with ⟨_, _, _, _, _, rfl⟩ | ⟨_, _, _, _, _, rfl⟩ | ⟨_, _, rfl⟩ | ⟨_, _, _, rfl⟩ |
      ⟨_, _, _, _, _, _, rfl⟩
    · exact ⟨hc.recvDone, hc.sender⟩
    · exact ⟨hc.recvDone, hc.sender⟩
    · exact hc
    · exact ⟨hc.recvDone, hc.sender⟩
    · exact ⟨hc.recvDone, hc.sender⟩
  | sender =>
    obtain ⟨ev', stage, hl, -, rfl⟩ := sendStep_cases hs
    refine ⟨hc.recvDone, ?_⟩
    show stage.loop.pc ≠ .discard
    rcases SendLoop.loop_cases hl with ⟨_, _, _, rfl⟩ | ⟨_, _, _, _, _, rfl⟩ | ⟨_, _, rfl⟩ | ⟨_, _, _, rfl⟩ |
      ⟨_, _, hpc, _, _, rfl⟩ | ⟨_, _, rfl⟩ | ⟨_, _, _, _, _, rfl⟩ | ⟨_, _, rfl⟩ | ⟨_, _, _, rfl⟩ | ⟨_, _, rfl⟩
    · simp
    · simp
    · show (if s.matchDone then SendPc.retest else SendPc.pop) ≠ .discard
      split <;> decide
    · simp
    · have hretest : s.sender.pc = .retest := hpc.resolve_right hc.sender
      show (if s.sender.pc = .retest then SendPc.pop else SendPc.discard) ≠ .discard
      rw [if_pos hretest]
      decide
    · simp
    · simp
    · simp
    · simp
    · exact hc.sender
  | md =>
    obtain ⟨ev', stage, -, -, rfl⟩ := mdStep_cases hs
    exact ⟨hc.recvDone, hc.sender⟩

theorem drained_step (h : Follows e₀ s log) (hd : s.Drained) (hs : s.step bound t.op = some (ev, s')) : s'.Drained := by
  cases t with
  | recv =>
    rcases recvStep_cases hs with ⟨_, _, hf, _⟩ | ⟨hf, _⟩ | ⟨n, recv, hf, hgo, _, hn, hr, _, rfl⟩ | ⟨_, _, _, rfl⟩
    · exact absurd (hd.fromRecv.symm.trans hf) (by simp)
    · exact absurd hd.fromRecv hf
    · obtain ⟨n', recv', hn', hr', -, hnone⟩ := h.intake.step hgo []
      cases hn.symm.trans hn'
      cases hr.symm.trans hr'
      exact ⟨(hnone rfl).2, hd.qIn, hd.pushes, hd.qOut, hd.qMd⟩
    · exact ⟨hd.fromRecv, hd.qIn, hd.pushes, hd.qOut, hd.qMd⟩
  | matcher =>
    rcases handleStep_cases hs with ⟨_, _, hp, _⟩ | ⟨_, _, hp, _⟩ | ⟨hb, _⟩ | ⟨_, _, _, rfl⟩ |
      ⟨ev', stage, hp, _, hl, _, rfl⟩
    · exact absurd (hd.pushes.symm.trans hp) (by simp)
    · exact absurd (hd.pushes.symm.trans hp) (by simp)
    · exact absurd hd.pushes hb.pushes_ne_nil
    · exact ⟨hd.fromRecv, hd.qIn, hd.pushes, hd.qOut, hd.qMd⟩
    · have hnone : ∀ {req : Request} {queue : List Request}, s.qIn ≠ req :: queue := fun hq => by
        cases hd.qIn.symm.trans hq
      rcases Drain.loop_cases hl with ⟨_, _, _, rfl⟩ | ⟨_, _, _, _, hq, _⟩ | ⟨_, _, rfl⟩ | ⟨_, _, _, hf, _, rfl⟩ |
        ⟨_, _, _, hq, _⟩ | ⟨_, _, rfl⟩
      · exact ⟨hd.fromRecv, hd.qIn, hp, hd.qOut, hd.qMd⟩
      · exact absurd hq hnone
      · exact ⟨hd.fromRecv, hd.qIn, hp, hd.qOut, hd.qMd⟩
      · cases hf
        exact ⟨hd.fromRecv, hd.qIn, hp, hd.qOut, hd.qMd⟩
      · exact absurd hq hnone
      · exact ⟨hd.fromRecv, hd.qIn, hp, hd.qOut, hd.qMd⟩
  | sender =>
    obtain ⟨ev', stage, hl, -, rfl⟩ := sendStep_cases hs
    have hpops := (SendLoop.moves hl).pops
    rw [show s.qOut = _ from hd.qOut] at hpops
    exact ⟨hd.fromRecv, hd.qIn, hd.pushes, (List.append_eq_nil_iff.mp hpops.symm).2, hd.qMd⟩
  | md =>
    obtain ⟨ev', stage, hl, -, rfl⟩ := mdStep_cases hs
    have hpops := (Drain.moves hl).pops
    rw [show s.qMd = _ from hd.qMd] at hpops
    exact ⟨hd.fromRecv, hd.qIn, hd.pushes, hd.qOut, (List.append_eq_nil_iff.mp hpops.symm).2⟩

/-- What is on the way can be passed on before the flag is set. -/
theorem exists_helps_calm (h : Follows e₀ s log) (hbound : 0 < bound) (hc : s.Calm) (hd : ¬ s.Drained) :
    ∃ t, Helps bound s t ∧ (t = .recv → s.fromRecv ≠ []) := by
  have hout : s.qOut ≠ [] → ∃ t, Helps bound s t ∧ (t = .recv → s.fromRecv ≠ []) := fun hq =>
    ⟨.sender, fun hi => hq hi.1, fun e => by cases e⟩
  have hmd : s.qMd ≠ [] → ∃ t, Helps bound s t ∧ (t = .recv → s.fromRecv ≠ []) := fun hq =>
    ⟨.md, fun hi => hq hi.1, fun e => by cases e⟩
  by_cases hp : s.matcher.state.pushes = []
  · by_cases hq : s.qIn = []
    · by_cases hf : s.fromRecv = []
      · by_cases ho : s.qOut = []
        · exact hmd fun hm => hd ⟨hf, hq, hp, ho, hm⟩
        · exact hout ho
      · refine ⟨.recv, ⟨hc.recvDone, .inr ?_⟩, fun _ => hf⟩
        rw [hq]
        exact hbound
    · refine ⟨.matcher, ?_, fun e => by cases e⟩
      rw [Helps, if_pos hp]
      exact ⟨(h.calm_unaware hc).2.1, .inr fun hi => hq hi.1⟩
  · by_cases hb : s.Blocked bound
    · -- a full queue has something to pop
      rw [Blocked] at hb
      cases hpushes : s.matcher.state.pushes with
      | nil => exact absurd hpushes hp
      | cons push pushes =>
        rw [hpushes] at hb
        cases push with
        | response r =>
          refine hout fun hq => ?_
          rw [hq] at hb
          exact hb hbound
        | message m =>
          refine hmd fun hq => ?_
          rw [hq] at hb
          exact hb hbound
    · refine ⟨.matcher, ?_, fun e => by cases e⟩
      rw [Helps, if_neg hp]
      exact hb

end Follows

/-- A state of a session in which nothing has been lost, nor need be. -/
structure Whole (e₀ : Engine) (s : Server) (log : ServerLog) : Prop where
  kept : Kept e₀ s log 0
  lossless : log.Lossless
  calm : s.Calm ∨ s.Drained

namespace Whole

/-- Until all threads have ended, a step of one of them loses nothing. -/
theorem exists_step (h : Whole e₀ s log) (hbound : 0 < bound) (hend : ¬ s.Ended) :
    ∃ (t : ServerThread) (ev : ServerEvent) (s' : Server), s.step bound t.op = some (ev, s') ∧
      Whole e₀ s' (log.add ev) ∧ s'.rank < s.rank := by
  have hf := h.kept.follows
  obtain ⟨t, hhelps, hcalm⟩ : ∃ t, Helps bound s t ∧ ∀ {ev s'}, s.step bound (ServerThread.op t) = some (ev, s') →
      s'.Calm ∨ s'.Drained := by
    by_cases hd : s.Drained
    · obtain ⟨t, ht⟩ := hf.exists_helps hbound hend
      exact ⟨t, ht, fun hs => .inr (hf.drained_step hd hs)⟩
    · obtain ⟨t, ht, hpush⟩ := hf.exists_helps_calm hbound (h.calm.resolve_right hd) hd
      exact ⟨t, ht, fun hs => .inl (Follows.calm_step (h.calm.resolve_right hd) hpush hs)⟩
  obtain ⟨ev, s', hs⟩ := hf.goes h.kept.book_few bound t.op
  have hkept : Kept e₀ s log (t.op.offered + 0) := by
    rw [t.offered_op]
    exact h.kept
  exact ⟨t, ev, s', hs, ⟨hkept.step hs, h.lossless.add (hf.clean_step h.calm hs), hcalm hs⟩, (hf.turn hs).lower hhelps⟩

theorem exists_end (hbound : 0 < bound) : ∀ {s : Server} {log : ServerLog}, Whole e₀ s log →
    ∃ ops evs s', Runs.Exec (Server.step bound) s ops evs s' ∧ s'.Ended ∧ Whole e₀ s' (evs.foldl ServerLog.add log) ∧
      ∀ op ∈ ops, op.offered = 0 := by
  intro s
  induction hr : s.rank using WellFoundedLT.induction generalizing s with
  | ind w ih =>
    intro log h
    by_cases hend : s.Ended
    · exact ⟨[], [], s, .nil s, hend, h, fun op hop => absurd hop List.not_mem_nil⟩
    · obtain ⟨t, ev, s₁, hs, h₁, hlt⟩ := h.exists_step hbound hend
      obtain ⟨ops, evs, s', he, hend', h', hops⟩ := ih s₁.rank (hr ▸ hlt) rfl h₁
      refine ⟨t.op :: ops, ev :: evs, s', .cons hs he, hend', h', fun op hop => ?_⟩
      rcases List.mem_cons.mp hop with rfl | hop
      · exact t.offered_op
      · exact hops op hop

end Whole

/-- From any state of a session in which `recv_loop` goes on, no send has failed
and nothing has been lost, it can end with nothing lost. -/
theorem exists_lossless {bound : Nat} (hbound : 0 < bound) {symbol : Symbol} {mdPort : UInt16} {e₀ : Engine}
    (h₀ : Engine.new symbol mdPort = some e₀) (buf : RecvBuffer) {ops : List ServerOp} {evs : List ServerEvent}
    {s : Server} (he : Runs.Exec (step bound) (start buf e₀) ops evs s)
    (hbytes : (ops.map ServerOp.offered).sum < kMessageSize * 2 ^ 32) (hcalm : s.Calm)
    (hloss : (ServerLog.of evs).Lossless) :
    ∃ ops' evs' s', Runs.Exec (step bound) s ops' evs' s' ∧ s'.Ended ∧ (ServerLog.of (evs ++ evs')).Lossless ∧
      ∀ op ∈ ops', op.offered = 0 := by
  obtain ⟨e₁, he₁, -, -, ho⟩ := Engine.Orders.new symbol mdPort
  cases h₀.symm.trans he₁
  have hwhole : Whole e₀ s (ServerLog.of evs) := ⟨(Kept.start buf ho hbytes).exec he, hloss, .inl hcalm⟩
  obtain ⟨ops', evs', s', he', hend, h', hops⟩ := hwhole.exists_end hbound
  refine ⟨ops', evs', s', he', hend, ?_, hops⟩
  rw [ServerLog.of, List.foldl_append]
  exact h'.lossless

/-- One of two orders that trade is being answered, and the other is still to be
pushed. -/
theorem exists_lossless_trade : ∃ (evs evs' : List ServerEvent) (s s' : Server) (ops : List ServerOp),
    Engine.new {} 1 = some (Engine.idle {} 1) ∧
    Runs.Exec (step 1) (start .blank (Engine.idle {} 1))
      [.recv (sellFive.encode ++ buyEight.encode), .recv [], .handle 7, .handle 7] evs s ∧
    s.fromRecv = [buyEight] ∧ s.matcher.state.pushes.length = 1 ∧ s.qOut.length = 1 ∧
    Runs.Exec (step 1) s ops evs' s' ∧ s'.Ended ∧ (ServerLog.of (evs ++ evs')).Lossless := by
  have hway : (Runs.run (step 1) (start .blank (Engine.idle {} 1))
      [.recv (sellFive.encode ++ buyEight.encode), .recv [], .handle 7, .handle 7]).map (fun s =>
        (s.recvDone, s.sender.pc, s.fromRecv, s.matcher.state.pushes.length, s.qOut.length)) =
      some (false, .pop, [buyEight], 1, 1) := by decide +kernel
  have hlog : (Runs.trace (step 1) (start .blank (Engine.idle {} 1))
      [.recv (sellFive.encode ++ buyEight.encode), .recv [], .handle 7, .handle 7]).map (fun evs =>
        decide (ServerLog.of evs).Lossless) = some true := by decide +kernel
  obtain ⟨evs, s, he, hway, hlog⟩ := exec_of_eval hway hlog
  simp only [Prod.mk.injEq, decide_eq_true_eq] at hway hlog
  obtain ⟨hdone, hpc, hrest, hpushes, hout⟩ := hway
  obtain ⟨ops, evs', s', he', hend, hloss, -⟩ := exists_lossless Nat.one_pos (Engine.new_eq {} 1) .blank he
    (by decide +kernel) ⟨hdone, by simp [hpc]⟩ hlog
  exact ⟨evs, evs', s, s', ops, Engine.new_eq {} 1, he, hrest, hpushes, hout, he', hend, hloss⟩

end Server

end Pricetime
