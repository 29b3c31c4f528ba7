import Pricetime.Impl.Stages
import Pricetime.Proof.Framework.Runs
import Pricetime.Proof.MdLoop

/-!
# What a shutdown loses

A loop that drains a queue pops its items in order, and takes or drops each.
It leaves after it has seen the flag, when there is nothing to pop
(`Moves`). The flag is set after the last push, so that all that was
pushed is popped by then (`DrainModel.popped_all`), and all of it is taken if
and only if no step drops an item (`DrainModel.taken_all`).

All three loops drop an item where the second `try_pop`, which is there to see
the queue empty, gets one: pushed between the first and the load of the flag.
-/

namespace Pricetime

namespace StageEvent

variable {T : Type}

def popped? : StageEvent T → Option T
  | .quiet => none
  | .taken item => some item
  | .dropped item => some item

def taken? : StageEvent T → Option T
  | .taken item => some item
  | _ => none

end StageEvent

namespace Stage

section Events

variable {T : Type}

/-- The items that the loop popped. -/
def popped (evs : List (StageEvent T)) : List T := evs.filterMap StageEvent.popped?

/-- The items that the loop did its work for. -/
def taken (evs : List (StageEvent T)) : List T := evs.filterMap StageEvent.taken?

theorem taken_cons (ev : StageEvent T) (evs : List (StageEvent T)) :
    taken (ev :: evs) = ev.taken?.toList ++ taken evs := by
  cases ev <;> rfl

theorem length_taken (evs : List (StageEvent T)) : (taken evs).length ≤ (popped evs).length := by
  induction evs with
  | nil => exact Nat.le_refl 0
  | cons ev evs ih =>
    cases ev with
    | quiet => exact ih
    | taken item => exact Nat.succ_le_succ ih
    | dropped item => exact Nat.le_succ_of_le ih

theorem taken_eq_popped_iff (evs : List (StageEvent T)) :
    taken evs = popped evs ↔ ∀ item, StageEvent.dropped item ∉ evs := by
  induction evs with
  | nil => exact ⟨fun _ _ => List.not_mem_nil, fun _ => rfl⟩
  | cons ev evs ih =>
    simp only [List.mem_cons, not_or, forall_and]
    cases ev with
    | quiet => exact ih.trans ⟨fun h => ⟨nofun, h⟩, And.right⟩
    | taken item =>
      show item :: taken evs = item :: popped evs ↔ _
      rw [List.cons.injEq]
      exact ⟨fun h => ⟨nofun, ih.mp h.2⟩, fun h => ⟨rfl, ih.mpr h.2⟩⟩
    | dropped item =>
      constructor
      · intro h
        have hlen := length_taken evs
        have heq : (taken evs).length = (popped evs).length + 1 := congrArg List.length h
        omega
      · intro h
        exact absurd rfl (h.1 item)

end Events

variable {T L : Type} {bound : Nat} {loop : Bool → Stage T L → Option (StageEvent T × Stage T L)}
  {s s' : Stage T L} {items : List T} {l : L} {ev : StageEvent T} {evs : List (StageEvent T)} {op : StageOp}
  {ops : List StageOp}

/-- Nothing is pushed yet. -/
def start (items : List T) (l : L) : Stage T L := { pending := items, loop := l }

/-- What the loop has still to pop. -/
def left (s : Stage T L) : List T := s.queue ++ s.pending

theorem left_upstream (bound : Nat) (s : Stage T L) : (s.upstream bound).left = s.left := by
  rw [upstream]
  cases hp : s.pending with
  | nil =>
    show s.queue ++ [] = s.queue ++ s.pending
    rw [hp]
  | cons item pending =>
    dsimp only
    split
    · show s.queue ++ [item] ++ pending = s.queue ++ s.pending
      rw [hp, List.append_assoc, List.singleton_append]
    · rfl

theorem upstream_loop (bound : Nat) (s : Stage T L) : (s.upstream bound).loop = s.loop := by
  rw [upstream]
  split
  · rfl
  · split <;> rfl

/-- The step is one of the loop, from a state in `drops`. -/
def Drops (drops : Stage T L → Prop) (s : Stage T L) : StageOp → Prop
  | .upstream => False
  | .downstream _ => drops s

/-- What is needed of a step of a loop: it pops in order, `knows` of the flag
only from a load of it, leaves only when it knows and pops nothing, and drops
an item just in the states `drops`. -/
structure Moves (knows exited : L → Prop) (drops : Stage T L → Prop) (s : Stage T L) (ev : StageEvent T)
    (s' : Stage T L) : Prop where
  pending : s'.pending = s.pending
  done : s'.done = s.done
  pops : s.queue = ev.popped?.toList ++ s'.queue
  learns : knows s'.loop → knows s.loop ∨ s.done = true
  leaves : exited s'.loop → exited s.loop ∨ knows s.loop ∧ s.queue = []
  dropped_iff : (∃ item, ev = .dropped item) ↔ drops s

structure DrainModel (loop : Bool → Stage T L → Option (StageEvent T × Stage T L)) where
  knows : L → Prop
  exited : L → Prop
  drops : Stage T L → Prop
  moves {sent : Bool} {s s' : Stage T L} {ev : StageEvent T} :
    loop sent s = some (ev, s') → Moves knows exited drops s ev s'

namespace DrainModel

/-- The flag is set after the last push, and known or acted on only once it is
set. -/
structure Inv (d : DrainModel loop) (s : Stage T L) : Prop where
  done : s.done = true → s.pending = []
  knows : d.knows s.loop → s.done = true
  exited : d.exited s.loop → s.done = true ∧ s.queue = []

variable {d : DrainModel loop}

theorem Inv.upstream (h : d.Inv s) (bound : Nat) : d.Inv (s.upstream bound) := by
  rw [Stage.upstream]
  cases hp : s.pending with
  | nil => exact ⟨fun _ => rfl, fun _ => rfl, fun hx => ⟨rfl, (h.exited hx).2⟩⟩
  | cons item pending =>
    -- the flag is not set yet
    have hdone : s.done ≠ true := fun hd => by
      cases hp.symm.trans (h.done hd)
    dsimp only
    split
    · exact ⟨fun hd => absurd hd hdone, h.knows, fun hx => absurd (h.exited hx).1 hdone⟩
    · exact h

theorem Inv.step (h : d.Inv s) (hs : step bound loop s op = some (ev, s')) : d.Inv s' := by
  cases op with
  | upstream =>
    cases hs
    exact h.upstream bound
  | downstream sent =>
    have hm := d.moves hs
    have hpops := hm.pops
    refine ⟨fun hd => ?_, fun hk => ?_, fun hx => ?_⟩
    · rw [hm.pending]
      exact h.done (hm.done ▸ hd)
    · rw [hm.done]
      exact (hm.learns hk).elim h.knows fun hd => hd
    · rw [hm.done]
      rcases hm.leaves hx with hx | ⟨hk, hq⟩
      · obtain ⟨hd, hq⟩ := h.exited hx
        rw [hq] at hpops
        exact ⟨hd, (List.append_eq_nil_iff.mp hpops.symm).2⟩
      · rw [hq] at hpops
        exact ⟨h.knows hk, (List.append_eq_nil_iff.mp hpops.symm).2⟩

theorem left_step (d : DrainModel loop) (hs : step bound loop s op = some (ev, s')) :
    s.left = ev.popped?.toList ++ s'.left := by
  cases op with
  | upstream =>
    cases hs
    exact (left_upstream bound s).symm
  | downstream sent =>
    have hm := d.moves hs
    rw [left, hm.pops, ← hm.pending, List.append_assoc]
    rfl

theorem left_exec (d : DrainModel loop) (he : Runs.Exec (step bound loop) s ops evs s') :
    s.left = popped evs ++ s'.left := by
  induction he with
  | nil => rfl
  | @cons _ _ _ _ _ ev _ hs _ ih =>
    rw [d.left_step hs, ih, ← List.append_assoc]
    cases ev <;> rfl

/-- At its exit the loop has popped all that was pushed, in order. -/
theorem popped_all (d : DrainModel loop) (hk : ¬ d.knows l) (hx : ¬ d.exited l)
    (he : Runs.Exec (step bound loop) (start items l) ops evs s)
    (hr : Runs.run (step bound loop) (start items l) ops = some s)
    (hs : d.exited s.loop) : popped evs = items := by
  have h₀ : d.Inv (start items l) := ⟨nofun, fun h => absurd h hk, fun h => absurd h hx⟩
  have h := Runs.inv_of_run (fun _ _ _ _ => Inv.step) ops h₀ hr
  have hleft : items = popped evs ++ s.left := d.left_exec he
  obtain ⟨hd, hq⟩ := h.exited hs
  have hnil : s.left = [] := by
    rw [left, hq, h.done hd]
    rfl
  rw [hleft, hnil, List.append_nil]

theorem drops_iff (d : DrainModel loop) (hs : step bound loop s op = some (ev, s')) :
    (∃ item, ev = .dropped item) ↔ Drops d.drops s op := by
  cases op with
  | upstream =>
    cases hs
    exact ⟨nofun, nofun⟩
  | downstream sent => exact (d.moves hs).dropped_iff

theorem steps_iff (d : DrainModel loop) (he : Runs.Exec (step bound loop) s ops evs s') :
    Runs.Steps (step bound loop) (fun s op => ¬ Drops d.drops s op) s ops ↔ ∀ item, .dropped item ∉ evs := by
  induction he with
  | nil => exact ⟨fun _ _ => List.not_mem_nil, fun _ => trivial⟩
  | @cons s s₁ _ op _ ev evs hs _ ih =>
    rw [Runs.steps_cons hs, ih, ← d.drops_iff hs]
    simp only [List.mem_cons, not_or, forall_and, not_exists]
    exact and_congr_left fun _ => forall_congr' fun item => ⟨fun h e => h e.symm, fun h e => h e.symm⟩

/-- At its exit the loop has done its work for all that was pushed, in order,
if and only if it dropped nothing. -/
theorem taken_all (d : DrainModel loop) (hk : ¬ d.knows l) (hx : ¬ d.exited l)
    (he : Runs.Exec (step bound loop) (start items l) ops evs s)
    (hr : Runs.run (step bound loop) (start items l) ops = some s)
    (hs : d.exited s.loop) :
    taken evs = items ↔ Runs.Steps (step bound loop) (fun s op => ¬ Drops d.drops s op) (start items l) ops := by
  rw [d.steps_iff he, ← taken_eq_popped_iff, d.popped_all hk hx he hr hs]

end DrainModel

end Stage

open Stage (taken popped)

/-! ## The loop of `match_loop` and `md_loop` -/

namespace Drain

variable {T S : Type} {body : S → T → Option S} {finish : S → Option S} {s s' : Stage T (Drain S)} {ev : StageEvent T}

/-- The second `try_pop` finds an item. -/
def Drops (s : Stage T (Drain S)) : Prop := s.loop.pc = .retest ∧ s.queue ≠ []

/-- What a step does, by the place it is at. -/
theorem loop_cases (h : Drain.loop body finish s = some (ev, s')) :
    (s.loop.pc = .pop ∧ s.queue = [] ∧ ev = .quiet ∧ s' = { s with loop := { s.loop with pc := .flag } }) ∨
    (∃ item queue state, s.loop.pc = .pop ∧ s.queue = item :: queue ∧ body s.loop.state item = some state ∧
      ev = .taken item ∧ s' = { s with queue, loop := { s.loop with state } }) ∨
    (s.loop.pc = .flag ∧ ev = .quiet ∧
      s' = { s with loop := { s.loop with pc := if s.done then .retest else .pop } }) ∨
    (∃ state, s.loop.pc = .retest ∧ s.queue = [] ∧ finish s.loop.state = some state ∧ ev = .quiet ∧
      s' = { s with loop := { pc := .exited, state } }) ∨
    (∃ item queue, s.loop.pc = .retest ∧ s.queue = item :: queue ∧ ev = .dropped item ∧
      s' = { s with queue, loop := { s.loop with pc := .pop } }) ∨
    (s.loop.pc = .exited ∧ ev = .quiet ∧ s' = s) := by
  obtain ⟨pending, queue, done, pc, state⟩ := s
  cases pc with
  | pop =>
    cases queue with
    | nil =>
      cases h
      exact .inl ⟨rfl, rfl, rfl, rfl⟩
    | cons item queue =>
      obtain ⟨state', hb, h⟩ := Option.bind_eq_some_iff.mp h
      cases h
      exact .inr (.inl ⟨item, queue, state', rfl, rfl, hb, rfl, rfl⟩)
  | flag =>
    refine .inr (.inr (.inl ?_))
    cases done with
    | false =>
      cases h
      exact ⟨rfl, rfl, rfl⟩
    | true =>
      cases h
      exact ⟨rfl, rfl, rfl⟩
  | retest =>
    cases queue with
    | nil =>
      obtain ⟨state', hf, h⟩ := Option.bind_eq_some_iff.mp h
      cases h
      exact .inr (.inr (.inr (.inl ⟨state', rfl, rfl, hf, rfl, rfl⟩)))
    | cons item queue =>
      cases h
      exact .inr (.inr (.inr (.inr (.inl ⟨item, queue, rfl, rfl, rfl, rfl⟩))))
  | exited =>
    cases h
    exact .inr (.inr (.inr (.inr (.inr ⟨rfl, rfl, rfl⟩))))

theorem moves (h : Drain.loop body finish s = some (ev, s')) :
    Stage.Moves (fun l => l.pc = .retest ∨ l.pc = .exited) (fun l => l.pc = .exited) Drops s ev s' := by
  rcases loop_cases h with ⟨hpc, hq, rfl, rfl⟩ | ⟨item, queue, state, hpc, hq, _, rfl, rfl⟩ | ⟨hpc, rfl, rfl⟩ |
    ⟨state, hpc, hq, _, rfl, rfl⟩ | ⟨item, queue, hpc, hq, rfl, rfl⟩ | ⟨hpc, rfl, rfl⟩
  · exact ⟨rfl, rfl, rfl, by simp, by simp, by simp [Drops, hpc]⟩
  · exact ⟨rfl, rfl, hq, by simp [hpc], by simp [hpc], by simp [Drops, hpc]⟩
  · exact ⟨rfl, rfl, rfl, by cases s.done <;> simp, by cases s.done <;> simp, by simp [Drops, hpc]⟩
  · exact ⟨rfl, rfl, rfl, fun _ => .inl (.inl hpc), fun _ => .inr ⟨.inl hpc, hq⟩, by simp [Drops, hq]⟩
  · exact ⟨rfl, rfl, hq, by simp, by simp, by simp [Drops, hpc, hq]⟩
  · exact ⟨rfl, rfl, rfl, .inl, .inl, by simp [Drops, hpc]⟩

def model : Stage.DrainModel fun _ : Bool => Drain.loop body finish where
  knows l := l.pc = .retest ∨ l.pc = .exited
  exited l := l.pc = .exited
  drops := Drops
  moves h := moves h

/-- The items taken went through `body`, and after the loop, the state through
`finish`. -/
def Did (finish : S → Option S) (state : S) (l : Drain S) : Prop :=
  if l.pc = .exited then finish state = some l.state else l.state = state

theorem did_iff {state : S} {l : Drain S} (h : l.pc ≠ .exited) : Did finish state l ↔ l.state = state := by
  rw [Did, if_neg h]

theorem did_step (h : Drain.loop body finish s = some (ev, s')) {state : S} (hd : Did finish state s.loop) :
    ∃ state', ev.taken?.toList.foldlM body state = some state' ∧ Did finish state' s'.loop := by
  rcases loop_cases h with ⟨hpc, _, rfl, rfl⟩ | ⟨item, queue, state', hpc, _, hb, rfl, rfl⟩ | ⟨hpc, rfl, rfl⟩ |
    ⟨state', hpc, _, hf, rfl, rfl⟩ | ⟨item, queue, hpc, _, rfl, rfl⟩ | ⟨_, rfl, rfl⟩
  · rw [did_iff (by simp [hpc])] at hd
    exact ⟨state, rfl, (did_iff (by simp)).mpr hd⟩
  · rw [did_iff (by simp [hpc])] at hd
    refine ⟨state', ?_, (did_iff (by simp [hpc])).mpr rfl⟩
    rw [← hd]
    exact (bind_pure _).trans hb
  · rw [did_iff (by simp [hpc])] at hd
    exact ⟨state, rfl, (did_iff (by cases s.done <;> simp)).mpr hd⟩
  · rw [did_iff (by simp [hpc])] at hd
    rw [hd] at hf
    exact ⟨state, rfl, hf⟩
  · rw [did_iff (by simp [hpc])] at hd
    exact ⟨state, rfl, (did_iff (by simp)).mpr hd⟩
  · exact ⟨state, rfl, hd⟩

theorem did_exec {bound : Nat} {ops : List StageOp} {evs : List (StageEvent T)}
    (he : Runs.Exec (Stage.step bound fun _ => Drain.loop body finish) s ops evs s') {state : S}
    (hd : Did finish state s.loop) :
    ∃ state', (taken evs).foldlM body state = some state' ∧ Did finish state' s'.loop := by
  induction he generalizing state with
  | nil s => exact ⟨state, rfl, hd⟩
  | @cons s s₁ s' op _ ev evs hs _ ih =>
    cases op with
    | upstream =>
      cases hs
      refine ih ?_
      rw [Stage.upstream_loop]
      exact hd
    | downstream sent =>
      obtain ⟨state₁, hf, hd₁⟩ := did_step hs hd
      obtain ⟨state', hf', hd'⟩ := ih hd₁
      refine ⟨state', ?_, hd'⟩
      rw [Stage.taken_cons, List.foldlM_append, hf]
      exact hf'

/-- All is pushed before the loop starts. -/
def eagerOps (n : Nat) : List StageOp :=
  List.replicate n .upstream ++ [.upstream] ++ List.replicate n (.downstream true) ++
    [.downstream true, .downstream true, .downstream true]

theorem exec_push {bound : Nat} {loop : Bool → Stage T (Drain S) → Option (StageEvent T × Stage T (Drain S))}
    {l : Drain S} : ∀ {pending queue : List T}, queue.length + pending.length ≤ bound →
      Runs.Exec (Stage.step bound loop) ⟨pending, queue, false, l⟩ (List.replicate pending.length .upstream)
        (List.replicate pending.length .quiet) ⟨[], queue ++ pending, false, l⟩
  | [], queue, _ => by
    rw [List.append_nil]
    exact .nil _
  | item :: pending, queue, hb => by
    rw [List.length_cons] at hb
    have ih := @exec_push bound loop l pending (queue ++ [item]) (by
      rw [List.length_append, List.length_singleton]
      omega)
    rw [List.append_assoc, List.singleton_append] at ih
    refine .cons ?_ ih
    show some (StageEvent.quiet, (if queue.length < bound then _ else _)) = _
    rw [if_pos (by omega)]

theorem exec_pop {bound : Nat} : ∀ {queue : List T} {state state' : S}, queue.foldlM body state = some state' →
    Runs.Exec (Stage.step bound fun _ => Drain.loop body finish) ⟨[], queue, true, { state }⟩
      (List.replicate queue.length (.downstream true)) (queue.map .taken) ⟨[], [], true, { state := state' }⟩
  | [], state, state', h => by
    cases h
    exact .nil _
  | item :: queue, state, state', h => by
    rw [List.foldlM_cons] at h
    obtain ⟨state₁, hb, h⟩ := Option.bind_eq_some_iff.mp h
    refine .cons ?_ (exec_pop h)
    show (body state item).bind _ = _
    rw [hb]
    rfl

/-- The steps of `eagerOps` show the pops, in order. -/
def eagerEvents (items : List T) : List (StageEvent T) :=
  List.replicate items.length .quiet ++ [StageEvent.quiet] ++ items.map .taken ++
    [StageEvent.quiet, StageEvent.quiet, StageEvent.quiet]

theorem exec_eager {items : List T} {state state' state'' : S} (hf : items.foldlM body state = some state')
    (hfin : finish state' = some state'') :
    Runs.Exec (Stage.step items.length fun _ => Drain.loop body finish) (Stage.start items { state })
      (eagerOps items.length) (eagerEvents items) ⟨[], [], true, { pc := .exited, state := state'' }⟩ := by
  have hpush := @exec_push _ _ items.length (fun _ => Drain.loop body finish) { state } items []
    (Nat.le_of_eq (Nat.zero_add _))
  refine ((hpush.append (.cons rfl (.nil _))).append (exec_pop hf)).append (.cons rfl (.cons rfl (.cons ?_ (.nil _))))
  show (finish state').bind _ = _
  rw [hfin]
  rfl

theorem filterMap_eager {f : StageEvent T → Option T} (hquiet : f .quiet = none) (htaken : f ∘ .taken = some)
    (items : List T) : (eagerEvents items).filterMap f = items := by
  have hitems : (items.map StageEvent.taken).filterMap f = items := by
    rw [List.filterMap_map, htaken, List.filterMap_some]
  simp only [eagerEvents, List.filterMap_append, hitems, List.filterMap_replicate_of_none hquiet,
    List.filterMap_cons_none hquiet, List.filterMap_nil]
  exact List.append_nil items

theorem taken_eager (items : List T) : taken (eagerEvents items) = items := filterMap_eager rfl rfl items

theorem popped_eager (items : List T) : popped (eagerEvents items) = items := filterMap_eager rfl rfl items

/-- At the exit, the loop has taken all that was pushed if and only if it
dropped nothing, and its state is what that makes of it. -/
theorem exit_iff {bound : Nat} {ops : List StageOp} {items : List T} {state : S}
    (hr : Runs.run (Stage.step bound fun _ => Drain.loop body finish) (Stage.start items { state }) ops = some s)
    (hs : s.loop.pc = .exited) : ∃ evs state',
      Runs.trace (Stage.step bound fun _ => Drain.loop body finish) (Stage.start items { state }) ops = some evs ∧
      (taken evs).foldlM body state = some state' ∧ finish state' = some s.loop.state ∧
      (taken evs = items ↔ Runs.Steps (Stage.step bound fun _ => Drain.loop body finish)
        (fun s op => ¬ Stage.Drops Drops s op) (Stage.start items { state }) ops) := by
  obtain ⟨evs, ht, he⟩ := Runs.exec_of_run hr
  obtain ⟨state', hf, hd⟩ := did_exec he ((did_iff (by simp [Stage.start])).mpr rfl)
  rw [Did, if_pos hs] at hd
  exact ⟨evs, state', ht, hf, hd, model.taken_all (by simp [model]) (by simp [model]) he hr hs⟩

end Drain

/-! ## `send_loop` -/

namespace SendLoop

variable {sent : Bool} {s s' : Stage Wire.Response SendLoop} {ev : StageEvent Wire.Response}

/-- The second `try_pop` finds an item, or the client is gone and there are
some left. -/
def Drops (s : Stage Wire.Response SendLoop) : Prop := (s.loop.pc = .retest ∨ s.loop.pc = .discard) ∧ s.queue ≠ []

/-- All that was encoded: what was sent, and what is in the buffer to be. -/
def encoded (l : SendLoop) : List UInt8 := l.sends.flatten ++ if l.pc = .fill ∨ l.pc = .send then l.buf else []

theorem encode_spec {l l' : SendLoop} {r : Wire.Response} (h : l.encode r = some l') :
    l' = { l with pc := .fill, buf := l.buf ++ r.encode } := by
  rw [encode] at h
  split at h
  · exact (Option.some.inj h).symm
  · cases h

/-- What a step does, by the place it is at. -/
theorem loop_cases (h : sendLoop sent s = some (ev, s')) :
    (s.loop.pc = .pop ∧ s.queue = [] ∧ ev = .quiet ∧ s' = { s with loop := { s.loop with pc := .flag } }) ∨
    (∃ resp queue, s.loop.pc = .pop ∧ s.queue = resp :: queue ∧ ev = .taken resp ∧
      s' = { s with queue, loop := { s.loop with pc := .fill, buf := resp.encode } }) ∨
    (s.loop.pc = .flag ∧ ev = .quiet ∧
      s' = { s with loop := { s.loop with pc := if s.done then .retest else .pop } }) ∨
    (s.loop.pc = .retest ∧ s.queue = [] ∧ ev = .quiet ∧ s' = { s with loop := { s.loop with pc := .exited } }) ∨
    (∃ resp queue, (s.loop.pc = .retest ∨ s.loop.pc = .discard) ∧ s.queue = resp :: queue ∧ ev = .dropped resp ∧
      s' = { s with queue, loop := { s.loop with pc := if s.loop.pc = .retest then .pop else .discard } }) ∨
    (s.loop.pc = .fill ∧ ev = .quiet ∧ s' = { s with loop := { s.loop with pc := .send } }) ∨
    (∃ resp queue, s.loop.pc = .fill ∧ s.queue = resp :: queue ∧ ev = .taken resp ∧
      s' = { s with queue, loop := { s.loop with pc := .fill, buf := s.loop.buf ++ resp.encode } }) ∨
    (s.loop.pc = .send ∧ ev = .quiet ∧ s' = { s with loop := {
      s.loop with pc := if sent then .pop else .discard, sends := s.loop.sends ++ [s.loop.buf] } }) ∨
    (s.loop.pc = .discard ∧ s.queue = [] ∧ ev = .quiet ∧ s' = { s with loop := { s.loop with pc := .pop } }) ∨
    (s.loop.pc = .exited ∧ ev = .quiet ∧ s' = s) := by
  obtain ⟨pending, queue, done, pc, buf, sends⟩ := s
  cases pc with
  | pop =>
    cases queue with
    | nil =>
      cases h
      exact .inl ⟨rfl, rfl, rfl, rfl⟩
    | cons resp queue =>
      simp only [sendLoop] at h
      obtain ⟨l, hl, h⟩ := Option.bind_eq_some_iff.mp h
      obtain rfl := encode_spec hl
      cases h
      exact .inr (.inl ⟨resp, queue, rfl, rfl, rfl, rfl⟩)
  | flag =>
    refine .inr (.inr (.inl ?_))
    cases done with
    | false =>
      cases h
      exact ⟨rfl, rfl, rfl⟩
    | true =>
      cases h
      exact ⟨rfl, rfl, rfl⟩
  | retest =>
    cases queue with
    | nil =>
      cases h
      exact .inr (.inr (.inr (.inl ⟨rfl, rfl, rfl, rfl⟩)))
    | cons resp queue =>
      cases h
      exact .inr (.inr (.inr (.inr (.inl ⟨resp, queue, .inl rfl, rfl, rfl, rfl⟩))))
  | fill =>
    refine .inr (.inr (.inr (.inr (.inr ?_))))
    by_cases hfull : buf.length ≥ kBufSize
    · cases (if_pos hfull).symm.trans h
      exact .inl ⟨rfl, rfl, rfl⟩
    · replace h := (if_neg hfull).symm.trans h
      cases queue with
      | nil =>
        cases h
        exact .inl ⟨rfl, rfl, rfl⟩
      | cons resp queue =>
        obtain ⟨l, hl, h⟩ := Option.bind_eq_some_iff.mp h
        obtain rfl := encode_spec hl
        cases h
        exact .inr (.inl ⟨resp, queue, rfl, rfl, rfl, rfl⟩)
  | send =>
    cases h
    exact .inr (.inr (.inr (.inr (.inr (.inr (.inr (.inl ⟨rfl, rfl, rfl⟩)))))))
  | discard =>
    cases queue with
    | nil =>
      cases h
      exact .inr (.inr (.inr (.inr (.inr (.inr (.inr (.inr (.inl ⟨rfl, rfl, rfl, rfl⟩))))))))
    | cons resp queue =>
      cases h
      exact .inr (.inr (.inr (.inr (.inl ⟨resp, queue, .inr rfl, rfl, rfl, rfl⟩))))
  | exited =>
    cases h
    exact .inr (.inr (.inr (.inr (.inr (.inr (.inr (.inr (.inr ⟨rfl, rfl, rfl⟩))))))))

theorem moves (h : sendLoop sent s = some (ev, s')) :
    Stage.Moves (fun l => l.pc = .retest ∨ l.pc = .exited) (fun l => l.pc = .exited) Drops s ev s' := by
  rcases loop_cases h with ⟨hpc, hq, rfl, rfl⟩ | ⟨resp, queue, hpc, hq, rfl, rfl⟩ | ⟨hpc, rfl, rfl⟩ |
    ⟨hpc, hq, rfl, rfl⟩ | ⟨resp, queue, hpc, hq, rfl, rfl⟩ | ⟨hpc, rfl, rfl⟩ | ⟨resp, queue, hpc, hq, rfl, rfl⟩ |
    ⟨hpc, rfl, rfl⟩ | ⟨hpc, hq, rfl, rfl⟩ | ⟨hpc, rfl, rfl⟩
  · exact ⟨rfl, rfl, rfl, by simp, by simp, by simp [Drops, hpc]⟩
  · exact ⟨rfl, rfl, hq, by simp, by simp, by simp [Drops, hpc]⟩
  · exact ⟨rfl, rfl, rfl, by cases s.done <;> simp, by cases s.done <;> simp, by simp [Drops, hpc]⟩
  · exact ⟨rfl, rfl, rfl, fun _ => .inl (.inl hpc), fun _ => .inr ⟨.inl hpc, hq⟩, by simp [Drops, hq]⟩
  · refine ⟨rfl, rfl, hq, ?_, ?_, by simp [Drops, hpc, hq]⟩
    · rcases hpc with hpc | hpc <;> simp [hpc]
    · rcases hpc with hpc | hpc <;> simp [hpc]
  · exact ⟨rfl, rfl, rfl, by simp, by simp, by simp [Drops, hpc]⟩
  · exact ⟨rfl, rfl, hq, by simp, by simp, by simp [Drops, hpc]⟩
  · exact ⟨rfl, rfl, rfl, by cases sent <;> simp, by cases sent <;> simp, by simp [Drops, hpc]⟩
  · exact ⟨rfl, rfl, rfl, by simp, by simp, by simp [Drops, hq]⟩
  · exact ⟨rfl, rfl, rfl, .inl, .inl, by simp [Drops, hpc]⟩

/-- A step encodes the response that it takes, if it takes one. -/
theorem encoded_step (h : sendLoop sent s = some (ev, s')) :
    s'.loop.encoded = s.loop.encoded ++ ev.taken?.toList.flatMap Wire.Response.encode := by
  rcases loop_cases h with ⟨hpc, _, rfl, rfl⟩ | ⟨resp, queue, hpc, _, rfl, rfl⟩ | ⟨hpc, rfl, rfl⟩ |
    ⟨hpc, _, rfl, rfl⟩ | ⟨resp, queue, hpc, _, rfl, rfl⟩ | ⟨hpc, rfl, rfl⟩ | ⟨resp, queue, hpc, _, rfl, rfl⟩ |
    ⟨hpc, rfl, rfl⟩ | ⟨hpc, _, rfl, rfl⟩ | ⟨hpc, rfl, rfl⟩
  · simp [encoded, hpc, StageEvent.taken?]
  · simp [encoded, hpc, StageEvent.taken?]
  · cases hd : s.done <;> simp [encoded, hpc, StageEvent.taken?]
  · simp [encoded, hpc, StageEvent.taken?]
  · rcases hpc with hpc | hpc <;> simp [encoded, hpc, StageEvent.taken?]
  · simp [encoded, hpc, StageEvent.taken?]
  · simp [encoded, hpc, StageEvent.taken?]
  · cases sent <;> simp [encoded, hpc, StageEvent.taken?]
  · simp [encoded, hpc, StageEvent.taken?]
  · simp [StageEvent.taken?]

def model : Stage.DrainModel sendLoop where
  knows l := l.pc = .retest ∨ l.pc = .exited
  exited l := l.pc = .exited
  drops := Drops
  moves h := moves h

theorem encoded_exec {bound : Nat} {ops : List StageOp} {evs : List (StageEvent Wire.Response)}
    (he : Runs.Exec (Stage.step bound sendLoop) s ops evs s') :
    s'.loop.encoded = s.loop.encoded ++ (taken evs).flatMap Wire.Response.encode := by
  induction he with
  | nil => simp [taken]
  | @cons _ _ _ op _ ev evs hs _ ih =>
    cases op with
    | upstream =>
      cases hs
      rw [Stage.upstream_loop] at ih
      exact ih
    | downstream sent =>
      rw [ih, encoded_step hs, Stage.taken_cons, List.flatMap_append, List.append_assoc]

theorem exit_iff {bound : Nat} {ops : List StageOp} {items : List Wire.Response}
    (hr : Runs.run (Stage.step bound sendLoop) (Stage.start items {}) ops = some s)
    (hs : s.loop.pc = .exited) : ∃ evs,
      Runs.trace (Stage.step bound sendLoop) (Stage.start items {}) ops = some evs ∧
      s.loop.sends.flatten = (taken evs).flatMap Wire.Response.encode ∧
      (taken evs = items ↔ Runs.Steps (Stage.step bound sendLoop)
        (fun s op => ¬ Stage.Drops Drops s op) (Stage.start items {}) ops) := by
  obtain ⟨evs, ht, he⟩ := Runs.exec_of_run hr
  have henc := encoded_exec he
  refine ⟨evs, ht, ?_, model.taken_all (by simp [model]) (by simp [model]) he hr hs⟩
  simpa [encoded, hs, Stage.start] using henc

end SendLoop

/-! ## All three -/

/-- From every run that ends outside the loop: it did its work for the items
it took, as `did` has it, and took all that was pushed, in order, if and only
if no step was in `drops`. -/
def Stage.KeepsUnless {T L : Type} (bound : Nat) (loop : Bool → Stage T L → Option (StageEvent T × Stage T L))
    (l : L) (exited : L → Prop) (did : List T → L → Prop) (drops : Stage T L → Prop) : Prop :=
  ∀ (items : List T) (ops : List StageOp) (s : Stage T L),
    Runs.run (Stage.step bound loop) (Stage.start items l) ops = some s → exited s.loop →
      ∃ evs, Runs.trace (Stage.step bound loop) (Stage.start items l) ops = some evs ∧ did (taken evs) s.loop ∧
        (taken evs = items ↔
          Runs.Steps (Stage.step bound loop) (fun s op => ¬ Stage.Drops drops s op) (Stage.start items l) ops)

theorem shutdown_keeps (bound : Nat) :
    (∀ {Engine : Type} (handle : Engine → Wire.Request → Option Engine) (engine : Engine),
      Stage.KeepsUnless bound (fun _ => matchLoop handle) { state := engine } (fun l => l.pc = .exited)
        (fun reqs l => reqs.foldlM handle engine = some l.state) Drain.Drops) ∧
    Stage.KeepsUnless bound sendLoop {} (fun l => l.pc = .exited)
      (fun resps l => l.sends.flatten = resps.flatMap Wire.Response.encode) SendLoop.Drops ∧
    Stage.KeepsUnless bound (fun _ => mdLoop) { state := {} } (fun l => l.pc = .exited)
      (fun msgs l => ∃ state, msgs.foldlM MdLoop.pack {} = some state ∧ state.finish = some l.state) Drain.Drops := by
  refine ⟨fun handle engine reqs ops s hr hs => ?_, fun resps ops s hr hs => SendLoop.exit_iff hr hs,
    fun msgs ops s hr hs => ?_⟩
  · obtain ⟨evs, state, ht, hf, hfin, hiff⟩ := Drain.exit_iff hr hs
    cases hfin
    exact ⟨evs, ht, hf, hiff⟩
  · obtain ⟨evs, state, ht, hf, hfin, hiff⟩ := Drain.exit_iff hr hs
    exact ⟨evs, ht, ⟨state, hf, hfin⟩, hiff⟩

/-- Three items each, queued before the loop looks. -/
theorem shutdown_keeps_early : ∃ (reqs : List Wire.Request) (resps : List Wire.Response) (msgs : List MdMsg),
    reqs.map Wire.Request.id = [1, 2, 3] ∧ resps.map Wire.Response.id = [1, 2, 3] ∧
    msgs.map MdMsg.bytes = [[0, 1, 83], [0, 1, 84], [0, 1, 85]] ∧
    (∃ s, Runs.run (Stage.step 3 fun _ => matchLoop fun handled req => some (handled ++ [req]))
        (Stage.start reqs { state := [] }) (Drain.eagerOps 3) = some s ∧ s.loop.state = reqs ∧
      Runs.Steps (Stage.step 3 fun _ => matchLoop fun handled req => some (handled ++ [req]))
        (fun s op => ¬ Stage.Drops Drain.Drops s op) (Stage.start reqs { state := [] }) (Drain.eagerOps 3)) ∧
    (∃ s, Runs.run (Stage.step 3 sendLoop) (Stage.start resps {})
        (List.replicate 4 .upstream ++ List.replicate 8 (.downstream true)) = some s ∧
      s.loop.sends.flatten = resps.flatMap Wire.Response.encode ∧
      Runs.Steps (Stage.step 3 sendLoop) (fun s op => ¬ Stage.Drops SendLoop.Drops s op) (Stage.start resps {})
        (List.replicate 4 .upstream ++ List.replicate 8 (.downstream true))) ∧
    ∃ s, Runs.run (Stage.step 3 fun _ => mdLoop) (Stage.start msgs { state := {} }) (Drain.eagerOps 3) = some s ∧
      s.loop.state.packets = MdLoop.dataPackets 1 [[83], [84], [85]] ++ [MdLoop.endPacket 4] ∧
      Runs.Steps (Stage.step 3 fun _ => mdLoop) (fun s op => ¬ Stage.Drops Drain.Drops s op)
        (Stage.start msgs { state := {} }) (Drain.eagerOps 3) := by
  obtain ⟨hmatch, hsend, hmd⟩ := shutdown_keeps 3
  let reqs : List Wire.Request := [{ id := 1 }, { id := 2 }, { id := 3 }]
  let resps : List Wire.Response := [{ id := 1 }, { id := 2 }, { id := 3 }]
  let msgs : List MdMsg := [⟨[0, 1, 83], by decide⟩, ⟨[0, 1, 84], by decide⟩, ⟨[0, 1, 85], by decide⟩]
  refine ⟨reqs, resps, msgs, rfl, rfl, rfl, ?_, ?_, ?_⟩
  · have hhandled : reqs.foldlM (fun handled req => some (handled ++ [req])) [] = some reqs := rfl
    have hfin : some reqs = some reqs := rfl
    have he := Drain.exec_eager hhandled hfin
    obtain ⟨evs, ht, -, hiff⟩ := hmatch (fun handled req => some (handled ++ [req])) [] reqs _ _ he.run rfl
    cases ht.symm.trans he.trace
    exact ⟨_, he.run, rfl, hiff.mp (Drain.taken_eager reqs)⟩
  · have hrun : (Runs.run (Stage.step 3 sendLoop) (Stage.start resps {})
        (List.replicate 4 .upstream ++ List.replicate 8 (.downstream true))).map (fun s => s.loop.pc) =
        some .exited := by decide +kernel
    have htrace : (Runs.trace (Stage.step 3 sendLoop) (Stage.start resps {})
        (List.replicate 4 .upstream ++ List.replicate 8 (.downstream true))).map taken = some resps := by decide +kernel
    obtain ⟨s, hs, hpc⟩ := Option.map_eq_some_iff.mp hrun
    obtain ⟨evs, ht, hsent, hiff⟩ := hsend resps _ s hs hpc
    rw [ht, Option.map_some, Option.some.injEq] at htrace
    exact ⟨s, hs, by rw [hsent, htrace], hiff.mp htrace⟩
  · have hm : ∀ m ∈ msgs, m.Framed := by
      simp only [msgs, List.forall_mem_cons]
      exact ⟨⟨[83], by simp, rfl⟩, ⟨[84], by simp, rfl⟩, ⟨[85], by simp, rfl⟩, fun _ h => absurd h List.not_mem_nil⟩
    obtain ⟨l, hf, hok, -, -⟩ := MdLoop.foldlM_pack MdLoop.start_ok (rfl : (1 : UInt64) = UInt64.ofNat 1) hm
    obtain ⟨l', hfin, -⟩ := MdLoop.finish_spec hok
    have he := Drain.exec_eager hf hfin
    obtain ⟨evs, ht, -, hiff⟩ := hmd msgs _ _ he.run rfl
    cases ht.symm.trans he.trace
    exact ⟨_, he.run, MdLoop.packets_eq hm hf hfin, hiff.mp (Drain.taken_eager msgs)⟩

/-- The push and the store of the flag come between the first `try_pop` and
the load. -/
def Stage.lateOps : List StageOp :=
  [.downstream true, .upstream, .upstream, .downstream true, .downstream true, .downstream true, .downstream true,
    .downstream true]

theorem Drain.exec_late {T S : Type} {body : S → T → Option S} {finish : S → Option S} {state state' : S}
    (h : finish state = some state') (item : T) :
    Runs.Exec (Stage.step 1 fun _ => Drain.loop body finish) (Stage.start [item] { state }) Stage.lateOps
      [.quiet, .quiet, .quiet, .quiet, .dropped item, .quiet, .quiet, .quiet]
      ⟨[], [], true, { pc := .exited, state := state' }⟩ := by
  refine .cons rfl (.cons rfl (.cons rfl (.cons rfl (.cons rfl (.cons rfl (.cons rfl (.cons ?_ (.nil _))))))))
  show (finish state).bind _ = _
  rw [h]
  rfl

theorem shutdown_drops :
    (∃ evs s, Runs.trace (Stage.step 1 fun _ => matchLoop fun handled req => some (handled ++ [req]))
        (Stage.start [({} : Wire.Request)] { state := ([] : List Wire.Request) }) Stage.lateOps = some evs ∧
      Runs.run (Stage.step 1 fun _ => matchLoop fun handled req => some (handled ++ [req]))
        (Stage.start [({} : Wire.Request)] { state := ([] : List Wire.Request) }) Stage.lateOps = some s ∧
      s.loop.pc = .exited ∧ taken evs = [] ∧ s.loop.state = []) ∧
    (∃ evs s, Runs.trace (Stage.step 1 sendLoop) (Stage.start [({} : Wire.Response)] {}) Stage.lateOps = some evs ∧
      Runs.run (Stage.step 1 sendLoop) (Stage.start [({} : Wire.Response)] {}) Stage.lateOps = some s ∧
      s.loop.pc = .exited ∧ taken evs = [] ∧ s.loop.sends = []) ∧
    ∃ evs s, Runs.trace (Stage.step 1 fun _ => mdLoop) (Stage.start [⟨[0, 1, 83], by decide⟩] { state := {} })
        Stage.lateOps = some evs ∧
      Runs.run (Stage.step 1 fun _ => mdLoop) (Stage.start [⟨[0, 1, 83], by decide⟩] { state := {} })
        Stage.lateOps = some s ∧
      s.loop.pc = .exited ∧ taken evs = [] ∧ s.loop.state.packets.length = 1 := by
  refine ⟨⟨_, _, rfl, rfl, rfl, rfl, rfl⟩, ⟨_, _, rfl, rfl, rfl, rfl, rfl⟩, ?_⟩
  obtain ⟨l, hfin, hpackets⟩ := MdLoop.finish_spec MdLoop.start_ok
  have he := @Drain.exec_late _ _ MdLoop.pack _ _ _ hfin ⟨[0, 1, 83], by decide⟩
  exact ⟨_, _, he.trace, he.run, rfl, rfl, congrArg List.length hpackets⟩

end Pricetime
