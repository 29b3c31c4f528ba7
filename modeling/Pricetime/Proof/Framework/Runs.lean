import Mathlib

/-!
# Runs of a machine

A machine is a step function `S → Op → Option (Out × S)`, `none` being a step
that goes wrong. `run` is the state a list of operations ends in, `trace` the
list of what they answer. `Along P` says that every state of a run, the first
and the last included, is in `P`, and `Steps Q` that every step it takes is in
`Q`. `peak f` is the greatest value that `f` has along the run.

Main results:

* `run_inv`: an invariant kept by each step holds at the end of every run, and
  no step of the run goes wrong.
* `trace_sim`: two machines whose steps answer alike in related states have
  the same traces.
-/

namespace Runs

variable {S T Op Out : Type}

/-- The state after a run. -/
def run (step : S → Op → Option (Out × S)) : S → List Op → Option S
  | s, [] => some s
  | s, op :: ops => do
    let (_, s) ← step s op
    run step s ops

/-- The answers of a run. -/
def trace (step : S → Op → Option (Out × S)) : S → List Op → Option (List Out)
  | _, [] => some []
  | s, op :: ops => do
    let (out, s) ← step s op
    let outs ← trace step s ops
    some (out :: outs)

/-- Every state that a run passes through is in `P`. -/
def Along (step : S → Op → Option (Out × S)) (P : S → Prop) : S → List Op → Prop
  | s, [] => P s
  | s, op :: ops => P s ∧ ∀ out s', step s op = some (out, s') → Along step P s' ops

/-- The greatest value of `f` at a state that a run passes through. -/
def peak (step : S → Op → Option (Out × S)) (f : S → Nat) : S → List Op → Nat
  | s, [] => f s
  | s, op :: ops => max (f s) ((step s op).elim 0 fun r => peak step f r.2 ops)

/-- Every step that a run takes is in `Q`. -/
def Steps (step : S → Op → Option (Out × S)) (Q : S → Op → Prop) : S → List Op → Prop
  | _, [] => True
  | s, op :: ops => Q s op ∧ ∀ out s', step s op = some (out, s') → Steps step Q s' ops

/-- A machine that also answers with a view of the state it steps to. -/
def observed {V : Type} (step : S → Op → Option (Out × S)) (view : S → V) (s : S) (op : Op) :
    Option ((Out × V) × S) := do
  let (out, s) ← step s op
  some ((out, view s), s)

variable {step : S → Op → Option (Out × S)} {P : S → Prop}

theorem forall_step_iff {p : Out → S → Prop} {s s' : S} {op : Op} {out : Out} (h : step s op = some (out, s')) :
    (∀ out₁ s₁, step s op = some (out₁, s₁) → p out₁ s₁) ↔ p out s' := by
  refine ⟨fun hp => hp out s' h, fun hp out₁ s₁ h₁ => ?_⟩
  cases h.symm.trans h₁
  exact hp

theorem along_cons {s s' : S} {op : Op} {out : Out} (h : step s op = some (out, s')) {ops : List Op} :
    Along step P s (op :: ops) ↔ P s ∧ Along step P s' ops := and_congr_right fun _ => forall_step_iff h

theorem steps_cons {Q : S → Op → Prop} {s s' : S} {op : Op} {out : Out} (h : step s op = some (out, s'))
    {ops : List Op} : Steps step Q s (op :: ops) ↔ Q s op ∧ Steps step Q s' ops :=
  and_congr_right fun _ => forall_step_iff h

theorem observed_eq {V : Type} {view : S → V} {s s' : S} {op : Op} {out : Out}
    (h : step s op = some (out, s')) : observed step view s op = some ((out, view s'), s') := by
  simp only [observed, h, Option.bind_eq_bind, Option.bind_some]

theorem along_observed {V : Type} {view : S → V} : ∀ {s : S} {ops : List Op},
    Along step P s ops → Along (observed step view) P s ops
  | _, [], h => h
  | s, op :: ops, h => by
    refine ⟨h.1, fun out s' hs => ?_⟩
    obtain ⟨⟨out', t⟩, ht, e⟩ := Option.bind_eq_some_iff.mp hs
    cases e
    exact along_observed (h.2 _ _ ht)

theorem Along.head : ∀ {s : S} {ops : List Op}, Along step P s ops → P s
  | _, [], h => h
  | _, _ :: _, h => h.1

theorem Along.imp {Q : S → Prop} (hPQ : ∀ s, P s → Q s) : ∀ {s : S} {ops : List Op},
    Along step P s ops → Along step Q s ops
  | _, [], h => hPQ _ h
  | _, _ :: _, h => ⟨hPQ _ h.1, fun _ _ hs => Along.imp hPQ (h.2 _ _ hs)⟩

/-- The two parts of a run. -/
theorem Along.append : ∀ {s : S} {ops ops' : List Op}, Along step P s (ops ++ ops') →
    Along step P s ops ∧ ∀ t, run step s ops = some t → Along step P t ops'
  | s, [], _, h => by
    refine ⟨h.head, fun t ht => ?_⟩
    cases ht
    exact h
  | s, op :: ops, ops', h => by
    refine ⟨⟨h.1, fun out s' hs => (Along.append (h.2 out s' hs)).1⟩, fun t ht => ?_⟩
    obtain ⟨⟨out, s'⟩, hs, ht⟩ := Option.bind_eq_some_iff.mp ht
    exact (Along.append (h.2 out s' hs)).2 t ht

theorem along_true (s : S) : ∀ ops : List Op, Along step (fun _ => True) s ops
  | [] => trivial
  | _ :: ops => ⟨trivial, fun _ s' _ => along_true s' ops⟩

theorem run_append : ∀ {s : S} (ops ops' : List Op),
    run step s (ops ++ ops') = (run step s ops).bind fun t => run step t ops'
  | _, [], _ => rfl
  | s, op :: ops, ops' => by
    rw [List.cons_append, run, run]
    cases h : step s op with
    | none => rfl
    | some r =>
      simp only [Option.bind_eq_bind, Option.bind_some]
      exact run_append ops ops'

theorem run_cons {s s' : S} {op : Op} {out : Out} (h : step s op = some (out, s')) (ops : List Op) :
    run step s (op :: ops) = run step s' ops := by
  simp only [run, h, Option.bind_eq_bind, Option.bind_some]

theorem trace_cons {s s' : S} {op : Op} {out : Out} {outs : List Out} {ops : List Op}
    (h : step s op = some (out, s')) (ht : trace step s' ops = some outs) :
    trace step s (op :: ops) = some (out :: outs) := by
  simp only [trace, h, ht, Option.bind_eq_bind, Option.bind_some]

/-- Traces that agree do so step by step. -/
theorem trace_agree_cons {Op' : Type} {step' : T → Op' → Option (Out × T)} {s s' : S} {t t' : T} {op : Op}
    {op' : Op'} {out out' : Out} {ops : List Op} {ops' : List Op'} (hs : step s op = some (out, s'))
    (ht : step' t op' = some (out', t'))
    (h : ∃ outs, trace step s (op :: ops) = some outs ∧ trace step' t (op' :: ops') = some outs) :
    out = out' ∧ ∃ outs, trace step s' ops = some outs ∧ trace step' t' ops' = some outs := by
  obtain ⟨outs, h, h'⟩ := h
  simp only [trace, hs, ht, Option.bind_eq_bind, Option.bind_some] at h h'
  obtain ⟨tail, htail, e⟩ := Option.bind_eq_some_iff.mp h
  obtain ⟨tail', htail', e'⟩ := Option.bind_eq_some_iff.mp h'
  obtain ⟨rfl, rfl⟩ := List.cons.inj (Option.some.inj (e'.trans e.symm))
  exact ⟨rfl, tail', htail, htail'⟩

/-- A step lemma, for the states in `P`, gives the run lemma. -/
theorem run_inv {I : S → Prop} {A : Op → Prop}
    (hstep : ∀ s op, I s → P s → A op → ∃ out s', step s op = some (out, s') ∧ I s') :
    ∀ {s : S} (ops : List Op), I s → (∀ op ∈ ops, A op) → Along step P s ops →
      ∃ s', run step s ops = some s' ∧ I s' ∧ P s'
  | s, [], hi, _, hp => ⟨s, rfl, hi, hp⟩
  | s, op :: ops, hi, ha, hp => by
    obtain ⟨out, s', hs, hi'⟩ := hstep s op hi hp.1 (ha op List.mem_cons_self)
    obtain ⟨t, ht, hit⟩ := run_inv hstep ops hi' (fun o ho => ha o (List.mem_cons_of_mem _ ho))
      (hp.2 _ _ hs)
    exact ⟨t, by rw [run_cons hs, ht], hit⟩

/-- What a step lemma without an existence part gives. -/
theorem inv_of_run {I : S → Prop} (hstep : ∀ s op out s', I s → step s op = some (out, s') → I s') :
    ∀ {s s' : S} (ops : List Op), I s → run step s ops = some s' → I s'
  | s, s', [], hi, h => by
    cases h
    exact hi
  | s, s', op :: ops, hi, h => by
    unfold run at h
    obtain ⟨⟨out, t⟩, ht, h⟩ := Option.bind_eq_some_iff.mp h
    exact inv_of_run hstep ops (hstep s op out t hi ht) h

/-- A measure that a step raises by at most one stays within the length of a
run. -/
theorem along_le {n : S → Nat} {I : S → Prop} {bound : Nat}
    (hstep : ∀ s op out s', I s → n s < bound → step s op = some (out, s') → I s' ∧ n s' ≤ n s + 1) :
    ∀ {s : S} (ops : List Op), I s → n s + ops.length < bound → Along step (fun s => n s < bound) s ops
  | s, [], _, hn => Nat.lt_of_le_of_lt (Nat.le_add_right ..) hn
  | s, op :: ops, hi, hn => by
    rw [List.length_cons] at hn
    refine ⟨by omega, fun out s' hs => ?_⟩
    obtain ⟨hi', hle⟩ := hstep s op out s' hi (by omega) hs
    exact along_le hstep ops hi' (by omega)

/-- Two machines in lockstep: related states stay related, and answer alike
once the state after the step is in `P`. -/
theorem trace_sim {step' : T → Op → Option (Out × T)} {R : S → T → Prop} {A : Op → Prop}
    (hstep : ∀ s t op, R s t → P s → A op → ∃ out s' out' t', step s op = some (out, s') ∧
      step' t op = some (out', t') ∧ R s' t' ∧ (P s' → out = out')) :
    ∀ {s : S} {t : T} (ops : List Op), R s t → (∀ op ∈ ops, A op) → Along step P s ops →
      ∃ outs, trace step s ops = some outs ∧ trace step' t ops = some outs
  | s, t, [], _, _, _ => ⟨[], rfl, rfl⟩
  | s, t, op :: ops, hr, ha, hp => by
    obtain ⟨out, s', out', t', hs, ht, hr', ho⟩ := hstep s t op hr hp.1 (ha op List.mem_cons_self)
    have hp' := hp.2 _ _ hs
    obtain ⟨outs, hos, hot⟩ := trace_sim hstep ops hr' (fun o h => ha o (List.mem_cons_of_mem _ h)) hp'
    refine ⟨out :: outs, trace_cons hs hos, trace_cons ?_ hot⟩
    rw [ht, ho hp'.head]

/-- A machine in lockstep with a fold. -/
theorem run_foldl {R : S → T → Prop} {f : T → Op → T} {A : Op → Prop} {Q : S → Op → Prop}
    (hstep : ∀ s t op, R s t → P s → A op → Q s op → ∃ out s', step s op = some (out, s') ∧ R s' (f t op)) :
    ∀ {s : S} {t : T} (ops : List Op), R s t → (∀ op ∈ ops, A op) → Along step P s ops → Steps step Q s ops →
      ∃ s', run step s ops = some s' ∧ R s' (ops.foldl f t) ∧ P s'
  | s, _, [], hr, _, hp, _ => ⟨s, rfl, hr, hp⟩
  | s, t, op :: ops, hr, ha, hp, hq => by
    obtain ⟨out, s', hs, hr'⟩ := hstep s t op hr hp.1 (ha op List.mem_cons_self) hq.1
    obtain ⟨u, hu, hru⟩ := run_foldl hstep ops hr' (fun o ho => ha o (List.mem_cons_of_mem _ ho))
      (hp.2 _ _ hs) (hq.2 _ _ hs)
    exact ⟨u, by rw [run_cons hs, hu], hru⟩

theorem Steps.cons {Q : S → Op → Prop} {s s' : S} {op : Op} {out : Out} {ops : List Op}
    (h : step s op = some (out, s')) (hq : Q s op) (hs : Steps step Q s' ops) : Steps step Q s (op :: ops) :=
  (steps_cons h).mpr ⟨hq, hs⟩

theorem Steps.imp {Q Q' : S → Op → Prop} (h : ∀ s op, Q s op → Q' s op) : ∀ {s : S} {ops : List Op},
    Steps step Q s ops → Steps step Q' s ops
  | _, [], _ => trivial
  | _, _ :: _, hq => ⟨h _ _ hq.1, fun out s' hs => Steps.imp h (hq.2 out s' hs)⟩

/-- A machine whose steps are another's, seen through `g`, has its runs. -/
theorem Steps.comap {step' : T → Op → Option (Out × T)} {g : T → S} {Q : S → Op → Prop}
    (hg : ∀ t op out t', step' t op = some (out, t') → step (g t) op = some (out, g t')) :
    ∀ {t : T} {ops : List Op}, Steps step Q (g t) ops → Steps step' (fun t op => Q (g t) op) t ops
  | _, [], _ => trivial
  | _, _ :: _, hq => ⟨hq.1, fun out t' ht => Steps.comap hg (hq.2 out (g t') (hg _ _ out t' ht))⟩

theorem Steps.and {Q Q' : S → Op → Prop} : ∀ {s : S} {ops : List Op}, Steps step Q s ops → Steps step Q' s ops →
    Steps step (fun s op => Q s op ∧ Q' s op) s ops
  | _, [], _, _ => trivial
  | _, _ :: _, h, h' => ⟨⟨h.1, h'.1⟩, fun out s' hs => (h.2 out s' hs).and (h'.2 out s' hs)⟩

/-- Every step of a run in `P` leads to `P`. -/
theorem Along.next : ∀ {s : S} {ops : List Op}, Along step P s ops →
    Steps step (fun s op => ∀ out s', step s op = some (out, s') → P s') s ops
  | _, [], _ => trivial
  | _, _ :: _, h => ⟨fun out s' hs => (h.2 out s' hs).head, fun out s' hs => (h.2 out s' hs).next⟩

theorem steps_true (s : S) : ∀ ops : List Op, Steps step (fun _ _ => True) s ops
  | [] => trivial
  | _ :: ops => ⟨trivial, fun _ s' _ => steps_true s' ops⟩

theorem steps_of_forall {Q : S → Op → Prop} : ∀ {s : S} {ops : List Op}, (∀ op ∈ ops, ∀ s, Q s op) →
    Steps step Q s ops
  | _, [], _ => trivial
  | s, op :: _, h =>
    ⟨h op List.mem_cons_self s, fun _ _ _ => steps_of_forall fun op ho => h op (List.mem_cons_of_mem _ ho)⟩

/-- Steps in `Q` keep an invariant. -/
theorem inv_of_steps {I : S → Prop} {Q : S → Op → Prop}
    (hstep : ∀ s op out s', I s → Q s op → step s op = some (out, s') → I s') :
    ∀ {s s' : S} (ops : List Op), I s → Steps step Q s ops → run step s ops = some s' → I s'
  | s, s', [], hi, _, h => by
    cases h
    exact hi
  | s, s', op :: ops, hi, hq, h => by
    obtain ⟨⟨out, t⟩, ht, h⟩ := Option.bind_eq_some_iff.mp h
    exact inv_of_steps hstep ops (hstep s op out t hi hq.1 ht) (hq.2 out t ht) h

/-- The same, at every state of the run. -/
theorem along_of_steps {I : S → Prop} {Q : S → Op → Prop} (hP : ∀ s, I s → P s)
    (hstep : ∀ s op out s', I s → Q s op → step s op = some (out, s') → I s') :
    ∀ {s : S} (ops : List Op), I s → Steps step Q s ops → Along step P s ops
  | s, [], hi, _ => hP s hi
  | s, op :: ops, hi, hq =>
    ⟨hP s hi, fun out s' hs => along_of_steps hP hstep ops (hstep s op out s' hi hq.1 hs) (hq.2 out s' hs)⟩

/-- Steps in `Q` do not go wrong. -/
theorem run_of_steps {I : S → Prop} {Q : S → Op → Prop}
    (hstep : ∀ s op, I s → Q s op → ∃ out s', step s op = some (out, s') ∧ I s') :
    ∀ {s : S} (ops : List Op), I s → Steps step Q s ops → ∃ s', run step s ops = some s' ∧ I s'
  | s, [], hi, _ => ⟨s, rfl, hi⟩
  | s, op :: ops, hi, hq => by
    obtain ⟨out, s', hs, hi'⟩ := hstep s op hi hq.1
    obtain ⟨t, ht, hit⟩ := run_of_steps hstep ops hi' (hq.2 out s' hs)
    exact ⟨t, by rw [run_cons hs, ht], hit⟩

/-- A set that no step leads back to, and that the steps in `Q` stay in, is
where a run ends whose steps are all in `Q`. -/
theorem end_iff_steps {I G : S → Prop} {Q : S → Op → Prop}
    (hstep : ∀ s op out s', I s → step s op = some (out, s') → I s' ∧ (G s' ↔ G s ∧ Q s op)) :
    ∀ {s s' : S} (ops : List Op), I s → run step s ops = some s' → (G s' ↔ G s ∧ Steps step Q s ops)
  | s, s', [], _, h => by
    cases h
    exact (and_iff_left trivial).symm
  | s, s', op :: ops, hi, h => by
    obtain ⟨⟨out, t⟩, ht, h⟩ := Option.bind_eq_some_iff.mp h
    obtain ⟨hi', hg⟩ := hstep s op out t hi ht
    rw [end_iff_steps hstep ops hi' h, hg, steps_cons ht, and_assoc]

/-- Steps in `Q` keep `J`, whose states are in `B`, and the others leave `B`. -/
theorem along_iff_steps {J B : S → Prop} {A Q : S → Op → Prop} (hB : ∀ s, J s → B s)
    (hstep : ∀ s op out s', J s → A s op → step s op = some (out, s') → (Q s op → J s') ∧ (B s' → Q s op)) :
    ∀ {s s' : S} (ops : List Op), J s → Steps step A s ops → run step s ops = some s' →
      (Along step B s ops ↔ Steps step Q s ops)
  | s, _, [], hj, _, _ => iff_of_true (hB s hj) trivial
  | s, s', op :: ops, hj, ha, h => by
    obtain ⟨⟨out, t⟩, ht, h⟩ := Option.bind_eq_some_iff.mp h
    obtain ⟨hkeeps, hleaves⟩ := hstep s op out t hj ha.1 ht
    have rest (hq : Q s op) := along_iff_steps hB hstep ops (hkeeps hq) (ha.2 out t ht) h
    rw [along_cons ht, steps_cons ht]
    constructor
    · rintro ⟨-, halong⟩
      have hq := hleaves halong.head
      exact ⟨hq, (rest hq).mp halong⟩
    · rintro ⟨hq, hsteps⟩
      exact ⟨hB s hj, (rest hq).mpr hsteps⟩

/-- What holds of a step in `Q` from each state of an invariant. -/
theorem steps_of_steps {I : S → Prop} {Q Q' : S → Op → Prop} (hQ : ∀ s op, I s → Q s op → Q' s op)
    (hstep : ∀ s op out s', I s → Q s op → step s op = some (out, s') → I s') :
    ∀ {s : S} (ops : List Op), I s → Steps step Q s ops → Steps step Q' s ops
  | _, [], _, _ => trivial
  | s, op :: ops, hi, hq => ⟨hQ s op hi hq.1, fun out s' hs =>
      steps_of_steps hQ hstep ops (hstep s op out s' hi hq.1 hs) (hq.2 out s' hs)⟩

theorem le_peak (step : S → Op → Option (Out × S)) (f : S → Nat) (s : S) : ∀ ops : List Op, f s ≤ peak step f s ops
  | [] => Nat.le_refl _
  | _ :: _ => Nat.le_max_left ..

/-- A high-water mark: it is raised to `f` at each step, and no further. -/
theorem peak_of_steps {I : S → Prop} {Q : S → Op → Prop} {f g : S → Nat}
    (hstep : ∀ s op out s', I s → Q s op → step s op = some (out, s') → I s' ∧ g s' = max (g s) (f s')) :
    ∀ {s s' : S} (ops : List Op), I s → f s ≤ g s → Steps step Q s ops → run step s ops = some s' →
      I s' ∧ g s' = max (g s) (peak step f s ops)
  | s, s', [], hi, hle, _, h => by
    cases h
    exact ⟨hi, (Nat.max_eq_left hle).symm⟩
  | s, s', op :: ops, hi, hle, hq, h => by
    obtain ⟨⟨out, t⟩, ht, h⟩ := Option.bind_eq_some_iff.mp h
    obtain ⟨hi', hg⟩ := hstep s op out t hi hq.1 ht
    have ih := peak_of_steps hstep ops hi' (by omega) (hq.2 out t ht) h
    have hfirst := le_peak step f t ops
    refine ⟨ih.1, ?_⟩
    rw [ih.2, hg, peak, ht, Option.elim_some]
    dsimp only
    omega

/-- A machine follows another's run. -/
theorem run_follow {step' : T → Op → Option (Out × T)} {R : S → T → Prop} {Q : S → Op → Prop}
    (hstep : ∀ s t op out s', R s t → Q s op → step s op = some (out, s') →
      ∃ out' t', step' t op = some (out', t') ∧ R s' t') :
    ∀ {s s' : S} {t : T} (ops : List Op), R s t → Steps step Q s ops → run step s ops = some s' →
      ∃ t', run step' t ops = some t' ∧ R s' t'
  | s, s', t, [], hr, _, h => by
    cases h
    exact ⟨t, rfl, hr⟩
  | s, s', t, op :: ops, hr, hq, h => by
    obtain ⟨⟨out, s₁⟩, hs, h⟩ := Option.bind_eq_some_iff.mp h
    obtain ⟨out', t₁, ht, hr₁⟩ := hstep s t op out s₁ hr hq.1 hs
    obtain ⟨t', ht', hr'⟩ := run_follow hstep ops hr₁ (hq.2 out s₁ hs) h
    exact ⟨t', by rw [run_cons ht, ht'], hr'⟩

/-- Every step of a fold is in `Q`. -/
def Folds (f : T → Op → T) (Q : T → Op → Prop) : T → List Op → Prop
  | _, [] => True
  | t, op :: ops => Q t op ∧ Folds f Q (f t op) ops

instance {f : T → Op → T} {Q : T → Op → Prop} [∀ t op, Decidable (Q t op)] :
    ∀ (t : T) (ops : List Op), Decidable (Folds f Q t ops)
  | _, [] => .isTrue trivial
  | t, op :: ops => @instDecidableAnd _ _ _ (instDecidableFolds (f t op) ops)

theorem folds_append {f : T → Op → T} {Q : T → Op → Prop} : ∀ {t : T} {ops ops' : List Op}, Folds f Q t ops →
    Folds f Q (ops.foldl f t) ops' → Folds f Q t (ops ++ ops')
  | _, [], _, _, h' => h'
  | _, _ :: _, _, h, h' => ⟨h.1, folds_append h.2 h'⟩

theorem folds_concat {f : T → Op → T} {Q : T → Op → Prop} : ∀ {t : T} {ops : List Op} {op : Op},
    Folds f Q t (ops ++ [op]) ↔ Folds f Q t ops ∧ Q (ops.foldl f t) op
  | _, [], _ => by
    simp only [List.nil_append, List.foldl_nil, Folds]
    exact and_comm
  | t, x :: ops, op => by
    rw [List.cons_append, Folds, Folds, folds_concat, and_assoc]
    rfl

/-- A fold, split before any of its steps. -/
theorem folds_iff {f : T → Op → T} {Q : T → Op → Prop} : ∀ {t : T} {ops : List Op}, Folds f Q t ops ↔
    ∀ before op rest, ops = before ++ op :: rest → Q (before.foldl f t) op
  | t, [] => ⟨fun _ before op rest e => by simp at e, fun _ => trivial⟩
  | t, op :: ops => by
    rw [Folds, folds_iff]
    constructor
    · rintro ⟨hq, h⟩ before o rest e
      cases before with
      | nil =>
        cases e
        exact hq
      | cons x before =>
        cases e
        exact h before o rest rfl
    · intro h
      exact ⟨h [] op ops rfl, fun before o rest e => h (op :: before) o rest (by rw [e]; rfl)⟩

/-- What the fold of a machine in lockstep with it shows of its steps. -/
theorem steps_of_folds {R : S → T → Prop} {f : T → Op → T} {A : Op → Prop} {Q : S → Op → Prop} {Q' : T → Op → Prop}
    (hstep : ∀ s t op, R s t → P s → A op → Q s op → ∃ out s', step s op = some (out, s') ∧ R s' (f t op))
    (hQ : ∀ s t op, R s t → Q' t op → Q s op) :
    ∀ {s : S} {t : T} (ops : List Op), R s t → (∀ op ∈ ops, A op) → Along step P s ops → Folds f Q' t ops →
      Steps step Q s ops
  | _, _, [], _, _, _, _ => trivial
  | s, t, op :: ops, hr, ha, hp, hq => by
    refine ⟨hQ s t op hr hq.1, fun out s' hs => ?_⟩
    obtain ⟨_, _, hs', hr'⟩ := hstep s t op hr hp.1 (ha op List.mem_cons_self) (hQ s t op hr hq.1)
    cases hs.symm.trans hs'
    exact steps_of_folds hstep hQ ops hr' (fun o ho => ha o (List.mem_cons_of_mem _ ho)) (hp.2 _ _ hs) hq.2

/-! ## Both ends of a run -/

/-- A run with its operations, its answers and both its ends. -/
inductive Exec (step : S → Op → Option (Out × S)) : S → List Op → List Out → S → Prop
  | nil (s : S) : Exec step s [] [] s
  | cons {s s₁ s' : S} {op : Op} {ops : List Op} {out : Out} {outs : List Out} (h : step s op = some (out, s₁))
    (hs : Exec step s₁ ops outs s') : Exec step s (op :: ops) (out :: outs) s'

theorem exec_of_run : ∀ {s s' : S} {ops : List Op}, run step s ops = some s' →
    ∃ outs, trace step s ops = some outs ∧ Exec step s ops outs s'
  | s, s', [], h => by
    cases h
    exact ⟨[], rfl, .nil s⟩
  | s, s', op :: ops, h => by
    obtain ⟨⟨out, s₁⟩, hs, h⟩ := Option.bind_eq_some_iff.mp h
    obtain ⟨outs, ht, he⟩ := exec_of_run h
    exact ⟨out :: outs, trace_cons hs ht, .cons hs he⟩

namespace Exec

variable {s s₁ s' : S} {ops ops' : List Op} {outs outs' : List Out}

theorem append (h : Exec step s ops outs s₁) (h' : Exec step s₁ ops' outs' s') :
    Exec step s (ops ++ ops') (outs ++ outs') s' := by
  induction h with
  | nil => exact h'
  | cons h _ ih => exact .cons h (ih h')

theorem run (h : Exec step s ops outs s') : Runs.run step s ops = some s' := by
  induction h with
  | nil => rfl
  | cons h _ ih => rw [run_cons h, ih]

theorem trace (h : Exec step s ops outs s') : Runs.trace step s ops = some outs := by
  induction h with
  | nil => rfl
  | cons h _ ih => exact trace_cons h ih

theorem length_eq (h : Exec step s ops outs s') : outs.length = ops.length := by
  induction h with
  | nil => rfl
  | cons _ _ ih => rw [List.length_cons, List.length_cons, ih]

/-- One more step. -/
theorem concat (h : Exec step s ops outs s₁) {op : Op} {out : Out} (hs : step s₁ op = some (out, s')) :
    Exec step s (ops ++ [op]) (outs ++ [out]) s' := h.append (.cons hs (.nil s'))

/-- The states that one more step adds. -/
theorem along_concat (h : Exec step s ops outs s₁) {op : Op} {out : Out} (hs : step s₁ op = some (out, s')) :
    Along step P s (ops ++ [op]) ↔ Along step P s ops ∧ P s' := by
  induction h with
  | nil s₁ => exact along_cons hs
  | cons h₁ _ ih => rw [List.cons_append, along_cons h₁, along_cons h₁, ih hs, and_assoc]

end Exec

/-- What a run collects of its operations and answers, in step with an
invariant that knows what has been collected. -/
theorem exec_collect {X : Type} {g : Op → Out → List X} {R : S → List X → Prop} {A : Op → Prop}
    (hstep : ∀ s xs op, R s xs → P s → A op → ∃ out s', step s op = some (out, s') ∧ R s' (xs ++ g op out)) :
    ∀ {s : S} (xs : List X) (ops : List Op), R s xs → (∀ op ∈ ops, A op) → Along step P s ops →
      ∃ outs s', Exec step s ops outs s' ∧ R s' (xs ++ (ops.zip outs).flatMap fun p => g p.1 p.2) ∧ P s'
  | s, xs, [], hr, _, hp => ⟨[], s, .nil s, by rwa [List.zip_nil_left, List.flatMap_nil, List.append_nil], hp⟩
  | s, xs, op :: ops, hr, ha, hp => by
    obtain ⟨out, s₁, hs, hr₁⟩ := hstep s xs op hr hp.1 (ha op List.mem_cons_self)
    obtain ⟨outs, s', he, hr', hp'⟩ := exec_collect hstep _ ops hr₁ (fun o ho => ha o (List.mem_cons_of_mem _ ho))
      (hp.2 _ _ hs)
    rw [List.append_assoc] at hr'
    exact ⟨out :: outs, s', .cons hs he, hr', hp'⟩

/-- A run in step with an invariant that knows what has been answered. -/
theorem exec_of_inv {R : S → List Out → Prop}
    (hstep : ∀ s outs op, R s outs → P s → ∃ out s', step s op = some (out, s') ∧ R s' (outs ++ [out])) :
    ∀ {s : S} (outs : List Out) (ops : List Op), R s outs → Along step P s ops →
      ∃ outs' s', Exec step s ops outs' s' ∧ R s' (outs ++ outs') ∧ P s'
  | s, outs, [], hr, hp => ⟨[], s, .nil s, by rwa [List.append_nil], hp⟩
  | s, outs, op :: ops, hr, hp => by
    obtain ⟨out, s₁, hs, hr₁⟩ := hstep s outs op hr hp.1
    obtain ⟨outs', s', he, hr', hp'⟩ := exec_of_inv hstep _ ops hr₁ (hp.2 _ _ hs)
    rw [List.append_assoc] at hr'
    exact ⟨out :: outs', s', .cons hs he, hr', hp'⟩

/-! ## Endless runs -/

/-- The first `n` operations of an endless run. -/
def first (ops : ℕ → Op) (n : ℕ) : List Op := (List.range n).map ops

theorem first_succ (ops : ℕ → Op) (n : ℕ) : first ops (n + 1) = first ops n ++ [ops n] := by
  rw [first, List.range_succ, List.map_append, List.map_singleton, first]

/-- A run whose parts all go through passes through a sequence of states. -/
theorem exists_states {I : S → Prop} {s : S} {ops : ℕ → Op}
    (h : ∀ n, ∃ s', run step s (first ops n) = some s' ∧ I s') : ∃ st : ℕ → S, ∀ n,
      run step s (first ops n) = some (st n) ∧ I (st n) ∧ ∃ out, step (st n) (ops n) = some (out, st (n + 1)) := by
  choose st hrun hst using h
  refine ⟨st, fun n => ⟨hrun n, hst n, ?_⟩⟩
  have hnext := hrun (n + 1)
  rw [first_succ, run_append, hrun n, Option.bind_some] at hnext
  obtain ⟨⟨out, s'⟩, hs, hlast⟩ := Option.bind_eq_some_iff.mp hnext
  cases hlast
  exact ⟨out, hs⟩

/-! ## Machines that step alike -/

section Congr

variable {step' : S → Op → Option (Out × S)}

theorem trace_congr : ∀ {ops : List Op}, (∀ op ∈ ops, ∀ s, step s op = step' s op) → ∀ s : S,
    trace step s ops = trace step' s ops
  | [], _, _ => rfl
  | op :: ops, h, s => by
    rw [trace, trace, h op List.mem_cons_self]
    refine congrArg _ (funext fun ⟨out, t⟩ => ?_)
    show (trace step t ops).bind _ = _
    rw [trace_congr fun o ho => h o (List.mem_cons_of_mem _ ho)]
    rfl

theorem along_congr : ∀ {ops : List Op}, (∀ op ∈ ops, ∀ s, step s op = step' s op) → ∀ {s : S},
    Along step P s ops → Along step' P s ops
  | [], _, _, hp => hp
  | op :: ops, h, s, hp => by
    refine ⟨hp.1, fun out s' hs => ?_⟩
    exact along_congr (fun o ho => h o (List.mem_cons_of_mem _ ho))
      (hp.2 out s' ((h op List.mem_cons_self s).trans hs))

end Congr

end Runs
