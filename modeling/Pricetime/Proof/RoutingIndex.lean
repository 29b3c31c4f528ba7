import Pricetime.Proof.FeedRefines
import Pricetime.Proof.RoutingSteps

/-!
# The routing index along any run of messages

`Agrees m`: the index routes an id to a book if and only if it rests there,
and counts what rests. An add or a replace breaks it if it inserts an id into
one book while that rests in another, since the check for duplicates is each
book's own: that is `Clash`. All other messages, well formed or not, keep it
(`routing_agrees`), and fresh references do not clash (`not_clash`).
-/

namespace Pricetime

open Itch (Message Replayer ReplayEvent Complete decode)

namespace MultiBook

section Agrees

variable {L M : Type} [IdMap M] {m : MultiBook L M}

structure Agrees (m : MultiBook L M) : Prop where
  routes : ∀ id, ∃ o, m.bookForOrder id = some o ∧ ∀ p, o = some p ↔ m.RestsIn p id
  tracked : m.trackedOrders = m.openOrders

/-- No id rests in two books. -/
theorem Agrees.unique (h : Agrees m) {p q : BookPtr} {id : OrderId} (hp : m.RestsIn p id) (hq : m.RestsIn q id) :
    p = q := by
  obtain ⟨o, -, ho⟩ := h.routes id
  exact Option.some.inj (((ho p).mpr hp).symm.trans ((ho q).mpr hq))

end Agrees

variable {L M : Type} [Ladder L] [IdMap M] [LawfulIdMap M] {m : MultiBook L M}

theorem Sound.agrees_iff (h : Sound m) : Agrees m ↔ Indexed m := by
  constructor
  · intro ha
    refine ⟨h, fun id p => ?_, ha.tracked⟩
    obtain ⟨o, ho, hp⟩ := ha.routes id
    rw [h.bookForOrder_eq, Option.some.injEq] at ho
    rw [ho, hp, h.restsIn_iff]
  · intro hi
    refine ⟨fun id => ⟨m.ownerOf id, h.bookForOrder_eq id, fun p => ?_⟩, hi.size⟩
    rw [hi.directs id p, h.restsIn_iff]

theorem Refines.restsIn_iff [LawfulLadder L] {accepts : Price → Bool} {a : Spec.MultiBook} (h : Refines accepts m a)
    {p : BookPtr} {s : Symbol} (hp : a.symbols[p]? = some s) {id : OrderId} :
    m.RestsIn p id ↔ id ∈ (a.book s).ids := by
  rw [← h.symbols, MultiBook.symbols, List.getElem?_map] at hp
  obtain ⟨⟨s, b⟩, hb, rfl⟩ := Option.map_eq_some_iff.mp hp
  rw [RestsIn, deref_eq hb, ← (h.book hb).rests_iff]
  simp

end MultiBook

namespace Itch.Replayer

/-- A message inserts an id into one book that rests in another. -/
def Clash {L M : Type} [Ladder L] [IdMap M] (r : Replayer L M) (msg : List UInt8) : Prop :=
  ∃ m ∈ decode msg, ∃ p id, r.Inserts m p id ∧ ∃ q, q ≠ p ∧ r.books.RestsIn q id

variable {L M : Type} [Ladder L] [LawfulLadder L] [IdMap M] [LawfulIdMap M] {r : Replayer L M}
  {out : List ReplayEvent} {r' : Replayer L M}

theorem agrees_iff_of_apply (h : r.books.Agrees) (hs : r.books.Sound) {msg : List UInt8}
    (hr : r.apply msg = some (out, r')) : r'.books.Sound ∧ (r'.books.Agrees ↔ ¬ r.Clash msg) := by
  have hi := hs.agrees_iff.mp h
  obtain ⟨m, hm, he⟩ := apply_effect hi hr
  have hs' := he.sound
  refine ⟨hs', ?_⟩
  rw [hs'.agrees_iff, he.indexed_iff hi, Clash, hm]
  simp

/-! ## Runs -/

omit [LawfulLadder L] in
theorem new_agrees {ladder : L} (h₀ : new ladder = some r) :
    r.books.Sound ∧ r.books.Agrees ∧ r.books.books = [] := by
  obtain ⟨o, ho, hok, hl, hs, -⟩ := OpenAddressMap.new_spec (V := BookPtr) hash
  have hr : r = { books := { owner := o, ladder } } := by
    rw [new, MultiBook.new, ho] at h₀
    exact (Option.some.inj h₀).symm
  subst hr
  have hsound : ({ owner := o, ladder } : MultiBook L M).Sound := ⟨by simp, by simp, hok⟩
  refine ⟨hsound, hsound.agrees_iff.mpr ⟨hsound, fun id p => ?_, hs⟩, rfl⟩
  rw [MultiBook.ownerOf, hl]
  simp [MultiBook.orders]

/-- As long as no message inserts an id into one book while it rests in
another, the index agrees with the books after every message; and the first
that does so breaks it. Fewer than `2^32` orders at a time, and the run goes
through. -/
theorem routing_agrees {ladder : L} (hv : Vacant ladder) {r₀ : Replayer L M} (h₀ : new ladder = some r₀)
    (symbols : List Symbol) (msgs : List (List UInt8))
    (hsteps : Runs.Steps apply (fun r msg => ¬ r.Clash msg) (r₀.trackOnly symbols) msgs) :
    Runs.Along apply (fun r => r.books.Agrees) (r₀.trackOnly symbols) msgs ∧
      (∀ r, Runs.run apply (r₀.trackOnly symbols) msgs = some r → ∀ msg out r', r.apply msg = some (out, r') →
        (r'.books.Agrees ↔ ¬ r.Clash msg)) ∧
      ((∀ msg ∈ msgs, Complete msg) → Runs.Along apply (fun r => r.books.Few) (r₀.trackOnly symbols) msgs →
        ∃ r, Runs.run apply (r₀.trackOnly symbols) msgs = some r) := by
  obtain ⟨hs, ha, -⟩ := new_agrees h₀
  have hi : (r₀.trackOnly symbols).books.Sound ∧ (r₀.trackOnly symbols).books.Agrees := ⟨hs, ha⟩
  have hstep : ∀ (r : Replayer L M) msg out r', r.books.Sound ∧ r.books.Agrees → ¬ r.Clash msg →
      r.apply msg = some (out, r') → r'.books.Sound ∧ r'.books.Agrees := by
    intro r msg out r' h hno hr
    obtain ⟨hs, ha⟩ := agrees_iff_of_apply h.2 h.1 hr
    exact ⟨hs, ha.mpr hno⟩
  refine ⟨Runs.along_of_steps (fun _ h => h.2) hstep msgs hi hsteps, ?_, run_of_few hv h₀ symbols msgs⟩
  intro r hr msg out r' hr'
  have h := Runs.inv_of_steps hstep msgs hi hsteps hr
  exact (agrees_iff_of_apply h.2 h.1 hr').2

omit [LawfulLadder L] in
/-- Fresh references do not clash. What is fresh may be judged on books that
have more. -/
theorem not_clash {u : Replayer L M} (h : r.books.Indexed) (hsub : ∀ id, r.books.Rests id → u.books.Rests id)
    {msg : List UInt8} (hfresh : Fresh u msg) : ¬ r.Clash msg := by
  have hrests : ∀ {q id}, r.books.RestsIn q id → u.books.Rests id := by
    intro q id ⟨b, hb, hr⟩
    obtain ⟨e, he, rfl⟩ := Option.map_eq_some_iff.mp hb
    exact hsub id ⟨e, List.mem_of_getElem? he, hr⟩
  rintro ⟨m, hm, p, id, hi, q, hne, hq⟩
  rw [Fresh, hm] at hfresh
  cases m with
  | add a =>
    obtain ⟨rfl, -, -, ⟨-, hs, -⟩, -⟩ := hi
    exact hfresh hs (hrests hq)
  | replace a =>
    obtain ⟨rfl, hp, ⟨-, hs, -⟩, -⟩ := hi
    rw [h.sound.bookForOrder_eq, Option.some.injEq] at hp
    have hp : r.books.RestsIn p a.originalReference := h.sound.restsIn_iff.mpr ((h.directs _ p).mp hp)
    by_cases e : a.newReference = a.originalReference
    · -- the original itself, which rests in one book only
      rw [e] at hq
      exact hne (h.directs.unique (h.sound.restsIn_iff.mp hq) (h.sound.restsIn_iff.mp hp))
    · exact hfresh hs (hrests hp) e (hrests hq)
  | executed a => exact hi
  | cancel a => exact hi
  | delete a => exact hi
  | trade timestamp => exact hi
  | systemEvent a => exact hi
  | administrative => exact hi

theorem indexed_of_apply (h : r.books.Indexed) {msg : List UInt8} (hno : ¬ r.Clash msg)
    (hr : r.apply msg = some (out, r')) : r'.books.Indexed := by
  obtain ⟨hs, ha⟩ := agrees_iff_of_apply (h.sound.agrees_iff.mpr h) h.sound hr
  exact hs.agrees_iff.mp (ha.mpr hno)

/-- A run that is fresh on the list has no clash. -/
theorem Feeds.steps_not_clash {accepts : Price → Bool} {os : List Spec.FeedOrder} (hacc : ∀ p, accepts p = true)
    (h : Feeds accepts r os) (hi : r.books.Indexed) (msgs : List (List UInt8)) (hc : ∀ msg ∈ msgs, Complete msg)
    (hfew : Runs.Along apply (fun r => r.books.Few) r msgs)
    (hfresh : Runs.Folds Spec.FeedOrder.receive (fun os msg => ∀ m ∈ decode msg, Spec.FeedOrder.Fresh os m) os msgs) :
    Runs.Steps apply (fun r msg => ¬ r.Clash msg) r msgs := by
  have hsteps : Runs.Steps apply (fun r msg => Fresh r msg ∧ ¬ r.Clash msg) r msgs := by
    refine Runs.steps_of_folds (R := fun r os => Feeds accepts r os ∧ r.books.Indexed) ?_ ?_ msgs ⟨h, hi⟩ hc hfew hfresh
    · intro r os msg ⟨h, hi⟩ hb hc hq
      obtain ⟨out, r', hr, h'⟩ := h.receive hacc hb hc hq.1
      exact ⟨out, r', hr, h', indexed_of_apply hi hq.2 hr⟩
    · intro r os msg ⟨h, hi⟩ hq
      have hf := (h.fresh_iff msg).mpr hq
      exact ⟨hf, not_clash hi (fun _ hr => hr) hf⟩
  exact hsteps.imp fun _ _ hq => hq.2

/-- Two symbols, an execution in part, and a replacement. -/
theorem routing_agrees_two : ∃ (calls : List WriterCall) (r₀ r : Replayer MapLadder OpenAddressIdMap),
    calls = [.addOrder 0 1 .bid 100 {} 5, .addOrder 0 2 .ask 70 ⟨.replicate 8 'A'.toUInt8⟩ 5,
      .orderExecuted 0 1 30 7, .orderReplace 0 1 3 50 6, .orderDelete 0 2] ∧
    new {} = some r₀ ∧ Runs.run apply r₀ (calls.map WriterCall.body) = some r ∧
    Runs.Along apply (fun r => r.books.Agrees) r₀ (calls.map WriterCall.body) := by
  obtain ⟨r₀, hr₀, h⟩ := new_refines (M := OpenAddressIdMap) MapLadder.vacant
  have hfew := h.along_few_of_empty rfl (List.map WriterCall.body
    [.addOrder 0 1 .bid 100 {} 5, .addOrder 0 2 .ask 70 ⟨.replicate 8 'A'.toUInt8⟩ 5,
      .orderExecuted 0 1 30 7, .orderReplace 0 1 3 50 6, .orderDelete 0 2]) (by decide)
  have hfeeds : Feeds (Ladder.validPrice ({} : MapLadder)) r₀ [] := ⟨⟨{}, h, Spec.Rel.empty⟩, h.filter⟩
  have hr : r₀.trackOnly [] = r₀ := trackOnly_nil h.filter
  obtain ⟨hsound, hagrees, -⟩ := new_agrees hr₀
  have hsteps := hfeeds.steps_not_clash (fun _ => rfl) (hsound.agrees_iff.mp hagrees) _ (body_complete _) hfew
    (by decide)
  obtain ⟨halong, -, hrun⟩ := routing_agrees MapLadder.vacant hr₀ [] _ (hr.symm ▸ hsteps)
  rw [hr] at halong hrun
  obtain ⟨r, hr⟩ := hrun (body_complete _) hfew
  exact ⟨_, r₀, r, rfl, hr₀, hr, halong⟩

/-- One reference on the books of two symbols. -/
theorem routing_disagrees : ∃ (calls : List WriterCall) (r₀ r : Replayer MapLadder OpenAddressIdMap),
    calls = [.addOrder 0 1 .bid 100 {} 5, .addOrder 0 1 .bid 100 ⟨.replicate 8 'A'.toUInt8⟩ 5] ∧
    new {} = some r₀ ∧ (∀ msg ∈ calls.map WriterCall.body, Complete msg) ∧
    Runs.Along apply (fun r => r.books.Few) r₀ (calls.map WriterCall.body) ∧
    Runs.run apply r₀ (calls.map WriterCall.body) = some r ∧ ¬ r.books.Agrees := by
  obtain ⟨r₀, hr₀, h⟩ := new_refines (M := OpenAddressIdMap) MapLadder.vacant
  have hfew := h.along_few_of_empty rfl (List.map WriterCall.body
    [.addOrder 0 1 .bid 100 {} 5, .addOrder 0 1 .bid 100 ⟨.replicate 8 'A'.toUInt8⟩ 5]) (by decide)
  have hc := body_complete [.addOrder 0 1 .bid 100 {} 5, .addOrder 0 1 .bid 100 ⟨.replicate 8 'A'.toUInt8⟩ 5]
  obtain ⟨r, hr, ha, -⟩ := Runs.run_foldl (fun _ _ _ h hb hc _ => h.receive hb hc) _ h hc hfew (Runs.steps_true _ _)
  refine ⟨_, r₀, r, rfl, hr₀, hc, hfew, hr, fun hagrees => ?_⟩
  have h₁ : r.books.RestsIn 0 1 := (ha.books.restsIn_iff (s := {}) (by decide)).mpr (by decide)
  have h₂ : r.books.RestsIn 1 1 := (ha.books.restsIn_iff (s := ⟨.replicate 8 'A'.toUInt8⟩) (by decide)).mpr (by decide)
  exact absurd (hagrees.unique h₁ h₂) (by decide)

end Itch.Replayer

end Pricetime
