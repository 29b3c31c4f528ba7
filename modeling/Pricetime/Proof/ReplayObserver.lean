import Pricetime.Proof.DenseLadder
import Pricetime.Proof.RoutingIndex

/-!
# The replayer's observer

An observer that keeps the shares left of each order, from the calls that a
replayer makes, knows what rests in all books (`Sees`), as long as no id rests
in two of them and no replace takes an order away without putting one in its
place. The latter is not told to the observer: `observer_sees`.
-/

namespace Pricetime

open Directory (put Directs union)
open Itch (Message Replayer ReplayEvent Complete decode)
open Spec (ObserverMap)

namespace MultiBook

variable {L M : Type} [Ladder L] [IdMap M]

/-- The map has exactly the orders that rest in the books. -/
def Sees (m : MultiBook L M) (map : ObserverMap) : Prop :=
  ∀ id qty, map id = some qty ↔ ∃ e ∈ m.books, e.2.Holds id qty

variable [LawfulIdMap M] {m m' : MultiBook L M} {p : BookPtr} {id : OrderId}

/-- The shares left of each order. -/
def remaining (m : MultiBook L M) (id : OrderId) : Option Qty := (union m.ownerOf m.orders id).map OrderData.qty

theorem Indexed.sees_iff (h : Indexed m) {map : ObserverMap} : m.Sees map ↔ map = m.remaining := by
  have hiff : ∀ id qty, m.remaining id = some qty ↔ ∃ e ∈ m.books, e.2.Holds id qty := by
    intro id qty
    rw [remaining, Option.map_eq_some_iff]
    constructor
    · rintro ⟨d, hd, rfl⟩
      obtain ⟨p, hp⟩ := (Directory.union_eq_some h.directs).mp hd
      obtain ⟨⟨s, b⟩, hb, ho⟩ := Option.bind_eq_some_iff.mp hp
      exact ⟨(s, b), List.mem_of_getElem? hb, ((h.sound.inv hb).holds_iff id _).mpr (by rw [ho]; rfl)⟩
    · rintro ⟨⟨s, b⟩, he, hh⟩
      obtain ⟨p, hp⟩ := List.mem_iff_getElem?.mp he
      obtain ⟨d, hd, hq⟩ := Option.map_eq_some_iff.mp (((h.sound.inv hp).holds_iff id qty).mp hh)
      exact ⟨d, (Directory.union_eq_some h.directs).mpr ⟨p, by rw [orders_at hp]; exact hd⟩, hq⟩
  constructor
  · intro hs
    funext id
    exact Option.ext fun qty => (hs id qty).trans (hiff id qty).symm
  · intro e
    rw [e]
    exact hiff

/-- One order changes, and so does what is left of it. -/
theorem Indexed.remaining_put (h : Indexed m) (h' : Indexed m') {v : Option OrderData}
    (ho : m'.orders = put m.orders p id v) (hp : ∀ q, q ≠ p → m.orders q id = none) :
    m'.remaining = Function.update m.remaining id (v.map OrderData.qty) := by
  have hd := h'.directs
  rw [ho] at hd
  have hu := Directory.union_put h.directs hd hp
  funext id'
  rw [remaining, ho, hu]
  by_cases e : id' = id
  · rw [e, Function.update_self, Function.update_self]
  · rw [Function.update_of_ne e, Function.update_of_ne e, remaining]

theorem Indexed.remaining_left (h : Indexed m) (ho : m.ownerOf id = some p) (hl : Left p id m m') :
    m'.remaining = Function.update m.remaining id none :=
  h.remaining_put (h.left ho hl) hl.orders (h.alone ho)

theorem Indexed.remaining_entered (h : Indexed m) (h' : Indexed m') {d : OrderData} (he : Entered p id d m m') :
    m'.remaining = Function.update m.remaining id (some d.qty) :=
  h.remaining_put h' he.orders ((h.entered_iff he).mp h')

theorem Indexed.remaining_at (h : Indexed m) {d : OrderData} (hd : m.orders p id = some d) :
    m.remaining id = some d.qty := by
  rw [remaining, (Directory.union_eq_some h.directs).mpr ⟨p, hd⟩, Option.map_some]

end MultiBook

theorem OrderData.less_qty {d d' : OrderData} {shares : Qty} (h : d.less shares = some d') :
    d'.qty = d.qty - min shares d.qty := by
  rw [less] at h
  split at h
  · rename_i hs
    cases h
    rw [min_eq_ite]
    rcases hs with rfl | hlt
    · split
      · rfl
      · rename_i hn
        have hz : d.qty = 0 := UInt32.le_antisymm (UInt32.not_lt.mp hn) UInt32.zero_le
        simp [hz]
    · rw [if_pos hlt]
  · cases h

namespace Itch.Replayer

variable {L M : Type} [Ladder L] [LawfulLadder L] [IdMap M] [LawfulIdMap M] {r : Replayer L M}
  {out : List ReplayEvent}

omit [LawfulLadder L] in
/-- The observer hears all of a message's effect, unless it withdraws an
order. -/
theorem Effect.heard_iff {m' : MultiBook L M} {m : Message} (he : Effect r m' m out) (h : r.books.Indexed)
    (h' : m'.Indexed) : out.foldl ObserverMap.hear r.books.remaining = m'.remaining ↔ ¬ r.Withdraws m := by
  cases he with
  | same hs hno =>
    refine iff_of_true ?_ hno.2
    funext id
    rw [List.foldl_nil, MultiBook.remaining, MultiBook.remaining, hs.ownerOf, hs.orders]
  | added hi he hd =>
    refine iff_of_true ?_ nofun
    rw [h.remaining_entered h' he, hd]
    rfl
  | reduced hno ho hd hl hc =>
    refine iff_of_true ?_ hno.2
    rw [h.remaining_put h' hc.orders (h.alone ho), Option.map_some, OrderData.less_qty hl]
    simp only [List.foldl_cons, List.foldl_nil, ObserverMap.hear, h.remaining_at hd, Option.map_some]
  | consumed hno ho hd hl =>
    refine iff_of_true ?_ hno.2
    rw [h.remaining_left ho hl]
    exact Function.update_idem ..
  | removed hno ho hl =>
    refine iff_of_true ?_ hno.2
    rw [h.remaining_left ho hl]
    rfl
  | @replaced a p d m₁ hi ho hl he hd =>
    refine iff_of_true ?_ fun hw => ?_
    · rw [(h.left ho hl).remaining_entered h' he, h.remaining_left ho hl, hd]
      rfl
    · obtain ⟨q, hq, hno⟩ := hw
      have hp := hi.2.1
      cases hp.symm.trans hq
      exact hno hi
  | @withdrawn a p hw hno ho hl =>
    -- the map still has the original order
    refine iff_of_false (fun e => ?_) (Classical.not_not.mpr hw)
    obtain ⟨s, b, d, -, -, hd⟩ := routed h ho
    have hat := congrFun e a.originalReference
    rw [h.remaining_left ho hl, List.foldl_nil, Function.update_self, h.remaining_at hd] at hat
    cases hat

/-! ## Runs -/

omit [LawfulLadder L] [LawfulIdMap M] in
/-- A replayer and its observer. -/
def watch (s : Replayer L M × ObserverMap) (msg : List UInt8) :
    Option (List ReplayEvent × (Replayer L M × ObserverMap)) := do
  let (out, r) ← s.1.apply msg
  some (out, (r, out.foldl ObserverMap.hear s.2))

omit [LawfulLadder L] [LawfulIdMap M] in
theorem watch_eq (map : ObserverMap) {msg : List UInt8} {r' : Replayer L M} (h : r.apply msg = some (out, r')) :
    watch (r, map) msg = some (out, (r', out.foldl ObserverMap.hear map)) := by
  rw [watch, h]
  rfl

omit [LawfulLadder L] [LawfulIdMap M] in
theorem run_watch : ∀ {msgs : List (List UInt8)} {r r' : Replayer L M} (map : ObserverMap),
    Runs.run apply r msgs = some r' → ∃ map', Runs.run watch (r, map) msgs = some (r', map')
  | [], r, r', map, h => by
    cases h
    exact ⟨map, rfl⟩
  | msg :: msgs, r, r', map, h => by
    obtain ⟨⟨out, r₁⟩, h₁, h⟩ := Option.bind_eq_some_iff.mp h
    obtain ⟨map', hmap⟩ := run_watch (out.foldl ObserverMap.hear map) h
    exact ⟨map', by rw [Runs.run_cons (watch_eq map h₁), hmap]⟩

/-- A message takes an order away and is refused the one in its place. -/
def Silences (r : Replayer L M) (msg : List UInt8) : Prop := ∃ m ∈ decode msg, r.Withdraws m

omit [LawfulLadder L] [LawfulIdMap M] in
theorem watch_inv {s s' : Replayer L M × ObserverMap} {msg : List UInt8} (h : watch s msg = some (out, s')) :
    s.1.apply msg = some (out, s'.1) ∧ s'.2 = out.foldl ObserverMap.hear s.2 := by
  obtain ⟨⟨out', r⟩, hr, e⟩ := Option.bind_eq_some_iff.mp h
  cases e
  exact ⟨hr, rfl⟩

/-- A message with no clash: the index stays right, and the observer hears of
it unless it withdraws an order. -/
theorem watch_step {s s' : Replayer L M × ObserverMap} {msg : List UInt8} (hs : s.1.books.Sound)
    (ha : s.1.books.Agrees) (hsees : s.1.books.Sees s.2) (hno : ¬ s.1.Clash msg) (h : watch s msg = some (out, s')) :
    s'.1.books.Sound ∧ s'.1.books.Agrees ∧ (s'.1.books.Sees s'.2 ↔ ¬ s.1.Silences msg) := by
  obtain ⟨hr, hmap⟩ := watch_inv h
  obtain ⟨hs', ha'⟩ := agrees_iff_of_apply ha hs hr
  have ha' := ha'.mpr hno
  have hi := hs.agrees_iff.mp ha
  have hi' := hs'.agrees_iff.mp ha'
  obtain ⟨m, hm, he⟩ := apply_effect hi hr
  refine ⟨hs', ha', ?_⟩
  rw [hi'.sees_iff, hmap, hi.sees_iff.mp hsees, he.heard_iff hi hi', Silences, hm]
  simp

/-- As long as no message inserts an id into one book while it rests in
another, and no replace takes an order away without putting one in its place,
the observer's map is what rests in the books, after every message; and the
first such replace leaves it wrong. Fewer than `2^32` orders at a time, and
the run goes through. -/
theorem observer_sees {ladder : L} (hv : Vacant ladder) {r₀ : Replayer L M} (h₀ : new ladder = some r₀)
    (symbols : List Symbol) (msgs : List (List UInt8))
    (hsteps : Runs.Steps watch (fun s msg => ¬ s.1.Clash msg ∧ ¬ s.1.Silences msg)
      (r₀.trackOnly symbols, fun _ => none) msgs) :
    Runs.Along watch (fun s => s.1.books.Sees s.2) (r₀.trackOnly symbols, fun _ => none) msgs ∧
      (∀ s, Runs.run watch (r₀.trackOnly symbols, fun _ => none) msgs = some s →
        ∀ msg out s', ¬ s.1.Clash msg → watch s msg = some (out, s') →
          (s'.1.books.Sees s'.2 ↔ ¬ s.1.Silences msg)) ∧
      ((∀ msg ∈ msgs, Complete msg) → Runs.Along apply (fun r => r.books.Few) (r₀.trackOnly symbols) msgs →
        ∃ s, Runs.run watch (r₀.trackOnly symbols, fun _ => none) msgs = some s) := by
  let I (s : Replayer L M × ObserverMap) : Prop := s.1.books.Sound ∧ s.1.books.Agrees ∧ s.1.books.Sees s.2
  obtain ⟨hs, ha, hbooks⟩ := new_agrees h₀
  have hi : I (r₀.trackOnly symbols, fun _ => none) := by
    refine ⟨hs, ha, fun id qty => ?_⟩
    show none = some qty ↔ ∃ e ∈ r₀.books.books, _
    simp [hbooks]
  have hstep : ∀ s msg out s', I s → ¬ s.1.Clash msg ∧ ¬ s.1.Silences msg → watch s msg = some (out, s') → I s' := by
    intro s msg out s' ⟨hs, ha, hsees⟩ ⟨hc, hw⟩ h
    obtain ⟨hs', ha', hiff⟩ := watch_step hs ha hsees hc h
    exact ⟨hs', ha', hiff.mpr hw⟩
  refine ⟨Runs.along_of_steps (fun _ h => h.2.2) hstep msgs hi hsteps, ?_, fun hc hfew => ?_⟩
  · intro s hr msg out s' hno h
    obtain ⟨hs, ha, hsees⟩ := Runs.inv_of_steps hstep msgs hi hsteps hr
    exact (watch_step hs ha hsees hno h).2.2
  · obtain ⟨r, hr⟩ := run_of_few hv h₀ symbols msgs hc hfew
    obtain ⟨map, hmap⟩ := run_watch (fun _ => none) hr
    exact ⟨_, hmap⟩

/-- A message that inserts an id that rests nowhere, or replaces an order by one
that is not refused. -/
def Quiet (accepts : Price → Bool) (a : Spec.Replayer) : Message → Prop
  | .add m => ∀ s ∈ a.books.symbols, m.reference ∉ (a.books.book s).ids
  | .replace m => m.newReference ≠ 0 ∧ m.shares ≠ 0 ∧ accepts m.price = true ∧
    ∀ s ∈ a.books.symbols, m.newReference ∉ (a.books.book s).ids
  | _ => True

instance (accepts : Price → Bool) (a : Spec.Replayer) : ∀ m, Decidable (Quiet accepts a m)
  | .add m => inferInstanceAs (Decidable (∀ s ∈ a.books.symbols, m.reference ∉ (a.books.book s).ids))
  | .replace m => inferInstanceAs (Decidable (m.newReference ≠ 0 ∧ m.shares ≠ 0 ∧ accepts m.price = true ∧
    ∀ s ∈ a.books.symbols, m.newReference ∉ (a.books.book s).ids))
  | .executed _ | .cancel _ | .delete _ | .trade _ | .systemEvent _ | .administrative => .isTrue trivial

theorem Refines.quiet {accepts : Price → Bool} {a : Spec.Replayer} (h : Refines accepts r a) {msg : List UInt8}
    (hq : ∀ m ∈ decode msg, Quiet accepts a m) : ¬ r.Clash msg ∧ ¬ r.Silences msg := by
  have absent : ∀ {id p}, (∀ s ∈ a.books.symbols, id ∉ (a.books.book s).ids) → ¬ r.books.RestsIn p id := by
    intro id p hid ⟨b, hb, hr⟩
    obtain ⟨⟨s, b⟩, hp, rfl⟩ := Option.map_eq_some_iff.mp hb
    exact hid s (h.books.mem_symbols hp) ((h.books.book hp).rests_iff.mp hr)
  constructor
  · rintro ⟨m, hm, p, id, hi, q, -, hr⟩
    have hq := hq m hm
    cases m with
    | add m =>
      obtain ⟨rfl, -⟩ := hi
      exact absent hq hr
    | replace m =>
      obtain ⟨rfl, -⟩ := hi
      exact absent hq.2.2.2 hr
    | executed m => exact hi
    | cancel m => exact hi
    | delete m => exact hi
    | trade timestamp => exact hi
    | systemEvent m => exact hi
    | administrative => exact hi
  · rintro ⟨m, hm, hw⟩
    have hq := hq m hm
    cases m with
    | replace m =>
      obtain ⟨p, hp, hno⟩ := hw
      obtain ⟨h0, hs, hacc, hids⟩ := hq
      refine hno ⟨rfl, hp, ⟨h0, hs, ?_⟩, fun _ => absent hids⟩
      rw [h.books.accepts]
      exact hacc
    | add m => exact hw
    | executed m => exact hw
    | cancel m => exact hw
    | delete m => exact hw
    | trade timestamp => exact hw
    | systemEvent m => exact hw
    | administrative => exact hw

/-- A price off the ladder, an execution in part, and a replacement. -/
theorem observer_sees_bounded : ∃ (calls : List WriterCall) (ladder : DenseLadder)
    (r₀ : Replayer DenseLadder OpenAddressIdMap) (s : Replayer DenseLadder OpenAddressIdMap × ObserverMap),
    calls = [.addOrder 0 1 .bid 100 {} 5, .addOrder 0 2 .ask 70 {} 300, .orderExecuted 0 1 30 7,
      .orderReplace 0 1 3 50 6] ∧
    DenseLadder.new 0 100 = some ladder ∧ new ladder = some r₀ ∧
    Runs.run watch (r₀, fun _ => none) (calls.map WriterCall.body) = some s ∧
    Runs.Along watch (fun s => s.1.books.Sees s.2) (r₀, fun _ => none) (calls.map WriterCall.body) := by
  have hladder : DenseLadder.new 0 100 = some { min := 0, max := 100 } := by decide
  have hv := DenseLadder.vacant hladder
  obtain ⟨r₀, hr₀, h⟩ := new_refines (M := OpenAddressIdMap) hv
  have hc := body_complete [.addOrder 0 1 .bid 100 {} 5, .addOrder 0 2 .ask 70 {} 300, .orderExecuted 0 1 30 7,
    .orderReplace 0 1 3 50 6]
  have hfew := h.along_few_of_empty rfl _ (Nat.lt_of_le_of_lt (by decide : (List.map WriterCall.body
    [.addOrder 0 1 .bid 100 {} 5, .addOrder 0 2 .ask 70 {} 300, .orderExecuted 0 1 30 7,
      .orderReplace 0 1 3 50 6]).length ≤ 4) (by decide))
  have hr : r₀.trackOnly [] = r₀ := trackOnly_nil h.filter
  have hsteps : Runs.Steps apply (fun r msg => ¬ r.Clash msg ∧ ¬ r.Silences msg) r₀ _ :=
    Runs.steps_of_folds (fun _ _ _ h hb hc _ => h.receive hb hc) (fun _ _ _ h hq => h.quiet hq) _ h hc hfew (by decide)
  have hwatch := Runs.Steps.comap (g := Prod.fst) (fun _ _ _ _ h => (watch_inv h).1)
    (t := ((r₀, fun _ => none) : Replayer DenseLadder OpenAddressIdMap × ObserverMap)) hsteps
  obtain ⟨halong, -, hrun⟩ := observer_sees hv hr₀ [] _ (hr.symm ▸ hwatch)
  rw [hr] at halong hrun
  obtain ⟨s, hs⟩ := hrun hc hfew
  exact ⟨_, _, r₀, s, rfl, hladder, hr₀, hs, halong⟩

/-- A replace by no shares takes its order away, and the observer is not
told. -/
theorem observer_unaware : ∃ (calls : List WriterCall) (r₀ : Replayer MapLadder OpenAddressIdMap)
    (s : Replayer MapLadder OpenAddressIdMap × ObserverMap),
    calls = [.addOrder 0 1 .bid 100 {} 5, .orderReplace 0 1 2 0 6] ∧
    new {} = some r₀ ∧ (∀ msg ∈ calls.map WriterCall.body, Complete msg) ∧
    Runs.Along apply (fun r => r.books.Few) r₀ (calls.map WriterCall.body) ∧
    Runs.run watch (r₀, fun _ => none) (calls.map WriterCall.body) = some s ∧ ¬ s.1.books.Sees s.2 := by
  obtain ⟨r₀, hr₀, h⟩ := new_refines (M := OpenAddressIdMap) MapLadder.vacant
  obtain ⟨hs, ha, hbooks⟩ := new_agrees hr₀
  have hc := body_complete [.addOrder 0 1 .bid 100 {} 5, .orderReplace 0 1 2 0 6]
  have hfew := h.along_few_of_empty rfl (List.map WriterCall.body
    [.addOrder 0 1 .bid 100 {} 5, .orderReplace 0 1 2 0 6]) (by decide)
  -- the order rests, and the observer knows
  obtain ⟨out₁, r₁, hr₁, h₁⟩ := h.receive hfew.head (hc _ List.mem_cons_self)
  have hw₁ := watch_eq (fun _ => none) hr₁
  have hsees₀ : r₀.books.Sees fun _ => none := by simp [MultiBook.Sees, hbooks]
  obtain ⟨hno, hsilent⟩ := h.quiet (by decide : ∀ m ∈ decode (WriterCall.addOrder 0 1 .bid 100 {} 5).body, Quiet _ _ m)
  obtain ⟨hs₁, ha₁, hsees₁⟩ := watch_step hs ha hsees₀ hno hw₁
  have hrests : r₁.books.RestsIn 0 1 := (h₁.books.restsIn_iff (s := {}) (by decide)).mpr (by decide)
  obtain ⟨o, ho, hiff⟩ := ha₁.routes 1
  rw [(hiff 0).mpr hrests] at ho
  -- the replace takes it away
  obtain ⟨out₂, r₂, hr₂, -⟩ := h₁.receive (hfew.2 _ _ hr₁).head (hc _ (List.mem_cons_of_mem _ List.mem_cons_self))
  have hw₂ := watch_eq (out₁.foldl ObserverMap.hear fun _ => none) hr₂
  have hm : decode (WriterCall.orderReplace 0 1 2 0 6).body = some (.replace
      { timestamp := 0, originalReference := 1, newReference := 2, shares := 0, price := 6 }) := by decide
  have hno₂ : ¬ r₁.Clash (WriterCall.orderReplace 0 1 2 0 6).body := by
    rintro ⟨m, hm', p, id, hi, -⟩
    cases hm.symm.trans hm'
    exact hi.2.2.1.2.1 rfl
  have hsilences : r₁.Silences (WriterCall.orderReplace 0 1 2 0 6).body :=
    ⟨_, hm, 0, ho, fun hi => hi.2.2.1.2.1 rfl⟩
  obtain ⟨-, -, hsees₂⟩ := watch_step hs₁ ha₁ (hsees₁.mpr hsilent) hno₂ hw₂
  refine ⟨_, r₀, _, rfl, hr₀, hc, hfew, ?_, fun hsees => hsees₂.mp hsees hsilences⟩
  rw [List.map_cons, Runs.run_cons hw₁, List.map_cons, Runs.run_cons hw₂]
  rfl

end Itch.Replayer

end Pricetime
