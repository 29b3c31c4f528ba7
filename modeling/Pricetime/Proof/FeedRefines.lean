import Pricetime.Proof.Feed
import Pricetime.Proof.ItchWriter

/-!
# A replayer's books are the levels of its feed

`Fresh r msg`: the message brings in no reference that rests in one of the
books, but for that of the order it replaces. A run of such messages keeps the
books in step with the flat list of orders (`replayer_refines_feed`).
-/

namespace Pricetime

open Itch (Message Complete)

namespace Spec.Rel

variable {m : MultiBook} {os : List FeedOrder} {a : Replayer} {accepts : Price → Bool}

theorem rests_iff (h : Rel m os) (id : OrderId) : (∃ s, id ∈ (m.book s).ids) ↔ ∃ o ∈ os, o.reference = id := by
  constructor
  · rintro ⟨s, hs⟩
    obtain ⟨o, ho, e, -⟩ := h.ids.mp hs
    exact ⟨o, ho, e⟩
  · rintro ⟨o, ho, e⟩
    exact ⟨o.symbol, h.ids.mpr ⟨o, ho, e, rfl⟩⟩

theorem receive (hacc : ∀ p, accepts p = true) (h : Rel a.books os) (hf : a.filter = []) {msg : List UInt8}
    (hfresh : ∀ m ∈ Itch.decode msg, FeedOrder.Fresh os m) :
    Rel (a.receive accepts msg).books (FeedOrder.receive os msg) := by
  rw [Replayer.receive, FeedOrder.receive]
  cases hm : Itch.decode msg with
  | none => exact h
  | some m => exact Rel.dispatch (a := a.setStats _) hacc h hf m (hfresh m hm)

/-- The best price first. -/
theorem levels_sorted (h : Rel m os) (s : Symbol) (side : Side) :
    ((FeedOrder.levels os s side).map fun l => l.price).Pairwise fun p p' => side.better p p' = true := by
  rw [← h.walk_eq, Book.walk, List.map_map]
  exact ((h.wf s).side side).sorted

end Spec.Rel

namespace Itch.Replayer

section Fresh

variable {L M : Type} [IdMap M]

/-- A message brings in no reference that rests in a book, but for that of the
order it replaces. -/
def Fresh (r : Replayer L M) (msg : List UInt8) : Prop :=
  match decode msg with
  | some (.add m) => m.shares ≠ 0 → ¬ r.books.Rests m.reference
  | some (.replace m) => m.shares ≠ 0 → r.books.Rests m.originalReference →
    m.newReference ≠ m.originalReference → ¬ r.books.Rests m.newReference
  | _ => True

end Fresh

variable {L M : Type} [Ladder L] [LawfulLadder L] [IdMap M] [LawfulIdMap M] {accepts : Price → Bool}

/-- A replayer with no filter, and the list its books are. -/
structure Feeds (accepts : Price → Bool) (r : Replayer L M) (os : List Spec.FeedOrder) : Prop where
  books : ∃ a, Refines accepts r a ∧ Spec.Rel a.books os
  filter : r.filter = []

namespace Feeds

variable {r : Replayer L M} {os : List Spec.FeedOrder}

theorem rests_iff (h : Feeds accepts r os) (id : OrderId) : r.books.Rests id ↔ ∃ o ∈ os, o.reference = id := by
  obtain ⟨a, ha, hrel⟩ := h.books
  rw [ha.books.rests_iff, hrel.rests_iff]

theorem fresh_iff (h : Feeds accepts r os) (msg : List UInt8) :
    Fresh r msg ↔ ∀ m ∈ decode msg, Spec.FeedOrder.Fresh os m := by
  rw [Fresh]
  cases hm : decode msg with
  | none => exact ⟨fun _ => nofun, fun _ => trivial⟩
  | some m =>
    simp only [Option.mem_def, Option.some.injEq, forall_eq']
    cases m with
    | add m =>
      simp only [Spec.FeedOrder.Fresh, h.rests_iff, not_exists, not_and]
    | replace m =>
      simp only [Spec.FeedOrder.Fresh, h.rests_iff]
      constructor
      · intro hf hq ho o hmem hne e
        exact hf hq ho (e ▸ hne) ⟨o, hmem, e⟩
      · rintro hf hq ho hne ⟨o, hmem, e⟩
        exact hf hq ho o hmem (e ▸ hne) e
    | executed m => exact ⟨fun _ => trivial, fun _ => trivial⟩
    | cancel m => exact ⟨fun _ => trivial, fun _ => trivial⟩
    | delete m => exact ⟨fun _ => trivial, fun _ => trivial⟩
    | trade timestamp => exact ⟨fun _ => trivial, fun _ => trivial⟩
    | systemEvent m => exact ⟨fun _ => trivial, fun _ => trivial⟩
    | administrative => exact ⟨fun _ => trivial, fun _ => trivial⟩

theorem receive (hacc : ∀ p, accepts p = true) (h : Feeds accepts r os) (hb : r.books.Few) {msg : List UInt8}
    (hc : Complete msg) (hfresh : Fresh r msg) :
    ∃ out r', r.apply msg = some (out, r') ∧ Feeds accepts r' (Spec.FeedOrder.receive os msg) := by
  have hf := (h.fresh_iff msg).mp hfresh
  obtain ⟨a, ha, hrel⟩ := h.books
  obtain ⟨out, r', hr', ha'⟩ := ha.receive hb hc
  have hfilter := ha.filter.symm.trans h.filter
  exact ⟨out, r', hr', ⟨_, ha', hrel.receive hacc hfilter hf⟩, by
    rw [ha'.filter, Spec.Replayer.receive_filter, hfilter]⟩

theorem walk_eq (h : Feeds accepts r os) (hb : r.books.Few) (s : Symbol) (side : Side) :
    r.books.walk s side = some (Spec.FeedOrder.levels os s side) := by
  obtain ⟨a, ha, hrel⟩ := h.books
  rw [ha.books.walk_eq hb, hrel.walk_eq]

end Feeds

theorem new_feeds {ladder : L} (hv : Vacant ladder) :
    ∃ r : Replayer L M, new ladder = some r ∧ Feeds (Ladder.validPrice ladder) r [] := by
  obtain ⟨r, hr, h⟩ := new_refines (M := M) hv
  exact ⟨r, hr, ⟨_, h, Spec.Rel.empty⟩, h.filter⟩

/-- A run without a filter, of messages that are complete and fresh, leaves in
the book of each symbol what the list of orders has of that symbol, the best
price first and each price's orders in the order of the list. -/
theorem replayer_refines_feed {r₀ : Replayer MapLadder OpenAddressIdMap} (h₀ : new {} = some r₀)
    (msgs : List (List UInt8)) (hc : ∀ msg ∈ msgs, Complete msg)
    (hfew : Runs.Along apply (fun r => r.books.Few) r₀ msgs) (hfresh : Runs.Steps apply Fresh r₀ msgs) :
    ∃ r, Runs.run apply r₀ msgs = some r ∧ ∀ s side,
      r.books.walk s side = some (Spec.FeedOrder.levels (msgs.foldl Spec.FeedOrder.receive []) s side) ∧
      ((Spec.FeedOrder.levels (msgs.foldl Spec.FeedOrder.receive []) s side).map fun l => l.price).Pairwise
        fun p p' => side.better p p' = true := by
  obtain ⟨r, hr, h⟩ := new_feeds (M := OpenAddressIdMap) MapLadder.vacant
  cases h₀.symm.trans hr
  obtain ⟨r, hr, h, hb⟩ := Runs.run_foldl (fun _ _ _ h hb hc hf => h.receive (fun _ => rfl) hb hc hf) msgs h hc hfew
    hfresh
  refine ⟨r, hr, fun s side => ⟨h.walk_eq hb s side, ?_⟩⟩
  obtain ⟨a, -, hrel⟩ := h.books
  exact hrel.levels_sorted s side

/-- A run that is fresh on the list is fresh. -/
theorem Feeds.steps_fresh {r : Replayer L M} {os : List Spec.FeedOrder} (hacc : ∀ p, accepts p = true)
    (h : Feeds accepts r os) (msgs : List (List UInt8)) (hc : ∀ msg ∈ msgs, Complete msg)
    (hfew : Runs.Along apply (fun r => r.books.Few) r msgs)
    (hfresh : Runs.Folds Spec.FeedOrder.receive (fun os msg => ∀ m ∈ decode msg, Spec.FeedOrder.Fresh os m) os msgs) :
    Runs.Steps apply Fresh r msgs :=
  Runs.steps_of_folds (fun _ _ _ h hb hc hf => h.receive hacc hb hc hf) (fun _ _ msg h => (h.fresh_iff msg).mpr)
    msgs h hc hfew hfresh

/-- Two symbols, an execution in part, and a replacement. -/
theorem replayer_refines_feed_two : ∃ (calls : List WriterCall) (r₀ r : Replayer MapLadder OpenAddressIdMap),
    calls = [.addOrder 0 1 .bid 100 {} 5, .addOrder 0 2 .ask 70 ⟨.replicate 8 'A'.toUInt8⟩ 5,
      .orderExecuted 0 1 30 7, .orderReplace 0 1 3 50 6, .orderDelete 0 2] ∧
    new {} = some r₀ ∧ Runs.run apply r₀ (calls.map WriterCall.body) = some r ∧
    ∀ s side, r.books.walk s side =
      some (Spec.FeedOrder.levels ((calls.map WriterCall.body).foldl Spec.FeedOrder.receive []) s side) := by
  obtain ⟨r₀, hr₀, h⟩ := new_refines (M := OpenAddressIdMap) MapLadder.vacant
  have hfew := h.along_few_of_empty rfl (List.map WriterCall.body
    [.addOrder 0 1 .bid 100 {} 5, .addOrder 0 2 .ask 70 ⟨.replicate 8 'A'.toUInt8⟩ 5,
      .orderExecuted 0 1 30 7, .orderReplace 0 1 3 50 6, .orderDelete 0 2]) (by decide)
  have hfeeds : Feeds (Ladder.validPrice ({} : MapLadder)) r₀ [] := ⟨⟨{}, h, Spec.Rel.empty⟩, h.filter⟩
  obtain ⟨r, hr, hw⟩ := replayer_refines_feed hr₀ _ (body_complete _) hfew
    (hfeeds.steps_fresh (fun _ => rfl) _ (body_complete _) hfew (by decide))
  exact ⟨_, r₀, r, rfl, hr₀, hr, fun s side => (hw s side).1⟩

end Itch.Replayer

end Pricetime
