import Pricetime.Impl.Replayer
import Pricetime.Proof.Itch
import Pricetime.Proof.MultiBook

/-!
# The replayer refines its abstract replayer

`Refines.apply`: a message goes through, tells the observer what the abstract
replayer tells it, and keeps the simulation, as long as fewer than `2^32`
orders rest. `run_refines` is the same for a run of messages.
-/

namespace Pricetime

namespace Itch.Replayer

variable {L M : Type} [Ladder L] [LawfulLadder L] [IdMap M] [LawfulIdMap M]

omit [Ladder L] [LawfulLadder L] [IdMap M] [LawfulIdMap M] in
@[simp] theorem setStats_books (r : Replayer L M) (f : ReplayStats → ReplayStats) :
    (r.setStats f).books = r.books := rfl

structure Refines (accepts : Price → Bool) (r : Replayer L M) (a : Spec.Replayer) : Prop where
  books : r.books.Refines accepts a.books
  filter : r.filter = a.filter
  stats : r.stats = a.stats

/-- A book with few orders is within its counters' range. -/
theorem within {accepts : Price → Bool} {m : MultiBook L M} {a : Spec.MultiBook} (h : m.Refines accepts a)
    (hb : m.Few) {p : BookPtr} {s : Symbol} {b : OrderBook L M} (hp : m.books[p]? = some (s, b)) :
    OrderBook.Within L (a.book s) := (h.book hp).within_of_few (hb.book hp)

namespace Refines

variable {accepts : Price → Bool} {r : Replayer L M} {a : Spec.Replayer}

theorem setStats (h : Refines accepts r a) (f : ReplayStats → ReplayStats) :
    Refines accepts (r.setStats f) (a.setStats f) := ⟨h.books, h.filter, congrArg f h.stats⟩

theorem setBooks (h : Refines accepts r a) {m : MultiBook L M} {m' : Spec.MultiBook} (hm : m.Refines accepts m') :
    Refines accepts { r with books := m } { a with books := m' } := ⟨hm, h.filter, h.stats⟩

theorem tracked_eq (h : Refines accepts r a) (s : Symbol) : r.tracked s = a.tracked s := by
  rw [Replayer.tracked, Spec.Replayer.tracked, h.filter]

theorem onAdd (h : Refines accepts r a) (hb : r.books.Few) (m : AddOrder) :
    ∃ r', r.onAdd m = some ((a.onAdd accepts m).1, r') ∧ Refines accepts r' (a.onAdd accepts m).2 := by
  have h₀ := h.setStats fun s => { s with lastTimestamp := m.timestamp }
  simp only [Replayer.onAdd, Spec.Replayer.onAdd, setStats_books, Spec.Replayer.setStats_books, h₀.tracked_eq]
  split
  · exact ⟨_, rfl, h₀.setStats _⟩
  obtain ⟨p, m₁, b, hm₁, hp, h₁, hopen⟩ := h.books.see m.symbol
  have hfew : m₁.Few := by rw [MultiBook.Few, hopen]; exact hb
  obtain ⟨m₂, b₂, hm₂, hp₂, h₂⟩ := h₁.onBook (f := fun b => b.insertPassive m.reference m.side m.price m.shares)
    hp ((h₁.book hp).insertPassive (within h₁ hfew hp) m.reference m.side m.price m.shares)
  simp only [Option.bind_eq_bind, Option.bind_some, hm₁, hm₂]
  by_cases hok : ((a.books.see m.symbol).book m.symbol |>.insertPassive accepts m.reference m.side m.price
      m.shares).1.result = .ok
  · obtain ⟨m₃, hm₃, h₃⟩ := h₂.noteOrder hp₂ (Spec.Book.validate_ok (Spec.Book.insertPassive_ok hok)).1
    simp only [hok, if_true, hm₃, Option.bind_some]
    exact ⟨_, rfl, (h₀.setBooks h₃).setStats _⟩
  · simp only [hok, if_false]
    exact ⟨_, rfl, h₀.setBooks h₂⟩

theorem onReduced (h : Refines accepts r a) (hb : r.books.Few) (timestamp : UInt64) (reference : OrderId)
    (shares : Qty) (isExecution : Bool) :
    ∃ r', r.onReduced timestamp reference shares isExecution =
        some ((a.onReduced timestamp reference shares isExecution).1, r') ∧
      Refines accepts r' (a.onReduced timestamp reference shares isExecution).2 := by
  have h₀ := h.setStats fun s => { s with lastTimestamp := timestamp }
  simp only [Replayer.onReduced, Spec.Replayer.onReduced, setStats_books, Spec.Replayer.setStats_books]
  rcases h.books.bookForOrder reference with ⟨hm, ha⟩ | ⟨p, s, b, h0, hm, hp, ha⟩
  · simp only [Option.bind_eq_bind, Option.bind_some, hm, ha]
    exact ⟨_, rfl, h₀.setStats _⟩
  have hsim : ∃ b', (if isExecution then b.executeResting reference shares else b.reduceResting reference shares) =
      some (((a.books.book s).consume reference shares isExecution).1, b') ∧
        OrderBook.Sim accepts b' ((a.books.book s).consume reference shares isExecution).2 := by
    have hc := (h.books.book hp).consume (within h.books hb hp) reference shares isExecution
    cases isExecution <;> exact hc
  obtain ⟨m₁, b₁, hm₁, hp₁, h₁⟩ := h.books.onBook
    (f := fun b => if isExecution then b.executeResting reference shares else b.reduceResting reference shares) hp hsim
  obtain ⟨o, ho, hsome⟩ := (h₁.book hp₁).find_isSome reference
  rw [Spec.MultiBook.setBook_self] at hsome
  simp only [Option.bind_eq_bind, Option.bind_some, hm, ha, hm₁, MultiBook.deref_eq hp₁, OrderBook.findOrder, ho,
    hsome]
  cases o with
  | none =>
    obtain ⟨m₂, hm₂, -, h₂⟩ := h₁.forgetOrder h0
    simp only [hm₂, Option.bind_some]
    exact ⟨_, rfl, (((h₀.setBooks h₁).setStats _).setStats _).setBooks h₂⟩
  | some o => exact ⟨_, rfl, ((h₀.setBooks h₁).setStats _).setStats _⟩

theorem onDelete (h : Refines accepts r a) (hb : r.books.Few) (m : OrderDelete) :
    ∃ r', r.onDelete m = some ((a.onDelete m).1, r') ∧ Refines accepts r' (a.onDelete m).2 := by
  have h₀ := h.setStats fun s => { s with lastTimestamp := m.timestamp }
  simp only [Replayer.onDelete, Spec.Replayer.onDelete, setStats_books, Spec.Replayer.setStats_books]
  rcases h.books.bookForOrder m.reference with ⟨hm, ha⟩ | ⟨p, s, b, h0, hm, hp, ha⟩
  · simp only [Option.bind_eq_bind, Option.bind_some, hm, ha]
    exact ⟨_, rfl, h₀.setStats _⟩
  obtain ⟨m₁, b₁, hm₁, hp₁, h₁⟩ := h.books.onBook (f := fun b => b.cancel m.reference) hp
    ((h.books.book hp).cancel (within h.books hb hp) m.reference)
  obtain ⟨m₂, hm₂, -, h₂⟩ := h₁.forgetOrder h0
  simp only [Option.bind_eq_bind, Option.bind_some, hm, ha, hm₁, hm₂]
  exact ⟨_, rfl, (h₀.setBooks h₂).setStats _⟩

theorem onReplace (h : Refines accepts r a) (hb : r.books.Few) (m : OrderReplace) :
    ∃ r', r.onReplace m = some ((a.onReplace accepts m).1, r') ∧ Refines accepts r' (a.onReplace accepts m).2 := by
  have h₀ := h.setStats fun s => { s with lastTimestamp := m.timestamp }
  simp only [Replayer.onReplace, Spec.Replayer.onReplace, setStats_books, Spec.Replayer.setStats_books]
  rcases h.books.bookForOrder m.originalReference with ⟨hm, ha⟩ | ⟨p, s, b, h0, hm, hp, ha⟩
  · simp only [Option.bind_eq_bind, Option.bind_some, hm, ha]
    exact ⟨_, rfl, h₀.setStats _⟩
  simp only [Option.bind_eq_bind, Option.bind_some, hm, ha, MultiBook.deref_eq hp, OrderBook.findOrder]
  have hw := within h.books hb hp
  rcases (h.books.book hp).find_cases m.originalReference with ⟨hf, haf⟩ | ⟨o, hf, ho, haf⟩
  · simp only [Option.bind_some, hf, haf]
    exact ⟨_, rfl, h₀.setStats _⟩
  obtain ⟨m₁, b₁, hm₁, hp₁, h₁⟩ := h.books.onBook (f := fun b => b.cancel m.originalReference) hp
    ((h.books.book hp).cancel hw m.originalReference)
  obtain ⟨m₂, hm₂, hbooks, h₂⟩ := h₁.forgetOrder h0
  have hp₂ := hbooks ▸ hp₁
  have hsim := h₂.book hp₂
  rw [Spec.MultiBook.forgetOrder_book, Spec.MultiBook.setBook_self] at hsim
  obtain ⟨m₃, b₃, hm₃, hp₃, h₃⟩ := h₂.onBook
    (f := fun c => c.insertPassive m.newReference (b.heap.order o).side m.price m.shares) hp₂
    (hsim.insertPassive (hw.shrinks fun s => Spec.Book.cancel_shrinks ..) m.newReference (b.heap.order o).side
      m.price m.shares)
  simp only [Option.bind_some, hf, haf, hm₁, hm₂, hm₃]
  by_cases hok : (((a.books.book s).cancel m.originalReference).2.insertPassive accepts m.newReference
      (b.heap.order o).side m.price m.shares).1.result = .ok
  · obtain ⟨m₄, hm₄, h₄⟩ := h₃.noteOrder hp₃ (Spec.Book.validate_ok (Spec.Book.insertPassive_ok hok)).1
    simp only [hok, if_true, hm₄, Option.bind_some]
    exact ⟨_, rfl, ((h₀.setBooks h₄).setStats _).setStats _⟩
  · simp only [hok, if_false]
    exact ⟨_, rfl, (h₀.setBooks h₃).setStats _⟩

/-- A message goes through, and the observer hears what it should. -/
theorem dispatch (h : Refines accepts r a) (hb : r.books.Few) (m : Message) :
    ∃ r', r.dispatch m = some ((a.dispatch accepts m).1, r') ∧ Refines accepts r' (a.dispatch accepts m).2 := by
  cases m with
  | add m => exact h.onAdd hb m
  | executed m => exact h.onReduced hb ..
  | cancel m => exact h.onReduced hb ..
  | delete m => exact h.onDelete hb m
  | replace m => exact h.onReplace hb m
  | trade timestamp => exact ⟨_, rfl, h.setStats _⟩
  | systemEvent m => exact ⟨_, rfl, h.setStats _⟩
  | administrative => exact ⟨_, rfl, h⟩

theorem apply (h : Refines accepts r a) (hb : r.books.Few) {msg : List UInt8} {m : Message}
    (hm : decode msg = some m) :
    ∃ r', r.apply msg = some ((a.apply accepts m msg.length).1, r') ∧
      Refines accepts r' (a.apply accepts m msg.length).2 := by
  simp only [Replayer.apply, hm, Option.bind_eq_bind, Option.bind_some]
  exact (h.setStats _).dispatch hb m

/-- A complete message is received. -/
theorem receive (h : Refines accepts r a) (hb : r.books.Few) {msg : List UInt8} (hc : Complete msg) :
    ∃ out r', r.apply msg = some (out, r') ∧ Refines accepts r' (a.receive accepts msg) := by
  obtain ⟨m, hm⟩ := hc.decode_some
  obtain ⟨r', hr', h'⟩ := h.apply hb hm
  refine ⟨_, r', hr', ?_⟩
  rw [Spec.Replayer.receive, hm]
  exact h'

theorem openOrders_eq (h : Refines accepts r a) : r.books.openOrders = a.books.total Spec.Book.openOrders :=
  h.books.total_eq fun hs => hs.openOrders_eq

/-- A run of fewer than `2^32` messages has few orders throughout. -/
theorem along_few (h : Refines accepts r a) (msgs : List (List UInt8))
    (hlen : r.books.openOrders + msgs.length < 2 ^ 32) : Runs.Along Replayer.apply (fun r => r.books.Few) r msgs := by
  refine Runs.along_le (n := fun r : Replayer L M => r.books.openOrders)
    (I := fun r => ∃ a, Refines accepts r a) ?_ msgs ⟨a, h⟩ hlen
  rintro r msg out r' ⟨a, h⟩ hb hs
  obtain ⟨m, hm, -⟩ := Option.bind_eq_some_iff.mp hs
  obtain ⟨r₁, hr₁, h₁⟩ := h.apply hb hm
  cases hs.symm.trans hr₁
  refine ⟨⟨_, h₁⟩, ?_⟩
  obtain ⟨_, _, hle, -⟩ := (Spec.Replayer.apply_touch h.books.owner_mem m msg.length).total h.books.nodup
    h.books.unseen
  rw [h₁.openOrders_eq, h.openOrders_eq]
  exact hle

/-- The same from no books. -/
theorem along_few_of_empty (h : Refines accepts r a) (ha : a.books = {}) (msgs : List (List UInt8))
    (hlen : msgs.length < 2 ^ 32) : Runs.Along Replayer.apply (fun r => r.books.Few) r msgs := by
  refine h.along_few msgs ?_
  rw [h.openOrders_eq, ha]
  exact (Nat.zero_add _).trans_lt hlen

theorem trackOnly (h : Refines accepts r a) (symbols : List Symbol) :
    Refines accepts (r.trackOnly symbols) { a with filter := symbols.map Symbol.bits } := ⟨h.books, rfl, h.stats⟩

end Refines

theorem new_refines {ladder : L} (hv : Vacant ladder) :
    ∃ r : Replayer L M, new ladder = some r ∧ Refines (Ladder.validPrice ladder) r {} := by
  obtain ⟨m, hm, h⟩ := MultiBook.new_refines (M := M) hv
  exact ⟨{ books := m }, by rw [new, hm]; rfl, h, rfl, rfl⟩

omit [Ladder L] [LawfulLadder L] [IdMap M] [LawfulIdMap M] in
theorem trackOnly_nil {r : Replayer L M} (h : r.filter = []) : r.trackOnly [] = r := by
  rw [Replayer.trackOnly, List.map_nil, ← h]

/-- Complete messages go through. -/
theorem run_of_few {ladder : L} (hv : Vacant ladder) {r₀ : Replayer L M} (h₀ : new ladder = some r₀)
    (symbols : List Symbol) (msgs : List (List UInt8)) (hc : ∀ msg ∈ msgs, Complete msg)
    (hfew : Runs.Along apply (fun r => r.books.Few) (r₀.trackOnly symbols) msgs) :
    ∃ r, Runs.run apply (r₀.trackOnly symbols) msgs = some r := by
  obtain ⟨r, hr, ha⟩ := new_refines (M := M) hv
  cases h₀.symm.trans hr
  have hstep : ∀ (r : Replayer L M) msg, (∃ a, Refines (Ladder.validPrice ladder) r a) → r.books.Few → Complete msg →
      ∃ out r', r.apply msg = some (out, r') ∧ ∃ a, Refines (Ladder.validPrice ladder) r' a := by
    intro r msg ⟨a, ha⟩ hb hc
    obtain ⟨out, r', hr', ha'⟩ := ha.receive hb hc
    exact ⟨out, r', hr', _, ha'⟩
  obtain ⟨r, hr, -⟩ := Runs.run_inv hstep msgs ⟨_, ha.trackOnly symbols⟩ hc hfew
  exact ⟨r, hr⟩

end Itch.Replayer

end Pricetime
