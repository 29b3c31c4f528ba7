import Pricetime.Proof.ReplayerRefines
import Pricetime.Proof.Routing

/-!
# What a message does to the books and the index

`Inserts r m p id` says that message `m` inserts `id` into the book at `p`,
and `Effect r m' m out` what the message does to the books and what it tells
the observer. However many orders rest, and well formed or not, a message has
its effect (`apply_effect`), and the index is right afterwards if and only if
no other book has the id it inserts (`Effect.indexed_iff`).
-/

namespace Pricetime

open Itch (Message Replayer ReplayEvent AddOrder OrderReplace OrderDelete decode)

namespace MultiBook

section RestsIn

variable {L M : Type} [IdMap M] (m : MultiBook L M) (p : BookPtr) (id : OrderId)

/-- An order rests in the book at an address. -/
def RestsIn : Prop := ∃ b, m.deref p = some b ∧ b.Rests id

end RestsIn

variable {L M : Type} [Ladder L] [IdMap M] {m : MultiBook L M} {p : BookPtr} {id : OrderId}

/-- What a book asks of a new order, but for its id being new. -/
def Accepts (m : MultiBook L M) (id : OrderId) (price : Price) (shares : Qty) : Prop :=
  id ≠ 0 ∧ shares ≠ 0 ∧ Ladder.validPrice m.ladder price = true

variable [LawfulIdMap M]

theorem Sound.restsIn_iff (h : Sound m) : m.RestsIn p id ↔ m.orders p id ≠ none := by
  rw [RestsIn, deref, orders_ne_none]
  constructor
  · rintro ⟨b, hb, hr⟩
    obtain ⟨⟨s, b⟩, hp, rfl⟩ := Option.map_eq_some_iff.mp hb
    exact ⟨s, b, hp, ((h.inv hp).rests_iff id).mp hr⟩
  · rintro ⟨s, b, hp, ho⟩
    exact ⟨b, by rw [hp]; rfl, ((h.inv hp).rests_iff id).mpr ho⟩

end MultiBook

namespace Itch.Replayer

section Conditions

variable {L M : Type} [Ladder L] [IdMap M] (r : Replayer L M)

/-- A message inserts `id` into the book at `p`. -/
def Inserts (m : Message) (p : BookPtr) (id : OrderId) : Prop :=
  match m with
  | .add a => id = a.reference ∧ r.tracked a.symbol = true ∧ (∃ m', r.books.book a.symbol = some (p, m')) ∧
    r.books.Accepts id a.price a.shares ∧ ¬ r.books.RestsIn p id
  | .replace a => id = a.newReference ∧ r.books.bookForOrder a.originalReference = some (some p) ∧
    r.books.Accepts id a.price a.shares ∧ (id ≠ a.originalReference → ¬ r.books.RestsIn p id)
  | _ => False

/-- A replace finds its original order, and is refused the new one. -/
def Withdraws (m : Message) : Prop :=
  match m with
  | .replace a => ∃ p, r.books.bookForOrder a.originalReference = some (some p) ∧ ¬ r.Inserts m p a.newReference
  | _ => False

/-- A message does neither. -/
def Plain (m : Message) : Prop := (∀ p id, ¬ r.Inserts m p id) ∧ ¬ r.Withdraws m

end Conditions

variable {L M : Type} [Ladder L] [LawfulLadder L] [IdMap M] [LawfulIdMap M] {r : Replayer L M}
  {out : List ReplayEvent} {r' : Replayer L M}

omit [Ladder L] [LawfulLadder L] [IdMap M] [LawfulIdMap M] in
theorem setStats_tracked (f : ReplayStats → ReplayStats) (s : Symbol) : (r.setStats f).tracked s = r.tracked s := rfl

/-- What a message does to the books `m'` it leaves, and what it tells of it. -/
inductive Effect (r : Replayer L M) (m' : MultiBook L M) : Message → List ReplayEvent → Prop
  | same {m} (hs : MultiBook.Same r.books m') (hno : r.Plain m) : Effect r m' m []
  | added {a p d} (hi : r.Inserts (.add a) p a.reference) (he : MultiBook.Entered p a.reference d r.books m')
    (hd : d.qty = a.shares) :
    Effect r m' (.add a) [.added a.reference a.symbol a.side a.price a.shares a.timestamp]
  | reduced {m p id d d' shares isExecution timestamp} (hno : r.Plain m)
    (ho : r.books.ownerOf id = some p) (hd : r.books.orders p id = some d) (hl : d.less shares = some d')
    (hc : MultiBook.Changed p id d' r.books m') :
    Effect r m' m [.reduced id (min shares d.qty) isExecution timestamp]
  | consumed {m p id d shares isExecution timestamp} (hno : r.Plain m)
    (ho : r.books.ownerOf id = some p) (hd : r.books.orders p id = some d) (hl : MultiBook.Left p id r.books m') :
    Effect r m' m [.reduced id (min shares d.qty) isExecution timestamp, .removed id timestamp]
  | removed {m p id timestamp} (hno : r.Plain m) (ho : r.books.ownerOf id = some p)
    (hl : MultiBook.Left p id r.books m') : Effect r m' m [.removed id timestamp]
  | replaced {a p d m₁} (hi : r.Inserts (.replace a) p a.newReference)
    (ho : r.books.ownerOf a.originalReference = some p) (hl : MultiBook.Left p a.originalReference r.books m₁)
    (he : MultiBook.Entered p a.newReference d m₁ m') (hd : d.qty = a.shares) :
    Effect r m' (.replace a) [.replaced a.originalReference a.newReference a.price a.shares a.timestamp]
  | withdrawn {a p} (hw : r.Withdraws (.replace a)) (hno : ∀ p id, ¬ r.Inserts (.replace a) p id)
    (ho : r.books.ownerOf a.originalReference = some p) (hl : MultiBook.Left p a.originalReference r.books m') :
    Effect r m' (.replace a) []

theorem onAdd_effect (h : r.books.Indexed) {a : AddOrder} (hr : r.onAdd a = some (out, r')) :
    Effect r r'.books (.add a) out := by
  have hsound := h.sound
  rw [onAdd] at hr
  dsimp only at hr
  split at hr
  · rename_i ht
    cases hr
    refine .same ⟨hsound, rfl, rfl, rfl, rfl, rfl⟩ ⟨fun p id hi => ?_, fun h => h⟩
    obtain ⟨-, ht', -⟩ := hi
    rw [setStats_tracked, ht'] at ht
    exact absurd ht (by decide)
  · rename_i ht
    obtain ⟨⟨p, m₁⟩, hm₁, hr⟩ := Option.bind_eq_some_iff.mp hr
    obtain ⟨⟨reply, m₂⟩, hm₂, hr⟩ := Option.bind_eq_some_iff.mp hr
    obtain ⟨h₁, hord, hown, hopen, hlad, b, hp⟩ := hsound.book hm₁
    obtain ⟨b', hb', rfl⟩ := MultiBook.Sound.onBook_inv hp hm₂
    obtain ⟨ha, hok, hch⟩ := OrderBook.insertPassive_orders (h₁.inv hp) hb'
    have hrests : ¬ r.books.RestsIn p a.reference ↔ b.orderOf a.reference = none := by
      rw [hsound.restsIn_iff, Classical.not_not, ← hord, MultiBook.orders_at hp]
    have hins : r.Inserts (.add a) p a.reference ↔ reply.result = .ok := by
      rw [hok, h₁.validPrice hp, hlad]
      constructor
      · rintro ⟨-, -, -, ⟨h0, hq, hv⟩, hno⟩
        exact ⟨h0, hq, hv, hrests.mp hno⟩
      · rintro ⟨h0, hq, hv, hno⟩
        exact ⟨rfl, by simpa [setStats_tracked] using ht, ⟨m₁, hm₁⟩, ⟨h0, hq, hv⟩, hrests.mpr hno⟩
    dsimp only at hr
    split at hr
    · rename_i hres
      obtain ⟨m₃, hm₃, hr⟩ := Option.bind_eq_some_iff.mp hr
      cases hr
      obtain ⟨h0, -, -, hfree⟩ := hok.mp hres
      have he := h₁.enter hp (hch hres) hfree h0 hm₃
      refine .added (hins.mpr hres) ⟨he.sound, by rw [← hord]; exact he.fresh, by rw [← hord]; exact he.orders,
        ?_, by rw [← hopen]; exact he.openOrders⟩ rfl
      have hidx := he.index
      rwa [MultiBook.ownerOf, hown] at hidx
    · rename_i hres
      cases hr
      -- the book stays as it is
      have hbb : b' = b := (ha.rejected hres).2
      subst hbb
      have hset : ({ m₁ with books := m₁.books.set p (a.symbol, b') } : MultiBook L M) = m₁ := MultiBook.set_self hp
      refine .same ?_ ⟨fun p' k hi => ?_, fun h => h⟩
      · show MultiBook.Same r.books { m₁ with books := m₁.books.set p (a.symbol, b') }
        rw [hset]
        exact ⟨h₁, hlad, hord, by rw [MultiBook.ownerOf, hown, MultiBook.ownerOf], by rw [hown], hopen⟩
      · obtain ⟨rfl, -, ⟨m', hm'⟩, -⟩ := id hi
        cases hm'.symm.trans hm₁
        exact hres (hins.mp hi)

omit [LawfulLadder L] in
/-- The order that the index has for an id. -/
theorem routed (h : r.books.Indexed) {id : OrderId} {p : BookPtr} (ho : r.books.ownerOf id = some p) :
    ∃ s b d, r.books.books[p]? = some (s, b) ∧ b.orderOf id = some d ∧ r.books.orders p id = some d := by
  obtain ⟨s, b, hp, hne⟩ := MultiBook.orders_ne_none.mp ((h.directs id p).mp ho)
  obtain ⟨d, hd⟩ := Option.ne_none_iff_exists'.mp hne
  exact ⟨s, b, d, hp, hd, by rw [MultiBook.orders_at hp, hd]⟩

theorem onReduced_effect (h : r.books.Indexed) {timestamp : UInt64} {reference : OrderId} {shares : Qty}
    {isExecution : Bool} (hr : r.onReduced timestamp reference shares isExecution = some (out, r')) {m : Message}
    (hno : r.Plain m) : Effect r r'.books m out := by
  have hsound := h.sound
  rw [onReduced] at hr
  simp only [Option.bind_eq_bind, setStats_books, hsound.bookForOrder_eq, Option.bind_some] at hr
  cases ho : r.books.ownerOf reference with
  | none =>
    rw [ho] at hr
    cases hr
    exact .same ⟨hsound, rfl, rfl, rfl, rfl, rfl⟩ hno
  | some p =>
    obtain ⟨s, b, d, hp, hd, hord⟩ := routed h ho
    rw [ho] at hr
    obtain ⟨⟨reply, m₁⟩, hm₁, hr⟩ := Option.bind_eq_some_iff.mp hr
    obtain ⟨b', hb', rfl⟩ := MultiBook.Sound.onBook_inv hp hm₁
    have hb' : b.consume reference shares isExecution = some (reply, b') := by
      cases isExecution <;> exact hb'
    obtain ⟨-, htaken, hc⟩ := OrderBook.consume_orders (hsound.inv hp) hb'
    rw [hd, Option.elim_some] at htaken
    rw [hd, Option.bind_some] at hc
    obtain ⟨h₁, hord₁, hn⟩ := hsound.changes hp hc
    have hat : ({ r.books with books := r.books.books.set p (s, b') } : MultiBook L M).books[p]? = some (s, b') :=
      List.getElem?_set_self (List.getElem?_eq_some_iff.mp hp).1
    have hfind : b'.orderOf reference = d.less shares := by rw [hc.orderOf, Function.update_self]
    simp only [MultiBook.deref_eq hat, Option.bind_some, OrderBook.findOrder, (h₁.inv hat).find_eq] at hr
    cases hl : d.less shares with
    | none =>
      rw [OrderBook.orderOf_eq_none.mp (hfind.trans hl)] at hr
      obtain ⟨m₂, hm₂, hr⟩ := Option.bind_eq_some_iff.mp hr
      cases hr
      rw [hl] at hc
      rw [htaken]
      exact .consumed hno ho hord (hsound.leave ho hp hc (by rw [hd]; exact Option.some_ne_none d) hm₂)
    | some d' =>
      obtain ⟨o, ho', -⟩ := Option.map_eq_some_iff.mp (hfind.trans hl)
      rw [ho'] at hr
      cases hr
      rw [htaken]
      rw [hl] at hord₁ hn
      rw [hord] at hn
      exact .reduced hno ho hord hl ⟨h₁, hord₁, rfl, rfl, Nat.add_right_cancel hn⟩

theorem onDelete_effect (h : r.books.Indexed) {a : OrderDelete} (hr : r.onDelete a = some (out, r')) :
    Effect r r'.books (.delete a) out := by
  have hsound := h.sound
  rw [onDelete] at hr
  simp only [Option.bind_eq_bind, setStats_books, hsound.bookForOrder_eq, Option.bind_some] at hr
  cases ho : r.books.ownerOf a.reference with
  | none =>
    rw [ho] at hr
    cases hr
    exact .same ⟨hsound, rfl, rfl, rfl, rfl, rfl⟩ ⟨fun _ _ h => h, fun h => h⟩
  | some p =>
    obtain ⟨s, b, d, hp, hd, -⟩ := routed h ho
    rw [ho] at hr
    obtain ⟨⟨reply, m₁⟩, hm₁, hr⟩ := Option.bind_eq_some_iff.mp hr
    obtain ⟨b', hb', rfl⟩ := MultiBook.Sound.onBook_inv hp hm₁
    obtain ⟨m₂, hm₂, hr⟩ := Option.bind_eq_some_iff.mp hr
    cases hr
    obtain ⟨-, hc⟩ := OrderBook.cancel_orders (hsound.inv hp) hb'
    exact .removed ⟨fun _ _ h => h, fun h => h⟩ ho (hsound.leave ho hp hc (by rw [hd]; exact Option.some_ne_none d) hm₂)

theorem onReplace_effect (h : r.books.Indexed) {a : OrderReplace} (hr : r.onReplace a = some (out, r')) :
    Effect r r'.books (.replace a) out := by
  have hsound := h.sound
  rw [onReplace] at hr
  simp only [Option.bind_eq_bind, setStats_books, hsound.bookForOrder_eq, Option.bind_some] at hr
  cases ho : r.books.ownerOf a.originalReference with
  | none =>
    rw [ho] at hr
    cases hr
    have hunknown : r.books.bookForOrder a.originalReference = some none := by rw [hsound.bookForOrder_eq, ho]
    refine .same ⟨hsound, rfl, rfl, rfl, rfl, rfl⟩ ⟨fun p k hi => ?_, fun hw => ?_⟩
    · obtain ⟨-, hp, -⟩ := hi
      cases hunknown.symm.trans hp
    · obtain ⟨p, hp, -⟩ := hw
      cases hunknown.symm.trans hp
  | some p =>
    have hown : r.books.bookForOrder a.originalReference = some (some p) := by rw [hsound.bookForOrder_eq, ho]
    obtain ⟨s, b, d, hp, hd, -⟩ := routed h ho
    have hne : b.orderOf a.originalReference ≠ none := by rw [hd]; exact Option.some_ne_none d
    obtain ⟨o, hl, hdata⟩ := Option.map_eq_some_iff.mp hd
    simp only [ho, MultiBook.deref_eq hp, Option.bind_some, OrderBook.findOrder, (hsound.inv hp).find_eq, hl] at hr
    obtain ⟨⟨reply, m₁⟩, hm₁, hr⟩ := Option.bind_eq_some_iff.mp hr
    obtain ⟨b₁, hb₁, rfl⟩ := MultiBook.Sound.onBook_inv hp hm₁
    obtain ⟨m₂, hm₂, hr⟩ := Option.bind_eq_some_iff.mp hr
    obtain ⟨⟨reply₃, m₃⟩, hm₃, hr⟩ := Option.bind_eq_some_iff.mp hr
    obtain ⟨-, hc⟩ := OrderBook.cancel_orders (hsound.inv hp) hb₁
    have hleft := hsound.leave ho hp hc hne hm₂
    obtain ⟨h₂, hbooks, hlad, -⟩ := (hsound.changes hp hc).1.forgetOrder (p := p) ho hm₂
    have hp₂ : m₂.books[p]? = some (s, b₁) := by
      rw [hbooks]
      exact List.getElem?_set_self (List.getElem?_eq_some_iff.mp hp).1
    obtain ⟨b₂, hb₂, rfl⟩ := MultiBook.Sound.onBook_inv hp₂ hm₃
    obtain ⟨ha, hok, hch⟩ := OrderBook.insertPassive_orders (h₂.inv hp₂) hb₂
    -- the original is gone, so that only another order can be in the way
    have hrests : (a.newReference ≠ a.originalReference → ¬ r.books.RestsIn p a.newReference) ↔
        b₁.orderOf a.newReference = none := by
      rw [hsound.restsIn_iff, Classical.not_not, MultiBook.orders_at hp, hc.orderOf]
      by_cases e : a.newReference = a.originalReference
      · simp [e]
      · simp [e]
    have hins : r.Inserts (.replace a) p a.newReference ↔ reply₃.result = .ok := by
      rw [hok, h₂.validPrice hp₂, hlad]
      constructor
      · rintro ⟨-, -, ⟨h0, hq, hv⟩, hfree⟩
        exact ⟨h0, hq, hv, hrests.mp hfree⟩
      · rintro ⟨h0, hq, hv, hfree⟩
        exact ⟨rfl, hown, ⟨h0, hq, hv⟩, hrests.mpr hfree⟩
    dsimp only at hr
    split at hr
    · rename_i hres
      obtain ⟨m₄, hm₄, hr⟩ := Option.bind_eq_some_iff.mp hr
      cases hr
      obtain ⟨h0, -, -, hfree⟩ := hok.mp hres
      exact .replaced (hins.mpr hres) ho hleft (h₂.enter hp₂ (hch hres) hfree h0 hm₄) rfl
    · rename_i hres
      cases hr
      have hbb : b₂ = b₁ := (ha.rejected hres).2
      subst hbb
      have hset : ({ m₂ with books := m₂.books.set p (s, b₂) } : MultiBook L M) = m₂ := MultiBook.set_self hp₂
      show Effect r { m₂ with books := m₂.books.set p (s, b₂) } _ _
      rw [hset]
      refine .withdrawn ⟨p, hown, mt hins.mp hres⟩ (fun p' k hi => ?_) ho hleft
      obtain ⟨rfl, hp', -⟩ := id hi
      cases hp'.symm.trans hown
      exact hres (hins.mp hi)

omit [LawfulLadder L] [LawfulIdMap M] in
theorem Inserts.setStats {f : ReplayStats → ReplayStats} {m : Message} {p : BookPtr} {id : OrderId} :
    (r.setStats f).Inserts m p id ↔ r.Inserts m p id := by
  cases m <;> rfl

omit [LawfulLadder L] [LawfulIdMap M] in
theorem Withdraws.setStats {f : ReplayStats → ReplayStats} {m : Message} :
    (r.setStats f).Withdraws m ↔ r.Withdraws m := by
  cases m <;> rfl

omit [LawfulLadder L] [LawfulIdMap M] in
theorem Plain.setStats {f : ReplayStats → ReplayStats} {m : Message} (h : (r.setStats f).Plain m) : r.Plain m :=
  ⟨fun p id hi => h.1 p id (Inserts.setStats.mpr hi), fun hw => h.2 (Withdraws.setStats.mpr hw)⟩

omit [LawfulLadder L] in
theorem Effect.setStats {f : ReplayStats → ReplayStats} {m' : MultiBook L M} {m : Message}
    (h : Effect (r.setStats f) m' m out) : Effect r m' m out := by
  cases h with
  | same hs hno => exact .same hs hno.setStats
  | added hi he hd => exact .added (Inserts.setStats.mp hi) he hd
  | reduced hno ho hd hl hc => exact .reduced hno.setStats ho hd hl hc
  | consumed hno ho hd hl => exact .consumed hno.setStats ho hd hl
  | removed hno ho hl => exact .removed hno.setStats ho hl
  | replaced hi ho hl he hd => exact .replaced (Inserts.setStats.mp hi) ho hl he hd
  | withdrawn hw hno ho hl =>
    exact .withdrawn (Withdraws.setStats.mp hw) (fun p id hi => hno p id (Inserts.setStats.mpr hi)) ho hl

theorem dispatch_effect (h : r.books.Indexed) {m : Message} (hr : r.dispatch m = some (out, r')) :
    Effect r r'.books m out := by
  have hsame : MultiBook.Same r.books r.books := ⟨h.sound, rfl, rfl, rfl, rfl, rfl⟩
  cases m with
  | add m => exact onAdd_effect h hr
  | executed m => exact onReduced_effect h hr ⟨nofun, nofun⟩
  | cancel m => exact onReduced_effect h hr ⟨nofun, nofun⟩
  | delete m => exact onDelete_effect h hr
  | replace m => exact onReplace_effect h hr
  | trade timestamp =>
    cases hr
    exact .same hsame ⟨nofun, nofun⟩
  | systemEvent m =>
    cases hr
    exact .same hsame ⟨nofun, nofun⟩
  | administrative =>
    cases hr
    exact .same hsame ⟨nofun, nofun⟩

theorem apply_effect (h : r.books.Indexed) {msg : List UInt8} (hr : r.apply msg = some (out, r')) :
    ∃ m, decode msg = some m ∧ Effect r r'.books m out := by
  obtain ⟨m, hm, hr⟩ := Option.bind_eq_some_iff.mp hr
  exact ⟨m, hm, (dispatch_effect (r := r.setStats _) h hr).setStats⟩

omit [LawfulLadder L] [LawfulIdMap M] in
/-- A message inserts into one place at most. -/
theorem Inserts.unique {m : Message} {p q : BookPtr} {i j : OrderId} (h : r.Inserts m p i) (h' : r.Inserts m q j) :
    p = q ∧ i = j := by
  cases m with
  | add a =>
    obtain ⟨rfl, -, ⟨m₁, h₁⟩, -⟩ := h
    obtain ⟨rfl, -, ⟨m₂, h₂⟩, -⟩ := h'
    cases h₁.symm.trans h₂
    exact ⟨rfl, rfl⟩
  | replace a =>
    obtain ⟨rfl, h₁, -⟩ := h
    obtain ⟨rfl, h₂, -⟩ := h'
    cases h₁.symm.trans h₂
    exact ⟨rfl, rfl⟩
  | executed a => exact h.elim
  | cancel a => exact h.elim
  | delete a => exact h.elim
  | trade timestamp => exact h.elim
  | systemEvent a => exact h.elim
  | administrative => exact h.elim

omit [LawfulLadder L] in
theorem Effect.sound {m' : MultiBook L M} {m : Message}
    (h : Effect r m' m out) : m'.Sound := by
  cases h with
  | same hs => exact hs.sound
  | added _ he => exact he.sound
  | reduced _ _ _ _ hc => exact hc.sound
  | consumed _ _ _ hl => exact hl.sound
  | removed _ _ hl => exact hl.sound
  | replaced _ _ _ he => exact he.sound
  | withdrawn _ _ _ hl => exact hl.sound

omit [LawfulLadder L] in
/-- The index is right after a message if and only if that does not insert an
id into one book while it rests in another. -/
theorem Effect.indexed_iff (h : r.books.Indexed) {m' : MultiBook L M} {m : Message} (he : Effect r m' m out) :
    m'.Indexed ↔ ¬ ∃ p id, r.Inserts m p id ∧ ∃ q, q ≠ p ∧ r.books.RestsIn q id := by
  -- a message that inserts nothing
  have keeps : m'.Indexed → (∀ p id, ¬ r.Inserts m p id) →
      (m'.Indexed ↔ ¬ ∃ p id, r.Inserts m p id ∧ ∃ q, q ≠ p ∧ r.books.RestsIn q id) := by
    intro h' hno
    refine iff_of_true h' ?_
    rintro ⟨p, id, hi, -⟩
    exact hno p id hi
  -- and one that does
  have enters : ∀ {p id}, r.Inserts m p id → (m'.Indexed ↔ ∀ q, q ≠ p → r.books.orders q id = none) →
      (m'.Indexed ↔ ¬ ∃ p id, r.Inserts m p id ∧ ∃ q, q ≠ p ∧ r.books.RestsIn q id) := by
    intro p id hi hiff
    rw [hiff]
    constructor
    · rintro hfree ⟨p', id', hi', q, hne, hq⟩
      obtain ⟨rfl, rfl⟩ := hi.unique hi'
      exact (h.sound.restsIn_iff.mp hq) (hfree q hne)
    · intro hno q hne
      by_contra hq
      exact hno ⟨p, id, hi, q, hne, h.sound.restsIn_iff.mpr hq⟩
  cases he with
  | same hs hno => exact keeps (h.same hs) hno.1
  | added hi he hd => exact enters hi (h.entered_iff he)
  | reduced hno ho hd hl hc => exact keeps (h.changed ho hc) hno.1
  | consumed hno ho hd hl => exact keeps (h.left ho hl) hno.1
  | removed hno ho hl => exact keeps (h.left ho hl) hno.1
  | replaced hi ho hl he hd =>
    refine enters hi (((h.left ho hl).entered_iff he).trans (forall_congr' fun q => forall_congr' fun hne => ?_))
    rw [hl.orders, Directory.put_of_map_ne hne]
  | withdrawn hw hno ho hl => exact keeps (h.left ho hl) hno

end Itch.Replayer

end Pricetime
