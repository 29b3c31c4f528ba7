import Pricetime.Proof.RoutingIndex
import Pricetime.Proof.TreeBook
import Pricetime.Spec.Standing

/-!
# A replayer of messages that fit

As long as the messages fit the orders that stand (`Spec.Standing.Fits`), a
replayer over tree-backed ladders goes through them, finds every reference and
clamps nothing, and its books have the orders that stand, at the prices that
the messages may give them (`Reflects.apply`). This is so however many orders
rest: no counter of a level is asked to be right.
-/

namespace Pricetime

open Directory (put Directs union)
open Itch (Message Replayer ReplayEvent WriterCall)
open Spec (Entry Standing)

/-- What an order of a symbol is as an entry. -/
def OrderData.entry (s : Symbol) (d : OrderData) : Entry := ⟨s, d.side, d.qty⟩

namespace MultiBook

section Entries

variable {L M : Type} [IdMap M] [LawfulIdMap M] {m m' : MultiBook L M} {p : BookPtr} {id : OrderId} {s : Symbol}
  {b b' : OrderBook L M}

/-- The entries of the book at an address. -/
def entries (m : MultiBook L M) (p : BookPtr) (id : OrderId) : Option Entry :=
  m.books[p]?.bind fun e => (e.2.orderOf id).map (OrderData.entry e.1)

/-- The entries of all books. -/
def standing (m : MultiBook L M) : Standing := union m.ownerOf m.entries

theorem entries_at (hp : m.books[p]? = some (s, b)) : m.entries p id = (b.orderOf id).map (OrderData.entry s) := by
  rw [entries, hp, Option.bind_some]

theorem entries_eq_none : m.entries p id = none ↔ m.orders p id = none := by
  rw [entries, orders]
  cases m.books[p]? with
  | none => exact iff_of_true rfl rfl
  | some e => exact Option.map_eq_none_iff

theorem entries_set (hp : m.books[p]? = some (s, b)) {d : Option OrderData}
    (hb : b'.orderOf = Function.update b.orderOf id d) :
    ({ m with books := m.books.set p (s, b') } : MultiBook L M).entries =
      put m.entries p id (d.map (OrderData.entry s)) := by
  have hlt := (List.getElem?_eq_some_iff.mp hp).1
  funext q id'
  by_cases e : q = p
  · subst e
    rw [entries_at (show (m.books.set q (s, b'))[q]? = some (s, b') from List.getElem?_set_self hlt), hb]
    by_cases ei : id' = id
    · rw [ei, Function.update_self, Directory.put_self]
    · rw [Function.update_of_ne ei, Directory.put_of_key_ne ei, entries_at hp]
  · rw [Directory.put_of_map_ne e, entries, entries, List.getElem?_set_ne (Ne.symm e)]

/-- An order rests under a symbol. -/
def RestsAs (m : MultiBook L M) (id : OrderId) (e : Entry) : Prop :=
  ∃ b, (e.symbol, b) ∈ m.books ∧ ∃ o, b.findOrder id = some (some o) ∧ (b.heap.order o).side = e.side ∧
    (b.heap.order o).qty = e.shares

end Entries

section Indexed

variable {L M : Type} [Ladder L] [IdMap M] [LawfulIdMap M] {m m' : MultiBook L M} {p : BookPtr} {id : OrderId}

theorem Indexed.entries_directs (h : Indexed m) : Directs m.ownerOf m.entries := fun id p => by
  rw [h.directs id p, ne_eq, ne_eq, entries_eq_none]

theorem Indexed.restsAs_iff (h : Indexed m) {e : Entry} : m.RestsAs id e ↔ m.standing id = some e := by
  rw [standing, Directory.union_eq_some h.entries_directs]
  constructor
  · rintro ⟨b, hb, o, ho, hside, hqty⟩
    obtain ⟨p, hp⟩ := List.mem_iff_getElem?.mp hb
    rw [OrderBook.findOrder, (h.sound.inv hp).find_eq, Option.some.injEq] at ho
    refine ⟨p, ?_⟩
    rw [entries_at hp, OrderBook.orderOf, ho, Option.map_some, Option.map_some, OrderData.entry]
    exact congrArg₂ (fun side qty => some (Entry.mk e.symbol side qty)) hside hqty
  · rintro ⟨p, hp⟩
    obtain ⟨⟨s, b⟩, hb, hp⟩ := Option.bind_eq_some_iff.mp hp
    obtain ⟨d, hd, rfl⟩ := Option.map_eq_some_iff.mp hp
    obtain ⟨o, ho, rfl⟩ := Option.map_eq_some_iff.mp hd
    refine ⟨b, List.mem_of_getElem? hb, o, ?_, rfl, rfl⟩
    rw [OrderBook.findOrder, (h.sound.inv hb).find_eq, ho]

/-- One entry changes. -/
theorem Indexed.standing_put (h : Indexed m) (h' : Indexed m') {v : Option Entry}
    (he : m'.entries = put m.entries p id v) (hp : ∀ q, q ≠ p → m.orders q id = none) :
    m'.standing = Function.update m.standing id v := by
  have hd := h'.entries_directs
  rw [he] at hd
  rw [standing, he]
  exact Directory.union_put h.entries_directs hd fun q hq => entries_eq_none.mpr (hp q hq)

end Indexed

/-! ## The books of orders that stand -/

section Stands

variable {L M : Type} [Ladder L] [LawfulLadder L] [IdMap M] [LawfulIdMap M]

/-- The books have the orders that stand, over ladders within bounds. -/
structure Stands (within : Symbol → Side → Price → Prop) (m : MultiBook L M) (st : Standing) : Prop where
  indexed : m.Indexed
  vacant : Vacant m.ladder
  priced : ∀ e ∈ m.books, e.2.Priced (within e.1)
  standing : m.standing = st

namespace Stands

variable {within : Symbol → Side → Price → Prop} {m m' : MultiBook L M} {st : Standing} {p : BookPtr} {s : Symbol}
  {b b' : OrderBook L M} {id : OrderId} {e : Entry} {d : OrderData}

/-- The book of an order that stands. -/
theorem routed (h : Stands within m st) (he : st id = some e) : ∃ p b d, m.ownerOf id = some p ∧
    m.books[p]? = some (e.symbol, b) ∧ b.orderOf id = some d ∧ d.side = e.side ∧ d.qty = e.shares := by
  rw [← h.standing] at he
  obtain ⟨p, ho, hp⟩ := Option.bind_eq_some_iff.mp he
  obtain ⟨⟨s, b⟩, hb, hp⟩ := Option.bind_eq_some_iff.mp hp
  obtain ⟨d, hd, rfl⟩ := Option.map_eq_some_iff.mp hp
  exact ⟨p, b, d, ho, hb, hd, rfl, rfl⟩

theorem ownerOf_eq_none (h : Stands within m st) : m.ownerOf id = none ↔ st id = none := by
  rw [← h.standing, MultiBook.standing, union, Option.bind_eq_none_iff]
  constructor
  · intro ho p hp
    cases ho.symm.trans hp
  · intro hall
    by_contra hne
    obtain ⟨p, hp⟩ := Option.ne_none_iff_exists'.mp hne
    exact (h.indexed.entries_directs id p).mp hp (hall p hp)

omit [IdMap M] [LawfulIdMap M] in
theorem priced_set (h : ∀ e ∈ m.books, e.2.Priced (within e.1)) (hb : b'.Priced (within s)) (p : BookPtr) :
    ∀ e ∈ m.books.set p (s, b'), e.2.Priced (within e.1) := fun e he => by
  rcases List.mem_or_eq_of_mem_set he with he | rfl
  · exact h e he
  · exact hb

/-- The book of a symbol, old or new. -/
theorem book (h : Stands within m st) (s : Symbol) :
    ∃ p m' b, m.book s = some (p, m') ∧ Stands within m' st ∧ m'.books[p]? = some (s, b) := by
  obtain ⟨p, m', hbook⟩ : ∃ p m', m.book s = some (p, m') := by
    rw [MultiBook.book]
    split
    · exact ⟨_, _, rfl⟩
    · obtain ⟨b, hb, -⟩ := OrderBook.new_inv (M := M) m.ladder
      exact ⟨_, _, by rw [hb]; rfl⟩
  obtain ⟨hs, horders, howner, hopen, hladder, b, hp⟩ := h.indexed.sound.book hbook
  have hi : Indexed m' := h.indexed.same ⟨hs, hladder, horders, by rw [ownerOf, howner]; rfl, by rw [howner], hopen⟩
  refine ⟨p, m', b, hbook, ⟨hi, by rw [hladder]; exact h.vacant, ?_, ?_⟩, hp⟩
  · rcases book_cases hbook with ⟨e, -⟩ | ⟨-, b₁, hb₁, -, rfl⟩
    · rw [e]
      exact h.priced
    · obtain ⟨b₂, hb₂, -, -, hl, -, -, hheap⟩ := OrderBook.new_inv (M := M) m.ladder
      cases hb₁.symm.trans hb₂
      intro e he
      rcases List.mem_append.mp he with he | he
      · exact h.priced e he
      · cases List.mem_singleton.mp he
        exact .empty h.vacant hl hheap
  · rw [← h.standing, MultiBook.standing, MultiBook.standing]
    rcases book_cases hbook with ⟨e, -⟩ | ⟨-, b₁, -, -, rfl⟩
    · rw [e]
    · funext id
      show (m.ownerOf id).bind _ = _
      cases ho : m.ownerOf id with
      | none => rw [union, ho]; rfl
      | some q =>
        obtain ⟨t, c, hq, -⟩ := orders_ne_none.mp ((h.indexed.directs id q).mp ho)
        rw [union, ho, Option.bind_some, Option.bind_some, entries, entries,
          List.getElem?_append_left (List.getElem?_eq_some_iff.mp hq).1]

/-- An order enters a book, and then the index. -/
theorem enter (h : Stands within m st) (hp : m.books[p]? = some (s, b)) (h0 : id ≠ 0) (hid : st id = none)
    (hc : OrderBook.Changes id (some d) b b') (hb : b'.Priced (within s)) :
    ∃ m', ({ m with books := m.books.set p (s, b') } : MultiBook L M).noteOrder id p = some m' ∧
      Stands within m' (Function.update st id (some (d.entry s))) := by
  have hnone := h.ownerOf_eq_none.mpr hid
  have hfresh : b.orderOf id = none := by
    rw [← orders_at hp]
    exact h.indexed.absent hnone p
  obtain ⟨h₁, -⟩ := h.indexed.sound.changes hp hc
  obtain ⟨o, ho, -⟩ := OpenAddressMap.insert_spec h₁.ok h0 p
  have hm : ({ m with books := m.books.set p (s, b') } : MultiBook L M).noteOrder id p =
      some { m with books := m.books.set p (s, b'), owner := o } := by
    rw [noteOrder, ho]
    rfl
  have he := h.indexed.sound.enter hp hc hfresh h0 hm
  have hi := (h.indexed.entered_iff he).mpr fun q _ => h.indexed.absent hnone q
  refine ⟨_, hm, hi, h.vacant, priced_set h.priced hb p, ?_⟩
  rw [← h.standing]
  exact h.indexed.standing_put hi (entries_set hp hc.orderOf) fun q _ => h.indexed.absent hnone q

/-- An order leaves its book, and then the index. -/
theorem leave (h : Stands within m st) (ho : m.ownerOf id = some p) (hp : m.books[p]? = some (s, b))
    (hid : b.orderOf id ≠ none) (hc : OrderBook.Changes id none b b') (hb : b'.Priced (within s)) :
    ∃ m', ({ m with books := m.books.set p (s, b') } : MultiBook L M).forgetOrder id = some m' ∧
      Stands within m' (Function.update st id none) ∧ m'.books[p]? = some (s, b') := by
  have h0 : id ≠ 0 := fun e => by
    rw [e] at ho
    cases (OpenAddressMap.lookup_kEmpty m.owner).symm.trans ho
  obtain ⟨h₁, -⟩ := h.indexed.sound.changes hp hc
  obtain ⟨o, ho', -⟩ := OpenAddressMap.erase_spec h₁.ok h0
  have hm : ({ m with books := m.books.set p (s, b') } : MultiBook L M).forgetOrder id =
      some { m with books := m.books.set p (s, b'), owner := o } := by
    rw [forgetOrder, ho']
    rfl
  have hi := h.indexed.left ho (h.indexed.sound.leave ho hp hc hid hm)
  refine ⟨_, hm, ⟨hi, h.vacant, priced_set h.priced hb p, ?_⟩, ?_⟩
  · rw [← h.standing]
    exact h.indexed.standing_put hi (entries_set hp hc.orderOf) (h.indexed.alone ho)
  · exact List.getElem?_set_self (List.getElem?_eq_some_iff.mp hp).1

/-- An order changes in its book. -/
theorem change (h : Stands within m st) (ho : m.ownerOf id = some p) (hp : m.books[p]? = some (s, b))
    (hid : b.orderOf id ≠ none) (hc : OrderBook.Changes id (some d) b b') (hb : b'.Priced (within s)) :
    Stands within { m with books := m.books.set p (s, b') } (Function.update st id (some (d.entry s))) := by
  obtain ⟨h₁, horders, hn⟩ := h.indexed.sound.changes hp hc
  have hopen : ({ m with books := m.books.set p (s, b') } : MultiBook L M).openOrders = m.openOrders := by
    obtain ⟨d', hd'⟩ := Option.ne_none_iff_exists'.mp hid
    rw [orders_at hp, hd'] at hn
    exact Nat.add_right_cancel hn
  have hi := h.indexed.changed ho ⟨h₁, horders, rfl, rfl, hopen⟩
  refine ⟨hi, h.vacant, priced_set h.priced hb p, ?_⟩
  rw [← h.standing]
  exact h.indexed.standing_put hi (entries_set hp hc.orderOf) (h.indexed.alone ho)

end Stands

end Stands

end MultiBook

/-! ## The replayer -/

namespace Itch.Replayer

variable {L M : Type} [Ladder L] [LawfulLadder L] [TreeLadder L] [IdMap M] [LawfulIdMap M]

/-- A replayer that has not missed a reference, nor clamped. -/
def Clean (st : ReplayStats) : Prop := st.unknownReference = 0 ∧ st.clamped = 0

structure Reflects (within : Symbol → Side → Price → Prop) (r : Replayer L M) (st : Standing) : Prop where
  stands : r.books.Stands within st
  filter : r.filter = []
  clean : Clean r.stats

namespace Reflects

variable {within : Symbol → Side → Price → Prop} {r : Replayer L M} {st : Standing}

omit [TreeLadder L] in
theorem setStats (h : Reflects within r st) {f : ReplayStats → ReplayStats} (hf : Clean r.stats → Clean (f r.stats)) :
    Reflects within (r.setStats f) st := ⟨h.stands, h.filter, hf h.clean⟩

omit [LawfulLadder L] [TreeLadder L] [LawfulIdMap M] [Ladder L] [IdMap M] in
theorem tracked (hf : r.filter = []) (s : Symbol) : r.tracked s = true := by
  rw [Replayer.tracked, hf]
  rfl

theorem onAdd (h : Reflects within r st) {a : AddOrder} (hfits : st.Fits within (.add a)) :
    ∃ out r', r.onAdd a = some (out, r') ∧ Reflects within r' (st.after (.add a)) := by
  obtain ⟨h0, hq, hp, hfree⟩ := hfits
  obtain ⟨p, m₁, b, hbook, h₁, hb⟩ := h.stands.book a.symbol
  have hnone : b.orderOf a.reference = none := by
    rw [← MultiBook.orders_at hb]
    exact h₁.indexed.absent (h₁.ownerOf_eq_none.mpr hfree) p
  obtain ⟨b', hb', hpriced, hc⟩ := OrderBook.insertPassive_priced (h₁.priced _ (List.mem_of_getElem? hb))
    (h₁.indexed.sound.inv hb) h0 hq hp hnone
  obtain ⟨m₂, hnote, h₂⟩ := h₁.enter hb h0 hfree hc hpriced
  rw [Replayer.onAdd]
  simp only [setStats_tracked, tracked h.filter, Bool.not_true, Bool.false_eq_true, if_false, setStats_books, hbook,
    MultiBook.onBook, hb, hb', Option.bind_eq_bind, Option.bind_some, if_true, hnote]
  exact ⟨_, _, rfl, h₂, h.filter, h.clean⟩

theorem onReduced (h : Reflects within r st) (timestamp : UInt64) {reference : OrderId} {shares : Qty}
    (hcovers : st.Covers reference shares) (isExecution : Bool) :
    ∃ out r', r.onReduced timestamp reference shares isExecution = some (out, r') ∧
      Reflects within r' (st.take reference shares) := by
  obtain ⟨hq, e, he, hle⟩ := hcovers
  obtain ⟨p, b, d, ho, hp, hd, hside, hqty⟩ := h.stands.routed he
  have hi := h.stands.indexed.sound.inv hp
  have hne : b.orderOf reference ≠ none := by rw [hd]; exact Option.some_ne_none d
  obtain ⟨reply, b', hb', hpriced⟩ := OrderBook.consume_priced (h.stands.priced _ (List.mem_of_getElem? hp)) hi hne shares
    isExecution
  obtain ⟨-, htaken, hc⟩ := OrderBook.consume_orders hi hb'
  have htaken : reply.taken = shares := by
    rw [htaken, hd, Option.elim_some, Std.min_eq_if, if_pos]
    rwa [hqty]
  rw [hd, Option.bind_some, OrderData.less] at hc
  have hbook : r.books.onBook p (fun b => if isExecution then b.executeResting reference shares
      else b.reduceResting reference shares) =
        some (reply, { r.books with books := r.books.books.set p (e.symbol, b') }) := by
    rw [MultiBook.onBook, hp]
    cases isExecution <;> simp [OrderBook.executeResting, OrderBook.reduceResting, hb']
  have hat : (r.books.books.set p (e.symbol, b'))[p]? = some (e.symbol, b') :=
    List.getElem?_set_self (List.getElem?_eq_some_iff.mp hp).1
  rw [Replayer.onReduced]
  simp only [setStats_books, h.stands.indexed.sound.bookForOrder_eq, ho, hbook, MultiBook.deref, hat,
    Option.bind_eq_bind, Option.bind_some, Option.map_some, OrderBook.findOrder, hc.inv.find_eq, htaken,
    UInt32.lt_irrefl, if_false]
  rw [Standing.take, he, Option.bind_some, Entry.less, ← hqty]
  by_cases hlt : shares < d.qty
  · rw [if_pos hlt]
    rw [if_pos (.inr hlt)] at hc
    obtain ⟨o, hl, -⟩ := Option.map_eq_some_iff.mp ((congrFun hc.orderOf reference).trans (Function.update_self ..))
    have h₁ := h.stands.change ho hp hne hc hpriced
    rw [OrderData.entry, hside, hqty] at h₁
    rw [hqty, hl]
    exact ⟨_, _, rfl, h₁, h.filter, by cases isExecution <;> exact h.clean⟩
  · rw [if_neg hlt]
    rw [if_neg (not_or.mpr ⟨hq, hlt⟩)] at hc
    have hl := OrderBook.orderOf_eq_none.mp ((congrFun hc.orderOf reference).trans (Function.update_self ..))
    obtain ⟨m₂, hforget, h₂, -⟩ := h.stands.leave ho hp hne hc hpriced
    simp only [hl, hforget, Option.bind_some]
    exact ⟨_, _, rfl, h₂, h.filter, by cases isExecution <;> exact h.clean⟩

theorem onDelete (h : Reflects within r st) {a : OrderDelete} (hfits : st.Fits within (.delete a)) :
    ∃ out r', r.onDelete a = some (out, r') ∧ Reflects within r' (st.after (.delete a)) := by
  obtain ⟨e, he⟩ := Option.ne_none_iff_exists'.mp hfits
  obtain ⟨p, b, d, ho, hp, hd, -⟩ := h.stands.routed he
  have hne : b.orderOf a.reference ≠ none := by rw [hd]; exact Option.some_ne_none d
  obtain ⟨b', hb', hpriced, hc⟩ := OrderBook.cancel_priced (h.stands.priced _ (List.mem_of_getElem? hp))
    (h.stands.indexed.sound.inv hp) hne
  obtain ⟨m₂, hforget, h₂, -⟩ := h.stands.leave ho hp hne hc hpriced
  rw [Replayer.onDelete]
  simp only [setStats_books, h.stands.indexed.sound.bookForOrder_eq, ho, MultiBook.onBook, hp, hb',
    Option.bind_eq_bind, Option.bind_some, hforget]
  exact ⟨_, _, rfl, h₂, h.filter, h.clean⟩

theorem onReplace (h : Reflects within r st) {a : OrderReplace} (hfits : st.Fits within (.replace a)) :
    ∃ out r', r.onReplace a = some (out, r') ∧ Reflects within r' (st.after (.replace a)) := by
  obtain ⟨h0, hq, hfree, e, he, hin⟩ := hfits
  obtain ⟨p, b, d, ho, hp, hd, hside, -⟩ := h.stands.routed he
  have hne : b.orderOf a.originalReference ≠ none := by rw [hd]; exact Option.some_ne_none d
  obtain ⟨o, hl, hdata⟩ := Option.map_eq_some_iff.mp hd
  have hi := h.stands.indexed.sound.inv hp
  -- the original leaves
  obtain ⟨b₁, hb₁, hpriced₁, hc₁⟩ := OrderBook.cancel_priced (h.stands.priced _ (List.mem_of_getElem? hp)) hi hne
  obtain ⟨m₁, hforget, h₁, hp₁⟩ := h.stands.leave ho hp hne hc₁ hpriced₁
  -- the new order enters, on its side
  have hside : (b.heap.order o).side = e.side := by
    rw [← hside, ← hdata]
    rfl
  have hfree : (Function.update st a.originalReference none : Standing) a.newReference = none := by
    by_cases e : a.newReference = a.originalReference
    · rw [e, Function.update_self]
    · rw [Function.update_of_ne e, hfree]
  have hnone : b₁.orderOf a.newReference = none := by
    rw [← MultiBook.orders_at hp₁]
    exact h₁.indexed.absent (h₁.ownerOf_eq_none.mpr hfree) p
  obtain ⟨b₂, hb₂, hpriced₂, hc₂⟩ := OrderBook.insertPassive_priced hpriced₁ hc₁.inv h0 hq hin hnone
  obtain ⟨m₂, hnote, h₂⟩ := h₁.enter hp₁ h0 hfree hc₂ hpriced₂
  rw [Replayer.onReplace]
  simp only [setStats_books, h.stands.indexed.sound.bookForOrder_eq, ho, MultiBook.deref, MultiBook.onBook, hp, hb₁,
    Option.bind_eq_bind, Option.bind_some, Option.map_some, OrderBook.findOrder, hi.find_eq, hl, hforget, hside, hp₁,
    hb₂, if_true, hnote]
  refine ⟨_, _, rfl, ?_, h.filter, h.clean⟩
  rw [Standing.after, he]
  exact h₂

theorem dispatch (h : Reflects within r st) {m : Message} (hfits : st.Fits within m) :
    ∃ out r', r.dispatch m = some (out, r') ∧ Reflects within r' (st.after m) := by
  cases m with
  | add a => exact h.onAdd hfits
  | executed a => exact h.onReduced a.timestamp hfits true
  | cancel a => exact h.onReduced a.timestamp hfits false
  | delete a => exact h.onDelete hfits
  | replace a => exact h.onReplace hfits
  | trade timestamp => exact ⟨_, _, rfl, h.setStats fun hc => hc⟩
  | systemEvent a => exact ⟨_, _, rfl, h.setStats fun hc => hc⟩
  | administrative => exact ⟨_, _, rfl, h⟩

/-- A message that fits goes through. -/
theorem apply (h : Reflects within r st) {msg : List UInt8} {m : Message} (hm : decode msg = some m)
    (hfits : st.Fits within m) : ∃ out r', r.apply msg = some (out, r') ∧ Reflects within r' (st.after m) := by
  have h₁ := h.setStats (f := fun s => { s with messages := s.messages + 1, bytes := s.bytes + msg.length.toUInt64 })
    fun hc => hc
  rw [Replayer.apply, hm, Option.bind_eq_bind, Option.bind_some]
  exact h₁.dispatch hfits

omit [TreeLadder L] in
/-- The books are not crossed, nor locked, if no two prices of the two sides
are. -/
theorem uncrossed (h : Reflects within r st) (hw : ∀ s p q, within s .bid p → within s .ask q → p < q) :
    ∀ e ∈ r.books.books, ∀ bid ∈ e.2.best .bid, ∀ ask ∈ e.2.best .ask, bid.price < ask.price := fun e he _ hb _ ha =>
  hw e.1 _ _ ((h.stands.priced e he).best hb) ((h.stands.priced e he).best ha)

end Reflects

/-- Calls of a writer, each of which fits what the ones before it have left. -/
theorem Reflects.run {within : Symbol → Side → Price → Prop} : ∀ {r : Replayer L M} {st : Standing}
    (calls : List WriterCall), Reflects within r st →
    Runs.Folds (fun st c => st.after c.said) (fun st c => Standing.Fits within st c.said) st calls →
    ∃ r', Runs.run Replayer.apply r (calls.map WriterCall.body) = some r' ∧
      Reflects within r' (calls.foldl (fun st c => st.after c.said) st) ∧
      Runs.Along Replayer.apply (fun r => ∃ st, Reflects within r st) r (calls.map WriterCall.body)
  | r, st, [], h, _ => ⟨r, rfl, h, st, h⟩
  | r, st, c :: calls, h, hfits => by
    obtain ⟨out, r₁, hr, h₁⟩ := h.apply (decode_body c) hfits.1
    obtain ⟨r', hrun, h', halong⟩ := Reflects.run calls h₁ hfits.2
    refine ⟨r', ?_, h', ?_⟩
    · rw [List.map_cons, Runs.run_cons hr, hrun]
    · exact (Runs.along_cons hr).mpr ⟨⟨st, h⟩, halong⟩

omit [TreeLadder L] in
/-- A new replayer. -/
theorem new_reflects {ladder : L} (hv : Vacant ladder) {r₀ : Replayer L M} (h₀ : new ladder = some r₀)
    (within : Symbol → Side → Price → Prop) : Reflects within r₀ fun _ => none := by
  obtain ⟨hs, ha, -⟩ := new_agrees h₀
  have hi := hs.agrees_iff.mp ha
  obtain ⟨o, ho, -⟩ := OpenAddressMap.new_spec (V := BookPtr) hash
  have hr : r₀ = { books := { owner := o, ladder } } := by
    rw [new, MultiBook.new, ho] at h₀
    exact (Option.some.inj h₀).symm
  subst hr
  refine ⟨⟨hi, hv, by simp, ?_⟩, rfl, rfl, rfl⟩
  funext id
  have hnone : MultiBook.ownerOf ({ owner := o, ladder := ladder } : MultiBook L M) id = none :=
    hi.directs.none_iff.mpr fun p => by rw [MultiBook.orders]; rfl
  rw [MultiBook.standing, union, hnone]
  rfl

end Itch.Replayer

end Pricetime
