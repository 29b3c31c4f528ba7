import Pricetime.Impl.Replayer
import Pricetime.Proof.Framework.Directory
import Pricetime.Proof.MultiBook
import Pricetime.Proof.NodeRuns

/-!
# The books and the index between them

`orders` is the family of finite maps that the books of a `MultiBook` stand
for, and `ownerOf` its directory. `Indexed` says that the directory is right
and counts what rests. What a message does to the two is one of `Entered`,
`Left` and `Changed`, however many orders rest (`Effect`, `dispatch_effect`).
-/

namespace Pricetime

open Directory (put Directs)

namespace MultiBook

variable {L M : Type} [Ladder L] [IdMap M] [LawfulIdMap M]

/-- The orders of the book at an address. -/
def orders (m : MultiBook L M) (p : BookPtr) (id : OrderId) : Option OrderData :=
  m.books[p]?.bind fun e => e.2.orderOf id

/-- The books and the index, each for itself. -/
structure Sound (m : MultiBook L M) : Prop where
  inv : ∀ {p : BookPtr} {s b}, m.books[p]? = some (s, b) → OrderBook.NodeInv b
  validPrice : ∀ {p : BookPtr} {s b}, m.books[p]? = some (s, b) →
    Ladder.validPrice b.ladder = Ladder.validPrice m.ladder
  ok : OpenAddressMap.Ok hash m.owner

/-- The index is the directory of the books, and counts their orders. -/
structure Indexed (m : MultiBook L M) : Prop where
  sound : Sound m
  directs : Directs m.ownerOf m.orders
  size : m.owner.size = m.openOrders

variable {m m' : MultiBook L M} {p q : BookPtr} {s : Symbol} {b b' : OrderBook L M} {id : OrderId}
  {d : OrderData}

section Symbols

omit [Ladder L] [LawfulIdMap M]

/-- The book of a symbol is where it was, or is made and comes last. -/
theorem book_cases (hb : m.book s = some (p, m')) :
    (m' = m ∧ ∃ b, m.books[p]? = some (s, b)) ∨ (s ∉ m.symbols ∧ ∃ b, OrderBook.new m.ladder = some b ∧
      p = m.books.length ∧ m' = { m with books := m.books ++ [(s, b)] }) := by
  rw [MultiBook.book] at hb
  cases hf : m.books.findIdx? fun e => e.1 = s with
  | some i =>
    rw [hf] at hb
    cases hb
    obtain ⟨hlt, hs, -⟩ := List.findIdx?_eq_some_iff_getElem.mp hf
    have hs : m.books[p].1 = s := of_decide_eq_true hs
    refine .inl ⟨rfl, m.books[p].2, ?_⟩
    rw [List.getElem?_eq_getElem hlt, ← hs]
  | none =>
    rw [hf] at hb
    obtain ⟨b, hb', hb⟩ := Option.bind_eq_some_iff.mp hb
    cases hb
    refine .inr ⟨fun hs => ?_, b, hb', rfl, rfl⟩
    obtain ⟨e, he, rfl⟩ := List.mem_map.mp hs
    simpa using List.findIdx?_eq_none_iff.mp hf e he

end Symbols

section Orders

omit [Ladder L]

theorem orders_at (hp : m.books[p]? = some (s, b)) : m.orders p = b.orderOf := by
  funext id
  rw [orders, hp, Option.bind_some]

theorem orders_ne_none : m.orders p id ≠ none ↔ ∃ s b, m.books[p]? = some (s, b) ∧ b.orderOf id ≠ none := by
  rw [orders]
  cases hp : m.books[p]? with
  | none => simp
  | some e =>
    obtain ⟨s, b⟩ := e
    simp

omit [IdMap M] [LawfulIdMap M] in
theorem set_self (hp : m.books[p]? = some (s, b)) :
    ({ m with books := m.books.set p (s, b) } : MultiBook L M) = m := by
  obtain ⟨hlt, e⟩ := List.getElem?_eq_some_iff.mp hp
  have hset : m.books.set p (s, b) = m.books := by
    rw [← e]
    exact List.set_getElem_self hlt
  rw [hset]

theorem orders_set (hp : m.books[p]? = some (s, b)) {d : Option OrderData}
    (hb : b'.orderOf = Function.update b.orderOf id d) :
    ({ m with books := m.books.set p (s, b') } : MultiBook L M).orders = put m.orders p id d := by
  have hlt := (List.getElem?_eq_some_iff.mp hp).1
  funext q id'
  by_cases e : q = p
  · subst e
    rw [orders_at (show (m.books.set q (s, b'))[q]? = some (s, b') from List.getElem?_set_self hlt), hb, put,
      Function.update_self, orders_at hp]
  · rw [Directory.put_of_map_ne e, orders, orders, List.getElem?_set_ne (Ne.symm e)]

theorem sum_set {α : Type} (f : α → Nat) {y : α} : ∀ {xs : List α} {p : Nat} {x : α}, xs[p]? = some x →
    ((xs.set p y).map f).sum + f x = (xs.map f).sum + f y
  | x :: xs, 0, _, h => by
    cases h
    simp only [List.set_cons_zero, List.map_cons, List.sum_cons]
    omega
  | x :: xs, p + 1, _, h => by
    have ih := @sum_set _ f y xs p _ h
    simp only [List.set_cons_succ, List.map_cons, List.sum_cons]
    omega

omit [LawfulIdMap M] in
theorem openOrders_set (hp : m.books[p]? = some (s, b)) (b' : OrderBook L M) :
    ({ m with books := m.books.set p (s, b') } : MultiBook L M).openOrders + b.openOrders =
      m.openOrders + b'.openOrders :=
  sum_set (fun e : Symbol × OrderBook L M => e.2.openOrders) hp

end Orders

namespace Sound

theorem setBook (h : Sound m) (hp : m.books[p]? = some (s, b)) (hb : OrderBook.NodeInv b')
    (hv : Ladder.validPrice b'.ladder = Ladder.validPrice b.ladder) :
    Sound { m with books := m.books.set p (s, b') } := by
  have hlt := (List.getElem?_eq_some_iff.mp hp).1
  have at_ : ∀ {q : BookPtr} {s₁ b₁}, (m.books.set p (s, b'))[q]? = some (s₁, b₁) →
      b₁ = b' ∨ m.books[q]? = some (s₁, b₁) := by
    intro q s₁ b₁ hq
    by_cases e : p = q
    · subst e
      rw [List.getElem?_set_self hlt] at hq
      cases hq
      exact .inl rfl
    · exact .inr (by rwa [List.getElem?_set_ne e] at hq)
  refine ⟨fun hq => ?_, fun hq => ?_, h.ok⟩
  · rcases at_ hq with rfl | hq
    · exact hb
    · exact h.inv hq
  · rcases at_ hq with rfl | hq
    · exact hv.trans (h.validPrice hp)
    · exact h.validPrice hq

theorem bookForOrder_eq (h : Sound m) (id : OrderId) : m.bookForOrder id = some (m.ownerOf id) :=
  OpenAddressMap.find_eq h.ok id

/-- The book of a symbol, old or new. -/
theorem book (h : Sound m) (hb : m.book s = some (p, m')) :
    Sound m' ∧ m'.orders = m.orders ∧ m'.owner = m.owner ∧ m'.openOrders = m.openOrders ∧
      m'.ladder = m.ladder ∧ ∃ b, m'.books[p]? = some (s, b) := by
  rcases book_cases hb with ⟨rfl, b, hp⟩ | ⟨-, b, hb', rfl, rfl⟩
  · exact ⟨h, rfl, rfl, rfl, rfl, b, hp⟩
  · obtain ⟨b₁, hb₁, hinv, hl, hladder, -⟩ := OrderBook.new_inv (M := M) m.ladder
    cases hb'.symm.trans hb₁
    have at_ : ∀ {q : BookPtr} {s₁ b₁}, (m.books ++ [(s, b)])[q]? = some (s₁, b₁) →
        b₁ = b ∨ m.books[q]? = some (s₁, b₁) := by
      intro q s₁ b₁ hq
      rcases Nat.lt_or_ge q m.books.length with hlt | hge
      · exact .inr (by rwa [List.getElem?_append_left hlt] at hq)
      · rw [List.getElem?_append_right hge, List.getElem?_singleton] at hq
        split at hq
        · cases hq
          exact .inl rfl
        · cases hq
    have hzero : b.openOrders = 0 := by
      obtain ⟨all, -, hall, hlen⟩ := hinv.count
      rw [← hlen, List.length_eq_zero_iff, List.eq_nil_iff_forall_not_mem]
      intro o ho
      cases (hl _).symm.trans ((hall o).mp ho)
    refine ⟨⟨fun hq => ?_, fun hq => ?_, h.ok⟩, ?_, rfl, ?_, rfl, b, List.getElem?_concat_length⟩
    · rcases at_ hq with rfl | hq
      · exact hinv
      · exact h.inv hq
    · rcases at_ hq with rfl | hq
      · rw [hladder]
      · exact h.validPrice hq
    · funext q id
      rcases Nat.lt_or_ge q m.books.length with hlt | hge
      · rw [orders, orders, List.getElem?_append_left hlt]
      · have hm : m.orders q id = none := by rw [orders, List.getElem?_eq_none hge, Option.bind_none]
        rw [hm]
        by_contra hne
        obtain ⟨s₁, b₁, hq, ho⟩ := orders_ne_none.mp hne
        rcases at_ hq with rfl | hq
        · exact ho (OrderBook.orderOf_eq_none.mpr (hl id))
        · rw [List.getElem?_eq_none hge] at hq
          cases hq
    · rw [openOrders, List.map_append, List.sum_append, List.map_singleton, List.sum_singleton, hzero,
        Nat.add_zero, openOrders]

end Sound

/-! ## What a message's steps do -/

/-- The books and the index stay, but for a new book. -/
structure Same (m m' : MultiBook L M) : Prop where
  sound : Sound m'
  ladder : m'.ladder = m.ladder
  orders : m'.orders = m.orders
  ownerOf : m'.ownerOf = m.ownerOf
  size : m'.owner.size = m.owner.size
  openOrders : m'.openOrders = m.openOrders

/-- An order enters the book at an address, and the index if that does not
know its id. -/
structure Entered (p : BookPtr) (id : OrderId) (d : OrderData) (m m' : MultiBook L M) : Prop where
  sound : Sound m'
  fresh : m.orders p id = none
  orders : m'.orders = put m.orders p id (some d)
  index : m.ownerOf id = none →
    m'.ownerOf = Function.update m.ownerOf id (some p) ∧ m'.owner.size = m.owner.size + 1
  openOrders : m'.openOrders = m.openOrders + 1

/-- An order leaves its book and the index. -/
structure Left (p : BookPtr) (id : OrderId) (m m' : MultiBook L M) : Prop where
  sound : Sound m'
  ladder : m'.ladder = m.ladder
  orders : m'.orders = put m.orders p id none
  ownerOf : m'.ownerOf = Function.update m.ownerOf id none
  size : m'.owner.size + 1 = m.owner.size
  openOrders : m'.openOrders + 1 = m.openOrders

/-- An order changes where it is. -/
structure Changed (p : BookPtr) (id : OrderId) (d : OrderData) (m m' : MultiBook L M) : Prop where
  sound : Sound m'
  orders : m'.orders = put m.orders p id (some d)
  ownerOf : m'.ownerOf = m.ownerOf
  size : m'.owner.size = m.owner.size
  openOrders : m'.openOrders = m.openOrders

namespace Indexed

/-- No book has an order that the index does not know. -/
theorem absent (h : Indexed m) (ho : m.ownerOf id = none) (q : BookPtr) : m.orders q id = none :=
  h.directs.none_iff.mp ho q

/-- No other book has an order that the index has here. -/
theorem alone (h : Indexed m) (ho : m.ownerOf id = some p) (q : BookPtr) (hq : q ≠ p) : m.orders q id = none := by
  by_contra hne
  exact hq (h.directs.unique hne ((h.directs id p).mp ho))

theorem same (h : Indexed m) (hs : Same m m') : Indexed m' :=
  ⟨hs.sound, by rw [hs.ownerOf, hs.orders]; exact h.directs, by rw [hs.size, hs.openOrders, h.size]⟩

theorem left (h : Indexed m) (ho : m.ownerOf id = some p) (hl : Left p id m m') : Indexed m' := by
  refine ⟨hl.sound, ?_, ?_⟩
  · rw [hl.ownerOf, hl.orders]
    exact h.directs.erase ho
  · have := hl.size
    have := hl.openOrders
    have := h.size
    omega

theorem changed (h : Indexed m) (ho : m.ownerOf id = some p) (hc : Changed p id d m m') : Indexed m' := by
  refine ⟨hc.sound, ?_, by rw [hc.size, hc.openOrders, h.size]⟩
  rw [hc.ownerOf, hc.orders]
  exact h.directs.change ho (Option.some_ne_none d)

/-- An order may enter if its id rests nowhere else. -/
theorem entered_iff (h : Indexed m) (he : Entered p id d m m') :
    Indexed m' ↔ ∀ q, q ≠ p → m.orders q id = none := by
  constructor
  · intro h' q hne
    by_contra hq
    have hd := h'.directs
    rw [he.orders] at hd
    exact Directory.not_directs_put (Option.some_ne_none d) hne hq hd
  · intro hfree
    have hall : ∀ q, m.orders q id = none := fun q => by
      by_cases e : q = p
      · rw [e, he.fresh]
      · exact hfree q e
    obtain ⟨hown, hsize⟩ := he.index (h.directs.none_iff.mpr hall)
    refine ⟨he.sound, ?_, by rw [hsize, he.openOrders, h.size]⟩
    rw [hown, he.orders]
    exact h.directs.insert hall p (Option.some_ne_none d)

end Indexed

namespace Sound

omit [Ladder L] [IdMap M] [LawfulIdMap M] in
theorem onBook_inv {f : OrderBook L M → Option (Reply × OrderBook L M)} {reply : Reply}
    (hp : m.books[p]? = some (s, b)) (hm : m.onBook p f = some (reply, m')) :
    ∃ b', f b = some (reply, b') ∧ m' = { m with books := m.books.set p (s, b') } := by
  rw [MultiBook.onBook, hp] at hm
  simp only [Option.bind_eq_bind, Option.bind_some] at hm
  obtain ⟨⟨reply', b'⟩, hb', hm⟩ := Option.bind_eq_some_iff.mp hm
  cases hm
  exact ⟨b', hb', rfl⟩

/-- A step on one order of a book, and what it does to the family. -/
theorem changes (h : Sound m) (hp : m.books[p]? = some (s, b)) {d : Option OrderData}
    (hc : OrderBook.Changes id d b b') :
    Sound { m with books := m.books.set p (s, b') } ∧
      ({ m with books := m.books.set p (s, b') } : MultiBook L M).orders = put m.orders p id d ∧
      ({ m with books := m.books.set p (s, b') } : MultiBook L M).openOrders + (m.orders p id).elim 0 (fun _ => 1) =
        m.openOrders + d.elim 0 fun _ => 1 := by
  refine ⟨h.setBook hp hc.inv hc.validPrice, orders_set hp hc.orderOf, ?_⟩
  have hset := openOrders_set hp b'
  have hopen := hc.openOrders
  rw [OrderBook.count, OrderBook.count, hc.orderOf, Function.update_self] at hopen
  rw [orders_at hp]
  omega

theorem noteOrder (h : Sound m) (h0 : id ≠ 0) (hm : m.noteOrder id p = some m') :
    Sound m' ∧ m'.books = m.books ∧ m'.ladder = m.ladder ∧ (m.ownerOf id = none →
      m'.ownerOf = Function.update m.ownerOf id (some p) ∧ m'.owner.size = m.owner.size + 1) := by
  obtain ⟨o, ho, hok, hcase⟩ := OpenAddressMap.insert_spec h.ok h0 p
  rw [MultiBook.noteOrder, ho] at hm
  cases hm
  refine ⟨⟨h.inv, h.validPrice, hok⟩, rfl, rfl, fun hnone => ?_⟩
  rcases hcase with ⟨-, hl, hs⟩ | ⟨hne, -⟩
  · exact ⟨hl, hs⟩
  · exact absurd hnone hne

theorem forgetOrder (h : Sound m) (ho : m.ownerOf id = some p) (hm : m.forgetOrder id = some m') :
    Sound m' ∧ m'.books = m.books ∧ m'.ladder = m.ladder ∧
      m'.ownerOf = Function.update m.ownerOf id none ∧ m'.owner.size + 1 = m.owner.size := by
  have h0 : id ≠ 0 := fun e => by
    rw [e] at ho
    cases (OpenAddressMap.lookup_kEmpty m.owner).symm.trans ho
  obtain ⟨o, he, hok, hl, hs⟩ := OpenAddressMap.erase_spec h.ok h0
  rw [MultiBook.forgetOrder, he] at hm
  cases hm
  refine ⟨⟨h.inv, h.validPrice, hok⟩, rfl, rfl, hl, ?_⟩
  rwa [show OpenAddressMap.lookup m.owner id = some p from ho, Option.isSome_some, if_pos rfl] at hs

/-- An order enters a book, and then the index. -/
theorem enter (h : Sound m) (hp : m.books[p]? = some (s, b)) (hc : OrderBook.Changes id (some d) b b')
    (hfresh : b.orderOf id = none) (h0 : id ≠ 0)
    (hm : ({ m with books := m.books.set p (s, b') } : MultiBook L M).noteOrder id p = some m') :
    Entered p id d m m' := by
  obtain ⟨h₁, ho, hn⟩ := h.changes hp hc
  obtain ⟨h₂, hbooks, -, hidx⟩ := h₁.noteOrder h0 hm
  rw [orders_at hp, hfresh] at hn
  have horders : m'.orders = put m.orders p id (some d) := by
    rw [← ho]
    funext q id'
    rw [orders, orders, hbooks]
  have hopen : m'.openOrders = m.openOrders + 1 := by
    rw [openOrders, hbooks]
    exact hn
  exact ⟨h₂, by rw [orders_at hp, hfresh], horders, hidx, hopen⟩

/-- An order leaves a book, and then the index. -/
theorem leave (h : Sound m) (ho : m.ownerOf id = some p) (hp : m.books[p]? = some (s, b))
    (hc : OrderBook.Changes id none b b') (hrests : b.orderOf id ≠ none)
    (hm : ({ m with books := m.books.set p (s, b') } : MultiBook L M).forgetOrder id = some m') :
    Left p id m m' := by
  obtain ⟨h₁, hord, hn⟩ := h.changes hp hc
  obtain ⟨h₂, hbooks, hlad, hown, hsize⟩ := h₁.forgetOrder (p := p) ho hm
  obtain ⟨d, hd⟩ := Option.ne_none_iff_exists'.mp hrests
  rw [orders_at hp, hd] at hn
  have horders : m'.orders = put m.orders p id none := by
    rw [← hord]
    funext q id'
    rw [orders, orders, hbooks]
  have hopen : m'.openOrders + 1 = m.openOrders := by
    rw [openOrders, hbooks]
    exact hn
  exact ⟨h₂, hlad, horders, hown, hsize, hopen⟩

end Sound

end MultiBook

end Pricetime
