import Pricetime.Impl.MultiBook
import Pricetime.Proof.BookRefines
import Pricetime.Proof.SpecReplayer

/-!
# Books by symbol against the abstract ones

`MultiBook.Refines accepts m a`: every book of `m` is in simulation with the
abstract book of its symbol, and the index from ids to books is the abstract
one. The steps that a message is made of keep it.
-/

namespace Pricetime

namespace MultiBook

section Symbols

variable {L M : Type} {m : MultiBook L M}

def symbols (m : MultiBook L M) : List Symbol := m.books.map Prod.fst

/-- The index from ids to books. -/
def ownerOf (m : MultiBook L M) : OrderId → Option BookPtr := OpenAddressMap.lookup m.owner

theorem symbols_at {p : BookPtr} {s : Symbol} {b : OrderBook L M} (hp : m.books[p]? = some (s, b)) :
    m.symbols[p]? = some s := by
  rw [symbols, List.getElem?_map, hp]
  rfl

theorem symbols_set {p : BookPtr} {s : Symbol} {b : OrderBook L M} (hp : m.books[p]? = some (s, b))
    (b' : OrderBook L M) : (m.books.set p (s, b')).map Prod.fst = m.symbols := by
  refine List.ext_getElem? fun q => ?_
  rw [List.map_set, List.getElem?_set]
  split
  · rename_i e
    subst e
    rw [symbols_at hp]
    exact if_pos (List.getElem?_eq_some_iff.mp (symbols_at hp)).1
  · rfl

theorem deref_eq {p : BookPtr} {s : Symbol} {b : OrderBook L M}
    (hp : m.books[p]? = some (s, b)) : m.deref p = some b := by
  rw [MultiBook.deref, hp]
  rfl

variable {p : BookPtr} {s : Symbol} {b : OrderBook L M}

theorem symbols_mem (h : (s, b) ∈ m.books) : s ∈ m.symbols := List.mem_map_of_mem h

/-- A symbol has one book. -/
theorem book_unique (hn : m.symbols.Nodup) {c : OrderBook L M} (hb : (s, b) ∈ m.books) (hc : (s, c) ∈ m.books) :
    b = c := congrArg Prod.snd (List.inj_on_of_nodup_map hn hb hc rfl)

theorem find_eq_some (hn : m.symbols.Nodup) : m.find s = some b ↔ (s, b) ∈ m.books := by
  rw [find, Option.map_eq_some_iff]
  constructor
  · rintro ⟨⟨s', b⟩, he, rfl⟩
    have hs : s' = s := by simpa using List.find?_some he
    exact hs ▸ List.mem_of_find?_eq_some he
  · intro hb
    cases hf : m.books.find? fun e => e.1 = s with
    | none => simpa using List.find?_eq_none.mp hf _ hb
    | some e =>
      obtain ⟨s', c⟩ := e
      have hs : s' = s := by simpa using List.find?_some hf
      subst hs
      exact ⟨_, rfl, book_unique hn (List.mem_of_find?_eq_some hf) hb⟩

theorem mem_set (hn : m.symbols.Nodup) (hp : m.books[p]? = some (s, b)) (b' : OrderBook L M) {s' : Symbol}
    {c : OrderBook L M} : (s', c) ∈ m.books.set p (s, b') ↔ if s' = s then c = b' else (s', c) ∈ m.books := by
  have hlt := (List.getElem?_eq_some_iff.mp hp).1
  have hset : (s, b') ∈ m.books.set p (s, b') := List.mem_of_getElem? (List.getElem?_set_self hlt)
  have hn' : ({ m with books := m.books.set p (s, b') } : MultiBook L M).symbols.Nodup := by
    rw [MultiBook.symbols, symbols_set hp b']
    exact hn
  split
  · rename_i e
    subst e
    constructor
    · intro hc
      exact book_unique hn' hc hset
    · rintro rfl
      exact hset
  · rename_i e
    constructor
    · intro hc
      rcases List.mem_or_eq_of_mem_set hc with hc | hc
      · exact hc
      · exact absurd (congrArg Prod.fst hc) e
    · intro hc
      obtain ⟨q, hq⟩ := List.mem_iff_getElem?.mp hc
      have hne : p ≠ q := fun epq => by
        subst epq
        exact e (congrArg Prod.fst (Option.some.inj (hq.symm.trans hp)))
      exact List.mem_of_getElem? ((List.getElem?_set_ne hne).trans hq)

theorem nodup_append (hn : m.symbols.Nodup) (hs : s ∉ m.symbols) (b : OrderBook L M) :
    ({ m with books := m.books ++ [(s, b)] } : MultiBook L M).symbols.Nodup := by
  rw [symbols, List.map_append, List.nodup_append]
  refine ⟨hn, List.nodup_singleton s, fun x hx y hy e => hs ?_⟩
  have hys : y = s := List.mem_singleton.mp hy
  rw [← hys, ← e]
  exact hx

end Symbols

variable {L M : Type} [Ladder L] [LawfulLadder L] [IdMap M] [LawfulIdMap M]

/-- The orders that rest in all books. -/
def openOrders (m : MultiBook L M) : Nat := (m.books.map fun e => e.2.openOrders).sum

/-- Fewer than `2^32` orders rest. -/
def Few (m : MultiBook L M) : Prop := m.openOrders < 2 ^ 32

/-- Whether an order rests in one of the books. -/
def Rests (m : MultiBook L M) (id : OrderId) : Prop := ∃ e ∈ m.books, e.2.Rests id

/-- A side of a symbol as an observer walks it, empty before the symbol has a
book. -/
def walk (m : MultiBook L M) (s : Symbol) (side : Side) : Option (List LevelView) :=
  (m.find s).elim (some []) fun b => b.walk side

structure Refines (accepts : Price → Bool) (m : MultiBook L M) (a : Spec.MultiBook) : Prop where
  symbols : m.symbols = a.symbols
  nodup : a.symbols.Nodup
  book : ∀ {p : Nat} {s b}, m.books[p]? = some (s, b) → OrderBook.Sim accepts b (a.book s)
  unseen : ∀ s, s ∉ a.symbols → a.book s = {}
  ok : OpenAddressMap.Ok hash m.owner
  owner : ∀ id, a.owner id = (m.ownerOf id).bind fun p => a.symbols[p]?
  bound : ∀ {id p}, m.ownerOf id = some p → p < a.symbols.length
  vacant : Vacant m.ladder
  accepts : Ladder.validPrice m.ladder = accepts

omit [Ladder L] [LawfulLadder L] [LawfulIdMap M] in
/-- The book at an address has few orders if there are few in all. -/
theorem Few.book {m : MultiBook L M} (h : m.Few) {p : BookPtr} {s : Symbol} {b : OrderBook L M}
    (hp : m.books[p]? = some (s, b)) : b.Few :=
  Nat.lt_of_le_of_lt (List.le_sum_of_mem (List.mem_map.mpr ⟨_, List.mem_of_getElem? hp, rfl⟩)) h

namespace Refines

variable {accepts : Price → Bool} {m : MultiBook L M} {a : Spec.MultiBook} {p : BookPtr} {s : Symbol}
  {b : OrderBook L M}

theorem index_inj (h : Refines accepts m a) {q : BookPtr} {b' : OrderBook L M} (hp : m.books[p]? = some (s, b))
    (hq : m.books[q]? = some (s, b')) : p = q := by
  have hp := h.symbols ▸ symbols_at hp
  have hq := h.symbols ▸ symbols_at hq
  exact (List.getElem?_inj (List.getElem?_eq_some_iff.mp hp).1 h.nodup).mp (hp.trans hq.symm)

theorem mem_symbols (h : Refines accepts m a) (hp : m.books[p]? = some (s, b)) : s ∈ a.symbols :=
  h.symbols ▸ List.mem_of_getElem? (symbols_at hp)

/-- The index points to books. -/
theorem owned (h : Refines accepts m a) {id : OrderId} (ho : m.ownerOf id = some p) :
    ∃ s b, m.books[p]? = some (s, b) ∧ a.owner id = some s := by
  have hlt := h.bound ho
  rw [← h.symbols, MultiBook.symbols, List.length_map] at hlt
  have hp : m.books[p]? = some (m.books[p].1, m.books[p].2) := List.getElem?_eq_getElem hlt
  refine ⟨_, _, hp, ?_⟩
  rw [h.owner, ho, Option.bind_some, ← h.symbols, symbols_at hp]

theorem bookForOrder (h : Refines accepts m a) (id : OrderId) :
    (m.bookForOrder id = some none ∧ a.owner id = none) ∨
    ∃ p s b, id ≠ 0 ∧ m.bookForOrder id = some (some p) ∧ m.books[p]? = some (s, b) ∧ a.owner id = some s := by
  have hfind := OpenAddressMap.find_eq h.ok id
  cases ho : m.ownerOf id with
  | none =>
    refine .inl ⟨hfind.trans (congrArg some ho), ?_⟩
    rw [h.owner, ho]
    rfl
  | some p =>
    obtain ⟨s, b, hp, hs⟩ := h.owned ho
    refine .inr ⟨p, s, b, fun e => ?_, hfind.trans (congrArg some ho), hp, hs⟩
    rw [e] at ho
    cases (OpenAddressMap.lookup_kEmpty m.owner).symm.trans ho

/-- The book of a symbol, old or new. -/
theorem see (h : Refines accepts m a) (s : Symbol) :
    ∃ p m' b, m.book s = some (p, m') ∧ m'.books[p]? = some (s, b) ∧ Refines accepts m' (a.see s) ∧
      m'.openOrders = m.openOrders := by
  rw [MultiBook.book, Spec.MultiBook.see]
  cases hf : m.books.findIdx? fun e => e.1 = s with
  | some p =>
    obtain ⟨hlt, hs, -⟩ := List.findIdx?_eq_some_iff_getElem.mp hf
    have hp : m.books[p]? = some (s, m.books[p].2) := by
      rw [List.getElem?_eq_getElem hlt]
      exact congrArg some (Prod.ext (of_decide_eq_true hs) rfl)
    rw [if_pos (h.mem_symbols hp)]
    exact ⟨p, m, _, rfl, hp, h, rfl⟩
  | none =>
    have hnew : s ∉ a.symbols := fun hs => by
      rw [← h.symbols, MultiBook.symbols] at hs
      obtain ⟨e, he, rfl⟩ := List.mem_map.mp hs
      simpa using List.findIdx?_eq_none_iff.mp hf e he
    obtain ⟨b, hb, hsim⟩ := OrderBook.new_sim (M := M) h.vacant
    have hopen : b.openOrders = 0 := hsim.openOrders_eq
    have hat : (m.books ++ [(s, b)])[m.books.length]? = some (s, b) := List.getElem?_concat_length
    rw [if_neg hnew, hb]
    refine ⟨_, _, b, rfl, hat, ⟨?_, ?_, ?_, ?_, h.ok, ?_, ?_, h.vacant, h.accepts⟩, ?_⟩
    · rw [MultiBook.symbols, List.map_append, ← h.symbols]
      rfl
    · exact List.nodup_append.mpr ⟨h.nodup, List.nodup_singleton s, fun x hx y hy e => hnew (by
        rw [← List.mem_singleton.mp hy, ← e]
        exact hx)⟩
    · intro q s' b' hq
      rcases Nat.lt_trichotomy q m.books.length with hlt | rfl | hgt
      · rw [List.getElem?_append_left hlt] at hq
        exact h.book hq
      · cases hat.symm.trans hq
        rw [h.unseen s hnew, ← h.accepts]
        exact hsim
      · rw [List.getElem?_eq_none (by rw [List.length_append, List.length_singleton]; omega)] at hq
        cases hq
    · exact fun s' hs' => h.unseen s' fun hm => hs' (List.mem_append_left _ hm)
    · intro id
      rw [h.owner]
      cases ho : m.ownerOf id with
      | none =>
        rw [show ({ m with books := m.books ++ [(s, b)] } : MultiBook L M).ownerOf id = none from ho]
        rfl
      | some q =>
        rw [show ({ m with books := m.books ++ [(s, b)] } : MultiBook L M).ownerOf id = some q from ho]
        exact (List.getElem?_append_left (h.bound ho)).symm
    · intro id q ho
      rw [List.length_append]
      exact Nat.lt_add_right _ (h.bound ho)
    · rw [openOrders, List.map_append, List.sum_append, List.map_singleton, List.sum_singleton, hopen,
        Nat.add_zero, openOrders]

theorem setBook (h : Refines accepts m a) (hp : m.books[p]? = some (s, b)) {b' : OrderBook L M} {a' : Spec.Book}
    (hsim : OrderBook.Sim accepts b' a') :
    Refines accepts { m with books := m.books.set p (s, b') } (a.setBook s a') := by
  refine ⟨(symbols_set hp b').trans h.symbols, h.nodup, ?_, ?_, h.ok, h.owner, h.bound, h.vacant, h.accepts⟩
  · intro q s' c hq
    by_cases e : p = q
    · subst e
      rw [List.getElem?_set_self (List.getElem?_eq_some_iff.mp hp).1] at hq
      cases hq
      rw [Spec.MultiBook.setBook_self]
      exact hsim
    · rw [List.getElem?_set_ne e] at hq
      have hne : s' ≠ s := fun es => e (h.index_inj hp (es ▸ hq))
      rw [Spec.MultiBook.setBook_of_ne a hne]
      exact h.book hq
  · intro s' hs'
    have hne : s' ≠ s := fun e => hs' (by rw [e]; exact h.mem_symbols hp)
    rw [Spec.MultiBook.setBook_of_ne a hne]
    exact h.unseen s' hs'

/-- A step on the book at an address. -/
theorem onBook (h : Refines accepts m a) (hp : m.books[p]? = some (s, b))
    {f : OrderBook L M → Option (Reply × OrderBook L M)} {reply : Reply} {a' : Spec.Book}
    (hf : ∃ b', f b = some (reply, b') ∧ OrderBook.Sim accepts b' a') :
    ∃ m' b', m.onBook p f = some (reply, m') ∧ m'.books[p]? = some (s, b') ∧
      Refines accepts m' (a.setBook s a') := by
  obtain ⟨b', hb', hsim⟩ := hf
  refine ⟨_, b', ?_, List.getElem?_set_self (List.getElem?_eq_some_iff.mp hp).1, h.setBook hp hsim⟩
  rw [MultiBook.onBook, hp]
  simp only [Option.bind_eq_bind, Option.bind_some, hb']

/-- A change of the index, for one id. -/
theorem setOwner (h : Refines accepts m a) {o : OpenAddressMap BookPtr} (hok : OpenAddressMap.Ok hash o) {id : OrderId}
    {v : Option BookPtr} (hl : ({ m with owner := o } : MultiBook L M).ownerOf = Function.update m.ownerOf id v)
    (hv : ∀ p ∈ v, p < a.symbols.length) : Refines accepts { m with owner := o }
      { a with owner := Function.update a.owner id (v.bind fun p => a.symbols[p]?) } := by
  refine ⟨h.symbols, h.nodup, h.book, h.unseen, hok, fun id' => ?_, fun {id' q} hq => ?_, h.vacant, h.accepts⟩
  · rw [hl]
    show Function.update a.owner id _ id' = (Function.update m.ownerOf id v id').bind fun p => a.symbols[p]?
    by_cases e : id' = id
    · subst e
      rw [Function.update_self, Function.update_self]
    · rw [Function.update_of_ne e, Function.update_of_ne e]
      exact h.owner id'
  · rw [hl] at hq
    by_cases e : id' = id
    · subst e
      rw [Function.update_self] at hq
      exact hv q hq
    · rw [Function.update_of_ne e] at hq
      exact h.bound hq

theorem noteOrder (h : Refines accepts m a) (hp : m.books[p]? = some (s, b)) {id : OrderId} (h0 : id ≠ 0) :
    ∃ m', m.noteOrder id p = some m' ∧ Refines accepts m' (a.noteOrder id s) := by
  obtain ⟨o, ho, hok, hcase⟩ := OpenAddressMap.insert_spec h.ok h0 p
  refine ⟨{ m with owner := o }, by rw [MultiBook.noteOrder, ho]; rfl, ?_⟩
  have hsome : (a.owner id).isSome = (m.ownerOf id).isSome := by
    cases hl : m.ownerOf id with
    | none =>
      rw [h.owner, hl]
      rfl
    | some q =>
      obtain ⟨s', b', -, hs'⟩ := h.owned hl
      rw [hs']
      rfl
  rw [Spec.MultiBook.noteOrder]
  rcases hcase with ⟨hnone, hl, -⟩ | ⟨hne, hl, -⟩
  · rw [if_neg (by rw [hsome, show m.ownerOf id = none from hnone]; exact Bool.false_ne_true)]
    have hs : a.symbols[p]? = some s := h.symbols ▸ symbols_at hp
    have ho := h.setOwner hok hl fun q hq => by
      cases hq
      exact (List.getElem?_eq_some_iff.mp hs).1
    rwa [Option.bind_some, hs] at ho
  · rw [if_pos (by rw [hsome]; exact Option.isSome_iff_ne_none.mpr hne)]
    refine ⟨h.symbols, h.nodup, h.book, h.unseen, hok, fun id' => ?_, fun {id' q} hq => ?_, h.vacant, h.accepts⟩
    · rw [show ({ m with owner := o } : MultiBook L M).ownerOf = _ from hl]
      exact h.owner id'
    · rw [show ({ m with owner := o } : MultiBook L M).ownerOf = _ from hl] at hq
      exact h.bound hq

theorem forgetOrder (h : Refines accepts m a) {id : OrderId} (h0 : id ≠ 0) :
    ∃ m', m.forgetOrder id = some m' ∧ m'.books = m.books ∧ Refines accepts m' (a.forgetOrder id) := by
  obtain ⟨o, ho, hok, hl, -⟩ := OpenAddressMap.erase_spec h.ok h0
  exact ⟨{ m with owner := o }, by rw [MultiBook.forgetOrder, ho]; rfl, rfl, h.setOwner hok hl nofun⟩

theorem rests_iff (h : Refines accepts m a) (id : OrderId) : m.Rests id ↔ ∃ s, id ∈ (a.book s).ids := by
  constructor
  · rintro ⟨⟨s, b⟩, he, hr⟩
    obtain ⟨p, hp⟩ := List.mem_iff_getElem?.mp he
    exact ⟨s, (h.book hp).rests_iff.mp hr⟩
  · rintro ⟨s, hid⟩
    have hs : s ∈ a.symbols := Classical.byContradiction fun hs => by
      rw [h.unseen s hs] at hid
      cases hid
    rw [← h.symbols] at hs
    obtain ⟨⟨s, b⟩, he, rfl⟩ := List.mem_map.mp hs
    obtain ⟨p, hp⟩ := List.mem_iff_getElem?.mp he
    exact ⟨_, he, (h.book hp).rests_iff.mpr hid⟩

/-- The index knows symbols with a book only. -/
theorem owner_mem (h : Refines accepts m a) (id : OrderId) (s : Symbol) (ho : a.owner id = some s) :
    s ∈ a.symbols := by
  rw [h.owner] at ho
  obtain ⟨p, -, hp⟩ := Option.bind_eq_some_iff.mp ho
  exact List.mem_of_getElem? hp

/-- A sum over the books. -/
theorem total_eq {N : Type} [AddCommMonoid N] (h : Refines accepts m a) {g : OrderBook L M → N}
    {f : Spec.Book → N} (hgf : ∀ {b a}, OrderBook.Sim accepts b a → g b = f a) :
    (m.books.map fun e => g e.2).sum = a.total f := by
  rw [Spec.MultiBook.total, ← h.symbols, MultiBook.symbols, List.map_map]
  refine congrArg _ (List.map_congr_left fun e he => ?_)
  obtain ⟨p, hp⟩ := List.mem_iff_getElem?.mp he
  exact hgf (h.book hp)

theorem walk_eq (h : Refines accepts m a) (hb : m.Few) (s : Symbol) (side : Side) :
    m.walk s side = some ((a.book s).walk side) := by
  rw [MultiBook.walk, MultiBook.find]
  cases hf : m.books.find? fun e => e.1 = s with
  | none =>
    have hs : s ∉ a.symbols := fun hs => by
      rw [← h.symbols] at hs
      obtain ⟨e, he, rfl⟩ := List.mem_map.mp hs
      simpa using List.find?_eq_none.mp hf e he
    rw [h.unseen s hs]
    rfl
  | some e =>
    obtain ⟨s', b⟩ := e
    obtain ⟨p, hp⟩ := List.mem_iff_getElem?.mp (List.mem_of_find?_eq_some hf)
    have hs : s' = s := by simpa using List.find?_some hf
    subst hs
    exact (h.book hp).walk_eq ((h.book hp).within_of_few (hb.book hp)) side

end Refines

theorem new_refines {ladder : L} (hv : Vacant ladder) :
    ∃ m : MultiBook L M, new ladder = some m ∧ Refines (Ladder.validPrice ladder) m {} := by
  obtain ⟨o, ho, hok, hl, -, -⟩ := OpenAddressMap.new_spec (V := BookPtr) hash
  refine ⟨{ owner := o, ladder }, by rw [new, ho]; rfl, rfl, List.nodup_nil, nofun, fun _ _ => rfl, hok,
    fun id => ?_, fun {id p} hp => ?_, hv, rfl⟩
  · rw [ownerOf, hl]
    rfl
  · rw [ownerOf, hl] at hp
    cases hp

end MultiBook

end Pricetime
