import Pricetime.Impl.BookStats
import Pricetime.Proof.Framework.Tally
import Pricetime.Proof.RoutingIndex

/-!
# The counts of the book statistics

`home m` is the symbol that each order rests under: a finite map that a message
changes in one place, as the observer's `owner_` does, and as its counters
count (`Tallied`). A replace is not among the calls that they take for a
removal, so that they balance until one takes an order away.
-/

namespace Pricetime

open Directory (put)
open Itch (Message Replayer ReplayEvent WriterCall Complete decode)
open Tally (tally)

/-! ## Symbols -/

namespace MultiBook

section Symbols

variable {L M : Type} {m m' : MultiBook L M} {p : BookPtr} {id : OrderId}

theorem onBook_symbols {f : OrderBook L M → Option (Reply × OrderBook L M)} {reply : Reply}
    (h : m.onBook p f = some (reply, m')) : m'.symbols = m.symbols := by
  rw [onBook] at h
  obtain ⟨⟨s, b⟩, hp, h⟩ := Option.bind_eq_some_iff.mp h
  obtain ⟨⟨reply', b'⟩, -, h⟩ := Option.bind_eq_some_iff.mp h
  cases h
  exact symbols_set hp b'

theorem noteOrder_symbols (h : m.noteOrder id p = some m') : m'.symbols = m.symbols := by
  rw [noteOrder] at h
  obtain ⟨⟨inserted, owner⟩, -, h⟩ := Option.bind_eq_some_iff.mp h
  cases h
  rfl

theorem forgetOrder_symbols (h : m.forgetOrder id = some m') : m'.symbols = m.symbols := by
  rw [forgetOrder] at h
  obtain ⟨⟨erased, owner⟩, -, h⟩ := Option.bind_eq_some_iff.mp h
  cases h
  rfl

/-- The symbols of `m'` are those of `m`, and new ones behind them. -/
structure Extends (m m' : MultiBook L M) : Prop where
  keeps : ∀ {p : BookPtr} {s : Symbol}, m.symbols[p]? = some s → m'.symbols[p]? = some s
  nodup : m.symbols.Nodup → m'.symbols.Nodup

theorem Extends.of_eq (h : m'.symbols = m.symbols) : Extends m m' :=
  ⟨fun hp => h ▸ hp, fun hn => h ▸ hn⟩

end Symbols

theorem book_extends {L M : Type} [IdMap M] {m m' : MultiBook L M} {p : BookPtr} {s : Symbol} (h : m.book s = some (p, m')) : Extends m m' ∧ m'.symbols[p]? = some s := by
  rcases book_cases h with ⟨rfl, b, hp⟩ | ⟨hs, b, -, rfl, rfl⟩
  · exact ⟨.of_eq rfl, symbols_at hp⟩
  · have happ : ({ m with books := m.books ++ [(s, b)] } : MultiBook L M).symbols = m.symbols ++ [s] :=
      List.map_append
    refine ⟨⟨fun {q t} hq => ?_, fun hn => nodup_append hn hs b⟩, symbols_at List.getElem?_concat_length⟩
    rw [happ, List.getElem?_append_left (List.getElem?_eq_some_iff.mp hq).1]
    exact hq

/-- The symbol that an order rests under. -/
def home (m : MultiBook L M) (id : OrderId) : Option Symbol := (m.ownerOf id).bind fun p => m.symbols[p]?

end MultiBook

namespace Itch.Replayer

variable {L M : Type} [Ladder L] [IdMap M] {r r' : Replayer L M} {out : List ReplayEvent}

theorem onReduced_symbols {timestamp : UInt64} {reference : OrderId} {shares : Qty} {isExecution : Bool}
    (h : r.onReduced timestamp reference shares isExecution = some (out, r')) :
    r'.books.symbols = r.books.symbols := by
  obtain ⟨found, -, h⟩ := Option.bind_eq_some_iff.mp h
  cases found with
  | none =>
    cases h
    rfl
  | some p =>
    obtain ⟨⟨reply, books⟩, hbooks, h⟩ := Option.bind_eq_some_iff.mp h
    have hsym := MultiBook.onBook_symbols hbooks
    obtain ⟨b, -, h⟩ := Option.bind_eq_some_iff.mp h
    obtain ⟨o, -, h⟩ := Option.bind_eq_some_iff.mp h
    cases o with
    | none =>
      obtain ⟨books', hbooks', h⟩ := Option.bind_eq_some_iff.mp h
      cases h
      exact (MultiBook.forgetOrder_symbols hbooks').trans hsym
    | some o =>
      cases h
      exact hsym

/-- Only an add makes a book. -/
theorem dispatch_symbols {m : Message} (h : r.dispatch m = some (out, r')) : MultiBook.Extends r.books r'.books ∧
    ∀ a p m', m = .add a → r.tracked a.symbol = true → r.books.book a.symbol = some (p, m') →
      r'.books.symbols[p]? = some a.symbol := by
  have same (hs : r'.books.symbols = r.books.symbols) (hno : ∀ a, m ≠ .add a) :
      MultiBook.Extends r.books r'.books ∧ ∀ a p m', m = .add a → r.tracked a.symbol = true →
        r.books.book a.symbol = some (p, m') → r'.books.symbols[p]? = some a.symbol :=
    ⟨.of_eq hs, fun a _ _ e => absurd e (hno a)⟩
  cases m with
  | add a =>
    rw [dispatch, onAdd] at h
    dsimp only at h
    split at h
    · rename_i ht
      cases h
      refine ⟨.of_eq rfl, ?_⟩
      rintro _ p m' ⟨⟩ htracked
      rw [setStats_tracked, htracked] at ht
      cases ht
    · obtain ⟨⟨p, books⟩, hbook, h⟩ := Option.bind_eq_some_iff.mp h
      obtain ⟨⟨reply, books'⟩, hbooks', h⟩ := Option.bind_eq_some_iff.mp h
      obtain ⟨hext, hat⟩ := MultiBook.book_extends hbook
      have hsym := MultiBook.onBook_symbols hbooks'
      suffices hs : r'.books.symbols = books.symbols by
        refine ⟨⟨fun hp => hs ▸ hext.keeps hp, fun hn => hs ▸ hext.nodup hn⟩, ?_⟩
        rintro _ q m' ⟨⟩ - hq
        cases hbook.symm.trans hq
        exact hs ▸ hat
      dsimp only at h
      split at h
      · obtain ⟨books'', hbooks'', h⟩ := Option.bind_eq_some_iff.mp h
        cases h
        exact (MultiBook.noteOrder_symbols hbooks'').trans hsym
      · cases h
        exact hsym
  | executed m => exact same (onReduced_symbols h) (by simp)
  | cancel m => exact same (onReduced_symbols h) (by simp)
  | delete m =>
    refine same ?_ (by simp)
    obtain ⟨found, -, h⟩ := Option.bind_eq_some_iff.mp h
    cases found with
    | none =>
      cases h
      rfl
    | some p =>
      obtain ⟨⟨reply, books⟩, hbooks, h⟩ := Option.bind_eq_some_iff.mp h
      obtain ⟨books', hbooks', h⟩ := Option.bind_eq_some_iff.mp h
      cases h
      exact (MultiBook.forgetOrder_symbols hbooks').trans (MultiBook.onBook_symbols hbooks)
  | replace m =>
    refine same ?_ (by simp)
    obtain ⟨found, -, h⟩ := Option.bind_eq_some_iff.mp h
    cases found with
    | none =>
      cases h
      rfl
    | some p =>
      obtain ⟨b, -, h⟩ := Option.bind_eq_some_iff.mp h
      obtain ⟨o, -, h⟩ := Option.bind_eq_some_iff.mp h
      cases o with
      | none =>
        cases h
        rfl
      | some o =>
        obtain ⟨⟨reply, books⟩, hbooks, h⟩ := Option.bind_eq_some_iff.mp h
        obtain ⟨books', hbooks', h⟩ := Option.bind_eq_some_iff.mp h
        obtain ⟨⟨reply', books''⟩, hbooks'', h⟩ := Option.bind_eq_some_iff.mp h
        have hsym := (MultiBook.onBook_symbols hbooks'').trans
          ((MultiBook.forgetOrder_symbols hbooks').trans (MultiBook.onBook_symbols hbooks))
        dsimp only at h
        split at h
        · obtain ⟨books₃, hbooks₃, h⟩ := Option.bind_eq_some_iff.mp h
          cases h
          exact (MultiBook.noteOrder_symbols hbooks₃).trans hsym
        · cases h
          exact hsym
  | trade timestamp =>
    cases h
    exact same rfl (by simp)
  | systemEvent m =>
    cases h
    exact same rfl (by simp)
  | administrative =>
    cases h
    exact same rfl (by simp)

end Itch.Replayer

/-! ## Orders and symbols -/

section Home

variable {L M : Type} [Ladder L] [IdMap M] [LawfulIdMap M]

omit [Ladder L] in
theorem OrderBook.NodeInv.openOrders_eq {b : OrderBook L M} (h : b.NodeInv) :
    b.openOrders = {id | b.orderOf id ≠ none}.ncard := by
  obtain ⟨all, hn, hall, hlen⟩ := h.count
  have hinj : (all.map fun o => (b.heap.order o).id).Nodup :=
    hn.map_on fun o ho p hp e => OrderBook.NodeInv.id_inj ((hall o).mp ho) ((hall p).mp hp) e
  have hset : {id | b.orderOf id ≠ none} = ((all.map fun o => (b.heap.order o).id).toFinset : Set OrderId) := by
    ext id
    rw [Set.mem_ofPred_eq, List.coe_toFinset, Set.mem_ofPred_eq, List.mem_map, ne_eq, OrderBook.orderOf_eq_none, ← ne_eq,
      Option.ne_none_iff_exists']
    constructor
    · rintro ⟨o, ho⟩
      exact ⟨o, (hall o).mpr (h.mapped ho), h.id ho⟩
    · rintro ⟨o, ho, rfl⟩
      exact ⟨o, (hall o).mp ho⟩
  rw [hset, Set.ncard_coe_finset, List.toFinset_card_of_nodup hinj, List.length_map, hlen]

namespace MultiBook

variable {m m' : MultiBook L M} {p : BookPtr} {id : OrderId} {s : Symbol}

namespace Indexed

theorem home_ne_none (h : Indexed m) : m.home id ≠ none ↔ m.Rests id := by
  rw [home, ne_eq, Option.bind_eq_none_iff]
  constructor
  · intro hne
    obtain ⟨p, ho⟩ : ∃ p, m.ownerOf id = some p := by
      by_contra hno
      exact hne fun p hp => absurd ⟨p, hp⟩ hno
    obtain ⟨s, b, hp, hb⟩ := orders_ne_none.mp ((h.directs id p).mp ho)
    exact ⟨(s, b), List.mem_of_getElem? hp, ((h.sound.inv hp).rests_iff id).mpr hb⟩
  · rintro ⟨⟨s, b⟩, he, hr⟩ hnone
    obtain ⟨p, hp⟩ := List.mem_iff_getElem?.mp he
    have ho := (h.directs id p).mpr (orders_ne_none.mpr ⟨s, b, hp, ((h.sound.inv hp).rests_iff id).mp hr⟩)
    cases (hnone p ho).symm.trans (symbols_at hp)

/-- The orders of a symbol's book. -/
theorem openOrders_find (h : Indexed m) (hn : m.symbols.Nodup) (s : Symbol) :
    (m.find s).elim 0 OrderBook.openOrders = tally m.home s := by
  have hat : ∀ {id}, m.home id = some s ↔ ∃ p, m.ownerOf id = some p ∧ m.symbols[p]? = some s := Option.bind_eq_some_iff
  cases hf : m.find s with
  | none =>
    rw [Option.elim_none, Tally.tally_eq_zero]
    intro id hid
    obtain ⟨p, -, hp⟩ := hat.mp hid
    obtain ⟨⟨s', b⟩, hb, rfl⟩ := Option.map_eq_some_iff.mp ((List.getElem?_map ..).symm.trans hp)
    cases hf.symm.trans ((find_eq_some hn).mpr (List.mem_of_getElem? hb))
  | some b =>
    obtain ⟨p, hp⟩ := List.mem_iff_getElem?.mp ((find_eq_some hn).mp hf)
    rw [Option.elim_some, (h.sound.inv hp).openOrders_eq, tally]
    congr 1
    ext id
    rw [Set.mem_ofPred_eq, Set.mem_ofPred_eq, hat, ← orders_at hp, ← h.directs id p]
    constructor
    · intro ho
      exact ⟨p, ho, symbols_at hp⟩
    · rintro ⟨q, ho, hq⟩
      have hlt := (List.getElem?_eq_some_iff.mp hq).1
      have e : q = p := (List.getElem?_inj hlt hn).mp (hq.trans (symbols_at hp).symm)
      exact e ▸ ho

/-- The symbols at the addresses of the index stay. -/
theorem home_bind (h : Indexed m) (he : Extends m m') (id : OrderId) :
    ((m.ownerOf id).bind fun p => m'.symbols[p]?) = m.home id := by
  rw [home]
  cases ho : m.ownerOf id with
  | none => rfl
  | some p =>
    obtain ⟨s, b, hp, -⟩ := orders_ne_none.mp ((h.directs id p).mp ho)
    have hs := symbols_at hp
    rw [Option.bind_some, Option.bind_some, hs, he.keeps hs]

theorem home_update (h : Indexed m) (he : Extends m m') {v : Option BookPtr}
    (ho : m'.ownerOf = Function.update m.ownerOf id v) :
    m'.home = Function.update m.home id (v.bind fun p => m'.symbols[p]?) := by
  funext id'
  rw [home, ho]
  by_cases e : id' = id
  · rw [e, Function.update_self, Function.update_self]
  · rw [Function.update_of_ne e, Function.update_of_ne e, h.home_bind he]

theorem home_same (h : Indexed m) (he : Extends m m') (ho : m'.ownerOf = m.ownerOf) : m'.home = m.home := by
  funext id
  rw [home, ho, h.home_bind he]

end Indexed

end MultiBook

end Home

/-! ## The observer -/

namespace StatsObserver

variable {o : StatsObserver} {id : OrderId}

/-- The counters of a symbol. -/
def counters (o : StatsObserver) (bits : UInt64) : SymbolCounters := (o.sym bits).getD {}

/-- The adds of a symbol that are not removes. -/
def live (o : StatsObserver) (s : Symbol) : UInt64 := (o.counters s.bits).adds - (o.counters s.bits).removes

theorem change_getD {K V : Type} [DecidableEq K] (m : UnorderedMap K V) (k k' : K) (v : V) (f : V → V) :
    (m.change k v f k').getD v = if k' = k then f ((m k).getD v) else (m k').getD v := by
  rw [UnorderedMap.change]
  split <;> rename_i e
  · rw [e, Function.update_self]
    rfl
  · rw [Function.update_of_ne e]

theorem onAdded_spec (o : StatsObserver) (id : OrderId) (symbol : Symbol) (qty : Qty) (ts : UInt64) :
    (o.onAdded id symbol qty ts).owner = Function.update o.owner id (some symbol.bits) ∧
    (o.onAdded id symbol qty ts).adds - (o.onAdded id symbol qty ts).removes = o.adds - o.removes + 1 ∧
    ∀ s, (o.onAdded id symbol qty ts).live s = o.live s + if s = symbol then 1 else 0 := by
  refine ⟨rfl, ?_, fun s => ?_⟩
  · show o.adds + 1 - o.removes = o.adds - o.removes + 1
    grind
  · have hsym : (o.onAdded id symbol qty ts).counters s.bits =
        if s.bits = symbol.bits then { o.counters symbol.bits with adds := (o.counters symbol.bits).adds + 1 }
        else o.counters s.bits := change_getD o.sym symbol.bits s.bits {} fun c => { c with adds := c.adds + 1 }
    rw [live, live, hsym]
    by_cases e : s = symbol
    · rw [e, if_pos rfl, if_pos rfl]
      grind
    · rw [if_neg e, if_neg fun h => e (Symbol.bits_inj h), UInt64.add_zero]

theorem onReduced_spec (o : StatsObserver) (id : OrderId) (qty : Qty) (executed : Bool) :
    (o.onReduced id qty executed).owner = o.owner ∧ (o.onReduced id qty executed).adds = o.adds ∧
    (o.onReduced id qty executed).removes = o.removes ∧
    ∀ s, (o.onReduced id qty executed).live s = o.live s := by
  have executions (bits : UInt64) (s : Symbol) : ({ o with
      sym := o.sym.change bits {} fun c => { c with executions := c.executions + 1 } } : StatsObserver).live s =
        o.live s := by
    have hsym := change_getD o.sym bits s.bits {} fun c => { c with executions := c.executions + 1 }
    rw [live, live, counters, hsym]
    split <;> rename_i e
    · rw [counters, e]
    · rfl
  rw [onReduced]
  cases o.owner id with
  | none => cases executed <;> exact ⟨rfl, rfl, rfl, fun _ => rfl⟩
  | some bits =>
    cases executed
    · exact ⟨rfl, rfl, rfl, fun _ => rfl⟩
    · exact ⟨rfl, rfl, rfl, executions bits⟩

theorem onRemoved_spec {symbol : Symbol} (ho : o.owner id = some symbol.bits) (ts : UInt64) :
    (o.onRemoved id ts).owner = Function.update o.owner id none ∧
    (o.onRemoved id ts).adds - (o.onRemoved id ts).removes + 1 = o.adds - o.removes ∧
    ∀ s, (o.onRemoved id ts).live s + (if s = symbol then 1 else 0) = o.live s := by
  -- lifetimes are counted apart
  have hsame : (o.onRemoved id ts).owner = Function.update o.owner id none ∧
      (o.onRemoved id ts).adds = o.adds ∧ (o.onRemoved id ts).removes = o.removes + 1 ∧
      (o.onRemoved id ts).sym = o.sym.change symbol.bits {} fun c => { c with removes := c.removes + 1 } := by
    rw [onRemoved, ho]
    dsimp only
    cases o.birth id with
    | none => exact ⟨rfl, rfl, rfl, rfl⟩
    | some b =>
      dsimp only
      split <;> exact ⟨rfl, rfl, rfl, rfl⟩
  obtain ⟨howner, hadds, hremoves, hsym⟩ := hsame
  refine ⟨howner, ?_, fun s => ?_⟩
  · rw [hadds, hremoves]
    grind
  · rw [live, live, counters, hsym, change_getD]
    by_cases e : s = symbol
    · rw [e, if_pos rfl, if_pos rfl, counters]
      grind
    · rw [if_neg e, if_neg fun h => e (Symbol.bits_inj h), UInt64.add_zero, counters]

end StatsObserver

/-! ## Balance -/

namespace Itch.Replayer

section Balance

variable {L M : Type} [Ladder L] [IdMap M]

/-- The observer's counts are those of the orders that rest. -/
structure Balanced (m : MultiBook L M) (o : StatsObserver) : Prop where
  total : o.adds - o.removes = UInt64.ofNat m.openOrders
  symbols : ∀ s : Symbol, (o.counters s.bits).adds - (o.counters s.bits).removes =
    UInt64.ofNat ((m.find s).elim 0 OrderBook.openOrders)
  owner : ∀ id, o.owner id ≠ none ↔ m.Rests id

/-- No reference comes in that rests already, but for that of an order
replaced, and a replace has shares and a reference. -/
def Admissible (r : Replayer L M) (msg : List UInt8) : Prop :=
  Fresh r msg ∧ ∀ a, decode msg = some (.replace a) → a.shares ≠ 0 ∧ a.newReference ≠ 0

/-- A message replaces an order that rests. -/
def ReplacesResting (r : Replayer L M) (msg : List UInt8) : Prop :=
  ∃ a, decode msg = some (.replace a) ∧ r.books.Rests a.originalReference

end Balance

variable {L M : Type} [Ladder L] [LawfulLadder L] [IdMap M] [LawfulIdMap M]

/-- What the observer knows as long as no order is replaced. -/
structure Tallied (m : MultiBook L M) (o : StatsObserver) : Prop where
  indexed : m.Indexed
  nodup : m.symbols.Nodup
  owner : ∀ id, o.owner id = (m.home id).map Symbol.bits
  total : o.adds - o.removes = UInt64.ofNat m.openOrders
  symbols : ∀ s, o.live s = UInt64.ofNat (tally m.home s)

namespace Tallied

variable {m m' : MultiBook L M} {o o' : StatsObserver} {id : OrderId} {symbol : Symbol}

omit [LawfulLadder L] in
theorem balanced (h : Tallied m o) : Balanced m o where
  total := h.total
  symbols s := by
    rw [h.indexed.openOrders_find h.nodup]
    exact h.symbols s
  owner id := by
    rw [h.owner, ← h.indexed.home_ne_none, ne_eq, ne_eq, Option.map_eq_none_iff]

omit [LawfulLadder L] in
theorem same (h : Tallied m o) (hi : m'.Indexed) (he : MultiBook.Extends m m') (ho : m'.ownerOf = m.ownerOf)
    (hn : m'.openOrders = m.openOrders) (howner : o'.owner = o.owner) (hadds : o'.adds = o.adds)
    (hremoves : o'.removes = o.removes) (hlive : ∀ s, o'.live s = o.live s) : Tallied m' o' := by
  have hhome := h.indexed.home_same he ho
  refine ⟨hi, he.nodup h.nodup, fun id => ?_, ?_, fun s => ?_⟩
  · rw [howner, hhome, h.owner]
  · rw [hadds, hremoves, hn, h.total]
  · rw [hlive, hhome, h.symbols]

omit [LawfulLadder L] in
/-- An order comes in. -/
theorem enter (h : Tallied m o) (hi : m'.Indexed) (he : MultiBook.Extends m m') (hfree : m.home id = none)
    (hhome : m'.home = Function.update m.home id (some symbol)) (hn : m'.openOrders = m.openOrders + 1)
    (howner : o'.owner = Function.update o.owner id (some symbol.bits))
    (htotal : o'.adds - o'.removes = o.adds - o.removes + 1)
    (hlive : ∀ s, o'.live s = o.live s + if s = symbol then 1 else 0) : Tallied m' o' := by
  refine ⟨hi, he.nodup h.nodup, fun id' => ?_, ?_, fun s => ?_⟩
  · rw [howner, hhome]
    by_cases e : id' = id
    · rw [e, Function.update_self, Function.update_self, Option.map_some]
    · rw [Function.update_of_ne e, Function.update_of_ne e, h.owner]
  · rw [htotal, h.total, hn, UInt64.ofNat_add]
    rfl
  · rw [hlive, h.symbols, hhome, Tally.tally_insert hfree, UInt64.ofNat_add]
    split <;> rfl

omit [LawfulLadder L] in
/-- An order goes. -/
theorem leave (h : Tallied m o) (hi : m'.Indexed) (he : MultiBook.Extends m m') (hat : m.home id = some symbol)
    (hhome : m'.home = Function.update m.home id none) (hn : m'.openOrders + 1 = m.openOrders)
    (howner : o'.owner = Function.update o.owner id none) (htotal : o'.adds - o'.removes + 1 = o.adds - o.removes)
    (hlive : ∀ s, o'.live s + (if s = symbol then 1 else 0) = o.live s) : Tallied m' o' := by
  refine ⟨hi, he.nodup h.nodup, fun id' => ?_, ?_, fun s => ?_⟩
  · rw [howner, hhome]
    by_cases e : id' = id
    · rw [e, Function.update_self, Function.update_self, Option.map_none]
    · rw [Function.update_of_ne e, Function.update_of_ne e, h.owner]
  · have hcount := htotal.trans h.total
    rw [← hn, UInt64.ofNat_add] at hcount
    exact (UInt64.add_left_inj 1).mp hcount
  · have hcount := (hlive s).trans (h.symbols s)
    rw [← Tally.tally_erase hat, ← hhome, UInt64.ofNat_add] at hcount
    split at hcount
    · exact (UInt64.add_left_inj 1).mp hcount
    · rw [UInt64.add_zero] at hcount
      exact hcount.trans (UInt64.add_zero _)

end Tallied

section Step

variable {r r' : Replayer L M} {o : StatsObserver} {m' : MultiBook L M} {m : Message} {out : List ReplayEvent}

omit [LawfulLadder L] [LawfulIdMap M] in
theorem apply_symbols {msg : List UInt8} (h : r.apply msg = some (out, r')) (hm : decode msg = some m) :
    MultiBook.Extends r.books r'.books ∧ ∀ a p m', m = .add a → r.tracked a.symbol = true →
      r.books.book a.symbol = some (p, m') → r'.books.symbols[p]? = some a.symbol := by
  obtain ⟨m₁, hm₁, h⟩ := Option.bind_eq_some_iff.mp h
  cases hm.symm.trans hm₁
  exact dispatch_symbols (r := r.setStats _) h

omit [LawfulLadder L] in
/-- A message that replaces no order keeps the counts. -/
theorem Effect.tallied (h : Effect r m' m out) (ht : Tallied r.books o) (hi : m'.Indexed)
    (he : MultiBook.Extends r.books m')
    (hadd : ∀ a p m₁, m = .add a → r.tracked a.symbol = true → r.books.book a.symbol = some (p, m₁) →
      m'.symbols[p]? = some a.symbol)
    (hno : ∀ a, m = .replace a → ¬ r.books.Rests a.originalReference) : Tallied m' (out.foldl StatsObserver.hear o) := by
  -- an order of the index has a symbol
  have routes : ∀ {p id}, r.books.ownerOf id = some p → ∃ symbol, r.books.home id = some symbol := fun {p id} ho => by
    obtain ⟨s, b, d, hp, -, -⟩ := routed ht.indexed ho
    exact ⟨s, by rw [MultiBook.home, ho, Option.bind_some, MultiBook.symbols_at hp]⟩
  have rests : ∀ {p id}, r.books.ownerOf id = some p → r.books.Rests id := fun ho => by
    obtain ⟨symbol, hs⟩ := routes ho
    exact ht.indexed.home_ne_none.mp (by rw [hs]; exact Option.some_ne_none symbol)
  cases h with
  | same hs _ => exact ht.same hi he hs.ownerOf hs.openOrders rfl rfl rfl fun _ => rfl
  | @added a p d hins hent hd =>
    obtain ⟨-, htracked, ⟨m₁, hbook⟩, -, -⟩ := hins
    have hall := (ht.indexed.entered_iff hent).mp hi
    have hnone : r.books.ownerOf a.reference = none := ht.indexed.directs.none_iff.mpr fun q => by
      by_cases e : q = p
      · rw [e, hent.fresh]
      · exact hall q e
    obtain ⟨howner, -⟩ := hent.index hnone
    have hhome := ht.indexed.home_update he howner
    rw [Option.bind_some, hadd a p m₁ rfl htracked hbook] at hhome
    obtain ⟨hown, htotal, hlive⟩ := o.onAdded_spec a.reference a.symbol a.shares a.timestamp
    exact ht.enter hi he (by rw [MultiBook.home, hnone]; rfl) hhome hent.openOrders hown htotal hlive
  | @reduced m p id d d' shares isExecution timestamp _ ho hd hl hc =>
    obtain ⟨hown, hadds, hremoves, hlive⟩ := o.onReduced_spec id (min shares d.qty) isExecution
    exact ht.same hi he hc.ownerOf hc.openOrders hown hadds hremoves hlive
  | @consumed m p id d shares isExecution timestamp _ ho hd hl =>
    obtain ⟨symbol, hs⟩ := routes ho
    obtain ⟨hown, hadds, hremoves, hlive⟩ := o.onReduced_spec id (min shares d.qty) isExecution
    have ht₁ : Tallied r.books (o.onReduced id (min shares d.qty) isExecution) :=
      ht.same ht.indexed (.of_eq rfl) rfl rfl hown hadds hremoves hlive
    have hat : (o.onReduced id (min shares d.qty) isExecution).owner id = some symbol.bits := by
      rw [ht₁.owner, hs, Option.map_some]
    obtain ⟨hown', htotal, hlive'⟩ := StatsObserver.onRemoved_spec hat timestamp
    exact ht₁.leave hi he hs (ht.indexed.home_update he hl.ownerOf) hl.openOrders hown' htotal hlive'
  | @removed m p id timestamp _ ho hl =>
    obtain ⟨symbol, hs⟩ := routes ho
    have hat : o.owner id = some symbol.bits := by rw [ht.owner, hs, Option.map_some]
    obtain ⟨hown', htotal, hlive'⟩ := StatsObserver.onRemoved_spec hat timestamp
    exact ht.leave hi he hs (ht.indexed.home_update he hl.ownerOf) hl.openOrders hown' htotal hlive'
  | @replaced a p d m₁ hins ho hl hent hd => exact absurd (rests ho) (hno a rfl)
  | @withdrawn a p hw hins ho hl => exact absurd (rests ho) (hno a rfl)

omit [LawfulLadder L] in
/-- A replace of an order that rests is counted as an add, and as nothing
else. -/
theorem Effect.unbalanced {a : OrderReplace} (h : Effect r m' (.replace a) out) (ht : Tallied r.books o)
    (hins : ∃ p, r.Inserts (.replace a) p a.newReference) : ¬ Balanced m' (out.foldl StatsObserver.hear o) := by
  obtain ⟨p, hins⟩ := hins
  intro hb
  cases h with
  | same _ hno => exact hno.1 p _ hins
  | reduced hno => exact hno.1 p _ hins
  | consumed hno => exact hno.1 p _ hins
  | removed hno => exact hno.1 p _ hins
  | withdrawn _ hno => exact hno p _ hins
  | @replaced _ p d m₁ _ ho hl hent hd =>
    have hn : m'.openOrders = r.books.openOrders := hent.openOrders.trans hl.openOrders
    have htotal := hb.total
    rw [hn, ← ht.total] at htotal
    have hcounts : (o.onReplaced a.originalReference a.newReference a.shares a.timestamp).adds = o.adds + 1 ∧
        (o.onReplaced a.originalReference a.newReference a.shares a.timestamp).removes = o.removes := by
      rw [StatsObserver.onReplaced]
      dsimp only
      split <;> exact ⟨rfl, rfl⟩
    have hmore : (o.onReplaced a.originalReference a.newReference a.shares a.timestamp).adds -
        (o.onReplaced a.originalReference a.newReference a.shares a.timestamp).removes = o.adds - o.removes := htotal
    rw [hcounts.1, hcounts.2] at hmore
    grind

end Step

/-! ## Runs -/

section Run

variable {s s' : Replayer L M × StatsObserver} {msg : List UInt8} {out : List ReplayEvent}

omit [LawfulLadder L] [LawfulIdMap M] in
theorem applyObserved_inv (h : applyObserved s msg = some (out, s')) :
    s.1.apply msg = some (out, s'.1) ∧ s'.2 = out.foldl StatsObserver.hear s.2 := by
  obtain ⟨⟨out', r⟩, hr, e⟩ := Option.bind_eq_some_iff.mp h
  cases e
  exact ⟨hr, rfl⟩

omit [LawfulLadder L] in
/-- A replace of an order that rests is not refused. -/
theorem Admissible.inserts (h : s.1.books.Indexed) (hvalid : ∀ p, Ladder.validPrice s.1.books.ladder p = true)
    (ha : s.1.Admissible msg) {a : OrderReplace} (hm : decode msg = some (.replace a))
    (hrests : s.1.books.Rests a.originalReference) :
    ∃ p, s.1.Inserts (.replace a) p a.newReference := by
  obtain ⟨hfresh, hreplace⟩ := ha
  obtain ⟨hshares, hnew⟩ := hreplace a hm
  rw [Fresh, hm] at hfresh
  obtain ⟨⟨t, b⟩, he, hb⟩ := hrests
  obtain ⟨p, hp⟩ := List.mem_iff_getElem?.mp he
  have ho : s.1.books.ownerOf a.originalReference = some p :=
    (h.directs _ p).mpr (MultiBook.orders_ne_none.mpr ⟨t, b, hp, ((h.sound.inv hp).rests_iff _).mp hb⟩)
  refine ⟨p, rfl, by rw [h.sound.bookForOrder_eq, ho], ⟨hnew, hshares, hvalid a.price⟩, fun hne hat => ?_⟩
  obtain ⟨b', hb', hr⟩ := hat
  obtain ⟨e, he', rfl⟩ := Option.map_eq_some_iff.mp hb'
  exact hfresh hshares ⟨(t, b), he, hb⟩ hne ⟨e, List.mem_of_getElem? he', hr⟩

theorem applyObserved_tallied (ht : Tallied s.1.books s.2)
    (hvalid : ∀ p, Ladder.validPrice s.1.books.ladder p = true) (ha : s.1.Admissible msg)
    (h : applyObserved s msg = some (out, s')) :
    (¬ s.1.ReplacesResting msg → Tallied s'.1.books s'.2) ∧ (Balanced s'.1.books s'.2 → ¬ s.1.ReplacesResting msg) := by
  obtain ⟨hr, ho⟩ := applyObserved_inv h
  obtain ⟨m, hm, he⟩ := apply_effect ht.indexed hr
  rw [ho]
  constructor
  · intro hno
    obtain ⟨hext, hadd⟩ := apply_symbols hr hm
    have hi := indexed_of_apply ht.indexed (not_clash ht.indexed (fun _ hr => hr) ha.1) hr
    exact he.tallied ht hi hext hadd fun a e hrests => hno ⟨a, e ▸ hm, hrests⟩
  · rintro hb ⟨a, hm', hrests⟩
    cases hm.symm.trans hm'
    exact he.unbalanced ht (ha.inserts ht.indexed hvalid hm' hrests) hb

omit [LawfulLadder L] in
theorem new_tallied {ladder : L} {r₀ : Replayer L M} (h₀ : new ladder = some r₀) (symbols : List Symbol) :
    Tallied (r₀.trackOnly symbols).books {} := by
  obtain ⟨hs, ha, hbooks⟩ := new_agrees h₀
  have hi := hs.agrees_iff.mp ha
  have hhome (id : OrderId) : r₀.books.home id = none := by
    rw [← not_ne_iff, hi.home_ne_none]
    rintro ⟨e, he, -⟩
    rw [hbooks] at he
    exact List.not_mem_nil he
  refine ⟨hi, ?_, fun id => ?_, ?_, fun s => ?_⟩
  · show (r₀.books.books.map Prod.fst).Nodup
    rw [hbooks]
    exact List.nodup_nil
  · exact (congrArg (Option.map Symbol.bits) (hhome id)).symm
  · show _ = UInt64.ofNat r₀.books.openOrders
    rw [MultiBook.openOrders, hbooks]
    exact UInt64.sub_self 0
  · show _ = UInt64.ofNat (tally r₀.books.home s)
    rw [Tally.tally_eq_zero fun id hid => by rw [hhome id] at hid; cases hid]
    exact UInt64.sub_self 0

omit [LawfulLadder L] [LawfulIdMap M] in
theorem run_applyObserved : ∀ {msgs : List (List UInt8)} {r r' : Replayer L M} (o : StatsObserver),
    Runs.run apply r msgs = some r' → ∃ o', Runs.run applyObserved (r, o) msgs = some (r', o')
  | [], r, r', o, h => by
    cases h
    exact ⟨o, rfl⟩
  | msg :: msgs, r, r', o, h => by
    obtain ⟨⟨out, r₁⟩, h₁, h⟩ := Option.bind_eq_some_iff.mp h
    obtain ⟨o', ho⟩ := run_applyObserved (out.foldl StatsObserver.hear o) h
    have hs : applyObserved (r, o) msg = some (out, (r₁, out.foldl StatsObserver.hear o)) := by
      rw [applyObserved, h₁]
      rfl
    exact ⟨o', by rw [Runs.run_cons hs, ho]⟩

end Run

/-- The counts are those of the orders that rest after every message of a run
if and only if none of them replaces an order that rests. Fewer than `2^32`
orders at a time, and the run goes through. -/
theorem stats_balance {r₀ : Replayer PooledMapLadder OpenAddressIdMap} (h₀ : new {} = some r₀) (symbols : List Symbol)
    (msgs : List (List UInt8))
    (hadmissible : Runs.Steps applyObserved (fun s msg => s.1.Admissible msg) (r₀.trackOnly symbols, {}) msgs) :
    (∀ s, Runs.run applyObserved (r₀.trackOnly symbols, {}) msgs = some s →
      (Runs.Along applyObserved (fun s => Balanced s.1.books s.2) (r₀.trackOnly symbols, {}) msgs ↔
        Runs.Steps applyObserved (fun s msg => ¬ s.1.ReplacesResting msg) (r₀.trackOnly symbols, {}) msgs)) ∧
      ((∀ msg ∈ msgs, Complete msg) → Runs.Along apply (fun r => r.books.Few) (r₀.trackOnly symbols) msgs →
        ∃ s, Runs.run applyObserved (r₀.trackOnly symbols, {}) msgs = some s) := by
  refine ⟨fun s hs => ?_, fun hc hfew => ?_⟩
  · exact Runs.along_iff_steps (fun s ht => ht.balanced)
      (fun s msg out s' ht ha h => applyObserved_tallied ht (fun _ => rfl) ha h) msgs (new_tallied h₀ symbols)
      hadmissible hs
  · obtain ⟨r, hr⟩ := run_of_few PooledMapLadder.vacant h₀ symbols msgs hc hfew
    obtain ⟨o, ho⟩ := run_applyObserved {} hr
    exact ⟨_, ho⟩

/-- Two symbols, an execution in part, and the end of an order. -/
theorem stats_balance_two : ∃ (calls : List WriterCall) (r₀ : Replayer PooledMapLadder OpenAddressIdMap)
    (s : Replayer PooledMapLadder OpenAddressIdMap × StatsObserver),
    calls = [.addOrder 0 1 .bid 100 {} 5, .addOrder 0 2 .ask 70 ⟨.replicate 8 'A'.toUInt8⟩ 5,
      .orderExecuted 0 1 30 7, .orderDelete 0 2] ∧
    new {} = some r₀ ∧ Runs.run applyObserved (r₀, {}) (calls.map WriterCall.body) = some s ∧
    Runs.Along applyObserved (fun s => Balanced s.1.books s.2) (r₀, {}) (calls.map WriterCall.body) := by
  obtain ⟨r₀, hr₀, h⟩ := new_refines (M := OpenAddressIdMap) PooledMapLadder.vacant
  have hc := body_complete [.addOrder 0 1 .bid 100 {} 5, .addOrder 0 2 .ask 70 ⟨.replicate 8 'A'.toUInt8⟩ 5,
    .orderExecuted 0 1 30 7, .orderDelete 0 2]
  have hfew := h.along_few_of_empty rfl (List.map WriterCall.body
    [.addOrder 0 1 .bid 100 {} 5, .addOrder 0 2 .ask 70 ⟨.replicate 8 'A'.toUInt8⟩ 5,
      .orderExecuted 0 1 30 7, .orderDelete 0 2]) (by decide)
  have hfeeds : Feeds (Ladder.validPrice ({} : PooledMapLadder)) r₀ [] := ⟨⟨{}, h, Spec.Rel.empty⟩, h.filter⟩
  have hfresh := hfeeds.steps_fresh (fun _ => rfl) _ hc hfew (by decide)
  have hno : ∀ msg ∈ List.map WriterCall.body [.addOrder 0 1 .bid 100 {} 5,
      .addOrder 0 2 .ask 70 ⟨.replicate 8 'A'.toUInt8⟩ 5, .orderExecuted 0 1 30 7, .orderDelete 0 2],
      ∀ a, decode msg ≠ some (.replace a) := by
    simp only [List.map_cons, List.map_nil, List.forall_mem_cons, decode_body]
    exact ⟨nofun, nofun, nofun, nofun, nofun⟩
  have hadmissible := hfresh.and (Runs.steps_of_forall (Q := fun _ msg => ∀ a, decode msg = some (.replace a) →
    a.shares ≠ 0 ∧ a.newReference ≠ 0) fun msg hmsg _ a hm => absurd hm (hno msg hmsg a))
  have hobserved := Runs.Steps.comap (g := Prod.fst) (fun _ _ _ _ h => (applyObserved_inv h).1)
    (t := ((r₀, {}) : Replayer PooledMapLadder OpenAddressIdMap × StatsObserver)) hadmissible
  have hr : r₀.trackOnly [] = r₀ := trackOnly_nil h.filter
  obtain ⟨hiff, hrun⟩ := stats_balance hr₀ [] _ (hr.symm ▸ hobserved)
  rw [hr] at hiff hrun
  obtain ⟨s, hs⟩ := hrun hc hfew
  refine ⟨_, r₀, s, rfl, hr₀, hs, (hiff s hs).mpr (Runs.steps_of_forall fun msg hmsg _ => ?_)⟩
  rintro ⟨a, hm, -⟩
  exact hno msg hmsg a hm

/-- An order replaced is counted twice, and keeps its symbol. -/
theorem stats_unbalanced : ∃ (calls : List WriterCall) (r₀ : Replayer PooledMapLadder OpenAddressIdMap)
    (s : Replayer PooledMapLadder OpenAddressIdMap × StatsObserver),
    calls = [.addOrder 0 1 .bid 100 {} 5, .orderReplace 0 1 2 50 6] ∧
    new {} = some r₀ ∧ (∀ msg ∈ calls.map WriterCall.body, Complete msg) ∧
    Runs.Along apply (fun r => r.books.Few) r₀ (calls.map WriterCall.body) ∧
    Runs.Steps apply Admissible r₀ (calls.map WriterCall.body) ∧
    Runs.run applyObserved (r₀, {}) (calls.map WriterCall.body) = some s ∧
    s.2.adds - s.2.removes = 2 ∧ s.1.books.openOrders = 1 ∧ (s.2.owner 1).isSome ∧ ¬ Balanced s.1.books s.2 := by
  have hrun : ((new (L := PooledMapLadder) (M := OpenAddressIdMap) {}).bind fun r₀ =>
      (Runs.run applyObserved (r₀, {})
        (List.map WriterCall.body [.addOrder 0 1 .bid 100 {} 5, .orderReplace 0 1 2 50 6])).map fun s =>
          (s.2.adds - s.2.removes, s.1.books.openOrders, (s.2.owner 1).isSome)) = some (2, 1, true) := by
    decide +kernel
  obtain ⟨r₀, hr₀, hrun⟩ := Option.bind_eq_some_iff.mp hrun
  obtain ⟨s, hs, hview⟩ := Option.map_eq_some_iff.mp hrun
  injection hview with htotal hview
  injection hview with hopen howner
  obtain ⟨r, hr, h⟩ := new_refines (M := OpenAddressIdMap) PooledMapLadder.vacant
  cases hr₀.symm.trans hr
  have hc := body_complete [.addOrder 0 1 .bid 100 {} 5, .orderReplace 0 1 2 50 6]
  have hfew := h.along_few_of_empty rfl (List.map WriterCall.body
    [.addOrder 0 1 .bid 100 {} 5, .orderReplace 0 1 2 50 6]) (by decide)
  have hfeeds : Feeds (Ladder.validPrice ({} : PooledMapLadder)) r₀ [] := ⟨⟨{}, h, Spec.Rel.empty⟩, h.filter⟩
  have hfresh := hfeeds.steps_fresh (fun _ => rfl) _ hc hfew (by decide)
  have hreplace : ∀ msg ∈ List.map WriterCall.body [.addOrder 0 1 .bid 100 {} 5, .orderReplace 0 1 2 50 6],
      ∀ a, decode msg = some (.replace a) → a.shares ≠ 0 ∧ a.newReference ≠ 0 := by
    simp only [List.map_cons, List.map_nil, List.forall_mem_cons, decode_body]
    refine ⟨nofun, ?_, nofun⟩
    rintro _ ⟨⟩
    decide
  refine ⟨_, r₀, s, rfl, hr₀, hc, hfew, hfresh.and (Runs.steps_of_forall fun msg hmsg _ => hreplace msg hmsg), hs,
    htotal, hopen, howner, fun hb => ?_⟩
  have htwo := hb.total
  rw [htotal, hopen] at htwo
  exact absurd htwo (by decide)

end Itch.Replayer

end Pricetime
