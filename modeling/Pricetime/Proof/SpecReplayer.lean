import Pricetime.Proof.SpecBook
import Pricetime.Spec.Replayer

/-!
# Messages on the abstract books

A message changes the book of one symbol at most. The `_books` lemmas say
which, `Touch` what that book and the share counts of the replayer gain, and
`total_setBook` what a sum over the books does.
-/

namespace Pricetime

open Itch (Message AddOrder OrderReplace OrderDelete ReplayStats)

namespace Spec

/-! ## One book -/

namespace Book

theorem cancel_shrinks (a : Book) (id : OrderId) (s : Side) : Shrinks ((a.cancel id).2.levels s) (a.levels s) := by
  rw [cancel]
  split
  · exact .refl _
  · exact cancelOpen_shrinks ..

theorem insertPassive_ok {accepts : Price → Bool} {a : Book} {id : OrderId} {side : Side}
    {price : Price} {qty : Qty} (h : (a.insertPassive accepts id side price qty).1.result = .ok) :
    a.validate accepts id price qty = .ok := by
  rw [insertPassive] at h
  by_cases hv : a.validate accepts id price qty = .ok
  · exact hv
  · simp only [ne_eq, hv, not_false_eq_true, if_true] at h

/-- What a step on a book adds to it: one order at most, shares added and
shares executed. -/
structure Gains (b b' : Book) (added executed : UInt64) : Prop where
  orders : b'.openOrders ≤ b.openOrders + 1
  added : b'.counters.addedQty = b.counters.addedQty + added
  executed : b'.counters.executedQty = b.counters.executedQty + executed

theorem Gains.refl (b : Book) : Gains b b 0 0 :=
  ⟨Nat.le_succ _, (UInt64.add_zero _).symm, (UInt64.add_zero _).symm⟩

theorem gains_insertPassive (accepts : Price → Bool) (b : Book) (id : OrderId) (side : Side) (price : Price)
    (qty : Qty) :
    let r := b.insertPassive accepts id side price qty
    Gains b r.2 (if r.1.result = .ok then qty.toUInt64 else 0) 0 := by
  rw [insertPassive]
  by_cases hv : b.validate accepts id price qty = .ok
  · simp only [ne_eq, hv, not_true_eq_false, if_false, if_true]
    exact ⟨Nat.le_of_eq (rest_openOrders ..), rfl, (UInt64.add_zero _).symm⟩
  · simp only [ne_eq, hv, not_false_eq_true, if_true, if_false]
    exact .refl b

theorem gains_consume (b : Book) (id : OrderId) (qty : Qty) (isExecution : Bool) :
    let r := b.consume id qty isExecution
    Gains b r.2 0 (if isExecution then r.1.taken.toUInt64 else 0) := by
  have unchanged : Gains b b 0 (if isExecution then (0 : Qty).toUInt64 else 0) := by
    cases isExecution <;> exact .refl b
  rw [consume]
  cases hf : b.find id with
  | none => exact unchanged
  | some pl =>
    by_cases hq : qty = 0
    · simp only [hq, if_true]
      exact unchanged
    simp only [hq, if_false]
    let take := if qty < pl.order.qty then qty else pl.order.qty
    have hc : Gains b (b.counted take isExecution) 0 (if isExecution then take.toUInt64 else 0) := by
      cases isExecution
      · exact ⟨Nat.le_succ _, (UInt64.add_zero _).symm, (UInt64.add_zero _).symm⟩
      · exact ⟨Nat.le_succ _, (UInt64.add_zero _).symm, rfl⟩
    show Gains b (if take = pl.order.qty then (b.counted take isExecution).remove pl
      else (b.counted take isExecution).reduce pl take) 0 (if isExecution then take.toUInt64 else 0)
    split
    · exact ⟨(openOrders_le (remove_shrinks _ pl)).trans hc.orders, hc.added, hc.executed⟩
    · exact ⟨(openOrders_le (reduce_shrinks _ pl take)).trans hc.orders, hc.added, hc.executed⟩

theorem cancel_counters (b : Book) (id : OrderId) :
    (b.cancel id).2.counters.addedQty = b.counters.addedQty ∧
      (b.cancel id).2.counters.executedQty = b.counters.executedQty := by
  rw [cancel]
  split <;> exact ⟨rfl, rfl⟩

theorem gains_cancel (b : Book) (id : OrderId) : Gains b (b.cancel id).2 0 0 where
  orders := Nat.le_succ_of_le (openOrders_le (cancel_shrinks b id))
  added := (b.cancel_counters id).1.trans (UInt64.add_zero _).symm
  executed := (b.cancel_counters id).2.trans (UInt64.add_zero _).symm

/-- What is cancelled first makes room. -/
theorem Gains.cancel_first {b b' : Book} {id : OrderId} {added executed : UInt64}
    (h : Gains (b.cancel id).2 b' added executed) : Gains b b' added executed where
  orders := h.orders.trans (Nat.add_le_add_right (openOrders_le (cancel_shrinks b id)) 1)
  added := by rw [h.added, (b.cancel_counters id).1]
  executed := by rw [h.executed, (b.cancel_counters id).2]

end Book

/-! ## Books by symbol -/

namespace MultiBook

@[simp] theorem setBook_self (a : MultiBook) (s : Symbol) (b : Book) : (a.setBook s b).book s = b :=
  Function.update_self ..

theorem setBook_of_ne (a : MultiBook) {s s' : Symbol} (h : s' ≠ s) (b : Book) :
    (a.setBook s b).book s' = a.book s' := Function.update_of_ne h ..

@[simp] theorem noteOrder_book (m : MultiBook) (id : OrderId) (s : Symbol) : (m.noteOrder id s).book = m.book := by
  rw [noteOrder]
  split <;> rfl

@[simp] theorem noteOrder_symbols (m : MultiBook) (id : OrderId) (s : Symbol) :
    (m.noteOrder id s).symbols = m.symbols := by
  rw [noteOrder]
  split <;> rfl

@[simp] theorem forgetOrder_book (a : MultiBook) (id : OrderId) : (a.forgetOrder id).book = a.book := rfl

@[simp] theorem see_book (m : MultiBook) (s : Symbol) : (m.see s).book = m.book := by
  rw [see]
  split <;> rfl

@[simp] theorem see_owner (m : MultiBook) (s : Symbol) : (m.see s).owner = m.owner := by
  rw [see]
  split <;> rfl

theorem setBook_book (m : MultiBook) (s : Symbol) : m.setBook s (m.book s) = m := by
  rw [setBook, Function.update_eq_self]

/-- What holds of the books once one of them is set. -/
theorem forall_setBook {P : Symbol → Book → Prop} {m : MultiBook} {s : Symbol} {b : Book} (hs : P s b)
    (hother : ∀ s', s' ≠ s → P s' (m.book s')) (s' : Symbol) : P s' ((m.setBook s b).book s') := by
  by_cases e : s' = s
  · subst e
    rw [setBook_self]
    exact hs
  · rw [setBook_of_ne m e]
    exact hother s' e

theorem mem_see (m : MultiBook) (s : Symbol) : s ∈ (m.see s).symbols := by
  rw [see]
  split
  · assumption
  · exact List.mem_append_right _ List.mem_cons_self

theorem see_nodup {m : MultiBook} (h : m.symbols.Nodup) (s : Symbol) : (m.see s).symbols.Nodup := by
  rw [see]
  split
  · exact h
  · rename_i hs
    refine List.nodup_append.mpr ⟨h, List.nodup_singleton s, fun x hx y hy e => hs ?_⟩
    rw [← List.mem_singleton.mp hy, ← e]
    exact hx

section Total

variable {N : Type} [AddCommMonoid N] (f : Book → N)

/-- The sum of a measure over the books. -/
def total (m : MultiBook) : N := (m.symbols.map fun s => f (m.book s)).sum

theorem total_see (hf : f {} = 0) {m : MultiBook} {s : Symbol} (hs : s ∉ m.symbols → m.book s = {}) :
    (m.see s).total f = m.total f := by
  rw [total, see_book, see]
  split
  · rfl
  · rename_i hn
    rw [List.map_append, List.sum_append, List.map_singleton, List.sum_singleton, hs hn, hf, add_zero]
    rfl

theorem sum_update {symbols : List Symbol} (hn : symbols.Nodup) {s : Symbol} (hs : s ∈ symbols)
    (book : Symbol → Book) (b : Book) :
    (symbols.map fun s' => f (Function.update book s b s')).sum + f (book s) =
      (symbols.map fun s' => f (book s')).sum + f b := by
  induction symbols with
  | nil => cases hs
  | cons s' ss ih =>
    obtain ⟨hn', hn⟩ := List.nodup_cons.mp hn
    rw [List.map_cons, List.map_cons, List.sum_cons, List.sum_cons]
    by_cases e : s' = s
    · subst e
      have hsame : (ss.map fun s => f (Function.update book s' b s)) = ss.map fun s => f (book s) :=
        List.map_congr_left fun x hx => by
          rw [Function.update_of_ne fun e : x = s' => hn' (e ▸ hx)]
      rw [Function.update_self, hsame, add_assoc, add_comm]
      exact congrArg (· + f b) (add_comm _ _)
    · have hs' : s ∈ ss := (List.mem_cons.mp hs).resolve_left fun e' => e e'.symm
      rw [Function.update_of_ne e, add_assoc, ih hn hs', add_assoc]

theorem total_congr {m m' : MultiBook} (hs : m'.symbols = m.symbols) (hb : m'.book = m.book) :
    m'.total f = m.total f := by rw [total, total, hs, hb]

/-- The book of one symbol has changed. -/
theorem total_setBook {m : MultiBook} (hn : m.symbols.Nodup) {s : Symbol} (hs : s ∈ m.symbols) (b : Book) :
    (m.setBook s b).total f + f (m.book s) = m.total f + f b := sum_update f hn hs m.book b

end Total

end MultiBook

/-! ## The books after a message -/

namespace Replayer

@[simp] theorem setStats_books (a : Replayer) (f : ReplayStats → ReplayStats) : (a.setStats f).books = a.books :=
  rfl

variable (accepts : Price → Bool) (a : Replayer)

theorem onAdd_books (m : AddOrder) : (a.onAdd accepts m).2.books =
    if a.tracked m.symbol then
      let b := (a.books.see m.symbol).book m.symbol
      let r := b.insertPassive accepts m.reference m.side m.price m.shares
      if r.1.result = .ok then ((a.books.see m.symbol).setBook m.symbol r.2).noteOrder m.reference m.symbol
      else (a.books.see m.symbol).setBook m.symbol r.2
    else a.books := by
  have ht : (a.setStats fun s => { s with lastTimestamp := m.timestamp }).tracked m.symbol =
      a.tracked m.symbol := rfl
  simp only [onAdd, setStats_books, ht]
  cases a.tracked m.symbol with
  | false => rfl
  | true =>
    simp only [Bool.not_true, Bool.false_eq_true, if_false, if_true]
    exact (congrArg books (apply_ite Prod.snd _ _ _)).trans (apply_ite books _ _ _)

theorem onReduced_books (timestamp : UInt64) (reference : OrderId) (shares : Qty) (isExecution : Bool) :
    (a.onReduced timestamp reference shares isExecution).2.books =
      match a.books.owner reference with
      | none => a.books
      | some symbol =>
        let b := ((a.books.book symbol).consume reference shares isExecution).2
        if (b.find reference).isSome then a.books.setBook symbol b
        else (a.books.setBook symbol b).forgetOrder reference := by
  simp only [onReduced, setStats_books]
  cases a.books.owner reference with
  | none => rfl
  | some symbol =>
    exact (congrArg books (apply_ite Prod.snd _ _ _)).trans (apply_ite books _ _ _)

theorem onDelete_books (m : OrderDelete) : (a.onDelete m).2.books =
    match a.books.owner m.reference with
    | none => a.books
    | some symbol =>
      (a.books.setBook symbol ((a.books.book symbol).cancel m.reference).2).forgetOrder m.reference := by
  simp only [onDelete, setStats_books]
  cases a.books.owner m.reference <;> rfl

theorem onReplace_books (m : OrderReplace) : (a.onReplace accepts m).2.books =
    match a.books.owner m.originalReference with
    | none => a.books
    | some symbol =>
      match (a.books.book symbol).find m.originalReference with
      | none => a.books
      | some original =>
        let b := ((a.books.book symbol).cancel m.originalReference).2
        let books := (a.books.setBook symbol b).forgetOrder m.originalReference
        let r := b.insertPassive accepts m.newReference original.side m.price m.shares
        if r.1.result = .ok then (books.setBook symbol r.2).noteOrder m.newReference symbol
        else books.setBook symbol r.2 := by
  simp only [onReplace, setStats_books]
  cases a.books.owner m.originalReference with
  | none => rfl
  | some symbol =>
    cases hf : (a.books.book symbol).find m.originalReference with
    | none =>
      simp only [hf]
      rfl
    | some original =>
      simp only [hf]
      exact (congrArg books (apply_ite Prod.snd _ _ _)).trans (apply_ite books _ _ _)

/-! ## What a message adds -/

/-- At most one book changes, and the replayer's share counts gain what that
book's counters gain. -/
inductive Touch (a a' : Replayer) : Prop
  | none (symbols : a'.books.symbols = a.books.symbols) (book : a'.books.book = a.books.book)
    (added : a'.stats.sharesAdded = a.stats.sharesAdded)
    (executed : a'.stats.sharesExecuted = a.stats.sharesExecuted)
  | one {s : Symbol} {b : Book} {added executed : UInt64}
    (symbols : a'.books.symbols = (a.books.see s).symbols) (book : a'.books.book = Function.update a.books.book s b)
    (gains : (a.books.book s).Gains b added executed) (added : a'.stats.sharesAdded = a.stats.sharesAdded + added)
    (executed : a'.stats.sharesExecuted = a.stats.sharesExecuted + executed)

variable {accepts a}

theorem onAdd_touch (m : AddOrder) : Touch a (a.onAdd accepts m).2 := by
  simp only [onAdd, setStats_books]
  split
  · exact .none rfl rfl rfl rfl
  have hg := ((a.books.see m.symbol).book m.symbol).gains_insertPassive accepts m.reference m.side m.price m.shares
  by_cases hok : (((a.books.see m.symbol).book m.symbol).insertPassive accepts m.reference m.side m.price
      m.shares).1.result = .ok
  · simp only [hok, if_true] at hg ⊢
    rw [MultiBook.see_book] at hg
    refine .one ?_ ?_ hg rfl (UInt64.add_zero _).symm
    · exact MultiBook.noteOrder_symbols ..
    · refine (MultiBook.noteOrder_book ..).trans ?_
      rw [MultiBook.setBook, MultiBook.see_book]
  · simp only [hok, if_false] at hg ⊢
    rw [MultiBook.see_book] at hg
    refine .one rfl ?_ hg (UInt64.add_zero _).symm (UInt64.add_zero _).symm
    rw [MultiBook.setBook, MultiBook.see_book]

/-- The index knows symbols with a book only. -/
theorem see_of_owner (hidx : ∀ id s, a.books.owner id = some s → s ∈ a.books.symbols) {id : OrderId} {s : Symbol}
    (h : a.books.owner id = some s) : a.books.see s = a.books := if_pos (hidx id s h)

section Reduced

variable (st : ReplayStats) (taken shares : Qty) (isExecution : Bool)

/-- The counts of a reduction. -/
def reduced : ReplayStats :=
  let st := if taken < shares then { st with clamped := st.clamped + 1 } else st
  if isExecution then
    { st with executions := st.executions + 1, sharesExecuted := st.sharesExecuted + taken.toUInt64 }
  else { st with cancels := st.cancels + 1 }

theorem reduced_added : (reduced st taken shares isExecution).sharesAdded = st.sharesAdded + 0 := by
  rw [reduced]
  by_cases hlt : taken < shares <;> cases isExecution <;> simp [hlt]

theorem reduced_executed : (reduced st taken shares isExecution).sharesExecuted =
    st.sharesExecuted + (if isExecution then taken.toUInt64 else 0) := by
  rw [reduced]
  by_cases hlt : taken < shares <;> cases isExecution <;> simp [hlt]

end Reduced

theorem onReduced_touch (hidx : ∀ id s, a.books.owner id = some s → s ∈ a.books.symbols) (timestamp : UInt64)
    (reference : OrderId) (shares : Qty) (isExecution : Bool) :
    Touch a (a.onReduced timestamp reference shares isExecution).2 := by
  simp only [onReduced, setStats_books]
  cases hown : a.books.owner reference with
  | none => exact .none rfl rfl rfl rfl
  | some s =>
    have hg := (a.books.book s).gains_consume reference shares isExecution
    have hsee : a.books.symbols = (a.books.see s).symbols := by rw [see_of_owner hidx hown]
    by_cases hf : (((a.books.book s).consume reference shares isExecution).2.find reference).isSome = true
    · simp only [hf, if_true]
      exact .one hsee rfl hg (reduced_added ..) (reduced_executed ..)
    · simp only [hf]
      exact .one hsee rfl hg (reduced_added ..) (reduced_executed ..)

theorem onDelete_touch (hidx : ∀ id s, a.books.owner id = some s → s ∈ a.books.symbols) (m : OrderDelete) :
    Touch a (a.onDelete m).2 := by
  simp only [onDelete, setStats_books]
  cases hown : a.books.owner m.reference with
  | none => exact .none rfl rfl rfl rfl
  | some s =>
    have hsee : a.books.symbols = (a.books.see s).symbols := by rw [see_of_owner hidx hown]
    exact .one hsee rfl ((a.books.book s).gains_cancel m.reference) (UInt64.add_zero _).symm (UInt64.add_zero _).symm

theorem onReplace_touch (hidx : ∀ id s, a.books.owner id = some s → s ∈ a.books.symbols) (m : OrderReplace) :
    Touch a (a.onReplace accepts m).2 := by
  simp only [onReplace, setStats_books]
  cases hown : a.books.owner m.originalReference with
  | none => exact .none rfl rfl rfl rfl
  | some s =>
    have hsee : a.books.symbols = (a.books.see s).symbols := by rw [see_of_owner hidx hown]
    cases hf : (a.books.book s).find m.originalReference with
    | none =>
      simp only [hf]
      exact .none rfl rfl rfl rfl
    | some original =>
      have hg := (((a.books.book s).cancel m.originalReference).2.gains_insertPassive accepts m.newReference
        original.side m.price m.shares).cancel_first
      simp only [hf]
      have hbook : ∀ b, (((a.books.setBook s ((a.books.book s).cancel m.originalReference).2).forgetOrder
          m.originalReference).setBook s b).book = Function.update a.books.book s b := fun b => Function.update_idem ..
      by_cases hok : (((a.books.book s).cancel m.originalReference).2.insertPassive accepts m.newReference
          original.side m.price m.shares).1.result = .ok
      · simp only [hok, if_true] at hg ⊢
        refine .one ?_ ?_ hg rfl (UInt64.add_zero _).symm
        · exact (MultiBook.noteOrder_symbols ..).trans hsee
        · exact (MultiBook.noteOrder_book ..).trans (hbook _)
      · simp only [hok, if_false] at hg ⊢
        exact .one hsee (hbook _) hg (UInt64.add_zero _).symm (UInt64.add_zero _).symm

theorem dispatch_touch (hidx : ∀ id s, a.books.owner id = some s → s ∈ a.books.symbols) (m : Message) :
    Touch a (a.dispatch accepts m).2 := by
  cases m with
  | add m => exact onAdd_touch m
  | executed m => exact onReduced_touch hidx ..
  | cancel m => exact onReduced_touch hidx ..
  | delete m => exact onDelete_touch hidx m
  | replace m => exact onReplace_touch hidx m
  | trade timestamp => exact .none rfl rfl rfl rfl
  | systemEvent m => exact .none rfl rfl rfl rfl
  | administrative => exact .none rfl rfl rfl rfl

theorem apply_touch (hidx : ∀ id s, a.books.owner id = some s → s ∈ a.books.symbols) (m : Message) (bytes : Nat) :
    Touch a (a.apply accepts m bytes).2 := by
  have hd := @dispatch_touch accepts
    (a.setStats fun s => { s with messages := s.messages + 1, bytes := s.bytes + bytes.toUInt64 }) hidx m
  cases hd with
  | none symbols book added executed => exact .none symbols book added executed
  | one symbols book gains added executed => exact .one symbols book gains added executed

/-- The sums over the books after a message. -/
theorem Touch.total {a' : Replayer} (h : Touch a a') (hn : a.books.symbols.Nodup)
    (hunseen : ∀ s, s ∉ a.books.symbols → a.books.book s = {}) :
    ∃ added executed, a'.books.total Book.openOrders ≤ a.books.total Book.openOrders + 1 ∧
      a'.books.total (fun b => b.counters.addedQty) = a.books.total (fun b => b.counters.addedQty) + added ∧
      a'.books.total (fun b => b.counters.executedQty) = a.books.total (fun b => b.counters.executedQty) + executed ∧
      a'.stats.sharesAdded = a.stats.sharesAdded + added ∧
      a'.stats.sharesExecuted = a.stats.sharesExecuted + executed := by
  cases h with
  | none symbols book added executed =>
    have same {N : Type} [AddCommMonoid N] (f : Book → N) : a'.books.total f = a.books.total f :=
      MultiBook.total_congr f symbols book
    refine ⟨0, 0, ?_, ?_, ?_, ?_, ?_⟩
    · rw [same]
      exact Nat.le_succ _
    · rw [same, UInt64.add_zero]
    · rw [same, UInt64.add_zero]
    · rw [added, UInt64.add_zero]
    · rw [executed, UInt64.add_zero]
  | @one s b da de symbols book gains added executed =>
    have key {N : Type} [AddCommMonoid N] (f : Book → N) (hf : f {} = 0) :
        a'.books.total f + f (a.books.book s) = a.books.total f + f b := by
      have hset := MultiBook.total_setBook f (MultiBook.see_nodup hn s) (a.books.mem_see s) b
      rw [MultiBook.see_book, MultiBook.total_see f hf (hunseen s)] at hset
      rw [← hset]
      refine congrArg (· + _) (MultiBook.total_congr f symbols ?_)
      rw [book, MultiBook.setBook, MultiBook.see_book]
    -- what the book gains, the sum gains
    have gain {f : Book → UInt64} (hf : f {} = 0) {d : UInt64} (hd : f b = f (a.books.book s) + d) :
        a'.books.total f = a.books.total f + d := by
      have hk := key f hf
      rw [hd, add_comm (f _) d, ← add_assoc] at hk
      exact add_right_cancel hk
    refine ⟨da, de, ?_, gain rfl gains.added, gain rfl gains.executed, added, executed⟩
    have hk := key Book.openOrders rfl
    have ho := gains.orders
    omega

/-! ## The filter -/

theorem dispatch_filter (m : Message) : (a.dispatch accepts m).2.filter = a.filter := by
  cases m with
  | add m =>
    simp only [dispatch, onAdd]
    split
    · rfl
    · split <;> rfl
  | executed m | cancel m =>
    simp only [dispatch, onReduced]
    split
    · rfl
    · split <;> rfl
  | delete m =>
    simp only [dispatch, onDelete]
    split <;> rfl
  | replace m =>
    simp only [dispatch, onReplace]
    split
    · rfl
    split
    · rfl
    split <;> rfl
  | trade timestamp => rfl
  | systemEvent m => rfl
  | administrative => rfl

theorem receive_filter (msg : List UInt8) : (a.receive accepts msg).filter = a.filter := by
  rw [receive]
  cases Itch.decode msg with
  | none => rfl
  | some m => exact dispatch_filter (a := a.setStats _) m

end Replayer

end Spec

end Pricetime
