import Pricetime.Proof.FlatBook
import Pricetime.Proof.ReplayerRefines

/-!
# The books are the feed's list of orders

`Rel m os`: the book of each symbol holds the orders of that symbol on the
list `os`, in the order of the list, and the index knows the symbol of each.
A message keeps it (`Rel.apply`), so that the books of a replayer are the
levels of the list after every run (`replayer_refines_feed`).
-/

namespace Pricetime

open Itch (Message AddOrder OrderReplace OrderDelete)

namespace Spec

namespace FeedOrder

/-! ## Lists of orders -/

def place (o : FeedOrder) : Place := ⟨o.side, o.price, ⟨o.reference, o.shares, 0⟩⟩

/-- The orders of a symbol. -/
def restingIn (os : List FeedOrder) (s : Symbol) : List Place :=
  (os.filter fun o => o.symbol = s).map place

theorem restingIn_append (xs ys : List FeedOrder) (s : Symbol) :
    restingIn (xs ++ ys) s = restingIn xs s ++ restingIn ys s := by
  rw [restingIn, List.filter_append, List.map_append]
  rfl

theorem restingIn_cons_self (o : FeedOrder) (os : List FeedOrder) :
    restingIn (o :: os) o.symbol = o.place :: restingIn os o.symbol := by
  rw [restingIn, List.filter_cons_of_pos (by exact decide_eq_true rfl), List.map_cons]
  rfl

theorem restingIn_cons_of_ne {o : FeedOrder} {s : Symbol} (h : s ≠ o.symbol) (os : List FeedOrder) :
    restingIn (o :: os) s = restingIn os s := by
  rw [restingIn, List.filter_cons_of_neg (by simpa using fun e => h e.symm)]
  rfl

section Middle

variable {xs ys : List FeedOrder} {o : FeedOrder}

/-- A list at one of its orders. -/
theorem exists_middle {os : List FeedOrder} (hn : (os.map reference).Nodup) (ho : o ∈ os) :
    ∃ xs ys, os = xs ++ o :: ys ∧ ∀ x ∈ xs ++ ys, x.reference ≠ o.reference := by
  obtain ⟨xs, ys, rfl⟩ := List.append_of_mem ho
  rw [List.map_append, List.map_cons, List.nodup_middle, ← List.map_append] at hn
  exact ⟨xs, ys, rfl, fun x hx e => (List.nodup_cons.mp hn).1 (e ▸ List.mem_map_of_mem hx)⟩

theorem remove_absent {os : List FeedOrder} {reference : OrderId} (h : ∀ o ∈ os, o.reference ≠ reference) :
    remove os reference = os := List.filter_eq_self.mpr fun o ho => by simpa using h o ho

theorem take_absent {os : List FeedOrder} {reference : OrderId} (shares : Qty)
    (h : ∀ o ∈ os, o.reference ≠ reference) : take os reference shares = os := by
  induction os with
  | nil => rfl
  | cons o os ih =>
    rw [take, List.flatMap_cons, if_neg (h o List.mem_cons_self), List.singleton_append]
    exact congrArg _ (ih fun x hx => h x (List.mem_cons_of_mem _ hx))

theorem remove_middle (h : ∀ x ∈ xs ++ ys, x.reference ≠ o.reference) :
    remove (xs ++ o :: ys) o.reference = xs ++ ys := by
  rw [remove, List.filter_append, List.filter_cons_of_neg (by simp), ← List.filter_append]
  exact remove_absent h

theorem take_middle (h : ∀ x ∈ xs ++ ys, x.reference ≠ o.reference) (shares : Qty) :
    take (xs ++ o :: ys) o.reference shares =
      xs ++ (if o.shares - min shares o.shares = 0 then [] else [{ o with shares := o.shares - min shares o.shares }]) ++
        ys := by
  rw [take, List.flatMap_append, List.flatMap_cons, if_pos rfl, ← List.append_assoc]
  exact congrArg₂ _ (congrArg₂ _ (take_absent shares fun x hx => h x (List.mem_append_left _ hx)) rfl)
    (take_absent shares fun x hx => h x (List.mem_append_right _ hx))

/-- Fewer shares than the order has. -/
theorem take_middle_part (h : ∀ x ∈ xs ++ ys, x.reference ≠ o.reference) {shares : Qty} (hlt : shares < o.shares) :
    take (xs ++ o :: ys) o.reference shares = xs ++ { o with shares := o.shares - shares } :: ys := by
  rw [take_middle h, Std.min_eq_if, if_pos (UInt32.le_of_lt hlt), if_neg (sub_ne_zero hlt), List.append_assoc]
  rfl

/-- As many as it has. -/
theorem take_middle_whole (h : ∀ x ∈ xs ++ ys, x.reference ≠ o.reference) {shares : Qty} (hge : ¬ shares < o.shares) :
    take (xs ++ o :: ys) o.reference shares = xs ++ ys := by
  have hleft : o.shares - min shares o.shares = 0 := by
    rw [Std.min_eq_if]
    split
    · rename_i hle
      rw [UInt32.le_antisymm hle (UInt32.not_lt.mp hge), UInt32.sub_self]
    · exact UInt32.sub_self _
  rw [take_middle h, hleft, if_pos rfl, List.append_nil]

theorem find_middle (h : ∀ x ∈ xs ++ ys, x.reference ≠ o.reference) :
    (xs ++ o :: ys).find? (fun x => x.reference = o.reference) = some o := by
  rw [List.find?_append, List.find?_eq_none.mpr fun x hx => by simpa using h x (List.mem_append_left _ hx),
    List.find?_cons_of_pos (by simp)]
  rfl

end Middle

end FeedOrder

open FeedOrder

/-! ## Books and list -/

structure Rel (m : MultiBook) (os : List FeedOrder) : Prop where
  flat : ∀ s, Flat (restingIn os s) (m.book s)
  wf : ∀ s, (m.book s).Wf
  owner : ∀ id s, m.owner id = some s ↔ ∃ o ∈ os, o.reference = id ∧ o.symbol = s
  nodup : (os.map reference).Nodup

namespace Rel

variable {m : MultiBook} {os xs ys : List FeedOrder} {o : FeedOrder}

theorem empty : Rel {} [] :=
  ⟨fun _ => Flat.empty, fun _ => Book.wf_empty, fun _ _ => ⟨nofun, nofun⟩, List.nodup_nil⟩

theorem see (h : Rel m os) (s : Symbol) : Rel (m.see s) os := by
  refine ⟨?_, ?_, ?_, h.nodup⟩
  · rw [MultiBook.see_book]
    exact h.flat
  · rw [MultiBook.see_book]
    exact h.wf
  · rw [MultiBook.see_owner]
    exact h.owner

theorem owner_none (h : Rel m os) {id : OrderId} : m.owner id = none ↔ ∀ o ∈ os, o.reference ≠ id := by
  constructor
  · intro hn o ho e
    cases hn.symm.trans ((h.owner id o.symbol).mpr ⟨o, ho, e, rfl⟩)
  · intro hall
    refine Option.eq_none_iff_forall_ne_some.mpr fun s hs => ?_
    obtain ⟨o, ho, e, -⟩ := (h.owner id s).mp hs
    exact hall o ho e

theorem ids (h : Rel m os) {id : OrderId} {s : Symbol} :
    id ∈ (m.book s).ids ↔ ∃ o ∈ os, o.reference = id ∧ o.symbol = s := by
  rw [← (h.flat s).ids (h.wf s), List.mem_map]
  constructor
  · rintro ⟨pl, hpl, rfl⟩
    obtain ⟨o, ho, rfl⟩ := List.mem_map.mp hpl
    obtain ⟨ho, hs⟩ := List.mem_filter.mp ho
    exact ⟨o, ho, rfl, of_decide_eq_true hs⟩
  · rintro ⟨o, ho, rfl, hs⟩
    exact ⟨o.place, List.mem_map_of_mem (List.mem_filter.mpr ⟨ho, decide_eq_true hs⟩), rfl⟩

/-- An id is on the list or unknown. -/
theorem cases (h : Rel m os) (id : OrderId) :
    ((∀ o ∈ os, o.reference ≠ id) ∧ m.owner id = none) ∨
    ∃ xs o ys, os = xs ++ o :: ys ∧ o.reference = id ∧ (∀ x ∈ xs ++ ys, x.reference ≠ o.reference) ∧
      m.owner id = some o.symbol ∧ (m.book o.symbol).find id = some o.place := by
  cases hm : m.owner id with
  | none => exact .inl ⟨h.owner_none.mp hm, rfl⟩
  | some s =>
    obtain ⟨o, ho, rfl, rfl⟩ := (h.owner id s).mp hm
    obtain ⟨xs, ys, rfl, hne⟩ := exists_middle h.nodup ho
    refine .inr ⟨xs, o, ys, rfl, rfl, hne, rfl, ?_⟩
    refine (Book.find_eq_some_iff (h.wf o.symbol).nodup).mpr ⟨?_, rfl⟩
    rw [← (h.flat o.symbol).mem (h.wf o.symbol), restingIn_append, restingIn_cons_self]
    exact List.mem_append_right _ List.mem_cons_self

theorem shares_ne_zero (h : Rel m os) (ho : o ∈ os) : o.shares ≠ 0 := by
  have hm : o.place ∈ restingIn os o.symbol := List.mem_map_of_mem (List.mem_filter.mpr ⟨ho, decide_eq_true rfl⟩)
  obtain ⟨l, hl, -, hmem⟩ := Book.mem_places.mp (((h.flat o.symbol).mem (h.wf o.symbol)).mp hm)
  exact (((h.wf o.symbol).side o.side).level l hl).2 _ hmem |>.2

/-! ## Steps -/

theorem enter (h : Rel m os) (h0 : o.reference ≠ 0) (hq : o.shares ≠ 0) (hid : ∀ x ∈ os, x.reference ≠ o.reference) :
    Rel ((m.setBook o.symbol (((m.book o.symbol).countAdded o.shares).rest o.side o.price
      ⟨o.reference, o.shares, 0⟩)).noteOrder o.reference o.symbol) (os ++ [o]) := by
  have hnew : o.reference ∉ (m.book o.symbol).ids := fun hm => by
    obtain ⟨x, hx, e, -⟩ := h.ids.mp hm
    exact hid x hx e
  have hw : ((m.book o.symbol).countAdded o.shares).Wf := (h.wf o.symbol).congr rfl
  have hf : Flat (restingIn os o.symbol) ((m.book o.symbol).countAdded o.shares) := (h.flat o.symbol).congr rfl
  have hnone : (m.setBook o.symbol (((m.book o.symbol).countAdded o.shares).rest o.side o.price
      ⟨o.reference, o.shares, 0⟩)).owner o.reference = none := h.owner_none.mpr hid
  rw [MultiBook.noteOrder, hnone, if_neg (by exact Bool.false_ne_true)]
  refine ⟨fun s => ?_, fun s => ?_, fun id s => ?_, ?_⟩
  · refine MultiBook.forall_setBook (P := fun s b => Flat (restingIn (os ++ [o]) s) b) ?_ (fun s' hs => ?_) s
    · rw [restingIn_append, restingIn_cons_self]
      exact hf.rest hw o.side o.price (o := ⟨o.reference, o.shares, 0⟩) hnew
    · rw [restingIn_append, restingIn_cons_of_ne hs, restingIn, restingIn, List.filter_nil, List.map_nil,
        List.append_nil]
      exact h.flat s'
  · refine MultiBook.forall_setBook (P := fun _ b => b.Wf) ?_ (fun s' _ => h.wf s') s
    exact hw.rest (o := ⟨o.reference, o.shares, 0⟩) ⟨h0, hq⟩ hnew o.side o.price
  · show Function.update m.owner o.reference (some o.symbol) id = some s ↔ _
    by_cases e : id = o.reference
    · subst e
      rw [Function.update_self]
      constructor
      · intro hs
        exact ⟨o, List.mem_append_right _ List.mem_cons_self, rfl, Option.some.inj hs⟩
      · rintro ⟨x, hx, e, rfl⟩
        rcases List.mem_append.mp hx with hx | hx
        · exact absurd e (hid x hx)
        · rw [List.mem_singleton.mp hx]
    · rw [Function.update_of_ne e, h.owner]
      constructor
      · rintro ⟨x, hx, hr⟩
        exact ⟨x, List.mem_append_left _ hx, hr⟩
      · rintro ⟨x, hx, rfl, hs⟩
        rcases List.mem_append.mp hx with hx | hx
        · exact ⟨x, hx, rfl, hs⟩
        · exact absurd (congrArg reference (List.mem_singleton.mp hx)) e
  · rw [List.map_append, List.nodup_append]
    refine ⟨h.nodup, List.nodup_singleton _, fun id hm id' hm' e => ?_⟩
    obtain ⟨x, hx, rfl⟩ := List.mem_map.mp hm
    exact hid x hx (e.trans (List.mem_singleton.mp hm'))

/-- The order on the list and in its book. -/
theorem find_middle (h : Rel m (xs ++ o :: ys)) : (m.book o.symbol).find o.reference = some o.place := by
  refine (Book.find_eq_some_iff (h.wf o.symbol).nodup).mpr ⟨?_, rfl⟩
  rw [← (h.flat o.symbol).mem (h.wf o.symbol), restingIn_append, restingIn_cons_self]
  exact List.mem_append_right _ List.mem_cons_self

theorem flat_middle (h : Rel m (xs ++ o :: ys)) :
    Flat (restingIn xs o.symbol ++ o.place :: restingIn ys o.symbol) (m.book o.symbol) := by
  have hf := h.flat o.symbol
  rwa [restingIn_append, restingIn_cons_self] at hf

/-- `b` is the book without the order, but for its counters. -/
theorem leave (h : Rel m (xs ++ o :: ys)) {b : Book} (hb : b.levels = ((m.book o.symbol).remove o.place).levels) :
    Rel ((m.setBook o.symbol b).forgetOrder o.reference) (xs ++ ys) := by
  have hnd := h.nodup
  rw [List.map_append, List.map_cons, List.nodup_middle, ← List.map_append, List.nodup_cons] at hnd
  refine ⟨fun s => ?_, fun s => ?_, fun id s => ?_, hnd.2⟩
  · refine MultiBook.forall_setBook (P := fun s b => Flat (restingIn (xs ++ ys) s) b) ?_ (fun s' hs => ?_) s
    · rw [restingIn_append]
      exact (h.flat_middle.removeMiddle (h.wf o.symbol)).congr hb
    · have hf := h.flat s'
      rwa [restingIn_append, restingIn_cons_of_ne hs, ← restingIn_append] at hf
  · refine MultiBook.forall_setBook (P := fun _ b => b.Wf) ?_ (fun s' _ => h.wf s') s
    exact ((h.wf o.symbol).remove o.place).congr hb
  · show Function.update m.owner o.reference none id = some s ↔ _
    by_cases e : id = o.reference
    · subst e
      rw [Function.update_self]
      refine iff_of_false nofun ?_
      rintro ⟨x, hx, e, -⟩
      exact hnd.1 (e ▸ List.mem_map_of_mem hx)
    · rw [Function.update_of_ne e, h.owner]
      simp only [List.mem_append, List.mem_cons]
      constructor
      · rintro ⟨x, hx | rfl | hx, rfl, hs⟩
        · exact ⟨x, .inl hx, rfl, hs⟩
        · exact absurd rfl e
        · exact ⟨x, .inr hx, rfl, hs⟩
      · rintro ⟨x, hx, hr⟩
        exact ⟨x, hx.imp_right .inr, hr⟩

/-- `b` is the book with `take` shares off the order, but for its counters. -/
theorem shrink (h : Rel m (xs ++ o :: ys)) {take : Qty} (hlt : take < o.shares) {b : Book}
    (hb : b.levels = ((m.book o.symbol).reduce o.place take).levels) :
    Rel (m.setBook o.symbol b) (xs ++ { o with shares := o.shares - take } :: ys) := by
  refine ⟨fun s => ?_, fun s => ?_, fun id s => ?_, ?_⟩
  · refine MultiBook.forall_setBook
      (P := fun s b => Flat (restingIn (xs ++ { o with shares := o.shares - take } :: ys) s) b) ?_ (fun s' hs => ?_) s
    · rw [restingIn_append]
      have hr := (h.flat_middle.reduceMiddle (h.wf o.symbol) take).congr hb
      exact (congrArg (Flat · b) (congrArg _
        (restingIn_cons_self { o with shares := o.shares - take } ys).symm)).mp hr
    · have hf := h.flat s'
      rw [restingIn_append, restingIn_cons_of_ne hs] at hf
      rw [restingIn_append, restingIn_cons_of_ne (o := { o with shares := o.shares - take }) hs]
      exact hf
  · refine MultiBook.forall_setBook (P := fun _ b => b.Wf) ?_ (fun s' _ => h.wf s') s
    exact ((h.wf o.symbol).reduce h.find_middle hlt).congr hb
  · refine (h.owner id s).trans ?_
    simp only [List.mem_append, List.mem_cons]
    constructor
    · rintro ⟨x, hx | rfl | hx, hr⟩
      · exact ⟨x, .inl hx, hr⟩
      · exact ⟨_, .inr (.inl rfl), hr⟩
      · exact ⟨x, .inr (.inr hx), hr⟩
    · rintro ⟨x, hx | rfl | hx, hr⟩
      · exact ⟨x, .inl hx, hr⟩
      · exact ⟨o, .inr (.inl rfl), hr⟩
      · exact ⟨x, .inr (.inr hx), hr⟩
  · have hn := h.nodup
    rw [List.map_append, List.map_cons] at hn ⊢
    exact hn

/-! ## Messages -/

variable {accepts : Price → Bool}

/-- An order on the feed enters its book, or neither changes. -/
theorem append (hacc : ∀ p, accepts p = true) (h : Rel m os) (o : FeedOrder)
    (hfresh : o.shares ≠ 0 → ∀ x ∈ os, x.reference ≠ o.reference) :
    let r := (m.book o.symbol).insertPassive accepts o.reference o.side o.price o.shares
    Rel (if r.1.result = .ok then (m.setBook o.symbol r.2).noteOrder o.reference o.symbol
      else m.setBook o.symbol r.2) (FeedOrder.append os o) := by
  rw [FeedOrder.append, Book.insertPassive, Book.validate]
  by_cases h0 : o.reference = 0
  · simp only [h0, if_true, ne_eq, reduceCtorEq, not_false_eq_true, not_true_eq_false, false_and, if_false]
    rwa [MultiBook.setBook_book]
  by_cases hq : o.shares = 0
  · simp only [h0, hq, if_true, ne_eq, reduceCtorEq, not_false_eq_true, not_true_eq_false, and_false, if_false]
    rwa [MultiBook.setBook_book]
  have hid := hfresh hq
  have hnone : ((m.book o.symbol).find o.reference).isSome = false := by
    rw [Bool.eq_false_iff, ne_eq, Book.find_isSome_iff, h.ids]
    rintro ⟨x, hx, e, -⟩
    exact hid x hx e
  simp only [h0, hq, hacc, hnone, if_false, if_true, ne_eq, not_true_eq_false, not_false_eq_true, and_self,
    Bool.not_true, Bool.false_eq_true]
  exact h.enter h0 hq hid

variable {a : Replayer}

theorem onAdd (hacc : ∀ p, accepts p = true) (h : Rel a.books os) (hf : a.filter = []) (m : AddOrder)
    (hfresh : Fresh os (.add m)) : Rel (a.onAdd accepts m).2.books (FeedOrder.apply os (.add m)) := by
  have ht : a.tracked m.symbol = true := by
    rw [Replayer.tracked, hf]
    rfl
  rw [Replayer.onAdd_books, if_pos ht]
  exact (h.see m.symbol).append hacc ⟨m.reference, m.symbol, m.side, m.price, m.shares⟩ hfresh

theorem onReduced (h : Rel a.books os) (timestamp : UInt64) (reference : OrderId) (shares : Qty)
    (isExecution : Bool) :
    Rel (a.onReduced timestamp reference shares isExecution).2.books (take os reference shares) := by
  rw [Replayer.onReduced_books]
  rcases h.cases reference with ⟨habs, hown⟩ | ⟨xs, o, ys, rfl, rfl, hne, hown, hfind⟩
  · rw [hown, take_absent shares habs]
    exact h
  have ho := h.shares_ne_zero (List.mem_append_right xs List.mem_cons_self)
  -- an order that is still in its book stays in the index
  have stays : ∀ {b : Book} {os'}, Rel (a.books.setBook o.symbol b) os' → (∃ x ∈ os', x.reference = o.reference ∧
      x.symbol = o.symbol) → Rel (if (b.find o.reference).isSome then a.books.setBook o.symbol b
        else (a.books.setBook o.symbol b).forgetOrder o.reference) os' := by
    intro b os' hb hx
    have hm := hb.ids.mpr hx
    rw [MultiBook.setBook_self, ← Book.find_isSome_iff] at hm
    rwa [if_pos hm]
  have leaves : ∀ {b : Book} {os'}, Rel ((a.books.setBook o.symbol b).forgetOrder o.reference) os' →
      (∀ x ∈ os', x.reference ≠ o.reference) → Rel (if (b.find o.reference).isSome then a.books.setBook o.symbol b
        else (a.books.setBook o.symbol b).forgetOrder o.reference) os' := by
    intro b os' hb hx
    have hm : o.reference ∉ b.ids := fun hm => by
      obtain ⟨x, hxm, e, -⟩ := hb.ids.mp (by rwa [MultiBook.forgetOrder_book, MultiBook.setBook_self])
      exact hx x hxm e
    rwa [if_neg (by rwa [Book.find_isSome_iff])]
  simp only [hown, Book.consume, hfind]
  by_cases hq : shares = 0
  · subst hq
    have hpos : 0 < o.shares := UInt32.pos_iff_ne_zero.mpr ho
    rw [if_pos rfl, take_middle_part hne hpos, UInt32.sub_zero]
    refine stays ?_ ⟨o, List.mem_append_right _ List.mem_cons_self, rfl, rfl⟩
    rwa [MultiBook.setBook_book]
  rw [if_neg hq]
  by_cases hlt : shares < o.shares
  · have hne' : shares ≠ o.shares := UInt32.ne_of_lt hlt
    rw [take_middle_part hne hlt]
    refine stays ?_ ⟨{ o with shares := o.shares - shares }, List.mem_append_right _ List.mem_cons_self, rfl, rfl⟩
    refine h.shrink hlt ?_
    simp only [place, hlt, hne', if_true, if_false]
    rfl
  · rw [take_middle_whole hne hlt]
    refine leaves ?_ hne
    refine h.leave ?_
    simp only [place, hlt, if_true, if_false]
    rfl

theorem onDelete (h : Rel a.books os) (m : OrderDelete) :
    Rel (a.onDelete m).2.books (FeedOrder.remove os m.reference) := by
  rw [Replayer.onDelete_books]
  rcases h.cases m.reference with ⟨habs, hown⟩ | ⟨xs, o, ys, rfl, he, hne, hown, hfind⟩
  · rw [hown, remove_absent habs]
    exact h
  rw [← he] at hown hfind ⊢
  simp only [hown, Book.cancel, hfind, remove_middle hne]
  exact h.leave rfl

/-- A replacement takes the old order off the list, and then offers the book a
new one. -/
theorem onReplace_cases (accepts : Price → Bool) (h : Rel a.books os) (m : OrderReplace) :
    ((∀ o ∈ os, o.reference ≠ m.originalReference) ∧ (a.onReplace accepts m).2.books = a.books) ∨
    ∃ o books, o ∈ os ∧ (os.find? fun x => x.reference = m.originalReference) = some o ∧
      Rel books (remove os m.originalReference) ∧
      let r := (books.book o.symbol).insertPassive accepts m.newReference o.side m.price m.shares
      (a.onReplace accepts m).2.books =
        if r.1.result = .ok then (books.setBook o.symbol r.2).noteOrder m.newReference o.symbol
        else books.setBook o.symbol r.2 := by
  rw [Replayer.onReplace_books]
  rcases h.cases m.originalReference with ⟨habs, hown⟩ | ⟨xs, o, ys, rfl, he, hne, hown, hfind⟩
  · rw [hown]
    exact .inl ⟨habs, rfl⟩
  have hl : Rel ((a.books.setBook o.symbol ((a.books.book o.symbol).cancelOpen o.place)).forgetOrder o.reference)
      (xs ++ ys) := h.leave rfl
  refine .inr ⟨o, (a.books.setBook o.symbol ((a.books.book o.symbol).cancelOpen o.place)).forgetOrder o.reference,
    List.mem_append_right _ List.mem_cons_self, ?_, ?_, ?_⟩
  · rw [← he]
    exact FeedOrder.find_middle hne
  · rw [← he, remove_middle hne]
    exact hl
  · simp only [hown, hfind, Book.cancel]
    rw [MultiBook.forgetOrder_book, MultiBook.setBook_self, he]
    rfl

theorem onReplace (hacc : ∀ p, accepts p = true) (h : Rel a.books os) (m : OrderReplace)
    (hfresh : Fresh os (.replace m)) : Rel (a.onReplace accepts m).2.books (FeedOrder.apply os (.replace m)) := by
  rw [FeedOrder.apply]
  rcases onReplace_cases accepts h m with ⟨habs, e⟩ | ⟨o, books, ho, hfind, hl, e⟩
  · rw [e, List.find?_eq_none.mpr fun o ho => by simpa using habs o ho]
    exact h
  · rw [e, hfind]
    refine hl.append hacc ⟨m.newReference, o.symbol, o.side, m.price, m.shares⟩ fun hq x hx => ?_
    obtain ⟨hxo, hxr⟩ := List.mem_filter.mp hx
    have href : o.reference = m.originalReference := by simpa using List.find?_some hfind
    exact hfresh hq ⟨o, ho, href⟩ x hxo (of_decide_eq_true hxr)

theorem dispatch (hacc : ∀ p, accepts p = true) (h : Rel a.books os) (hf : a.filter = []) (m : Message)
    (hfresh : Fresh os m) : Rel (a.dispatch accepts m).2.books (FeedOrder.apply os m) := by
  cases m with
  | add m => exact h.onAdd hacc hf m hfresh
  | executed m => exact h.onReduced ..
  | cancel m => exact h.onReduced ..
  | delete m => exact h.onDelete m
  | replace m => exact h.onReplace hacc m hfresh
  | trade timestamp => exact h
  | systemEvent m => exact h
  | administrative => exact h

/-! ## Levels -/

theorem prices_eq (os : List FeedOrder) (s : Symbol) (side : Side) :
    Flat.pricesOf (restingIn os s) side = prices os s side := by
  have hfilter : os.filter (fun o => decide (o.place.side = side) && decide (o.symbol = s)) =
      os.filter fun o => o.symbol = s ∧ o.side = side :=
    List.filter_congr fun o _ => by rw [Bool.decide_and, Bool.and_comm]; rfl
  rw [Flat.pricesOf, restingIn, List.filter_map, List.map_map, List.filter_filter, prices, ← hfilter]
  rfl

theorem restingAt_eq (os : List FeedOrder) (s : Symbol) (side : Side) (p : Price) :
    restingAt (restingIn os s) side p =
      (os.filter fun o => o.symbol = s ∧ o.side = side ∧ o.price = p).map fun o => o.place.order := by
  have hfilter : os.filter (fun o => decide (o.place.side = side ∧ o.place.price = p) && decide (o.symbol = s)) =
      os.filter fun o => o.symbol = s ∧ o.side = side ∧ o.price = p :=
    List.filter_congr fun o _ => by rw [Bool.decide_and (o.symbol = s), Bool.and_comm]; rfl
  rw [restingAt, restingIn, List.filter_map, List.map_map, List.filter_filter, ← hfilter]
  rfl

theorem totalQty_eq : ∀ os : List FeedOrder,
    totalQty (os.map fun o => o.place.order) = (os.map fun o => o.shares.toUInt64).sum
  | [] => rfl
  | o :: os => by
    rw [List.map_cons, totalQty, totalQty_eq os, List.map_cons, List.sum_cons]
    rfl

/-- A symbol's side is what the list says. -/
theorem walk_eq (h : Rel m os) (s : Symbol) (side : Side) :
    (m.book s).walk side = FeedOrder.levels os s side := by
  rw [Book.walk, (h.flat s).levels_eq (h.wf s), List.map_map, prices_eq, FeedOrder.levels]
  refine List.map_congr_left fun p _ => ?_
  simp only [Function.comp, PriceLevel.view, restingAt_eq, totalQty_eq, List.length_map, List.map_map]
  rfl

end Rel

end Spec

end Pricetime
