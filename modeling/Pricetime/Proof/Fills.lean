import Pricetime.Proof.Feed
import Pricetime.Proof.Framework.Runs
import Pricetime.Proof.Places
import Pricetime.Spec.Owners

/-!
# Matching on the flat list of orders

`Lists a os`: the orders of book `a`, in the order of their arrival, are those
of the list `os`. With no self-trade prevention, all that matching does to the
list is to take each execution off the order that it reports
(`Lists.matchOrder`), so that whoever has the list and hears of the executions
can follow.
-/

namespace Pricetime

namespace Spec

namespace FeedOrder

/-! ## Takes -/

theorem take_cons (o : FeedOrder) (os : List FeedOrder) (reference : OrderId) (shares : Qty) :
    take (o :: os) reference shares = take [o] reference shares ++ take os reference shares := by
  rw [take, take, take, List.flatMap_cons, List.flatMap_singleton]

theorem take_append (xs ys : List FeedOrder) (reference : OrderId) (shares : Qty) :
    take (xs ++ ys) reference shares = take xs reference shares ++ take ys reference shares :=
  List.flatMap_append

theorem take_of_ne {o : FeedOrder} {reference : OrderId} (h : o.reference ≠ reference) (shares : Qty) :
    take [o] reference shares = [o] := take_absent shares (by simpa using h)

/-- What is left of an order is still that order. -/
theorem mem_take {os : List FeedOrder} {reference : OrderId} {shares : Qty} {x : FeedOrder}
    (h : x ∈ take os reference shares) : ∃ o ∈ os, o.reference = x.reference ∧ o.symbol = x.symbol := by
  obtain ⟨o, ho, hx⟩ := List.mem_flatMap.mp h
  refine ⟨o, ho, ?_⟩
  split at hx
  · dsimp only at hx
    split at hx
    · cases hx
    · rw [List.mem_singleton.mp hx]
      exact ⟨rfl, rfl⟩
  · rw [List.mem_singleton.mp hx]
    exact ⟨rfl, rfl⟩

theorem take_one (o : FeedOrder) (reference : OrderId) (shares : Qty) :
    take [o] reference shares = [] ∨ ∃ left, take [o] reference shares = [{ o with shares := left }] := by
  rw [take, List.flatMap_singleton]
  dsimp only
  split
  · split
    · exact .inl rfl
    · exact .inr ⟨_, rfl⟩
  · exact .inr ⟨o.shares, rfl⟩

/-- No order comes in, and none changes its place. -/
theorem take_sublist : ∀ (os : List FeedOrder) (r : OrderId) (shares : Qty),
    ((take os r shares).map reference).Sublist (os.map reference)
  | [], _, _ => List.Sublist.refl _
  | o :: os, r, shares => by
    have ih := take_sublist os r shares
    rw [take_cons, List.map_append, List.map_cons]
    rcases take_one o r shares with e | ⟨left, e⟩
    · rw [e]
      exact ih.cons _
    · rw [e]
      exact ih.cons_cons _

theorem length_take_le (os : List FeedOrder) (reference : OrderId) (shares : Qty) :
    (take os reference shares).length ≤ os.length := by
  simpa only [List.length_map] using (take_sublist os reference shares).length_le

theorem remove_append (xs ys : List FeedOrder) (reference : OrderId) :
    remove (xs ++ ys) reference = remove xs reference ++ remove ys reference := List.filter_append ..

/-- Shares of one order, and the whole of another or of the same. -/
theorem remove_take : ∀ (os : List FeedOrder) (r r' : OrderId) (shares : Qty),
    remove (take os r shares) r' = take (remove os r') r shares
  | [], _, _, _ => rfl
  | o :: os, r, r', shares => by
    have hone : remove (take [o] r shares) r' = take (remove [o] r') r shares := by
      by_cases hr : o.reference = r'
      · have hgone : remove [o] r' = [] := List.filter_eq_nil_iff.mpr (by simpa using hr)
        rw [hgone]
        refine List.filter_eq_nil_iff.mpr fun x hx => ?_
        obtain ⟨y, hy, hxy, -⟩ := mem_take hx
        rw [List.mem_singleton.mp hy] at hxy
        simp [← hxy, hr]
      · have hstays : remove [o] r' = [o] := remove_absent (by simpa using hr)
        rw [hstays]
        refine remove_absent fun x hx => ?_
        obtain ⟨y, hy, hxy, -⟩ := mem_take hx
        rw [List.mem_singleton.mp hy] at hxy
        rwa [← hxy]
    rw [take_cons, remove_append, remove_take os, hone, ← take_append, ← remove_append, List.singleton_append]

theorem find_take_of_ne {id r : OrderId} (h : id ≠ r) (shares : Qty) : ∀ os : List FeedOrder,
    (take os r shares).find? (fun o => o.reference = id) = os.find? fun o => o.reference = id
  | [] => rfl
  | o :: os => by
    have hone : (take [o] r shares).find? (fun o => o.reference = id) = [o].find? fun o => o.reference = id := by
      by_cases hr : o.reference = r
      · have hne : ¬ o.reference = id := fun e => h (e.symm.trans hr)
        rw [List.find?_eq_none.mpr fun x hx => ?_, List.find?_cons_of_neg (by simpa using hne)]
        · rfl
        · obtain ⟨y, hy, hxy, -⟩ := mem_take hx
          rw [List.mem_singleton.mp hy] at hxy
          simpa [← hxy] using hne
      · rw [take_of_ne hr]
    rw [take_cons, List.find?_append, find_take_of_ne h shares os, hone, ← List.find?_append,
      List.singleton_append]

/-! ## Executions -/

theorem traded_cons (x : Execution) (execs : List Execution) : traded (x :: execs) = x.qty.toNat + traded execs :=
  List.sum_cons

/-- An execution, taken off the order it reports. -/
def fill (os : List FeedOrder) (x : Execution) : List FeedOrder := take os x.restingId x.qty

def fills (os : List FeedOrder) (execs : List Execution) : List FeedOrder := execs.foldl fill os

/-- An execution reports an order of the list, and shares that it has. -/
def Rests (os : List FeedOrder) (x : Execution) : Prop :=
  x.qty ≠ 0 ∧ ∃ o ∈ os, o.reference = x.restingId ∧ x.qty ≤ o.shares

theorem mem_fills : ∀ {execs : List Execution} {os : List FeedOrder} {x : FeedOrder}, x ∈ fills os execs →
    ∃ o ∈ os, o.reference = x.reference ∧ o.symbol = x.symbol
  | [], _, x, h => ⟨x, h, rfl, rfl⟩
  | _ :: _, os, x, h => by
    obtain ⟨y, hy, hr, hs⟩ := mem_fills (show x ∈ fills (fill os _) _ from h)
    obtain ⟨o, ho, hr', hs'⟩ := mem_take hy
    exact ⟨o, ho, hr'.trans hr, hs'.trans hs⟩

theorem length_fills_le : ∀ (execs : List Execution) (os : List FeedOrder), (fills os execs).length ≤ os.length
  | [], _ => Nat.le_refl _
  | _ :: execs, _ => Nat.le_trans (length_fills_le execs _) (length_take_le ..)

theorem remove_fills (id : OrderId) : ∀ (execs : List Execution) (os : List FeedOrder),
    remove (fills os execs) id = fills (remove os id) execs
  | [], _ => rfl
  | x :: execs, os => by
    show remove (fills (fill os x) execs) id = fills (fill (remove os id) x) execs
    rw [remove_fills id execs, fill, remove_take]
    rfl

/-- What executions report are orders of the list before them. -/
theorem rests_mem : ∀ {execs : List Execution} {os : List FeedOrder}, Runs.Folds fill Rests os execs →
    ∀ x ∈ execs, ∃ o ∈ os, o.reference = x.restingId
  | [], _, _, _, h => nomatch h
  | y :: execs, os, h, x, hx => by
    rcases List.mem_cons.mp hx with rfl | hx
    · obtain ⟨-, o, ho, hr, -⟩ := h.1
      exact ⟨o, ho, hr⟩
    · obtain ⟨o, ho, hr⟩ := rests_mem h.2 x hx
      obtain ⟨o', ho', hr', -⟩ := mem_take ho
      exact ⟨o', ho', hr'.trans hr⟩

/-- An order that no execution reports. -/
theorem find_fills {id : OrderId} : ∀ {execs : List Execution}, (∀ x ∈ execs, id ≠ x.restingId) →
    ∀ os : List FeedOrder, (fills os execs).find? (fun o => o.reference = id) = os.find? fun o => o.reference = id
  | [], _, _ => rfl
  | x :: execs, h, os => by
    show (fills (fill os x) execs).find? _ = _
    rw [find_fills (fun y hy => h y (List.mem_cons_of_mem _ hy)), fill,
      find_take_of_ne (h x List.mem_cons_self)]

end FeedOrder

open FeedOrder

/-! ## The list of a book -/

structure Lists (a : Book) (os : List FeedOrder) : Prop where
  wf : a.Wf
  flat : Flat (os.map place) a

namespace Lists

variable {a : Book} {os : List FeedOrder} {o : FeedOrder}

theorem empty : Lists {} [] := ⟨Book.wf_empty, Flat.empty⟩

theorem setCounters (h : Lists a os) (counters : Counters) : Lists { a with counters } os :=
  ⟨h.wf.setCounters _, h.flat.congr rfl⟩

theorem nodup (h : Lists a os) : (os.map reference).Nodup := by
  have hn := h.flat.nodup
  rw [List.map_map] at hn
  exact hn

theorem ids (h : Lists a os) {id : OrderId} : id ∈ a.ids ↔ ∃ o ∈ os, o.reference = id := by
  rw [← h.flat.ids h.wf, List.map_map, List.mem_map]
  rfl

theorem absent (h : Lists a os) {id : OrderId} (hid : id ∉ a.ids) : ∀ o ∈ os, o.reference ≠ id :=
  fun o ho e => hid (h.ids.mpr ⟨o, ho, e⟩)

theorem mem_places (h : Lists a os) {pl : Place} : pl ∈ a.places ↔ ∃ o ∈ os, o.place = pl := by
  rw [← h.flat.mem h.wf, List.mem_map]

theorem find (h : Lists a os) (id : OrderId) : a.find id = (os.find? fun o => o.reference = id).map place := by
  rw [h.flat.find h.wf, List.find?_map]
  rfl

theorem shares_ne_zero (h : Lists a os) (ho : o ∈ os) : o.shares ≠ 0 := by
  obtain ⟨l, hl, -, hmem⟩ := Book.mem_places.mp (h.mem_places.mpr ⟨o, ho, rfl⟩)
  exact (((h.wf.side _).level l hl).2 _ hmem).2

theorem openOrders (h : Lists a os) : a.openOrders = os.length := by
  rw [h.flat.openOrders h.wf, List.length_map]

theorem remove (h : Lists a os) (ho : o ∈ os) : Lists (a.remove o.place) (FeedOrder.remove os o.reference) := by
  obtain ⟨xs, ys, rfl, hne⟩ := exists_middle h.nodup ho
  rw [remove_middle hne]
  refine ⟨h.wf.remove _, ?_⟩
  have hf := h.flat
  rw [List.map_append, List.map_cons] at hf
  rw [List.map_append]
  exact hf.removeMiddle h.wf

/-- Shares of an order that keeps some. -/
theorem part (h : Lists a os) (ho : o ∈ os) {shares : Qty} (hlt : shares < o.shares) :
    Lists (a.reduce o.place shares) (take os o.reference shares) := by
  have hpl : o.place ∈ a.places := h.mem_places.mpr ⟨o, ho, rfl⟩
  have hfind : a.find o.reference = some o.place := (Book.find_eq_some_iff h.wf.nodup).mpr ⟨hpl, rfl⟩
  obtain ⟨xs, ys, rfl, hne⟩ := exists_middle h.nodup ho
  rw [take_middle_part hne hlt]
  refine ⟨h.wf.reduce hfind hlt, ?_⟩
  have hf := h.flat
  rw [List.map_append, List.map_cons] at hf
  rw [List.map_append, List.map_cons]
  exact hf.reduceMiddle h.wf shares

/-- All the shares of an order. -/
theorem whole (h : Lists a os) (ho : o ∈ os) {shares : Qty} (hge : ¬ shares < o.shares) :
    Lists (a.remove o.place) (take os o.reference shares) := by
  have hr := h.remove ho
  obtain ⟨xs, ys, rfl, hne⟩ := exists_middle h.nodup ho
  rw [remove_middle hne] at hr
  rwa [take_middle_whole hne hge]

theorem rest (h : Lists a os) (h0 : o.reference ≠ 0) (hq : o.shares ≠ 0) (hid : o.reference ∉ a.ids) :
    Lists (a.rest o.side o.price ⟨o.reference, o.shares, 0⟩) (os ++ [o]) := by
  refine ⟨h.wf.rest ⟨h0, hq⟩ hid _ _, ?_⟩
  rw [List.map_append]
  exact h.flat.rest h.wf o.side o.price hid

/-! ## Matching -/

/-- What matching tells of an aggressor. -/
structure Fills (os : List FeedOrder) (aggressor : OrderId) (qty left : Qty) (execs : List Execution) : Prop where
  aggressor : ∀ x ∈ execs, x.aggressorId = aggressor
  rests : Runs.Folds fill Rests os execs
  left : left.toNat + traded execs = qty.toNat

/-- Each execution is one of the order in front, and all that is done to it. -/
theorem matchOrder (h : Lists a os) (hstp : a.stp = .none) (aggressor : OrderId) (actor : ParticipantId) (side : Side)
    (limit : Option Price) (qty : Qty) :
    let r := a.matchOrder aggressor actor side limit qty
    Lists r.1 (fills os r.2.2) ∧ Fills os aggressor qty r.2.1 r.2.2 := by
  refine Book.matchOrder_induct (motive := fun a qty r => a.stp = .none → ∀ {os}, Lists a os →
    Lists r.1 (fills os r.2.2) ∧ Fills os aggressor qty r.2.1 r.2.2) ?_ ?_ ?_ ?_ ?_ ?_ h.wf qty hstp h
  case refine_1 =>
    intro a qty _ _ _ os h
    exact ⟨h, nofun, trivial, rfl⟩
  case refine_2 =>
    intro a qty pl _ _ hkill _ hstp
    cases hkill.symm.trans hstp
  case refine_3 =>
    intro a qty pl _ _ hkill _ hstp
    cases hkill.symm.trans hstp
  case refine_4 =>
    intro a qty pl r _ _ hkill _ _ hstp
    cases hkill.symm.trans hstp
  case refine_5 =>
    intro a qty pl _ hf _ hlt _ os h
    obtain ⟨o, ho, rfl⟩ := h.mem_places.mp hf.mem
    have hpart : Lists (({ a with counters := a.counters.trade qty } : Book).reduce o.place qty)
      (take os o.reference qty) := (h.setCounters _).part ho hlt
    refine ⟨hpart, ?_, ⟨⟨hf.qty, o, ho, rfl, UInt32.le_of_lt hlt⟩, trivial⟩, ?_⟩
    · intro x hx
      rw [List.mem_singleton.mp hx]
    · simp [traded]
  case refine_6 =>
    intro a qty pl r _ hf _ hge ih hstp os h
    obtain ⟨o, ho, rfl⟩ := h.mem_places.mp hf.mem
    have hwhole : Lists (({ a with counters := a.counters.trade o.shares } : Book).remove o.place)
      (take os o.reference o.shares) :=  (h.setCounters _).whole ho (UInt32.lt_irrefl _)
    obtain ⟨hl, hfills⟩ := ih hstp hwhole
    refine ⟨hl, ?_, ⟨⟨h.shares_ne_zero ho, o, ho, rfl, UInt32.le_refl _⟩, hfills.rests⟩, ?_⟩
    · intro x hx
      rcases List.mem_cons.mp hx with rfl | hx
      · rfl
      · exact hfills.aggressor x hx
    · have hleft := hfills.left
      have hle : o.shares ≤ qty := UInt32.not_lt.mp hge
      have hle' := UInt32.le_iff_toNat_le.mp hle
      have hsub : (qty - o.place.order.qty).toNat = qty.toNat - o.shares.toNat := UInt32.toNat_sub_of_le _ _ hle
      show r.2.1.toNat + traded (⟨o.reference, aggressor, o.price, o.shares⟩ :: r.2.2) = qty.toNat
      rw [traded_cons]
      dsimp only
      omega

/-! ## Orders -/

/-- `o` may enter the list, and meets the orders there. -/
structure Entered (os : List FeedOrder) (o : FeedOrder) (left : Qty) (execs : List Execution) : Prop where
  id : o.reference ≠ 0
  qty : o.shares ≠ 0
  fresh : ∀ x ∈ os, x.reference ≠ o.reference
  fills : Fills os o.reference o.shares left execs

/-- The list with what is left of the order. -/
def entered (os : List FeedOrder) (o : FeedOrder) (left : Qty) (execs : List Execution) : List FeedOrder :=
  append (FeedOrder.fills os execs) { o with shares := left }

theorem enter (h : Lists a os) (hstp : a.stp = .none) (h0 : o.reference ≠ 0) (hq : o.shares ≠ 0)
    (hid : o.reference ∉ a.ids) :
    let m := (a.countAdded o.shares).matchOrder o.reference 0 o.side (some o.price) o.shares
    Entered os o m.2.1 m.2.2 ∧
      Lists (a.entered o.reference 0 o.side o.price o.shares) (entered os o m.2.1 m.2.2) := by
  have hc : Lists (a.countAdded o.shares) os := h.setCounters _
  obtain ⟨hl, hfills⟩ := hc.matchOrder hstp o.reference 0 o.side (some o.price) o.shares
  refine ⟨⟨h0, hq, h.absent hid, hfills⟩, ?_⟩
  rw [Book.entered, entered, append]
  dsimp only
  generalize (a.countAdded o.shares).matchOrder o.reference 0 o.side (some o.price) o.shares = m at hl hfills ⊢
  by_cases hleft : m.2.1 = 0
  · rw [hleft, if_neg (UInt32.lt_irrefl 0), if_neg fun e => e.2 rfl]
    exact hl
  · rw [if_pos (UInt32.pos_iff_ne_zero.mpr hleft), if_pos ⟨h0, hleft⟩]
    have hnew : o.reference ∉ m.1.ids := fun hm => by
      obtain ⟨x, hx, e⟩ := hl.ids.mp hm
      obtain ⟨y, hy, e', -⟩ := mem_fills hx
      exact h.absent hid y hy (e'.trans e)
    exact hl.rest (o := { o with shares := m.2.1 }) h0 hleft hnew

theorem cancelOpen (h : Lists a os) (ho : o ∈ os) :
    Lists (a.cancelOpen o.place) (FeedOrder.remove os o.reference) := (h.setCounters _).remove ho

end Lists

namespace Book

/-- An accepted replacement is accepted by the book without the old order. -/
theorem replace_entered {a : Book} (hw : a.Wf) (accepts : Price → Bool) (oldId newId : OrderId) (newPrice : Price)
    (newQty : Qty) :
    (∃ result, result ≠ .ok ∧ a.replace accepts oldId newId newPrice newQty = ({ result }, a)) ∨
    ∃ pl, a.find oldId = some pl ∧ (a.replace accepts oldId newId newPrice newQty).1.result = .ok ∧
      Enters (a.cancelOpen pl) newId pl.order.participant pl.side newPrice newQty
        (a.replace accepts oldId newId newPrice newQty) := by
  rw [replace]
  cases hf : a.find oldId with
  | none => exact .inl ⟨.rejectedUnknownId, by decide, rfl⟩
  | some pl =>
    obtain ⟨hpl, rfl⟩ := find_some hf
    dsimp only
    split_ifs with h0 hq hacc hdup
    · exact .inl ⟨.rejectedBadId, by decide, rfl⟩
    · exact .inl ⟨.rejectedBadQty, by decide, rfl⟩
    · exact .inl ⟨.rejectedBadPrice, by decide, rfl⟩
    · exact .inl ⟨.rejectedDuplicateId, by decide, rfl⟩
    · have hids : newId ∉ (a.cancelOpen pl).ids := fun hid => by
        obtain ⟨hin, hne⟩ := (ids_remove (hw.setCounters _) hpl).mp hid
        exact hdup ⟨hne, find_isSome_iff.mpr hin⟩
      have hv : (a.cancelOpen pl).validate accepts newId newPrice newQty = .ok := by
        rw [validate, if_neg h0, if_neg hq, if_neg hacc, if_neg (by rwa [find_isSome_iff])]
      refine .inr ⟨pl, rfl, ?_, addLimitAs_enters ..⟩
      rw [addLimitAs, hv]
      rfl

end Book

end Spec

end Pricetime
