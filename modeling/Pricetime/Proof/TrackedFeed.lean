import Pricetime.Proof.Feed

/-!
# The feed of one tracked symbol

With a filter of one symbol all orders are in one book, which turns down an
order whose reference rests in it. So any message, with whatever references it
brings, does one thing to the list of orders: it leaves something of each
(`remnant`), and may enter one more at the end (`follow`).
-/

namespace Pricetime

open Itch (Message)

namespace Spec

namespace FeedOrder

/-- An order that can rest and whose reference does not, at the end of the
list. -/
def offer (os : List FeedOrder) (o : FeedOrder) : List FeedOrder :=
  if ∀ x ∈ os, x.reference ≠ o.reference then append os o else os

/-- What is left of an order when `shares` leave the order `reference`. -/
def lessen (reference : OrderId) (shares : Qty) (o : FeedOrder) : Option FeedOrder :=
  if o.reference = reference then
    if o.shares - min shares o.shares = 0 then none else some { o with shares := o.shares - min shares o.shares }
  else some o

/-- What a message leaves of an order. -/
def remnant : Message → FeedOrder → Option FeedOrder
  | .executed m, o => o.lessen m.reference m.shares
  | .cancel m, o => o.lessen m.reference m.shares
  | .delete m, o => if o.reference = m.reference then none else some o
  | .replace m, o => if o.reference = m.originalReference then none else some o
  | _, o => some o

/-- The order that a message offers the book of `symbol`. -/
def offered (symbol : Symbol) (os : List FeedOrder) : Message → Option FeedOrder
  | .add m => if m.symbol = symbol then some ⟨m.reference, m.symbol, m.side, m.price, m.shares⟩ else none
  | .replace m =>
    (os.find? fun o => o.reference = m.originalReference).map fun o =>
      ⟨m.newReference, o.symbol, o.side, m.price, m.shares⟩
  | _ => none

/-- The orders of `symbol` after a message. -/
def follow (symbol : Symbol) (os : List FeedOrder) (m : Message) : List FeedOrder :=
  (offered symbol os m).elim (os.filterMap (remnant m)) (offer (os.filterMap (remnant m)))

/-! ## What is left -/

theorem take_eq_filterMap (reference : OrderId) (shares : Qty) : ∀ os : List FeedOrder,
    take os reference shares = os.filterMap (lessen reference shares)
  | [] => rfl
  | o :: os => by
    have ih := take_eq_filterMap reference shares os
    rw [take, List.flatMap_cons, ← take, ih]
    by_cases h : o.reference = reference
    · rw [if_pos h]
      dsimp only
      split
      · rename_i h0
        rw [List.filterMap_cons_none (by rw [lessen, if_pos h, if_pos h0]), List.nil_append]
      · rename_i h0
        rw [List.filterMap_cons_some (by rw [lessen, if_pos h, if_neg h0]), List.singleton_append]
    · rw [if_neg h, List.filterMap_cons_some (by rw [lessen, if_neg h]), List.singleton_append]

theorem remove_eq_filterMap (reference : OrderId) : ∀ os : List FeedOrder,
    remove os reference = os.filterMap fun o => if o.reference = reference then none else some o
  | [] => rfl
  | o :: os => by
    have ih := remove_eq_filterMap reference os
    rw [remove, List.filter_cons, ← remove, ih]
    by_cases h : o.reference = reference
    · rw [List.filterMap_cons_none (by rw [if_pos h]), if_neg (by simpa using h)]
    · rw [List.filterMap_cons_some (by rw [if_neg h]), if_pos (by simpa using h)]

theorem filterMap_absent {os : List FeedOrder} {f : FeedOrder → Option FeedOrder} (h : ∀ o ∈ os, f o = some o) :
    os.filterMap f = os := by
  rw [List.filterMap_congr h, List.filterMap_some]

theorem lessen_same {reference : OrderId} {shares : Qty} {o o' : FeedOrder} (h : o.lessen reference shares = some o') :
    o'.reference = o.reference ∧ o'.symbol = o.symbol ∧ o'.side = o.side ∧ o'.price = o.price := by
  rw [lessen] at h
  split_ifs at h <;>
  · cases h
    exact ⟨rfl, rfl, rfl, rfl⟩

/-- What a message leaves of an order differs from it in its shares alone. -/
theorem remnant_same {m : Message} {o o' : FeedOrder} (h : remnant m o = some o') :
    o'.reference = o.reference ∧ o'.symbol = o.symbol ∧ o'.side = o.side ∧ o'.price = o.price := by
  have keeps {p : Prop} [Decidable p] (h : (if p then none else some o) = some o') :
      o'.reference = o.reference ∧ o'.symbol = o.symbol ∧ o'.side = o.side ∧ o'.price = o.price := by
    split_ifs at h
    cases h
    exact ⟨rfl, rfl, rfl, rfl⟩
  cases m with
  | executed m => exact lessen_same h
  | cancel m => exact lessen_same h
  | delete m => exact keeps h
  | replace m => exact keeps h
  | add m =>
    cases h
    exact ⟨rfl, rfl, rfl, rfl⟩
  | trade timestamp =>
    cases h
    exact ⟨rfl, rfl, rfl, rfl⟩
  | systemEvent m =>
    cases h
    exact ⟨rfl, rfl, rfl, rfl⟩
  | administrative =>
    cases h
    exact ⟨rfl, rfl, rfl, rfl⟩

/-- What a message leaves, and then what it enters: an order that it offers,
under a reference that nothing is left under. -/
theorem follow_eq (symbol : Symbol) (os : List FeedOrder) (m : Message) :
    ∃ new, follow symbol os m = os.filterMap (remnant m) ++ new ∧
      ∀ o ∈ new, offered symbol os m = some o ∧ ∀ x ∈ os.filterMap (remnant m), x.reference ≠ o.reference := by
  rw [follow]
  cases ho : offered symbol os m with
  | none => exact ⟨[], (List.append_nil _).symm, nofun⟩
  | some o =>
    rw [Option.elim_some, offer]
    split
    · rename_i hfresh
      rw [append]
      split
      · refine ⟨[o], rfl, fun x hx => ?_⟩
        rw [List.mem_singleton.mp hx]
        exact ⟨rfl, hfresh⟩
      · exact ⟨[], (List.append_nil _).symm, nofun⟩
    · exact ⟨[], (List.append_nil _).symm, nofun⟩

theorem offered_symbol {symbol : Symbol} {os : List FeedOrder} (hone : ∀ o ∈ os, o.symbol = symbol) {m : Message}
    {o : FeedOrder} (h : offered symbol os m = some o) : o.symbol = symbol := by
  cases m with
  | add m =>
    rw [offered] at h
    split_ifs at h with hs
    cases h
    exact hs
  | replace m =>
    obtain ⟨x, hx, rfl⟩ := Option.map_eq_some_iff.mp h
    exact hone x (List.mem_of_find?_eq_some hx)
  | _ => cases h

theorem follow_symbol {symbol : Symbol} {os : List FeedOrder} (hone : ∀ o ∈ os, o.symbol = symbol) (m : Message) :
    ∀ o ∈ follow symbol os m, o.symbol = symbol := by
  obtain ⟨new, hnew, hoff⟩ := follow_eq symbol os m
  rw [hnew]
  intro o ho
  rcases List.mem_append.mp ho with ho | ho
  · obtain ⟨x, hx, hr⟩ := List.mem_filterMap.mp ho
    exact (remnant_same hr).2.1.trans (hone x hx)
  · exact offered_symbol hone (hoff o ho).1

/-! ## Queues -/

/-- The orders at a price, oldest first. -/
def queue (os : List FeedOrder) (side : Side) (p : Price) : List FeedOrder :=
  os.filter fun o => o.side = side ∧ o.price = p

/-- The order of a reference leaves its place in the queue, to enter another. -/
def Replaces (id : OrderId) : Message → Prop
  | .replace m => m.originalReference = id
  | _ => False

variable {symbol : Symbol} {os ahead later : List FeedOrder} {side : Side} {p : Price}

theorem queue_remnants (m : Message) (os : List FeedOrder) (side : Side) (p : Price) :
    queue (os.filterMap (remnant m)) side p = (queue os side p).filterMap (remnant m) := by
  rw [queue, queue, List.filter_filterMap, List.filterMap_filter]
  refine List.filterMap_congr fun o _ => ?_
  cases hr : remnant m o with
  | none => simp
  | some o' =>
    obtain ⟨-, -, hside, hprice⟩ := remnant_same hr
    simp [Option.filter, hside, hprice]

theorem queue_follow {m : Message} {new : List FeedOrder} (hnew : follow symbol os m = os.filterMap (remnant m) ++ new)
    (h : queue os side p = ahead ++ later) :
    queue (follow symbol os m) side p =
      ahead.filterMap (remnant m) ++ (later.filterMap (remnant m) ++ queue new side p) := by
  have hleft := queue_remnants m os side p
  rw [h, List.filterMap_append, queue] at hleft
  rw [queue, hnew, List.filter_append, hleft, List.append_assoc]
  rfl

/-- A message that enters an order and ends another replaces it. -/
theorem replaces_of_offered {m : Message} {o x : FeedOrder} (ho : offered symbol os m = some o)
    (hx : remnant m x = none) : Replaces x.reference m := by
  cases m with
  | add m => cases hx
  | replace m =>
    rw [remnant] at hx
    split_ifs at hx with h
    exact h.symm
  | _ => cases ho

theorem remnant_of_replaces {m : Message} {o : FeedOrder} (h : Replaces o.reference m) : remnant m o = none := by
  cases m with
  | replace m => exact if_pos (Eq.symm h)
  | _ => cases h

/-- Of the orders ahead, those that are left are those still in the queue,
unless one of them was replaced under its own reference. -/
theorem mem_remnants (hn : (os.map reference).Nodup) (h : queue os side p = ahead ++ later) (m : Message)
    (id : OrderId) :
    id ∈ (ahead.filterMap (remnant m)).map reference ↔
      id ∈ ahead.map reference ∧ id ∈ (queue (follow symbol os m) side p).map reference ∧ ¬ Replaces id m := by
  have hmem : ∀ o ∈ ahead, o ∈ os := fun o ho =>
    (List.mem_filter.mp ((h ▸ List.mem_append_left _ ho : o ∈ queue os side p))).1
  obtain ⟨new, hnew, hoff⟩ := follow_eq symbol os m
  constructor
  · intro hid
    obtain ⟨o', ho', rfl⟩ := List.mem_map.mp hid
    obtain ⟨o, ho, hr⟩ := List.mem_filterMap.mp ho'
    have href := (remnant_same hr).1
    refine ⟨href ▸ List.mem_map_of_mem ho, ?_, fun hrep => ?_⟩
    · rw [queue_follow hnew h]
      exact List.mem_map_of_mem (List.mem_append_left _ ho')
    · rw [href] at hrep
      cases hr.symm.trans (remnant_of_replaces hrep)
  · rintro ⟨hid, hq, hrep⟩
    obtain ⟨o, ho, rfl⟩ := List.mem_map.mp hid
    cases hr : remnant m o with
    | some o' =>
      rw [← (remnant_same hr).1]
      exact List.mem_map_of_mem (List.mem_filterMap.mpr ⟨o, ho, hr⟩)
    | none =>
      obtain ⟨x, hx, e⟩ := List.mem_map.mp hq
      have hx := (List.mem_filter.mp hx).1
      rw [hnew] at hx
      rcases List.mem_append.mp hx with hx | hx
      · obtain ⟨y, hy, hry⟩ := List.mem_filterMap.mp hx
        have hyo : y = o := List.inj_on_of_nodup_map hn hy (hmem o ho) ((remnant_same hry).1.symm.trans e)
        cases hr.symm.trans (hyo ▸ hry)
      · exact absurd (replaces_of_offered (hoff x hx).1 hr) hrep

end FeedOrder

open FeedOrder

/-! ## Books and list -/

namespace Rel

variable {m : MultiBook} {os : List FeedOrder} {accepts : Price → Bool} {symbol : Symbol}

/-- A book turns down an order whose reference rests in it. -/
theorem offer (hacc : ∀ p, accepts p = true) (h : Rel m os) (o : FeedOrder) (hone : ∀ x ∈ os, x.symbol = o.symbol) :
    let r := (m.book o.symbol).insertPassive accepts o.reference o.side o.price o.shares
    Rel (if r.1.result = .ok then (m.setBook o.symbol r.2).noteOrder o.reference o.symbol
      else m.setBook o.symbol r.2) (FeedOrder.offer os o) := by
  rw [FeedOrder.offer]
  by_cases hfresh : ∀ x ∈ os, x.reference ≠ o.reference
  · rw [if_pos hfresh]
    exact h.append hacc o fun _ => hfresh
  · rw [if_neg hfresh]
    have hrests : ((m.book o.symbol).find o.reference).isSome = true := by
      rw [Book.find_isSome_iff, h.ids]
      simp only [not_forall, Classical.not_not] at hfresh
      obtain ⟨x, hx, e⟩ := hfresh
      exact ⟨x, hx, e, hone x hx⟩
    have hno : (m.book o.symbol).validate accepts o.reference o.price o.shares ≠ .ok := by
      simp only [Book.validate, hrests, if_true]
      split_ifs <;> simp
    rw [Book.insertPassive]
    dsimp only
    rw [if_pos hno]
    dsimp only
    rw [if_neg hno, MultiBook.setBook_book]
    exact h

variable {a : Replayer}

theorem onAdd_tracked (hacc : ∀ p, accepts p = true) (h : Rel a.books os) (hf : a.filter = [symbol.bits])
    (hone : ∀ o ∈ os, o.symbol = symbol) (m : Itch.AddOrder) :
    Rel (a.onAdd accepts m).2.books (follow symbol os (.add m)) := by
  have hleft : os.filterMap (remnant (.add m)) = os := filterMap_absent fun _ _ => rfl
  have ht : a.tracked m.symbol = true ↔ m.symbol = symbol := by
    rw [Replayer.tracked, hf]
    simp only [List.isEmpty_cons, Bool.false_or, List.contains_iff_mem, List.mem_singleton]
    exact ⟨Symbol.bits_inj, congrArg _⟩
  rw [Replayer.onAdd_books, follow, hleft, offered]
  by_cases hs : m.symbol = symbol
  · rw [if_pos (ht.mpr hs), if_pos hs]
    exact (h.see m.symbol).offer hacc ⟨m.reference, m.symbol, m.side, m.price, m.shares⟩ fun x hx =>
      (hone x hx).trans hs.symm
  · rw [if_neg (mt ht.mp hs), if_neg hs]
    exact h

theorem onReplace_tracked (hacc : ∀ p, accepts p = true) (h : Rel a.books os) (hone : ∀ o ∈ os, o.symbol = symbol)
    (m : Itch.OrderReplace) : Rel (a.onReplace accepts m).2.books (follow symbol os (.replace m)) := by
  have hleft : os.filterMap (remnant (.replace m)) = remove os m.originalReference :=
    (remove_eq_filterMap _ _).symm
  rw [follow, hleft, offered]
  rcases onReplace_cases accepts h m with ⟨habs, e⟩ | ⟨o, books, ho, hfind, hl, e⟩
  · rw [e, List.find?_eq_none.mpr fun o ho => by simpa using habs o ho, remove_absent habs]
    exact h
  · rw [e, hfind]
    exact hl.offer hacc ⟨m.newReference, o.symbol, o.side, m.price, m.shares⟩ fun x hx =>
      (hone x (List.mem_filter.mp hx).1).trans (hone o ho).symm

/-- What a message does to the books it does to the list. -/
theorem follow (hacc : ∀ p, accepts p = true) (h : Rel a.books os) (hf : a.filter = [symbol.bits])
    (hone : ∀ o ∈ os, o.symbol = symbol) (m : Message) :
    Rel (a.dispatch accepts m).2.books (FeedOrder.follow symbol os m) := by
  have same {m : Message} (hr : ∀ o, remnant m o = some o) (hno : offered symbol os m = none) :
      FeedOrder.follow symbol os m = os := by
    rw [FeedOrder.follow, hno]
    exact filterMap_absent fun o _ => hr o
  cases m with
  | add m => exact h.onAdd_tracked hacc hf hone m
  | executed m =>
    have hr := h.onReduced m.timestamp m.reference m.shares true
    rwa [take_eq_filterMap] at hr
  | cancel m =>
    have hr := h.onReduced m.timestamp m.reference m.shares false
    rwa [take_eq_filterMap] at hr
  | delete m =>
    have hr := h.onDelete m
    rwa [remove_eq_filterMap] at hr
  | replace m => exact h.onReplace_tracked hacc hone m
  | trade timestamp => exact (same (m := .trade timestamp) (fun _ => rfl) rfl).symm ▸ h
  | systemEvent m => exact (same (m := .systemEvent m) (fun _ => rfl) rfl).symm ▸ h
  | administrative => exact (same (m := .administrative) (fun _ => rfl) rfl).symm ▸ h

end Rel

end Spec

end Pricetime
