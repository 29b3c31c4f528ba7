import Pricetime.Proof.Ladder
import Pricetime.Spec.Book

/-!
# The abstract book in itself

* `Spec.Shrinks`: what matching and cancelling may make of a side: levels go,
  and orders go from the queues of the others.
* `Spec.Book.Wf`: prices strictly worsen along a side, no level is empty, no
  id rests twice or is zero, and every order has shares left. Every operation
  keeps it (`Wf.apply`).
* `Spec.Book.find_eq_some_iff`: the lookup of an id, in a well-formed book.
-/

namespace Pricetime

/-- Whether an operation is `insert_passive`. -/
def OrderBook.Op.isPassive : OrderBook.Op → Bool
  | .insertPassive .. => true
  | _ => false

namespace Spec

/-! ## Sides that lose orders -/

/-- The ids of the orders of a side, best level first, oldest order first. -/
def ids (ls : List PriceLevel) : List OrderId := ls.flatMap fun l => l.orders.map Resting.id

/-- `l'` is `l`, less some of its orders. -/
def Lost (l' l : PriceLevel) : Prop :=
  l'.price = l.price ∧ (l'.orders.map Resting.id).Sublist (l.orders.map Resting.id)

theorem Lost.refl (l : PriceLevel) : Lost l l := ⟨rfl, List.Sublist.refl _⟩

def Shrinks (ls' ls : List PriceLevel) : Prop := List.SublistForall₂ Lost ls' ls

namespace Shrinks

theorem refl : ∀ ls : List PriceLevel, Shrinks ls ls
  | [] => .nil
  | l :: ls => .cons (Lost.refl l) (refl ls)

theorem prices {ls' ls : List PriceLevel} (h : Shrinks ls' ls) :
    (ls'.map PriceLevel.price).Sublist (ls.map PriceLevel.price) := by
  induction h with
  | nil => exact List.nil_sublist _
  | cons hl _ ih =>
    rw [List.map_cons, List.map_cons, hl.1]
    exact ih.cons_cons _
  | cons_right _ ih => exact ih.cons _

theorem length_le {ls' ls : List PriceLevel} (h : Shrinks ls' ls) : ls'.length ≤ ls.length := by
  simpa only [List.length_map] using h.prices.length_le

theorem ids {ls' ls : List PriceLevel} (h : Shrinks ls' ls) : (ids ls').Sublist (ids ls) := by
  induction h with
  | nil => exact List.nil_sublist _
  | cons hl _ ih => exact hl.2.append ih
  | cons_right _ ih => exact ih.trans (List.sublist_append_right _ _)

theorem mem {ls' ls : List PriceLevel} (h : Shrinks ls' ls) {l' : PriceLevel} (hl : l' ∈ ls') :
    ∃ l ∈ ls, Lost l' l := by
  induction h with
  | nil => cases hl
  | cons hlost _ ih =>
    rcases List.mem_cons.mp hl with rfl | hl
    · exact ⟨_, List.mem_cons_self, hlost⟩
    · obtain ⟨l, hm, h⟩ := ih hl
      exact ⟨l, List.mem_cons_of_mem _ hm, h⟩
  | cons_right _ ih =>
    obtain ⟨l, hm, h⟩ := ih hl
    exact ⟨l, List.mem_cons_of_mem _ hm, h⟩

theorem keep {p : Price} {os : List Resting} {l : PriceLevel} {ls' ls : List PriceLevel}
    (hl : Lost ⟨p, os⟩ l) (h : Shrinks ls' ls) : Shrinks (keep p os ++ ls') (l :: ls) := by
  rw [Spec.keep]
  split
  · exact .cons_right h
  · exact .cons hl h

end Shrinks

theorem matchQueue_ids (policy : SelfTradePolicy) (aggressor : OrderId) (actor : ParticipantId)
    (price : Price) : ∀ (os : List Resting) (qty : Qty) (c : Counters),
      ((matchQueue policy aggressor actor price os qty c).rest.map Resting.id).Sublist
        (os.map Resting.id)
  | [], _, _ => List.Sublist.refl _
  | o :: os, qty, c => by
    have ih := matchQueue_ids policy aggressor actor price os
    unfold matchQueue
    split
    · exact List.Sublist.refl _
    · split
      · split
        · exact List.Sublist.refl _
        · exact List.sublist_cons_self _ _
        · exact (ih _ _).cons _
      · split
        · exact List.Sublist.refl _
        · exact (ih _ _).cons _

theorem matchLevels_shrinks (policy : SelfTradePolicy) (aggressor : OrderId) (actor : ParticipantId)
    (reach : Price → Bool) : ∀ (ls : List PriceLevel) (qty : Qty) (c : Counters),
      Shrinks (matchLevels policy aggressor actor reach ls qty c).levels ls
  | [], _, _ => .nil
  | l :: ls, qty, c => by
    have ih := matchLevels_shrinks policy aggressor actor reach ls
    have hl : Lost ⟨l.price, (matchQueue policy aggressor actor l.price l.orders qty c).rest⟩ l :=
      ⟨rfl, matchQueue_ids ..⟩
    unfold matchLevels
    split
    · exact Shrinks.refl _
    · split
      · dsimp only
        split
        · exact Shrinks.keep hl (Shrinks.refl ls)
        · exact Shrinks.keep hl (ih _ _)
      · exact Shrinks.refl _

theorem modifyAt_shrinks {f : List Resting → List Resting}
    (hf : ∀ os, ((f os).map Resting.id).Sublist (os.map Resting.id)) (p : Price) :
    ∀ ls : List PriceLevel, Shrinks (modifyAt p f ls) ls
  | [] => .nil
  | l :: ls => by
    rw [modifyAt]
    split
    · exact Shrinks.keep ⟨rfl, hf _⟩ (Shrinks.refl ls)
    · exact .cons (Lost.refl l) (modifyAt_shrinks hf p ls)

theorem dropId_ids (id : OrderId) (os : List Resting) :
    ((dropId id os).map Resting.id).Sublist (os.map Resting.id) :=
  List.eraseP_sublist.map _

theorem reduceId_ids (id : OrderId) (take : Qty) (os : List Resting) :
    (reduceId id take os).map Resting.id = os.map Resting.id := by
  rw [reduceId, List.map_map]
  refine List.map_congr_left fun o _ => ?_
  simp only [Function.comp]
  split <;> rfl

/-! ## The entry of an order -/

section Entry

variable {s : Side} {p : Price} {o : Resting}

theorem insertAt_append : ∀ {xs : List PriceLevel} (ys : List PriceLevel),
    (∀ x ∈ xs, s.better x.price p = true) → insertAt s p o (xs ++ ys) = xs ++ insertAt s p o ys
  | [], _, _ => rfl
  | x :: xs, ys, h => by
    have hx := h x List.mem_cons_self
    have hne : x.price ≠ p := fun e => by
      rw [e, Side.better_irrefl] at hx
      cases hx
    rw [List.cons_append, insertAt, if_neg hne, if_pos hx,
      insertAt_append ys fun y hy => h y (List.mem_cons_of_mem _ hy)]
    rfl

/-- Before a worse price, an order starts a new level. -/
theorem insertAt_new {ys : List PriceLevel} (h : ∀ y ∈ ys, s.better p y.price = true) :
    insertAt s p o ys = ⟨p, [o]⟩ :: ys := by
  cases ys with
  | nil => rfl
  | cons y ys =>
    have hy := h y List.mem_cons_self
    have hne : y.price ≠ p := fun e => by
      rw [e, Side.better_irrefl] at hy
      cases hy
    have hnb : ¬ s.better y.price p = true := fun hb => by
      have := Side.better_trans hy hb
      rw [Side.better_irrefl] at this
      cases this
    rw [insertAt, if_neg hne, if_neg hnb]

theorem insertAt_ids : ∀ ls : List PriceLevel, (ids (insertAt s p o ls)).Perm (o.id :: ids ls)
  | [] => List.Perm.refl _
  | l :: ls => by
    have ih := insertAt_ids ls
    rw [insertAt]
    split
    · simp only [ids, List.flatMap_cons, List.map_append, List.map_cons, List.map_nil,
        List.append_assoc, List.singleton_append]
      exact List.perm_middle
    · split
      · exact (ih.append_left _).trans List.perm_middle
      · exact List.Perm.refl _

theorem mem_insertAt : ∀ {ls : List PriceLevel} {l : PriceLevel}, l ∈ insertAt s p o ls →
    l ∈ ls ∨ l.price = p ∧ ∃ os, l.orders = os ++ [o] ∧ (os = [] ∨ ⟨p, os⟩ ∈ ls)
  | [], l, h => by
    rw [insertAt, List.mem_singleton] at h
    subst h
    exact .inr ⟨rfl, [], rfl, .inl rfl⟩
  | x :: ls, l, h => by
    rw [insertAt] at h
    split at h
    · rename_i e
      rcases List.mem_cons.mp h with rfl | h
      · exact .inr ⟨e, x.orders, rfl, .inr (by rw [← e]; exact List.mem_cons_self)⟩
      · exact .inl (List.mem_cons_of_mem _ h)
    · split at h
      · rcases List.mem_cons.mp h with rfl | h
        · exact .inl List.mem_cons_self
        · exact (mem_insertAt h).imp (List.mem_cons_of_mem _) fun ⟨hp, os, ho, hm⟩ =>
            ⟨hp, os, ho, hm.imp_right (List.mem_cons_of_mem _)⟩
      · rcases List.mem_cons.mp h with rfl | h
        · exact .inr ⟨rfl, [], rfl, .inl rfl⟩
        · exact .inl h

end Entry

/-! ## Lookup -/

theorem findIn_eq_some {s : Side} {id : OrderId} {ls : List PriceLevel} {pl : Place}
    (h : findIn s id ls = some pl) :
    pl.side = s ∧ pl.order.id = id ∧ ∃ l ∈ ls, l.price = pl.price ∧ pl.order ∈ l.orders := by
  obtain ⟨l, hl, hf⟩ := List.exists_of_findSome?_eq_some h
  obtain ⟨o, ho, rfl⟩ := Option.map_eq_some_iff.mp hf
  exact ⟨rfl, by simpa using List.find?_some ho, l, hl, rfl, List.mem_of_find?_eq_some ho⟩

/-- Where the orders of a side rest. -/
def placesOf (s : Side) (ls : List PriceLevel) : List Place :=
  ls.flatMap fun l => l.orders.map fun o => ⟨s, l.price, o⟩

theorem map_placesOf (s : Side) (ls : List PriceLevel) :
    (placesOf s ls).map (fun pl => pl.order.id) = ids ls := by
  simp only [placesOf, ids, List.map_flatMap, List.map_map]
  rfl

theorem mem_placesOf {s : Side} {ls : List PriceLevel} {pl : Place} :
    pl ∈ placesOf s ls ↔ pl.side = s ∧ ∃ l ∈ ls, l.price = pl.price ∧ pl.order ∈ l.orders := by
  simp only [placesOf, List.mem_flatMap, List.mem_map]
  constructor
  · rintro ⟨l, hl, o, ho, rfl⟩
    exact ⟨rfl, l, hl, rfl, ho⟩
  · rintro ⟨rfl, l, hl, e, ho⟩
    exact ⟨l, hl, pl.order, ho, by rw [e]⟩

theorem mem_ids {ls : List PriceLevel} {id : OrderId} :
    id ∈ ids ls ↔ ∃ l ∈ ls, ∃ o ∈ l.orders, o.id = id := by
  simp only [ids, List.mem_flatMap, List.mem_map]

theorem findIn_eq_none_iff {s : Side} {id : OrderId} {ls : List PriceLevel} :
    findIn s id ls = none ↔ id ∉ ids ls := by
  rw [findIn, List.findSome?_eq_none_iff, mem_ids]
  constructor
  · rintro h ⟨l, hl, o, ho, e⟩
    have := h l hl
    rw [Option.map_eq_none_iff, List.find?_eq_none] at this
    exact this o ho (decide_eq_true e)
  · intro h l hl
    rw [Option.map_eq_none_iff, List.find?_eq_none]
    intro o ho e
    exact h ⟨l, hl, o, ho, of_decide_eq_true e⟩

namespace Book

def ids (a : Book) : List OrderId := Spec.ids (a.levels .bid) ++ Spec.ids (a.levels .ask)

theorem mem_ids {a : Book} {id : OrderId} : id ∈ a.ids ↔ ∃ s, id ∈ Spec.ids (a.levels s) := by
  rw [ids, List.mem_append]
  constructor
  · rintro (h | h)
    · exact ⟨.bid, h⟩
    · exact ⟨.ask, h⟩
  · rintro ⟨s, h⟩
    cases s with
    | bid => exact .inl h
    | ask => exact .inr h

theorem find_eq_none_iff {a : Book} {id : OrderId} : a.find id = none ↔ id ∉ a.ids := by
  rw [find, Option.or_eq_none_iff, findIn_eq_none_iff, findIn_eq_none_iff, ids, List.mem_append, not_or]

theorem find_isSome_iff {a : Book} {id : OrderId} : (a.find id).isSome = true ↔ id ∈ a.ids := by
  rw [← Option.ne_none_iff_isSome, ne_eq, find_eq_none_iff, Classical.not_not]

theorem length_ids (a : Book) : a.ids.length = a.openOrders := by
  simp only [ids, Spec.ids, openOrders, List.map_append, List.sum_append, List.length_append,
    List.length_flatMap, List.length_map]

/-- Where the orders of a book rest. -/
def places (a : Book) : List Place := placesOf .bid (a.levels .bid) ++ placesOf .ask (a.levels .ask)

theorem map_places (a : Book) : a.places.map (fun pl => pl.order.id) = a.ids := by
  rw [places, List.map_append, map_placesOf, map_placesOf]
  rfl

theorem mem_places {a : Book} {pl : Place} :
    pl ∈ a.places ↔ ∃ l ∈ a.levels pl.side, l.price = pl.price ∧ pl.order ∈ l.orders := by
  rw [places, List.mem_append, mem_placesOf, mem_placesOf]
  constructor
  · rintro (⟨e, h⟩ | ⟨e, h⟩) <;> rwa [e]
  · intro h
    cases hs : pl.side with
    | bid => exact .inl ⟨rfl, hs ▸ h⟩
    | ask => exact .inr ⟨rfl, hs ▸ h⟩

theorem find_some {a : Book} {id : OrderId} {pl : Place} (h : a.find id = some pl) :
    pl ∈ a.places ∧ pl.order.id = id := by
  have side : ∀ {s}, findIn s id (a.levels s) = some pl → pl ∈ a.places ∧ pl.order.id = id := fun hf => by
    obtain ⟨hs, hid, hl⟩ := findIn_eq_some hf
    exact ⟨mem_places.mpr (hs ▸ hl), hid⟩
  rcases Option.or_eq_some_iff.mp h with h | ⟨-, h⟩
  · exact side h
  · exact side h

/-- No id rests in two places. -/
theorem place_inj {a : Book} (h : a.ids.Nodup) {pl pl' : Place} (hm : pl ∈ a.places) (hm' : pl' ∈ a.places)
    (e : pl.order.id = pl'.order.id) : pl = pl' :=
  List.inj_on_of_nodup_map (by rw [map_places]; exact h) hm hm' e

theorem find_eq_some_iff {a : Book} (h : a.ids.Nodup) {id : OrderId} {pl : Place} :
    a.find id = some pl ↔ pl ∈ a.places ∧ pl.order.id = id := by
  refine ⟨find_some, fun ⟨hm, e⟩ => ?_⟩
  cases hf : a.find id with
  | none =>
    refine absurd ?_ (find_eq_none_iff.mp hf)
    rw [← map_places, ← e]
    exact List.mem_map_of_mem hm
  | some pl' =>
    obtain ⟨hm', e'⟩ := find_some hf
    rw [place_inj h hm' hm (e'.trans e.symm)]

@[simp] theorem setLevels_self (a : Book) (s : Side) (ls : List PriceLevel) :
    (a.setLevels s ls).levels s = ls := Function.update_self ..

theorem setLevels_of_ne (a : Book) {s s' : Side} (h : s' ≠ s) (ls : List PriceLevel) :
    (a.setLevels s ls).levels s' = a.levels s' := Function.update_of_ne h ..

/-- A side that shrinks, the other being kept. -/
theorem setLevels_shrinks {a : Book} {s : Side} {ls : List PriceLevel}
    (h : Shrinks ls (a.levels s)) (s' : Side) : Shrinks ((a.setLevels s ls).levels s') (a.levels s') := by
  by_cases hs : s' = s
  · subst hs
    rw [setLevels_self]
    exact h
  · rw [setLevels_of_ne a hs]
    exact Shrinks.refl _

theorem ids_sublist {a a' : Book} (h : ∀ s, Shrinks (a'.levels s) (a.levels s)) : a'.ids.Sublist a.ids :=
  (h .bid).ids.append (h .ask).ids

theorem matchOrder_shrinks (a : Book) (aggressor : OrderId) (actor : ParticipantId) (side : Side)
    (limit : Option Price) (qty : Qty) (s : Side) :
    Shrinks ((a.matchOrder aggressor actor side limit qty).1.levels s) (a.levels s) :=
  setLevels_shrinks (a := { a with counters := _ }) (matchLevels_shrinks ..) s

theorem remove_shrinks (a : Book) (pl : Place) (s : Side) :
    Shrinks ((a.remove pl).levels s) (a.levels s) :=
  setLevels_shrinks (modifyAt_shrinks (dropId_ids _) ..) s

theorem cancelOpen_shrinks (a : Book) (pl : Place) (s : Side) :
    Shrinks ((a.cancelOpen pl).levels s) (a.levels s) :=
  remove_shrinks { a with counters := _ } pl s

theorem reduce_shrinks (a : Book) (pl : Place) (take : Qty) (s : Side) :
    Shrinks ((a.reduce pl take).levels s) (a.levels s) :=
  setLevels_shrinks (modifyAt_shrinks (fun os => by rw [reduceId_ids]) ..) s

theorem rest_ids (a : Book) (s : Side) (p : Price) (o : Resting) : (a.rest s p o).ids.Perm (o.id :: a.ids) := by
  cases s with
  | bid => exact (insertAt_ids (a.levels .bid)).append_right _
  | ask => exact ((insertAt_ids (a.levels .ask)).append_left _).trans List.perm_middle

theorem openOrders_le {a a' : Book} (h : ∀ s, Shrinks (a'.levels s) (a.levels s)) :
    a'.openOrders ≤ a.openOrders := by
  rw [← length_ids, ← length_ids]
  exact (ids_sublist h).length_le

theorem rest_openOrders (a : Book) (s : Side) (p : Price) (o : Resting) :
    (a.rest s p o).openOrders = a.openOrders + 1 := by
  rw [← length_ids, ← length_ids, (rest_ids a s p o).length_eq, List.length_cons]

theorem validate_ok {accepts : Price → Bool} {a : Book} {id : OrderId} {price : Price} {qty : Qty}
    (h : a.validate accepts id price qty = .ok) :
    id ≠ 0 ∧ qty ≠ 0 ∧ accepts price = true ∧ id ∉ a.ids := by
  rw [validate] at h
  split at h
  · cases h
  · split at h
    · cases h
    · split at h
      · cases h
      · split at h
        · cases h
        · rename_i h0 hq hp hf
          refine ⟨h0, hq, by simpa using hp, ?_⟩
          rwa [find_isSome_iff] at hf

/-! ## What an operation does -/

/-- The book once an accepted order has met the other side, and what is left
of it rests. -/
def entered (a : Book) (id : OrderId) (actor : ParticipantId) (side : Side) (price : Price) (qty : Qty) :
    Book :=
  let m := (a.countAdded qty).matchOrder id actor side (some price) qty
  if m.2.1 > 0 then m.1.rest side price ⟨id, m.2.1, actor⟩ else m.1

/-- The book once an accepted order has met the other side, and what is left
of it is cancelled. -/
def taken (a : Book) (id : OrderId) (actor : ParticipantId) (side : Side) (limit : Option Price) (qty : Qty) :
    Book :=
  let m := (a.countAdded qty).matchOrder id actor side limit qty
  m.1.countCanceled m.2.1

/-- The book once `take` shares off a resting order have been counted. -/
def counted (a : Book) (take : Qty) (isExecution : Bool) : Book :=
  { a with counters := if isExecution then a.counters.execute take else a.counters.cancel take }

/-- The changes that an operation can make. -/
inductive Move (a : Book) : Book → Prop
  | policy (p : SelfTradePolicy) : Move a { a with stp := p }
  | take (id : OrderId) (actor : ParticipantId) (side : Side) (limit : Option Price) (qty : Qty) :
    Move a (a.taken id actor side limit qty)
  | enter {id : OrderId} (h0 : id ≠ 0) (hid : id ∉ a.ids) (actor : ParticipantId) (side : Side)
    (price : Price) (qty : Qty) : Move a (a.entered id actor side price qty)
  | passive {id : OrderId} {qty : Qty} (h0 : id ≠ 0) (hq : qty ≠ 0) (hid : id ∉ a.ids) (side : Side)
    (price : Price) : Move a ((a.countAdded qty).rest side price ⟨id, qty, 0⟩)
  | remove {id : OrderId} {pl : Place} (hf : a.find id = some pl) (isExecution : Bool) :
    Move a ((a.counted pl.order.qty isExecution).remove pl)
  | reduce {id : OrderId} {pl : Place} (hf : a.find id = some pl) {take : Qty} (hlt : take < pl.order.qty)
    (isExecution : Bool) : Move a ((a.counted take isExecution).reduce pl take)

/-- Those that all operations but `insert_passive` can make. -/
inductive MatchMove (a : Book) : Book → Prop
  | policy (p : SelfTradePolicy) : MatchMove a { a with stp := p }
  | take (id : OrderId) (actor : ParticipantId) (side : Side) (limit : Option Price) (qty : Qty) :
    MatchMove a (a.taken id actor side limit qty)
  | enter {id : OrderId} (h0 : id ≠ 0) (hid : id ∉ a.ids) (actor : ParticipantId) (side : Side)
    (price : Price) (qty : Qty) : MatchMove a (a.entered id actor side price qty)
  | remove {id : OrderId} {pl : Place} (hf : a.find id = some pl) (isExecution : Bool) :
    MatchMove a ((a.counted pl.order.qty isExecution).remove pl)
  | reduce {id : OrderId} {pl : Place} (hf : a.find id = some pl) {take : Qty} (hlt : take < pl.order.qty)
    (isExecution : Bool) : MatchMove a ((a.counted take isExecution).reduce pl take)

theorem MatchMove.move {a a' : Book} (h : MatchMove a a') : Move a a' := by
  cases h with
  | policy p => exact .policy p
  | take id actor side limit qty => exact .take id actor side limit qty
  | enter h0 hid actor side price qty => exact .enter h0 hid actor side price qty
  | remove hf isExecution => exact .remove hf isExecution
  | reduce hf hlt isExecution => exact .reduce hf hlt isExecution

theorem matchMove_cancelOpen {a : Book} {id : OrderId} {pl : Place} (hf : a.find id = some pl) :
    MatchMove a (a.cancelOpen pl) :=
  .remove hf false

theorem move_cancelOpen {a : Book} {id : OrderId} {pl : Place} (hf : a.find id = some pl) :
    Move a (a.cancelOpen pl) :=
  (matchMove_cancelOpen hf).move

/-- What an order that may rest is answered. -/
inductive Enters (a : Book) (id : OrderId) (actor : ParticipantId) (side : Side) (price : Price) (qty : Qty) :
    Reply × Book → Prop
  | rejected {result : Result} (h : result ≠ .ok) : Enters a id actor side price qty ({ result }, a)
  | entered (h0 : id ≠ 0) (hq : qty ≠ 0) (hid : id ∉ a.ids) : Enters a id actor side price qty
    ({ result := .ok, execs := ((a.countAdded qty).matchOrder id actor side (some price) qty).2.2 },
      a.entered id actor side price qty)

/-- What an order that never rests is answered. -/
inductive Takes (a : Book) (id : OrderId) (actor : ParticipantId) (side : Side) (limit : Option Price) (qty : Qty) :
    Reply × Book → Prop
  | rejected {result : Result} (h : result ≠ .ok) : Takes a id actor side limit qty ({ result }, a)
  | taken (h0 : id ≠ 0) (hq : qty ≠ 0) (hid : id ∉ a.ids) : Takes a id actor side limit qty
    ({ result := .ok, execs := ((a.countAdded qty).matchOrder id actor side limit qty).2.2 },
      a.taken id actor side limit qty)

/-- What an execution or a reduction of a resting order is answered. -/
inductive Consumes (a : Book) (id : OrderId) (qty : Qty) (isExecution : Bool) : Reply × Book → Prop
  | rejected {result : Result} (h : result ≠ .ok) (hno : a.find id = none ∨ qty = 0) :
    Consumes a id qty isExecution ({ result }, a)
  | removed {pl : Place} (hf : a.find id = some pl) (hq : qty ≠ 0) (hle : pl.order.qty ≤ qty) :
    Consumes a id qty isExecution
      ({ result := .ok, taken := pl.order.qty }, (a.counted pl.order.qty isExecution).remove pl)
  | reduced {pl : Place} (hf : a.find id = some pl) (hq : qty ≠ 0) (hlt : qty < pl.order.qty) :
    Consumes a id qty isExecution ({ result := .ok, taken := qty }, (a.counted qty isExecution).reduce pl qty)

theorem addLimitAs_enters (accepts : Price → Bool) (a : Book) (actor : ParticipantId) (id : OrderId)
    (side : Side) (price : Price) (qty : Qty) :
    Enters a id actor side price qty (a.addLimitAs accepts actor id side price qty) := by
  rw [addLimitAs]
  dsimp only
  split
  · rename_i hv
    exact .rejected hv
  · rename_i hv
    obtain ⟨h0, hq, -, hid⟩ := validate_ok (Classical.not_not.mp hv)
    exact .entered h0 hq hid

theorem addIocAs_takes (accepts : Price → Bool) (a : Book) (actor : ParticipantId) (id : OrderId)
    (side : Side) (price : Price) (qty : Qty) :
    Takes a id actor side (some price) qty (a.addIocAs accepts actor id side price qty) := by
  rw [addIocAs]
  dsimp only
  split
  · rename_i hv
    exact .rejected hv
  · rename_i hv
    obtain ⟨h0, hq, -, hid⟩ := validate_ok (Classical.not_not.mp hv)
    exact .taken h0 hq hid

theorem addFokAs_takes (accepts : Price → Bool) (a : Book) (actor : ParticipantId) (id : OrderId)
    (side : Side) (price : Price) (qty : Qty) :
    Takes a id actor side (some price) qty (a.addFokAs accepts actor id side price qty) := by
  rw [addFokAs]
  dsimp only
  split
  · rename_i hv
    exact .rejected hv
  · rename_i hv
    obtain ⟨h0, hq, -, hid⟩ := validate_ok (Classical.not_not.mp hv)
    split
    · exact .rejected nofun
    · exact .taken h0 hq hid

theorem addMarketAs_takes (a : Book) (actor : ParticipantId) (id : OrderId) (side : Side) (qty : Qty) :
    Takes a id actor side none qty (a.addMarketAs actor id side qty) := by
  rw [addMarketAs]
  split_ifs with h0 hq hf
  · exact .rejected nofun
  · exact .rejected nofun
  · exact .rejected nofun
  · exact .taken h0 hq fun hid => hf (find_isSome_iff.mpr hid)

theorem consume_consumes (a : Book) (id : OrderId) (qty : Qty) (isExecution : Bool) :
    Consumes a id qty isExecution (a.consume id qty isExecution) := by
  rw [consume]
  cases hf : a.find id with
  | none => exact .rejected nofun (.inl hf)
  | some pl =>
    dsimp only
    by_cases hq : qty = 0
    · rw [if_pos hq]
      exact .rejected nofun (.inr hq)
    rw [if_neg hq]
    by_cases hlt : qty < pl.order.qty
    · rw [if_pos hlt, if_neg (UInt32.ne_of_lt hlt)]
      exact .reduced hf hq hlt
    · rw [if_neg hlt, if_pos rfl]
      exact .removed hf hq (UInt32.not_lt.mp hlt)

/-- A replacement is refused, or the new order meets the book without the old
one. -/
theorem replace_cases (accepts : Price → Bool) (a : Book) (oldId newId : OrderId) (newPrice : Price) (newQty : Qty) :
    (∃ result, result ≠ .ok ∧ a.replace accepts oldId newId newPrice newQty = ({ result }, a)) ∨
    ∃ pl, a.find oldId = some pl ∧ Enters (a.cancelOpen pl) newId pl.order.participant pl.side newPrice newQty
      (a.replace accepts oldId newId newPrice newQty) := by
  rw [replace]
  cases hf : a.find oldId with
  | none => exact .inl ⟨.rejectedUnknownId, nofun, rfl⟩
  | some pl =>
    dsimp only
    split_ifs
    · exact .inl ⟨.rejectedBadId, nofun, rfl⟩
    · exact .inl ⟨.rejectedBadQty, nofun, rfl⟩
    · exact .inl ⟨.rejectedBadPrice, nofun, rfl⟩
    · exact .inl ⟨.rejectedDuplicateId, nofun, rfl⟩
    · exact .inr ⟨pl, rfl, addLimitAs_enters ..⟩

theorem Consumes.execs {a : Book} {id : OrderId} {qty : Qty} {isExecution : Bool} {r : Reply × Book}
    (h : Consumes a id qty isExecution r) : r.1.execs = [] := by
  cases h <;> rfl

theorem Enters.cases {a : Book} {id : OrderId} {actor : ParticipantId} {side : Side} {price : Price} {qty : Qty}
    {r : Reply × Book} (h : Enters a id actor side price qty r) : r.2 = a ∨ MatchMove a r.2 := by
  cases h with
  | rejected h => exact .inl rfl
  | entered h0 hq hid => exact .inr (.enter h0 hid actor side price qty)

theorem Takes.cases {a : Book} {id : OrderId} {actor : ParticipantId} {side : Side} {limit : Option Price} {qty : Qty}
    {r : Reply × Book} (h : Takes a id actor side limit qty r) : r.2 = a ∨ MatchMove a r.2 := by
  cases h with
  | rejected h => exact .inl rfl
  | taken h0 hq hid => exact .inr (.take id actor side limit qty)

theorem Consumes.cases {a : Book} {id : OrderId} {qty : Qty} {isExecution : Bool} {r : Reply × Book}
    (h : Consumes a id qty isExecution r) : r.2 = a ∨ MatchMove a r.2 := by
  cases h with
  | rejected h => exact .inl rfl
  | removed hf hq hle => exact .inr (.remove hf isExecution)
  | reduced hf hq hlt => exact .inr (.reduce hf hlt isExecution)

/-- What an operation does: nothing, one move, or, for `replace`, a
cancellation and a move. -/
theorem apply_matches (accepts : Price → Bool) (a : Book) {op : OrderBook.Op} (hop : op.isPassive = false) :
    (a.apply accepts op).2 = a ∨ MatchMove a (a.apply accepts op).2 ∨
      ∃ id pl, a.find id = some pl ∧ MatchMove (a.cancelOpen pl) (a.apply accepts op).2 := by
  cases op with
  | setSelfTradePolicy p => exact .inr (.inl (.policy p))
  | reserveOrders n => exact .inl rfl
  | addLimitAs actor id side price qty => exact (addLimitAs_enters ..).cases.imp_right .inl
  | addIocAs actor id side price qty => exact (addIocAs_takes ..).cases.imp_right .inl
  | addFokAs actor id side price qty => exact (addFokAs_takes ..).cases.imp_right .inl
  | addMarketAs actor id side qty => exact (addMarketAs_takes ..).cases.imp_right .inl
  | cancel id =>
    rw [apply, cancel]
    split
    · exact .inl rfl
    · rename_i hf
      exact .inr (.inl (matchMove_cancelOpen hf))
  | replace oldId newId newPrice newQty =>
    rw [apply]
    rcases replace_cases accepts a oldId newId newPrice newQty with ⟨result, -, e⟩ | ⟨pl, hf, he⟩
    · rw [e]
      exact .inl rfl
    · rcases he.cases with e | hm
      · rw [e]
        exact .inr (.inl (matchMove_cancelOpen hf))
      · exact .inr (.inr ⟨oldId, pl, hf, hm⟩)
  | insertPassive id side price qty => cases hop
  | executeResting id qty => exact (consume_consumes a id qty true).cases.imp_right .inl
  | reduceResting id qty => exact (consume_consumes a id qty false).cases.imp_right .inl

theorem apply_cases (accepts : Price → Bool) (a : Book) (op : OrderBook.Op) :
    (a.apply accepts op).2 = a ∨ Move a (a.apply accepts op).2 ∨
      ∃ id pl, a.find id = some pl ∧ Move (a.cancelOpen pl) (a.apply accepts op).2 := by
  cases hop : op.isPassive with
  | false =>
    exact (apply_matches accepts a hop).imp_right (Or.imp MatchMove.move fun ⟨id, pl, hf, hm⟩ => ⟨id, pl, hf, hm.move⟩)
  | true =>
    cases op with
    | insertPassive id side price qty =>
        rw [apply, insertPassive]
        split
        · exact .inl rfl
        · rename_i hv
          obtain ⟨h0, hq, -, hid⟩ := validate_ok (Classical.not_not.mp hv)
          exact .inr (.inl (.passive h0 hq hid side price))
    | _ => cases hop

/-- What each move keeps, each operation keeps. -/
theorem apply_inv {I : Book → Prop} (hm : ∀ {a a'}, I a → Move a a' → I a') {a : Book} (h : I a)
    (accepts : Price → Bool) (op : OrderBook.Op) : I (a.apply accepts op).2 := by
  rcases apply_cases accepts a op with e | hmv | ⟨id, pl, hf, hmv⟩
  · rw [e]
    exact h
  · exact hm h hmv
  · exact hm (hm h (move_cancelOpen hf)) hmv

/-- The same without `insert_passive`. -/
theorem apply_match_inv {I : Book → Prop} (hm : ∀ {a a'}, I a → MatchMove a a' → I a') {a : Book} (h : I a)
    (accepts : Price → Bool) {op : OrderBook.Op} (hop : op.isPassive = false) : I (a.apply accepts op).2 := by
  rcases apply_matches accepts a hop with e | hmv | ⟨id, pl, hf, hmv⟩
  · rw [e]
    exact h
  · exact hm h hmv
  · exact hm (hm h (matchMove_cancelOpen hf)) hmv

theorem taken_shrinks (a : Book) (id : OrderId) (actor : ParticipantId) (side : Side)
    (limit : Option Price) (qty : Qty) (s : Side) :
    Shrinks ((a.taken id actor side limit qty).levels s) (a.levels s) :=
  matchOrder_shrinks (a.countAdded qty) ..

theorem Takes.shrinks {a : Book} {id : OrderId} {actor : ParticipantId} {side : Side} {limit : Option Price} {qty : Qty}
    {r : Reply × Book} (h : Takes a id actor side limit qty r) (s : Side) : Shrinks (r.2.levels s) (a.levels s) := by
  cases h with
  | rejected h => exact Shrinks.refl _
  | taken h0 hq hid => exact taken_shrinks a id actor side limit qty s

theorem entered_shrinks (a : Book) (id : OrderId) (actor : ParticipantId) (side : Side) (price : Price)
    (qty : Qty) (s : Side) :
    Shrinks (((a.countAdded qty).matchOrder id actor side (some price) qty).1.levels s) (a.levels s) :=
  matchOrder_shrinks (a.countAdded qty) ..

theorem move_openOrders {a a' : Book} (h : Move a a') : a'.openOrders ≤ a.openOrders + 1 := by
  cases h with
  | policy p => exact Nat.le_succ _
  | take id actor side limit qty =>
    exact Nat.le_succ_of_le (openOrders_le (taken_shrinks a id actor side limit qty))
  | @enter id _ _ actor side price qty =>
    have hle := openOrders_le (entered_shrinks a id actor side price qty)
    rw [entered]
    split
    · rw [rest_openOrders]
      exact Nat.succ_le_succ hle
    · exact Nat.le_succ_of_le hle
  | passive h0 hq hid side price =>
    rw [rest_openOrders]
    exact Nat.le_refl _
  | @remove id pl hf isExecution =>
    exact Nat.le_succ_of_le (openOrders_le (remove_shrinks (a.counted _ isExecution) pl))
  | @reduce id pl hf take hlt isExecution =>
    exact Nat.le_succ_of_le (openOrders_le (reduce_shrinks (a.counted take isExecution) pl take))

/-- An operation brings at most one order to rest. -/
theorem apply_openOrders (accepts : Price → Bool) (a : Book) (op : OrderBook.Op) :
    (a.apply accepts op).2.openOrders ≤ a.openOrders + 1 := by
  rcases apply_cases accepts a op with e | hm | ⟨id, pl, hf, hm⟩
  · rw [e]
    exact Nat.le_succ _
  · exact move_openOrders hm
  · exact Nat.le_trans (move_openOrders hm) (Nat.succ_le_succ (openOrders_le (cancelOpen_shrinks a pl)))

end Book

/-! ## Well-formedness -/

/-- A resting order has an id and shares left. -/
def Resting.Ok (o : Resting) : Prop := o.id ≠ 0 ∧ o.qty ≠ 0

def PriceLevel.Ok (l : PriceLevel) : Prop := l.orders ≠ [] ∧ ∀ o ∈ l.orders, o.Ok

structure SideWf (s : Side) (ls : List PriceLevel) : Prop where
  sorted : (ls.map PriceLevel.price).Pairwise fun p p' => s.better p p' = true
  level : ∀ l ∈ ls, l.Ok

theorem keep_ok {p : Price} {os : List Resting} (h : ∀ o ∈ os, o.Ok) : ∀ l ∈ keep p os, l.Ok := by
  intro l hl
  rw [keep] at hl
  split at hl
  · cases hl
  · rename_i hne
    rw [List.mem_singleton] at hl
    subst hl
    exact ⟨hne, h⟩

/-- A level's queue changed, the levels after it being in order. -/
theorem keep_append_ok {p : Price} {os : List Resting} {ls : List PriceLevel} (h : ∀ o ∈ os, o.Ok)
    (hls : ∀ l ∈ ls, l.Ok) : ∀ l ∈ keep p os ++ ls, l.Ok := fun l hl =>
  (List.mem_append.mp hl).elim (keep_ok h l) (hls l)

theorem sub_ne_zero {a d : Qty} (h : d < a) : a - d ≠ 0 := fun e => by
  have h' := UInt32.lt_iff_toNat_lt.mp h
  have := congrArg UInt32.toNat e
  rw [UInt32.toNat_sub_of_le _ _ (UInt32.le_of_lt h), UInt32.toNat_zero] at this
  omega

theorem matchQueue_ok (policy : SelfTradePolicy) (aggressor : OrderId) (actor : ParticipantId)
    (price : Price) : ∀ (os : List Resting) (qty : Qty) (c : Counters), (∀ o ∈ os, o.Ok) →
      ∀ o ∈ (matchQueue policy aggressor actor price os qty c).rest, o.Ok
  | [], _, _, h => h
  | o :: os, qty, c, h => by
    have hos : ∀ y ∈ os, y.Ok := fun y hy => h y (List.mem_cons_of_mem _ hy)
    have ih := fun qty c => matchQueue_ok policy aggressor actor price os qty c hos
    unfold matchQueue
    split
    · exact h
    · split
      · split
        · exact h
        · exact hos
        · exact ih _ _
      · split
        · rename_i hlt
          intro y hy
          rcases List.mem_cons.mp hy with rfl | hy
          · exact ⟨(h o List.mem_cons_self).1, sub_ne_zero hlt⟩
          · exact hos y hy
        · exact ih _ _

theorem matchLevels_ok (policy : SelfTradePolicy) (aggressor : OrderId) (actor : ParticipantId)
    (reach : Price → Bool) : ∀ (ls : List PriceLevel) (qty : Qty) (c : Counters), (∀ l ∈ ls, l.Ok) →
      ∀ l ∈ (matchLevels policy aggressor actor reach ls qty c).levels, l.Ok
  | [], _, _, h => h
  | l :: ls, qty, c, h => by
    have hls : ∀ x ∈ ls, x.Ok := fun x hx => h x (List.mem_cons_of_mem _ hx)
    have hq := matchQueue_ok policy aggressor actor l.price l.orders qty c (h l List.mem_cons_self).2
    have ih := fun qty c => matchLevels_ok policy aggressor actor reach ls qty c hls
    unfold matchLevels
    split
    · exact h
    · split
      · dsimp only
        split
        · exact keep_append_ok hq hls
        · exact keep_append_ok hq (ih _ _)
      · exact h

theorem modifyAt_ok {f : List Resting → List Resting} {p : Price} : ∀ {ls : List PriceLevel},
    (∀ l ∈ ls, l.Ok) → (∀ l ∈ ls, ∀ o ∈ f l.orders, o.Ok) → ∀ l ∈ modifyAt p f ls, l.Ok
  | [], h, _ => h
  | l :: ls, h, hf => by
    have hls : ∀ x ∈ ls, x.Ok := fun x hx => h x (List.mem_cons_of_mem _ hx)
    rw [modifyAt]
    split
    · exact keep_append_ok (hf l List.mem_cons_self) hls
    · intro x hx
      rcases List.mem_cons.mp hx with rfl | hx
      · exact h x List.mem_cons_self
      · exact modifyAt_ok hls (fun y hy => hf y (List.mem_cons_of_mem _ hy)) x hx

theorem SideWf.insertAt {s : Side} {ls : List PriceLevel} (h : SideWf s ls) (p : Price) {o : Resting}
    (ho : o.Ok) : SideWf s (insertAt s p o ls) := by
  refine ⟨?_, fun l hl => ?_⟩
  · induction ls with
    | nil => exact List.pairwise_singleton _ _
    | cons l ls ih =>
      have hc := List.pairwise_cons.mp h.sorted
      rw [Spec.insertAt]
      split
      · exact h.sorted
      · rename_i hne
        split
        · rename_i hb
          refine List.pairwise_cons.mpr ⟨fun p' hp' => ?_, ih ⟨hc.2, fun x hx => h.level x (List.mem_cons_of_mem _ hx)⟩⟩
          obtain ⟨x, hx, rfl⟩ := List.mem_map.mp hp'
          rcases mem_insertAt hx with hx | ⟨e, -⟩
          · exact hc.1 _ (List.mem_map_of_mem hx)
          · rw [e]
            exact hb
        · rename_i hb
          have hp := Side.better_total (Bool.eq_false_iff.mpr hb) hne
          refine List.pairwise_cons.mpr ⟨fun p' hp' => ?_, h.sorted⟩
          rcases List.mem_cons.mp hp' with rfl | hp'
          · exact hp
          · exact Side.better_trans hp (hc.1 p' hp')
  · rcases mem_insertAt hl with hl | ⟨-, os, e, hos⟩
    · exact h.level l hl
    · refine ⟨by rw [e]; exact List.append_ne_nil_of_right_ne_nil _ (List.cons_ne_nil _ _), ?_⟩
      rw [e]
      intro y hy
      rcases List.mem_append.mp hy with hy | hy
      · rcases hos with rfl | hm
        · cases hy
        · exact (h.level _ hm).2 y hy
      · rw [List.mem_singleton.mp hy]
        exact ho

namespace Book

structure Wf (a : Book) : Prop where
  side : ∀ s, SideWf s (a.levels s)
  nodup : a.ids.Nodup

theorem wf_empty : Wf {} := ⟨fun _ => ⟨List.Pairwise.nil, nofun⟩, List.nodup_nil⟩

namespace Wf

variable {a : Book}

/-- The ids of a queue are distinct. -/
theorem queue_nodup (h : Wf a) {s : Side} {l : PriceLevel} (hl : l ∈ a.levels s) :
    (l.orders.map Resting.id).Nodup := by
  have hside : (Spec.ids (a.levels s)).Nodup := by
    have := List.nodup_append.mp h.nodup
    cases s with
    | bid => exact this.1
    | ask => exact this.2.1
  exact (List.nodup_flatMap.mp hside).1 l hl

theorem congr {a' : Book} (h : Wf a) (hl : a'.levels = a.levels) : Wf a' where
  side := by rw [hl]; exact h.side
  nodup := by rw [ids, hl]; exact h.nodup

theorem setCounters (h : Wf a) (counters : Counters) : Wf { a with counters } := ⟨h.side, h.nodup⟩

/-- Levels that shrink, to well-formed ones. -/
theorem shrinks {a' : Book} (h : Wf a) (hs : ∀ s, Shrinks (a'.levels s) (a.levels s))
    (hl : ∀ s, ∀ l ∈ a'.levels s, l.Ok) : Wf a' :=
  ⟨fun s => ⟨(h.side s).sorted.sublist (hs s).prices, hl s⟩, h.nodup.sublist (ids_sublist hs)⟩

theorem setLevels {s : Side} {ls : List PriceLevel} (h : Wf a) (hs : Shrinks ls (a.levels s))
    (hl : ∀ l ∈ ls, l.Ok) : Wf (a.setLevels s ls) := by
  refine h.shrinks (setLevels_shrinks hs) fun s' => ?_
  by_cases e : s' = s
  · subst e
    rw [setLevels_self]
    exact hl
  · rw [setLevels_of_ne a e]
    exact (h.side s').level

theorem matchOrder (h : Wf a) (aggressor : OrderId) (actor : ParticipantId) (side : Side)
    (limit : Option Price) (qty : Qty) : Wf (a.matchOrder aggressor actor side limit qty).1 :=
  (h.setCounters _).setLevels (matchLevels_shrinks ..) (matchLevels_ok _ _ _ _ _ _ _ (h.side _).level)

theorem remove (h : Wf a) (pl : Place) : Wf (a.remove pl) :=
  h.setLevels (modifyAt_shrinks (dropId_ids _) ..) (modifyAt_ok (h.side _).level fun l hl o ho =>
    ((h.side _).level l hl).2 o (List.eraseP_subset ho))

theorem cancelOpen (h : Wf a) (pl : Place) : Wf (a.cancelOpen pl) := (h.setCounters _).remove pl

/-- Fewer shares than an order has come off it. -/
theorem reduce (h : Wf a) {id : OrderId} {pl : Place} (hf : a.find id = some pl) {take : Qty}
    (hlt : take < pl.order.qty) : Wf (a.reduce pl take) := by
  have hpl := (find_some hf).1
  refine h.setLevels (modifyAt_shrinks (fun os => by rw [reduceId_ids]) ..)
    (modifyAt_ok (h.side _).level fun l hl o' ho' => ?_)
  obtain ⟨o, ho, rfl⟩ := List.mem_map.mp ho'
  have hok := ((h.side _).level l hl).2 o ho
  by_cases e : o.id = pl.order.id
  · have hplace := place_inj h.nodup (mem_places.mpr ⟨l, hl, rfl, ho⟩ : ⟨pl.side, l.price, o⟩ ∈ a.places) hpl e
    have ho : o = pl.order := congrArg Place.order hplace
    rw [if_pos e]
    exact ⟨hok.1, by rw [ho]; exact sub_ne_zero hlt⟩
  · rw [if_neg e]
    exact hok

theorem rest (h : Wf a) {o : Resting} (ho : o.Ok) (hid : o.id ∉ a.ids) (s : Side) (p : Price) :
    Wf (a.rest s p o) := by
  refine ⟨fun s' => ?_, ?_⟩
  · by_cases e : s' = s
    · subst e
      rw [Book.rest, setLevels_self]
      exact (h.side s').insertAt p ho
    · rw [Book.rest, setLevels_of_ne a e]
      exact h.side s'
  · exact (rest_ids a s p o).nodup_iff.mpr (List.nodup_cons.mpr ⟨hid, h.nodup⟩)

theorem move {a' : Book} (h : Wf a) (hm : Move a a') : Wf a' := by
  cases hm with
  | policy p => exact ⟨h.side, h.nodup⟩
  | take id actor side limit qty => exact ((h.setCounters _).matchOrder ..).setCounters _
  | @enter id h0 hid actor side price qty =>
    have hw : Wf ((a.countAdded qty).matchOrder id actor side (some price) qty).1 :=
      (h.setCounters _).matchOrder ..
    rw [entered]
    split
    · rename_i hpos
      refine hw.rest ⟨h0, fun e => ?_⟩ (fun hmem => hid ?_) _ _
      · dsimp only at e
        rw [e] at hpos
        exact absurd hpos (by decide)
      · exact (ids_sublist (entered_shrinks a id actor side price qty)).subset hmem
    · exact hw
  | passive h0 hq hid side price => exact (h.setCounters _).rest ⟨h0, hq⟩ hid _ _
  | remove hf isExecution => exact (h.setCounters _).remove _
  | reduce hf hlt isExecution => exact (h.setCounters (a.counted _ isExecution).counters).reduce hf hlt

theorem apply (h : Wf a) (accepts : Price → Bool) (op : OrderBook.Op) : Wf (a.apply accepts op).2 :=
  apply_inv (fun h hm => h.move hm) h accepts op

end Wf

end Book

end Spec

end Pricetime
