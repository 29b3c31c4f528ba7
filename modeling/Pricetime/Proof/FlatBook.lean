import Pricetime.Proof.SpecBook

/-!
# A book as a flat list

`Flat ps a`: the orders of the list `ps`, in the order of their arrival, are
those of book `a`: at each price of each side, the list restricted to the
orders there is the book's queue. To enter an order is to append it
(`Flat.rest`), to remove one is to delete it (`Flat.remove`), and to reduce
one is to change it in place (`Flat.reduce`).
-/

namespace Pricetime

namespace Spec

/-! ## Queues by price -/

def queueIn (p : Price) (ls : List PriceLevel) : List Resting :=
  ((ls.find? fun l => l.price = p).map PriceLevel.orders).getD []

theorem queueIn_cons (p : Price) (l : PriceLevel) (ls : List PriceLevel) :
    queueIn p (l :: ls) = if l.price = p then l.orders else queueIn p ls := by
  rw [queueIn, List.find?_cons]
  by_cases h : l.price = p
  · simp [h]
  · simp [h, queueIn]

/-- Past the best level of a side, its price is not found. -/
theorem queueIn_eq_nil {p : Price} {ls : List PriceLevel} (h : ∀ l ∈ ls, l.price ≠ p) :
    queueIn p ls = [] := by
  rw [queueIn, List.find?_eq_none.mpr fun l hl e => h l hl (of_decide_eq_true e)]
  rfl

section Sorted

variable {s : Side}

/-- Prices that strictly worsen. -/
def Sorted (s : Side) (ls : List PriceLevel) : Prop :=
  (ls.map PriceLevel.price).Pairwise fun p p' => s.better p p' = true

theorem Sorted.tail {l : PriceLevel} {ls : List PriceLevel} (h : Sorted s (l :: ls)) : Sorted s ls :=
  (List.pairwise_cons.mp h).2

theorem Sorted.head_better {l : PriceLevel} {ls : List PriceLevel} (h : Sorted s (l :: ls))
    {l' : PriceLevel} (hl : l' ∈ ls) : s.better l.price l'.price = true :=
  (List.pairwise_cons.mp h).1 _ (List.mem_map_of_mem hl)

theorem Sorted.head_ne {l : PriceLevel} {ls : List PriceLevel} (h : Sorted s (l :: ls))
    {l' : PriceLevel} (hl : l' ∈ ls) : l'.price ≠ l.price := fun e => by
  have := h.head_better hl
  rw [e, Side.better_irrefl] at this
  cases this

theorem mem_queueIn : ∀ {ls : List PriceLevel} {p : Price} {o : Resting}, Sorted s ls →
    (o ∈ queueIn p ls ↔ ∃ l ∈ ls, l.price = p ∧ o ∈ l.orders)
  | [], p, o, _ => ⟨nofun, fun ⟨_, hl, _⟩ => nomatch hl⟩
  | l :: ls, p, o, h => by
    rw [queueIn_cons]
    split
    · rename_i e
      constructor
      · intro ho
        exact ⟨l, List.mem_cons_self, e, ho⟩
      · rintro ⟨l', hl', e', ho⟩
        rcases List.mem_cons.mp hl' with rfl | hl'
        · exact ho
        · exact absurd (e'.trans e.symm) (h.head_ne hl')
    · rename_i hne
      rw [mem_queueIn h.tail]
      constructor
      · rintro ⟨l', hl', e', ho⟩
        exact ⟨l', List.mem_cons_of_mem _ hl', e', ho⟩
      · rintro ⟨l', hl', e', ho⟩
        rcases List.mem_cons.mp hl' with rfl | hl'
        · exact absurd e' hne
        · exact ⟨l', hl', e', ho⟩

theorem queueIn_of_mem : ∀ {ls : List PriceLevel} {l : PriceLevel}, Sorted s ls → l ∈ ls →
    queueIn l.price ls = l.orders
  | l' :: ls, l, h, hl => by
    rw [queueIn_cons]
    rcases List.mem_cons.mp hl with rfl | hl
    · rw [if_pos rfl]
    · rw [if_neg fun e => h.head_ne hl e.symm, queueIn_of_mem h.tail hl]

theorem queueIn_insertAt (p' : Price) (p : Price) (o : Resting) : ∀ {ls : List PriceLevel}, Sorted s ls →
    queueIn p' (insertAt s p o ls) = queueIn p' ls ++ if p = p' then [o] else []
  | [], _ => by
    rw [insertAt, queueIn_cons]
    split <;> rfl
  | l :: ls, h => by
    have ih := queueIn_insertAt p' p o h.tail
    rw [insertAt]
    split
    · rename_i e
      rw [queueIn_cons, queueIn_cons, e]
      split
      · rfl
      · rw [List.append_nil]
    · rename_i hne
      split
      · rw [queueIn_cons, queueIn_cons, ih]
        by_cases e : l.price = p'
        · rw [if_pos e, if_pos e, if_neg fun e' => hne (e.trans e'.symm), List.append_nil]
        · rw [if_neg e, if_neg e]
      · rename_i hb
        have hp := Side.better_total (Bool.eq_false_iff.mpr hb) hne
        rw [queueIn_cons]
        split
        · rename_i e
          subst e
          rw [queueIn_eq_nil, List.nil_append]
          intro l' hl' e'
          rcases List.mem_cons.mp hl' with rfl | hl'
          · exact hne e'
          · have := Side.better_trans hp (h.head_better hl')
            rw [e', Side.better_irrefl] at this
            cases this
        · rw [List.append_nil]

theorem queueIn_modifyAt {f : List Resting → List Resting} (p' p : Price) (hf : f [] = []) :
    ∀ {ls : List PriceLevel}, Sorted s ls →
      queueIn p' (modifyAt p f ls) = if p' = p then f (queueIn p' ls) else queueIn p' ls
  | [], _ => by
    show [] = if p' = p then f [] else []
    rw [hf, ite_self]
  | l :: ls, h => by
    have ih := queueIn_modifyAt p' p hf h.tail
    rw [modifyAt]
    split
    · rename_i e
      have hrest : p' = p → queueIn p' ls = [] := fun e' =>
        queueIn_eq_nil fun l' hl' e'' => h.head_ne hl' (by rw [e'', e', e])
      rw [keep, queueIn_cons, e]
      by_cases e' : p' = p
      · subst e'
        rw [if_pos rfl, if_pos rfl]
        split
        · rename_i hn
          rw [List.nil_append, hrest rfl, hn]
        · rw [List.singleton_append, queueIn_cons, if_pos rfl]
      · have hne : ¬ p = p' := fun e'' => e' e''.symm
        rw [if_neg e', if_neg hne]
        split
        · rfl
        · rw [List.singleton_append, queueIn_cons, if_neg hne]
    · rename_i hne
      rw [queueIn_cons, queueIn_cons, ih]
      by_cases e : l.price = p'
      · rw [if_pos e, if_pos e, if_neg fun e' => hne (e.trans e')]
      · rw [if_neg e, if_neg e]

end Sorted

/-! ## Flat lists -/

/-- The orders of a flat list at a price, oldest first. -/
def restingAt (ps : List Place) (s : Side) (p : Price) : List Resting :=
  (ps.filter fun pl => pl.side = s ∧ pl.price = p).map Place.order

/-- An order with `take` fewer shares, if it is order `id`. -/
def Place.reduce (id : OrderId) (take : Qty) (pl : Place) : Place :=
  { pl with order := if pl.order.id = id then { pl.order with qty := pl.order.qty - take } else pl.order }

theorem Place.reduce_of_ne {id : OrderId} {pl : Place} (h : pl.order.id ≠ id) (take : Qty) :
    Place.reduce id take pl = pl := by
  rw [Place.reduce, if_neg h]

theorem Place.reduce_self (take : Qty) (pl : Place) :
    Place.reduce pl.order.id take pl = ⟨pl.side, pl.price, { pl.order with qty := pl.order.qty - take }⟩ := by
  rw [Place.reduce, if_pos rfl]

structure Flat (ps : List Place) (a : Book) : Prop where
  queue : ∀ s p, queueIn p (a.levels s) = restingAt ps s p
  nodup : (ps.map fun pl => pl.order.id).Nodup

theorem mem_restingAt {ps : List Place} {s : Side} {p : Price} {o : Resting} :
    o ∈ restingAt ps s p ↔ ⟨s, p, o⟩ ∈ ps := by
  rw [restingAt, List.mem_map]
  constructor
  · rintro ⟨pl, hpl, rfl⟩
    obtain ⟨hm, e⟩ := List.mem_filter.mp hpl
    obtain ⟨rfl, rfl⟩ := of_decide_eq_true e
    exact hm
  · intro h
    exact ⟨_, List.mem_filter.mpr ⟨h, decide_eq_true ⟨rfl, rfl⟩⟩, rfl⟩

namespace Flat

variable {ps : List Place} {a : Book}

theorem empty : Flat [] {} := ⟨fun _ _ => rfl, List.nodup_nil⟩

theorem mem (h : Flat ps a) (hw : a.Wf) {pl : Place} : pl ∈ ps ↔ pl ∈ a.places := by
  rw [Book.mem_places, ← mem_queueIn (hw.side pl.side).sorted, h.queue, mem_restingAt]

/-- The lookup of an id. -/
theorem find (h : Flat ps a) (hw : a.Wf) (id : OrderId) :
    a.find id = ps.find? fun pl => pl.order.id = id := by
  cases hf : ps.find? fun pl => pl.order.id = id with
  | none =>
    rw [Book.find_eq_none_iff, ← Book.map_places]
    intro hm
    obtain ⟨pl, hpl, e⟩ := List.mem_map.mp hm
    exact List.find?_eq_none.mp hf pl ((h.mem hw).mpr hpl) (decide_eq_true e)
  | some pl =>
    refine (Book.find_eq_some_iff hw.nodup).mpr ⟨(h.mem hw).mp (List.mem_of_find?_eq_some hf), ?_⟩
    simpa using List.find?_some hf

theorem ids (h : Flat ps a) (hw : a.Wf) {id : OrderId} :
    id ∈ ps.map (fun pl => pl.order.id) ↔ id ∈ a.ids := by
  rw [← Book.map_places, List.mem_map, List.mem_map]
  simp only [h.mem hw]

theorem openOrders (h : Flat ps a) (hw : a.Wf) : a.openOrders = ps.length := by
  have hperm : a.ids.Perm (ps.map fun pl => pl.order.id) :=
    (List.perm_ext_iff_of_nodup hw.nodup h.nodup).mpr fun id => (h.ids hw).symm
  rw [← Book.length_ids, hperm.length_eq, List.length_map]

theorem congr {a' : Book} (h : Flat ps a) (hl : a'.levels = a.levels) : Flat ps a' :=
  ⟨by rw [hl]; exact h.queue, h.nodup⟩

theorem rest (h : Flat ps a) (hw : a.Wf) (s : Side) (p : Price) {o : Resting} (hid : o.id ∉ a.ids) :
    Flat (ps ++ [⟨s, p, o⟩]) (a.rest s p o) := by
  constructor
  · intro s' p'
    rw [restingAt, List.filter_append, List.map_append, List.filter_singleton]
    by_cases hs : s' = s
    · subst hs
      rw [Book.rest, Book.setLevels_self, queueIn_insertAt p' p o (hw.side s').sorted, h.queue, restingAt]
      refine congrArg _ ?_
      by_cases e : p = p' <;> simp [e]
    · rw [Book.rest, Book.setLevels_of_ne a hs, h.queue, restingAt]
      have : ¬ s = s' := fun e => hs e.symm
      simp [this]
  · rw [List.map_append, List.nodup_append]
    refine ⟨h.nodup, List.nodup_singleton _, fun id hm id' hm' e => hid ?_⟩
    rw [List.map_singleton, List.mem_singleton] at hm'
    rw [← h.ids hw, ← hm', ← e]
    exact hm

/-- The queues after one of them has changed. -/
theorem setQueue (h : Flat ps a) (hw : a.Wf) {s : Side} {p : Price} {f : List Resting → List Resting}
    (hf : f [] = []) {ps' : List Place} (hn : (ps'.map fun pl => pl.order.id).Nodup)
    (hself : restingAt ps' s p = f (restingAt ps s p))
    (hother : ∀ s' p', ¬ (s' = s ∧ p' = p) → restingAt ps' s' p' = restingAt ps s' p') :
    Flat ps' (a.setLevels s (modifyAt p f (a.levels s))) := by
  refine ⟨fun s' p' => ?_, hn⟩
  by_cases hs : s' = s
  · subst hs
    rw [Book.setLevels_self, queueIn_modifyAt p' p hf (hw.side s').sorted, h.queue]
    by_cases e : p' = p
    · subst e
      rw [if_pos rfl, hself]
    · rw [if_neg e, hother s' p' fun h => e h.2]
  · rw [Book.setLevels_of_ne a hs, h.queue, hother s' p' fun h => hs h.1]

/-- The other orders have other ids. -/
theorem ne {xs ys : List Place} {pl : Place} (h : Flat (xs ++ pl :: ys) a) {x : Place} (hx : x ∈ xs ++ ys) :
    x.order.id ≠ pl.order.id := by
  have hnd := h.nodup
  rw [List.map_append, List.map_cons, List.nodup_middle, ← List.map_append] at hnd
  exact fun e => (List.nodup_cons.mp hnd).1 (e ▸ List.mem_map_of_mem hx)

theorem removeMiddle {xs ys : List Place} {pl : Place} (h : Flat (xs ++ pl :: ys) a) (hw : a.Wf) :
    Flat (xs ++ ys) (a.remove pl) := by
  have hnd := h.nodup
  rw [List.map_append, List.map_cons] at hnd
  refine h.setQueue hw rfl ?_ ?_ ?_
  · rw [List.map_append]
    exact hnd.sublist ((List.sublist_cons_self _ _).append_left _)
  · rw [restingAt, restingAt, List.filter_append, List.filter_append,
      List.filter_cons_of_pos (by simp), List.map_append, List.map_append, List.map_cons, dropId,
      List.eraseP_append_right, List.eraseP_cons_of_pos (by simp)]
    intro o ho
    obtain ⟨x, hxm, rfl⟩ := List.mem_map.mp ho
    simpa using h.ne (List.mem_append_left _ (List.mem_filter.mp hxm).1)
  · intro s' p' hne
    rw [restingAt, restingAt, List.filter_append, List.filter_append, List.filter_cons_of_neg]
    simpa only [decide_eq_true_eq] using fun e : pl.side = s' ∧ pl.price = p' => hne ⟨e.1.symm, e.2.symm⟩

theorem remove (h : Flat ps a) (hw : a.Wf) {pl : Place} (hpl : pl ∈ ps) :
    Flat (ps.eraseP fun x => x.order.id = pl.order.id) (a.remove pl) := by
  obtain ⟨xs, ys, rfl⟩ := List.append_of_mem hpl
  have herase : (xs ++ pl :: ys).eraseP (fun x => x.order.id = pl.order.id) = xs ++ ys := by
    rw [List.eraseP_append_right _ (fun x hm => by simpa using h.ne (List.mem_append_left _ hm)),
      List.eraseP_cons_of_pos (by simp)]
  rw [herase]
  exact h.removeMiddle hw

theorem reduce (h : Flat ps a) (hw : a.Wf) {pl : Place} (hpl : pl ∈ ps) (take : Qty) :
    Flat (ps.map (Place.reduce pl.order.id take)) (a.reduce pl take) := by
  have hfilter : ∀ s' p', restingAt (ps.map (Place.reduce pl.order.id take)) s' p' =
      reduceId pl.order.id take (restingAt ps s' p') := by
    intro s' p'
    rw [restingAt, List.filter_map, List.map_map, reduceId, restingAt, List.map_map]
    rw [show (fun x : Place => decide (x.side = s' ∧ x.price = p')) ∘ Place.reduce pl.order.id take =
      fun x => decide (x.side = s' ∧ x.price = p') from rfl]
    exact List.map_congr_left fun x _ => rfl
  refine h.setQueue hw rfl ?_ (hfilter _ _) fun s' p' hne => ?_
  · rw [List.map_map]
    refine (List.map_congr_left fun x _ => ?_ : _ = ps.map fun pl => pl.order.id) ▸ h.nodup
    simp only [Function.comp, Place.reduce]
    split <;> rfl
  · rw [hfilter, reduceId]
    refine (List.map_congr_left fun o ho => ?_).trans (List.map_id _)
    refine if_neg fun e => hne ?_
    have hm := mem_restingAt.mp ho
    have := List.inj_on_of_nodup_map h.nodup hm hpl e
    exact ⟨congrArg Place.side this, congrArg Place.price this⟩

theorem reduceMiddle {xs ys : List Place} {pl : Place} (h : Flat (xs ++ pl :: ys) a) (hw : a.Wf) (take : Qty) :
    Flat (xs ++ ⟨pl.side, pl.price, { pl.order with qty := pl.order.qty - take }⟩ :: ys) (a.reduce pl take) := by
  have same : ∀ {zs : List Place}, (∀ z ∈ zs, z ∈ xs ++ ys) → zs.map (Place.reduce pl.order.id take) = zs :=
    fun hzs => (List.map_congr_left fun z hz => Place.reduce_of_ne (h.ne (hzs z hz)) take).trans (List.map_id _)
  have hr := h.reduce hw (List.mem_append_right xs List.mem_cons_self) take
  rwa [List.map_append, List.map_cons, Place.reduce_self, same fun z => List.mem_append_left ys,
    same fun z => List.mem_append_right xs] at hr

/-! ## The levels of a flat list -/

/-- The prices of a flat list on a side, best first. -/
def pricesOf (ps : List Place) (s : Side) : List Price :=
  ((ps.filter fun pl => pl.side = s).map Place.price).dedup.mergeSort fun p p' => !s.better p' p

theorem mem_prices (h : Flat ps a) (hw : a.Wf) {s : Side} {p : Price} :
    p ∈ (a.levels s).map PriceLevel.price ↔ p ∈ (ps.filter fun pl => pl.side = s).map Place.price := by
  simp only [List.mem_map, List.mem_filter, decide_eq_true_eq]
  constructor
  · rintro ⟨l, hl, rfl⟩
    obtain ⟨o, ho⟩ := List.exists_mem_of_ne_nil _ ((hw.side s).level l hl).1
    have hm : (⟨s, l.price, o⟩ : Place) ∈ a.places := Book.mem_places.mpr ⟨l, hl, rfl, ho⟩
    exact ⟨_, ⟨(h.mem hw).mpr hm, rfl⟩, rfl⟩
  · rintro ⟨x, ⟨hx, rfl⟩, rfl⟩
    obtain ⟨l, hl, hp, -⟩ := Book.mem_places.mp ((h.mem hw).mp hx)
    exact ⟨l, hl, hp⟩

/-- A side's prices are those of the list. -/
theorem prices_eq (h : Flat ps a) (hw : a.Wf) (s : Side) :
    pricesOf ps s = (a.levels s).map PriceLevel.price := by
  have hsorted := (hw.side s).sorted
  have hnd : ((a.levels s).map PriceLevel.price).Nodup := hsorted.imp fun hb e => by
    rw [e, Side.better_irrefl] at hb
    cases hb
  have hperm : (pricesOf ps s).Perm ((a.levels s).map PriceLevel.price) :=
    (List.mergeSort_perm _ _).trans ((List.perm_ext_iff_of_nodup (List.nodup_dedup _) hnd).mpr fun p => by
      rw [List.mem_dedup, h.mem_prices hw])
  have hle : ∀ {p p' : Price}, (!s.better p' p) = true → (!s.better p p') = true → p = p' := fun {p p'} h h' => by
    rw [Bool.not_eq_true'] at h h'
    by_contra hne
    rw [Side.better_total h' hne] at h
    cases h
  refine hperm.eq_of_pairwise (fun p p' _ _ => hle) (List.pairwise_mergeSort ?_ ?_ _)
    (hsorted.imp fun hb => by rw [Side.better_asymm hb]; rfl)
  · intro p q r hpq hqr
    rw [Bool.not_eq_true'] at hpq hqr ⊢
    exact Side.no_worse_trans hpq hqr
  · intro p q
    cases hb : s.better q p with
    | false => rfl
    | true => rw [Side.better_asymm hb]; rfl

theorem levels_eq (h : Flat ps a) (hw : a.Wf) (s : Side) :
    a.levels s = (pricesOf ps s).map fun p => ⟨p, restingAt ps s p⟩ := by
  rw [h.prices_eq hw, List.map_map]
  refine (List.map_id _).symm.trans (List.map_congr_left fun l hl => ?_)
  show l = ⟨l.price, restingAt ps s l.price⟩
  rw [← h.queue, queueIn_of_mem (hw.side s).sorted hl]

end Flat

end Spec

end Pricetime
