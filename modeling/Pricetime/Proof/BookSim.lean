import Pricetime.Proof.BookRep
import Pricetime.Proof.SpecBook

/-!
# A book simulates its abstract book

`Sim accepts b a`: book `b`, at rest, represents the abstract book `a`, and
takes orders at the prices `accepts`. This module has the steps other than
matching: the lookup of an id (`Sim.find_eq`), the entry of an order
(`Sim.rest`), its cancellation (`Sim.cancelOpen`) and its reduction
(`Sim.reduce`).

A step needs the orders at each price, and the levels of each side, to be few
enough for their counters (`Within`).
-/

namespace Pricetime

open Spec (Resting PriceLevel Place insertAt modifyAt findIn findIn_eq_some insertAt_append insertAt_new)

/-! ## Lists of levels -/

section Levels

variable {s : Side}

/-- The queue of one level of a side changed. -/
theorem modifyAt_map (price : LevelPtr → Price) (A A' : LevelPtr → PriceLevel)
    (f : List Resting → List Resting) {q : LevelPtr} (hA : ∀ r, (A r).price = price r)
    (hA' : A' q = ⟨price q, f (A q).orders⟩) : ∀ {qs : List LevelPtr}, Worsening s price qs → q ∈ qs →
      (∀ r ∈ qs, r ≠ q → A' r = A r) →
      modifyAt (price q) f (qs.map A) = (if f (A q).orders = [] then qs.erase q else qs).map A'
  | r :: qs, hw, hq, hother => by
    have hinj := hw.price_inj hq List.mem_cons_self
    have hnd := List.nodup_cons.mp hw.nodup
    by_cases e : r = q
    · subst e
      have htail : qs.map A' = qs.map A := List.map_congr_left fun y hy =>
        hother y (List.mem_cons_of_mem _ hy) fun e' => hnd.1 (e' ▸ hy)
      rw [List.map_cons, modifyAt, hA, if_pos rfl, Spec.keep]
      by_cases hn : f (A r).orders = []
      · rw [if_pos hn, if_pos hn, List.erase_cons_head, htail]
        rfl
      · rw [if_neg hn, if_neg hn, List.map_cons, hA', htail]
        rfl
    · have hne : price r ≠ price q := fun e' => e (hinj e'.symm).symm
      have hq' : q ∈ qs := (List.mem_cons.mp hq).resolve_left (Ne.symm e)
      have ih := modifyAt_map price A A' f hA hA' (List.pairwise_cons.mp hw).2 hq'
        fun y hy => hother y (List.mem_cons_of_mem _ hy)
      rw [List.map_cons, modifyAt, hA, if_neg hne, ih, ← hother r List.mem_cons_self e]
      split
      · rw [List.erase_cons_tail (by simpa using e), List.map_cons]
      · rw [List.map_cons]

/-- An order entered at a price that a side has. -/
theorem insertAt_map_old (price : LevelPtr → Price) (A A' : LevelPtr → PriceLevel) (new : Resting) {q : LevelPtr}
    (hA : ∀ r, (A r).price = price r) (hA' : A' q = ⟨price q, (A q).orders ++ [new]⟩) {qs : List LevelPtr}
    (hw : Worsening s price qs) (hq : q ∈ qs) (hother : ∀ r ≠ q, A' r = A r) :
    insertAt s (price q) new (qs.map A) = qs.map A' := by
  obtain ⟨xs, ys, rfl⟩ := List.append_of_mem hq
  obtain ⟨-, hny, hxy⟩ := List.nodup_append.mp hw.nodup
  have hxs : xs.map A = xs.map A' :=
    List.map_congr_left fun x hx => (hother x (hxy x hx q List.mem_cons_self)).symm
  have hys : ys.map A = ys.map A' :=
    List.map_congr_left fun y hy => (hother y fun e => (List.nodup_cons.mp hny).1 (e ▸ hy)).symm
  rw [List.map_append, List.map_append, insertAt_append]
  · rw [List.map_cons, List.map_cons, insertAt, if_pos (hA q), hxs, hys, hA', hA]
  · intro l hl
    obtain ⟨x, hx, rfl⟩ := List.mem_map.mp hl
    rw [hA]
    exact (List.pairwise_append.mp hw).2.2 x hx q List.mem_cons_self

/-- An order entered at a price that a side does not have. -/
theorem insertAt_map_new (A A' : LevelPtr → PriceLevel) (new : Resting) {q : LevelPtr} {p : Price}
    (hA' : A' q = ⟨p, [new]⟩) {xs ys : List LevelPtr} (hx : ∀ x ∈ xs, s.better (A x).price p = true)
    (hy : ∀ y ∈ ys, s.better p (A y).price = true) (hother : ∀ r ∈ xs ++ ys, A' r = A r) :
    insertAt s p new ((xs ++ ys).map A) = (xs ++ q :: ys).map A' := by
  have hxs : xs.map A = xs.map A' := List.map_congr_left fun x h => (hother x (List.mem_append_left _ h)).symm
  have hys : ys.map A = ys.map A' := List.map_congr_left fun y h => (hother y (List.mem_append_right _ h)).symm
  rw [List.map_append, List.map_append, insertAt_append, insertAt_new]
  · rw [List.map_cons, hxs, hys, hA']
  · intro l hl
    obtain ⟨y, hym, rfl⟩ := List.mem_map.mp hl
    exact hy y hym
  · intro l hl
    obtain ⟨x, hxm, rfl⟩ := List.mem_map.mp hl
    exact hx x hxm

end Levels

namespace OrderBook

variable {L M : Type} [Ladder L] [LawfulLadder L] [IdMap M] [LawfulIdMap M]

/-- Few enough orders at each price, and levels on each side. -/
structure Within (L : Type) [Ladder L] [LawfulLadder L] (a : Spec.Book) : Prop where
  orders : ∀ s, ∀ l ∈ a.levels s, l.orders.length < 2 ^ 32
  levels : ∀ s, LawfulLadder.Fits (L := L) (a.levels s).length

structure SimBy (accepts : Price → Bool) (b : OrderBook L M) (a : Spec.Book)
    (T : Side → List LevelPtr) (Q : LevelPtr → List OrderPtr) : Prop where
  rep : Rep b T Q
  full : Full T Q
  levels : a.levels = absLevels b.heap T Q
  stp : a.stp = b.stp
  counters : a.counters = b.counters
  accepts : Ladder.validPrice b.ladder = accepts

def Sim (accepts : Price → Bool) (b : OrderBook L M) (a : Spec.Book) : Prop :=
  ∃ T Q, SimBy accepts b a T Q

namespace SimBy

variable {accepts : Price → Bool} {b : OrderBook L M} {a : Spec.Book} {T : Side → List LevelPtr}
  {Q : LevelPtr → List OrderPtr}

theorem small (h : SimBy accepts b a T Q) (hw : Within L a) (q : LevelPtr) : (Q q).length < 2 ^ 32 := by
  by_cases hq : Q q = []
  · rw [hq]
    exact Nat.two_pow_pos 32
  · have hm := h.rep.placed q hq
    have := hw.orders (levelSide q) (absLevel b.heap Q q) (by
      rw [h.levels]
      exact List.mem_map_of_mem hm)
    simpa only [absLevel, restings, List.length_map] using this

theorem fits (h : SimBy accepts b a T Q) (hw : Within L a) (s : Side) :
    LawfulLadder.Fits (L := L) (T s).length := by
  have := hw.levels s
  rwa [h.levels, absLevels, List.length_map] at this

theorem active (h : SimBy accepts b a T Q) (hw : Within L a) : Active b.heap.level T :=
  h.rep.active h.full (h.small hw)

/-- The abstract lookup of an id. -/
theorem find_eq (h : SimBy accepts b a T Q) (id : OrderId) :
    a.find id = (b.lookup id).map fun o =>
      ⟨(b.heap.order o).side, (b.heap.order o).price, (b.heap.order o).resting⟩ := by
  -- what a lookup on one side can find
  have found : ∀ {s pl}, findIn s id (a.levels s) = some pl → ∃ o, b.lookup id = some o ∧
      pl = ⟨(b.heap.order o).side, (b.heap.order o).price, (b.heap.order o).resting⟩ := by
    intro s pl hf
    obtain ⟨hs, hid, l, hl, hp, ho⟩ := findIn_eq_some hf
    rw [h.levels] at hl
    obtain ⟨q, hq, rfl⟩ := List.mem_map.mp hl
    obtain ⟨o, hoq, e⟩ := List.mem_map.mp ho
    have hm := h.rep.mapped hoq
    obtain ⟨h1, h2⟩ := h.rep.order q o hoq
    have hside := LawfulLadder.side h.rep.tracks hq
    refine ⟨o, ?_, ?_⟩
    · rw [← hid, ← e]
      exact hm
    · rcases pl with ⟨ps, pp, po⟩
      simp only [absLevel] at hs hp e
      rw [Place.mk.injEq]
      exact ⟨by rw [hs, h2, hside], by rw [h1, hp], e.symm⟩
  cases hl : b.lookup id with
  | none =>
    have none_at : ∀ s, findIn s id (a.levels s) = none := fun s => by
      cases hf : findIn s id (a.levels s) with
      | none => rfl
      | some pl =>
        obtain ⟨o, ho, -⟩ := found hf
        rw [hl] at ho
        cases ho
    simp only [Spec.Book.find, none_at, Option.or_none, Option.map_none]
  | some o =>
    have same : ∀ {s pl}, findIn s id (a.levels s) = some pl →
        pl = ⟨(b.heap.order o).side, (b.heap.order o).price, (b.heap.order o).resting⟩ := fun hf => by
      obtain ⟨o', ho', e⟩ := found hf
      rw [hl] at ho'
      rw [Option.some.inj ho']
      exact e
    -- the side the order is on has it
    obtain ⟨q, hoq⟩ := h.rep.mapped_iff.mp (h.rep.inv.mapped hl)
    have hne : findIn (levelSide q) id (a.levels (levelSide q)) ≠ none := by
      intro e
      have := List.findSome?_eq_none_iff.mp e (absLevel b.heap Q q) (by
        rw [h.levels]
        exact List.mem_map_of_mem (h.rep.placed q (List.ne_nil_of_mem hoq)))
      rw [Option.map_eq_none_iff, List.find?_eq_none] at this
      refine this _ (List.mem_map_of_mem hoq) ?_
      exact decide_eq_true (h.rep.inv.id hl)
    rw [Spec.Book.find, Option.map_some]
    cases hb : findIn .bid id (a.levels .bid) with
    | some pl => rw [Option.some_or, same hb]
    | none =>
      rw [Option.none_or]
      cases hs : levelSide q with
      | bid =>
        rw [hs] at hne
        exact absurd hb hne
      | ask =>
        rw [hs] at hne
        obtain ⟨pl, hpl⟩ := Option.ne_none_iff_exists'.mp hne
        rw [hpl, same hpl]

theorem find_isSome (h : SimBy accepts b a T Q) (id : OrderId) :
    (a.find id).isSome = (b.lookup id).isSome := by
  rw [h.find_eq, Option.isSome_map]

/-- The queues of both sides, one after the other, hold the mapped nodes. -/
theorem nodes (h : SimBy accepts b a T Q) : ((T .bid ++ T .ask).flatMap Q).Nodup ∧
    (∀ o, o ∈ (T .bid ++ T .ask).flatMap Q ↔ b.Mapped o) ∧
    b.openOrders = ((T .bid ++ T .ask).flatMap Q).length := by
  have hmem : ∀ o, o ∈ (T .bid ++ T .ask).flatMap Q ↔ b.Mapped o := fun o => by
    rw [h.rep.mapped_iff, List.mem_flatMap]
    constructor
    · rintro ⟨q, -, hq⟩
      exact ⟨q, hq⟩
    · rintro ⟨q, hq⟩
      refine ⟨q, ?_, hq⟩
      have := h.rep.placed q (List.ne_nil_of_mem hq)
      rw [List.mem_append]
      cases hs : levelSide q with
      | bid => exact .inl (hs ▸ this)
      | ask => exact .inr (hs ▸ this)
  have hnodup : ((T .bid ++ T .ask).flatMap Q).Nodup := by
    have hnd : (T .bid ++ T .ask).Nodup := by
      refine List.nodup_append.mpr ⟨(LawfulLadder.worsening h.rep.tracks .bid).nodup,
        (LawfulLadder.worsening h.rep.tracks .ask).nodup, fun q hq r hr e => ?_⟩
      have h1 := LawfulLadder.side h.rep.tracks hq
      have h2 := LawfulLadder.side h.rep.tracks hr
      rw [e, h2] at h1
      cases h1
    refine List.nodup_flatMap.mpr ⟨fun q _ => h.rep.nodup q, ?_⟩
    exact hnd.imp fun {q r} (hne : q ≠ r) o hq hr => hne (h.rep.queue_inj hq hr)
  obtain ⟨all, hn, hall, hlen⟩ := h.rep.inv.count
  have hperm : all.Perm ((T .bid ++ T .ask).flatMap Q) :=
    (List.perm_ext_iff_of_nodup hn hnodup).mpr fun o => by rw [hall, hmem]
  exact ⟨hnodup, hmem, by rw [← hlen, hperm.length_eq]⟩

/-- The open orders are those of all the queues. -/
theorem openOrders_eq (h : SimBy accepts b a T Q) : b.openOrders = a.openOrders := by
  rw [h.nodes.2.2, List.length_flatMap, Spec.Book.openOrders, h.levels]
  simp only [absLevels, ← List.map_append, List.map_map]
  refine congrArg List.sum (List.map_congr_left fun q _ => ?_)
  simp only [Function.comp, absLevel, restings, List.length_map]

/-! ## Entry -/

/-- The abstract side, once an order is at the end of the queue of `q`. -/
theorem entered (h : SimBy accepts b a T Q) {s : Side} {price : Price} {new : Resting} {q : LevelPtr} {o : OrderPtr}
    {b' : OrderBook L M} {T' : Side → List LevelPtr} (hrep : Rep b' T' (Function.update Q q (Q q ++ [o])))
    (hstp : b'.stp = b.stp) (hcnt : b'.counters = b.counters)
    (hval : Ladder.validPrice b'.ladder = Ladder.validPrice b.ladder) (hT' : ∀ s', ∀ r ∈ T' s', r ≠ q → r ∈ T s')
    (hside : levelSide q = s) (hTo : ∀ s', s' ≠ s → T' s' = T s')
    (hother : ∀ r ≠ q, absLevel b'.heap (Function.update Q q (Q q ++ [o])) r = absLevel b.heap Q r)
    (hins : insertAt s price new ((T s).map (absLevel b.heap Q)) =
      (T' s).map (absLevel b'.heap (Function.update Q q (Q q ++ [o])))) : Sim accepts b' (a.rest s price new) := by
  refine ⟨T', _, hrep, ?_, ?_, by rw [hstp]; exact h.stp, by rw [hcnt]; exact h.counters, by rw [hval]; exact h.accepts⟩
  · intro s' r hr
    by_cases e : r = q
    · rw [e, Function.update_self]
      exact List.append_ne_nil_of_right_ne_nil _ (List.cons_ne_nil _ _)
    · rw [Function.update_of_ne e]
      exact h.full s' r (hT' s' r hr e)
  · funext s'
    show Function.update a.levels s _ s' = _
    by_cases hs : s' = s
    · subst hs
      rw [Function.update_self, h.levels]
      exact hins
    · rw [Function.update_of_ne hs, h.levels, absLevels, absLevels, hTo s' hs]
      refine (List.map_congr_left fun r hr => hother r ?_).symm
      rintro rfl
      exact hs ((LawfulLadder.side h.rep.tracks hr).symm.trans hside)

/-- A new order joins the queue of a level. -/
theorem rest_at (h : SimBy accepts b a T Q) {id : OrderId} (h0 : id ≠ 0) (hid : b.lookup id = none) {s : Side}
    {q : LevelPtr} (hq : q ∈ T s)
    (hg : Ladder.getOrCreate b.ladder b.heap.level s (b.heap.level q).price = some (q, b.ladder, b.heap.level))
    (qty : Qty) (actor : ParticipantId) :
    ∃ b', b.rest id s (b.heap.level q).price qty actor = some b' ∧
      Sim accepts b' (a.rest s (b.heap.level q).price ⟨id, qty, actor⟩) := by
  have hside := LawfulLadder.side h.rep.tracks hq
  obtain ⟨o, b', hb', hrep, hstp, hcnt, hval, hres, hnew, hprice⟩ :=
    h.rep.enter h0 hid qty actor hg (fun r => ⟨_, rfl, fun _ => rfl⟩) rfl h.rep.tracks (fun _ _ hr => hr) hq hside
  have hother : ∀ r ≠ q, absLevel b'.heap (Function.update Q q (Q q ++ [o])) r = absLevel b.heap Q r :=
    fun r hr => by rw [absLevel, absLevel, hprice, Function.update_of_ne hr, hres]
  have hself : absLevel b'.heap (Function.update Q q (Q q ++ [o])) q =
      ⟨(b.heap.level q).price, (absLevel b.heap Q q).orders ++ [⟨id, qty, actor⟩]⟩ := by
    rw [absLevel, absLevel, hprice, Function.update_self, restings, List.map_append]
    exact congrArg (PriceLevel.mk _) (congrArg₂ _ (hres q) (congrArg (fun r => [r]) hnew))
  exact ⟨b', hb', h.entered hrep hstp hcnt hval (fun _ _ hr _ => hr) hside (fun _ _ => rfl) hother
    (insertAt_map_old (fun r => (b.heap.level r).price) (absLevel b.heap Q) (absLevel b'.heap _) ⟨id, qty, actor⟩
      (fun _ => rfl) hself (LawfulLadder.worsening h.rep.tracks s) hq hother)⟩

/-- A new order is the first at its price. -/
theorem rest_new (h : SimBy accepts b a T Q) {id : OrderId} (h0 : id ≠ 0) (hid : b.lookup id = none) {s : Side}
    {price : Price} {q : LevelPtr} {ladder : L} {xs ys : List LevelPtr} (hside : levelSide q = s) (hq : q ∉ T s)
    (hT : T s = xs ++ ys)
    (hg : Ladder.getOrCreate b.ladder b.heap.level s price =
      some (q, ladder, Function.update b.heap.level q { price := price }))
    (ht : LawfulLadder.Tracks ladder (fun r => (Function.update b.heap.level q { price := price } r).price)
      (Function.update T s (xs ++ q :: ys))) (qty : Qty) (actor : ParticipantId) :
    ∃ b', b.rest id s price qty actor = some b' ∧ Sim accepts b' (a.rest s price ⟨id, qty, actor⟩) := by
  have hmem : ∀ s', ∀ r, r ∈ Function.update T s (xs ++ q :: ys) s' ↔ r ∈ T s' ∨ s' = s ∧ r = q := by
    intro s' r
    by_cases hs : s' = s
    · subst hs
      rw [Function.update_self, hT]
      simp only [List.mem_append, List.mem_cons, true_and]
      exact or_left_comm.trans or_comm
    · simp only [Function.update_of_ne hs, hs, false_and, or_false]
  have hself : (Function.update b.heap.level q ({ price := price } : Level) q).price = price := by
    rw [Function.update_self]
  obtain ⟨o, b', hb', hrep, hstp, hcnt, hval, hres, hnew, hprice⟩ :=
    h.rep.enter h0 hid qty actor hg (h.rep.blank_price (hside ▸ hq) price) hself ht
      (fun s' r hr => (hmem s' r).mpr (.inl hr)) ((hmem s q).mpr (.inr ⟨rfl, rfl⟩)) hside
  have hother : ∀ r ≠ q, absLevel b'.heap (Function.update Q q (Q q ++ [o])) r = absLevel b.heap Q r :=
    fun r hr => by rw [absLevel, absLevel, hprice, Function.update_of_ne hr, Function.update_of_ne hr, hres]
  have hempty : Q q = [] := Classical.byContradiction fun e => hq (hside ▸ h.rep.placed q e)
  have hlast : absLevel b'.heap (Function.update Q q (Q q ++ [o])) q = ⟨price, [⟨id, qty, actor⟩]⟩ := by
    rw [absLevel, hprice, hself, Function.update_self, hempty]
    simp only [restings, List.nil_append, List.map_cons, List.map_nil, hnew]
  have hne : ∀ r ∈ xs ++ ys, r ≠ q := fun r hr e => hq (by rw [hT, ← e]; exact hr)
  refine ⟨b', hb', h.entered hrep hstp hcnt hval (fun s' r hr e => ((hmem s' r).mp hr).resolve_right fun e' => e e'.2)
    hside (fun s' hs => Function.update_of_ne hs _ _) hother ?_⟩
  have hworse := LawfulLadder.worsening ht s
  rw [Function.update_self] at hworse ⊢
  obtain ⟨-, hy, hx⟩ := List.pairwise_append.mp hworse
  rw [hT]
  refine insertAt_map_new (absLevel b.heap Q) (absLevel b'.heap _) _ hlast (fun x hxm => ?_) (fun y hym => ?_)
    fun r hr => hother r (hne r hr)
  · have := hx x hxm q List.mem_cons_self
    beta_reduce at this
    rwa [hself, Function.update_of_ne (hne x (List.mem_append_left _ hxm))] at this
  · have := (List.pairwise_cons.mp hy).1 y hym
    beta_reduce at this
    rwa [hself, Function.update_of_ne (hne y (List.mem_append_right _ hym))] at this

/-- A new order joins the queue of its price. -/
theorem rest (h : SimBy accepts b a T Q) (hw : Within L a) {id : OrderId} (h0 : id ≠ 0)
    (hid : b.lookup id = none) {price : Price} (hp : accepts price = true) (s : Side) (qty : Qty)
    (actor : ParticipantId) :
    ∃ b', b.rest id s price qty actor = some b' ∧ Sim accepts b' (a.rest s price ⟨id, qty, actor⟩) := by
  have hv : Ladder.validPrice b.ladder price = true := by rw [h.accepts]; exact hp
  rcases LawfulLadder.getOrCreate_spec h.rep.tracks (h.active hw) (fun q hq => h.rep.blank hq) hv s with
    ⟨q, hq, rfl, hg⟩ | ⟨q, ladder, xs, ys, hside, hq, hT, hg, ht⟩
  · exact h.rest_at h0 hid hq hg qty actor
  · exact h.rest_new h0 hid hside hq hT hg ht qty actor

/-! ## Changes of one queue -/

theorem setCounters (h : SimBy accepts b a T Q) (counters : Counters) :
    SimBy accepts { b with counters } { a with counters } T Q :=
  ⟨h.rep.setCounters counters, h.full, h.levels, h.stp, rfl, h.accepts⟩

/-- The abstract side after the queue of one level changed, and the level was
dropped if it has become empty. -/
theorem modify (h : SimBy accepts b a T Q) {s : Side} {q : LevelPtr} (hq : q ∈ T s) (heap : Heap)
    (Q' : LevelPtr → List OrderPtr) (f : List Resting → List Resting)
    (hprice : ∀ r, (heap.level r).price = (b.heap.level r).price)
    (hother : ∀ r ≠ q, restings heap (Q' r) = restings b.heap (Q r))
    (hself : restings heap (Q' q) = f (restings b.heap (Q q))) :
    (a.setLevels s (modifyAt (b.heap.level q).price f (a.levels s))).levels =
      absLevels heap (if Q' q = [] then Function.update T s ((T s).erase q) else T) Q' := by
  have hnil : Q' q = [] ↔ f (absLevel b.heap Q q).orders = [] := by
    show _ ↔ f (restings b.heap (Q q)) = []
    rw [← hself, restings, List.map_eq_nil_iff]
  have hmod := modifyAt_map (fun r => (b.heap.level r).price) (absLevel b.heap Q) (absLevel heap Q') f
    (fun _ => rfl) (by rw [absLevel, hprice, hself]; rfl) (LawfulLadder.worsening h.rep.tracks s) hq
    (fun r _ hr => by rw [absLevel, absLevel, hprice, hother r hr])
  funext s'
  show Function.update a.levels s _ s' = _
  by_cases hs : s' = s
  · subst hs
    rw [Function.update_self, h.levels, absLevels, absLevels, hmod]
    by_cases e : Q' q = []
    · rw [if_pos (hnil.mp e), if_pos e, Function.update_self]
    · rw [if_neg fun e' => e (hnil.mpr e'), if_neg e]
  · have hT : (if Q' q = [] then Function.update T s ((T s).erase q) else T) s' = T s' := by
      split
      · exact Function.update_of_ne hs _ _
      · rfl
    rw [Function.update_of_ne hs, h.levels, absLevels, absLevels, hT]
    refine List.map_congr_left fun r hr => ?_
    have hne : r ≠ q := fun e => hs (by
      rw [← LawfulLadder.side h.rep.tracks hr, e, LawfulLadder.side h.rep.tracks hq])
    rw [absLevel, absLevel, hprice, hother r hne]

/-- The place of a mapped node. -/
theorem place (h : SimBy accepts b a T Q) {o : OrderPtr} (ho : b.Mapped o) :
    ∃ q, o ∈ Q q ∧ (b.heap.order o).level = some q ∧ q ∈ T (b.heap.order o).side ∧
      (b.heap.order o).price = (b.heap.level q).price ∧ (b.heap.order o).side = levelSide q := by
  obtain ⟨q, hq⟩ := h.rep.mapped_iff.mp ho
  obtain ⟨h1, h2⟩ := h.rep.order q o hq
  exact ⟨q, hq, h.rep.level_eq hq, h2 ▸ h.rep.placed q (List.ne_nil_of_mem hq), h1, h2⟩

/-- A resting order is removed, and its level dropped if that was its last. -/
theorem removeDrop (h : SimBy accepts b a T Q) (hw : Within L a) {o : OrderPtr} (ho : b.Mapped o) :
    ∃ q b₁ b₂, (b.heap.order o).level = some q ∧ b.removeOrder q o = some b₁ ∧
      b₁.dropIfEmpty (b.heap.order o).side q = some b₂ ∧
      Sim accepts b₂
        (a.remove ⟨(b.heap.order o).side, (b.heap.order o).price, (b.heap.order o).resting⟩) := by
  obtain ⟨q, hoq, hlevel, hqT, hprice, hside⟩ := h.place ho
  obtain ⟨xs, ys, hq⟩ := List.append_of_mem hoq
  obtain ⟨b₁, hb₁, hrep, hsame, -⟩ := h.rep.remove hq
  have hshort : ∀ r, (Function.update Q q (xs ++ ys) r).length < 2 ^ 32 := fun r => by
    by_cases e : r = q
    · have := h.small hw q
      rw [hq] at this
      rw [e, Function.update_self]
      simp only [List.length_append, List.length_cons] at this ⊢
      omega
    · rw [Function.update_of_ne e]
      exact h.small hw r
  obtain ⟨b₂, hb₂, hrep₂, hfull₂, hheap, hsame₂⟩ := hrep.drop hqT (fun s' r hr e => by
    rw [Function.update_of_ne e]
    exact h.full s' r hr) hshort (h.fits hw _)
  refine ⟨q, b₁, b₂, hlevel, hb₁, hb₂, _, _, hrep₂, hfull₂, ?_, ?_, ?_, ?_⟩
  · rw [hheap, hprice]
    refine h.modify hqT _ _ _ hsame.price (fun r hr => ?_) ?_
    · rw [Function.update_of_ne hr]
      exact restings_congr fun y _ => hsame.data y
    · rw [Function.update_self, restings_congr fun y _ => hsame.data y]
      exact h.rep.restings_remove hq
  · rw [hsame₂.stp, hsame.stp]
    exact h.stp
  · rw [hsame₂.counters, hsame.counters]
    exact h.counters
  · rw [hsame₂.validPrice, hsame.validPrice]
    exact h.accepts

theorem cancelOpen (h : SimBy accepts b a T Q) (hw : Within L a) {o : OrderPtr} (ho : b.Mapped o) :
    ∃ b', b.cancelOpen o = some b' ∧
      Sim accepts b'
        (a.cancelOpen ⟨(b.heap.order o).side, (b.heap.order o).price, (b.heap.order o).resting⟩) := by
  obtain ⟨q, b₁, b₂, hq, hb₁, hb₂, hs⟩ :=
    (h.setCounters (b.counters.cancel (b.heap.order o).qty)).removeDrop ⟨hw.orders, hw.levels⟩ ho
  refine ⟨b₂, Option.bind_eq_some_iff.mpr ⟨q, hq, Option.bind_eq_some_iff.mpr ⟨b₁, hb₁, hb₂⟩⟩, ?_⟩
  rw [Spec.Book.cancelOpen, h.counters]
  exact hs

/-- Shares off a resting order. -/
theorem reduce (h : SimBy accepts b a T Q) {o : OrderPtr} (ho : b.Mapped o) {take : Qty}
    (hle : take ≤ (b.heap.order o).qty) :
    ∃ q, (b.heap.order o).level = some q ∧
      Sim accepts { b with heap := Level.reduce b.heap q o take }
        (a.reduce ⟨(b.heap.order o).side, (b.heap.order o).price, (b.heap.order o).resting⟩ take) := by
  obtain ⟨q, hoq, hlevel, hqT, hprice, hside⟩ := h.place ho
  have hne : Q q ≠ [] := List.ne_nil_of_mem hoq
  refine ⟨q, hlevel, T, Q, h.rep.reduce hoq hle, h.full, ?_, h.stp, h.counters, h.accepts⟩
  have hmod := h.modify hqT (Level.reduce b.heap q o take) Q
    (Spec.reduceId (b.heap.order o).id take) ?_ ?_ ?_
  · rw [if_neg hne] at hmod
    rw [← hmod, hprice]
    rfl
  · intro r
    simp only [Level.reduce, Heap.modifyLevel_level, Heap.modifyOrder_level]
    split
    · rename_i e; rw [e]
    · rfl
  · intro r hr
    rw [h.rep.restings_reduce hoq, if_neg hr]
  · rw [h.rep.restings_reduce hoq, if_pos rfl]

/-- A feed operation on a resting order. -/
theorem consume (h : SimBy accepts b a T Q) (hw : Within L a) (id : OrderId) (qty : Qty)
    (isExecution : Bool) :
    ∃ b', b.consume id qty isExecution = some ((a.consume id qty isExecution).1, b') ∧
      Sim accepts b' (a.consume id qty isExecution).2 := by
  have hfind := h.rep.inv.find_eq id
  have hafind := h.find_eq id
  cases hl : b.lookup id with
  | none =>
    rw [hl] at hfind hafind
    refine ⟨b, ?_, ?_⟩
    · simp only [OrderBook.consume, hfind, Spec.Book.consume, hafind, Option.map_none,
        Option.bind_eq_bind, Option.bind_some]
    · simp only [Spec.Book.consume, hafind, Option.map_none]
      exact ⟨T, Q, h⟩
  | some o =>
    rw [hl] at hfind hafind
    have ho := h.rep.inv.mapped hl
    by_cases h0 : qty = 0
    · refine ⟨b, ?_, ?_⟩
      · simp only [OrderBook.consume, hfind, Spec.Book.consume, hafind, Option.map_some,
          Option.bind_eq_bind, Option.bind_some, h0, if_true]
      · simp only [Spec.Book.consume, hafind, Option.map_some, h0, if_true]
        exact ⟨T, Q, h⟩
    · have htake : ∀ {x : Qty}, (if qty < x then qty else x) ≤ x := by
        intro x
        split
        · exact UInt32.le_of_lt ‹_›
        · exact UInt32.le_refl x
      rw [Option.map_some] at hafind
      simp only [OrderBook.consume, hfind, Spec.Book.consume, hafind, Option.bind_eq_bind,
        Option.bind_some, if_neg h0]
      let take := if qty < (b.heap.order o).qty then qty else (b.heap.order o).qty
      let counters := if isExecution then b.counters.execute take else b.counters.cancel take
      by_cases ht : take = (b.heap.order o).qty
      · obtain ⟨q, b₁, b₂, hq, hb₁, hb₂, hs⟩ :=
          (h.setCounters counters).removeDrop ⟨hw.orders, hw.levels⟩ ho
        refine ⟨b₂, Option.bind_eq_some_iff.mpr ⟨q, hq, ?_⟩, ?_⟩
        · rw [if_pos ht]
          exact Option.bind_eq_some_iff.mpr ⟨b₁, hb₁, Option.bind_eq_some_iff.mpr ⟨b₂, hb₂, rfl⟩⟩
        · rw [Order.resting, if_pos ht, h.counters]
          exact hs
      · obtain ⟨q, hq, hs⟩ := (h.setCounters counters).reduce ho htake
        refine ⟨{ b with counters, heap := Level.reduce b.heap q o take },
          Option.bind_eq_some_iff.mpr ⟨q, hq, ?_⟩, ?_⟩
        · rw [if_neg ht]
          rfl
        · rw [Order.resting, if_neg ht, h.counters]
          exact hs

end SimBy

end OrderBook

end Pricetime
