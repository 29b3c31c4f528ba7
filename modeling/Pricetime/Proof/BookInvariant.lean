import Pricetime.Proof.BookRefines

/-!
# The representation invariant of a book

`Invariant b` says what the nodes of book `b` are, by walking them: the levels
of each side are in order and none is empty, each level's queue is a doubly
linked list with the aggregates the level holds, every node on it knows its
place, and the id map holds exactly the nodes of the queues.

`invariant_of_run`: it holds after every run, in which fewer than `2^32`
orders rest at one price.
-/

namespace Pricetime

namespace OrderBook

section Walk

variable {L M : Type} [Ladder L] [IdMap M]

/-- The nodes met from a level's head on, as many as the level counts. -/
def queueOf (b : OrderBook L M) (lvl : LevelPtr) : Option (List OrderPtr) :=
  b.heap.queueFrom (b.heap.level lvl).orderCount.toNat (b.heap.level lvl).head

/-- The nodes reached from the levels of a side. -/
def nodesOn (b : OrderBook L M) (s : Side) : Option (List OrderPtr) := do
  let lvls ← Ladder.levels b.ladder b.heap.level s
  let queues ← lvls.mapM b.queueOf
  some queues.flatten

/-- A level of side `s` and the nodes of its queue. -/
structure LevelOk (b : OrderBook L M) (s : Side) (lvl : LevelPtr) (os : List OrderPtr) : Prop where
  walk : b.queueOf lvl = some os
  nonempty : os ≠ []
  count : (b.heap.level lvl).orderCount.toNat = os.length
  distinct : os.Nodup
  tail : (b.heap.level lvl).tail = os.getLast?
  next : Links.Path (fun o => (b.heap.order o).next) os none
  prev : Links.Path (fun o => (b.heap.order o).prev) os.reverse none
  order : ∀ o ∈ os, (b.heap.order o).level = some lvl ∧ (b.heap.order o).side = s ∧
    (b.heap.order o).price = (b.heap.level lvl).price ∧ 0 < (b.heap.order o).qty
  total : (b.heap.level lvl).totalQty.toNat = (os.map fun o => (b.heap.order o).qty.toNat).sum

structure Invariant (b : OrderBook L M) : Prop where
  side : ∀ s, ∃ lvls, Ladder.levels b.ladder b.heap.level s = some lvls ∧
    lvls.Pairwise (fun q r => s.better (b.heap.level q).price (b.heap.level r).price = true) ∧
    ∀ lvl ∈ lvls, ∃ os, LevelOk b s lvl os
  ids : ∃ bids asks, b.nodesOn .bid = some bids ∧ b.nodesOn .ask = some asks ∧ (bids ++ asks).Nodup ∧
    b.openOrders = (bids ++ asks).length ∧
    ∀ id, ∃ o?, IdMap.find b.orders id = some o? ∧
      ∀ o, o? = some o ↔ o ∈ bids ++ asks ∧ (b.heap.order o).id = id

end Walk

variable {L M : Type} [Ladder L] [LawfulLadder L] [IdMap M] [LawfulIdMap M] {accepts : Price → Bool}
  {b : OrderBook L M} {a : Spec.Book} {T : Side → List LevelPtr} {Q : LevelPtr → List OrderPtr}

namespace SimBy

theorem count_toNat (h : SimBy accepts b a T Q) (hw : Within L a) (q : LevelPtr) :
    (b.heap.level q).orderCount.toNat = (Q q).length := by
  rw [h.rep.count, UInt32.toNat_ofNat']
  exact Nat.mod_eq_of_lt (h.small hw q)

theorem queueOf_eq (h : SimBy accepts b a T Q) (hw : Within L a) (q : LevelPtr) :
    b.queueOf q = some (Q q) := by
  rw [queueOf, h.count_toNat hw, h.rep.head_eq]
  exact Pricetime.queueFrom_eq (h.rep.queue q).path (Nat.le_refl _)

theorem nodesOn_eq (h : SimBy accepts b a T Q) (hw : Within L a) (s : Side) :
    b.nodesOn s = some ((T s).flatMap Q) := by
  have queues : ∀ qs : List LevelPtr, qs.mapM b.queueOf = some (qs.map Q) := by
    intro qs
    induction qs with
    | nil => rfl
    | cons q qs ih =>
      rw [List.mapM_cons, h.queueOf_eq hw, ih]
      rfl
  rw [nodesOn, h.levels_eq hw]
  simp only [Option.bind_eq_bind, Option.bind_some, queues, List.flatMap]

theorem levelOk (h : SimBy accepts b a T Q) (hw : Within L a) (hwf : a.Wf) {s : Side} {q : LevelPtr}
    (hq : q ∈ T s) : LevelOk b s q (Q q) where
  walk := h.queueOf_eq hw q
  nonempty := h.full s q hq
  count := h.count_toNat hw q
  distinct := h.rep.nodup q
  tail := (h.rep.queue q).tail
  next := (h.rep.queue q).path
  prev := by
    refine h.rep.inv.links.path_prev (fun o ho => h.rep.mapped ho) (fun o ho => ?_) (h.rep.queue q).path
    have hhead : b.heap.links.head q = some o := (h.rep.queue q).head.trans ho
    exact (h.rep.inv.links.head hhead).2.1
  order o ho := by
    obtain ⟨hp, hs⟩ := h.rep.order q o ho
    refine ⟨h.rep.level_eq ho, hs.trans (LawfulLadder.side h.rep.tracks hq), hp, ?_⟩
    have hl : absLevel b.heap Q q ∈ a.levels s := by
      rw [h.levels]
      exact List.mem_map_of_mem hq
    have hne := (((hwf.side s).level _ hl).2 _ (List.mem_map_of_mem ho)).2
    exact UInt32.pos_iff_ne_zero.mpr hne
  total := by
    have hlen : (restings b.heap (Q q)).length < 2 ^ 32 := by
      rw [restings, List.length_map]
      exact h.small hw q
    rw [h.rep.total, toNat_totalQty_of_lt hlen, natTotal, restings, List.map_map]
    rfl

theorem invariant (h : SimBy accepts b a T Q) (hw : Within L a) (hwf : a.Wf) : b.Invariant where
  side s := ⟨T s, h.levels_eq hw s, LawfulLadder.worsening h.rep.tracks s,
    fun q hq => ⟨Q q, h.levelOk hw hwf hq⟩⟩
  ids := by
    obtain ⟨hnd, hmem, hlen⟩ := h.nodes
    rw [List.flatMap_append] at hnd hmem hlen
    refine ⟨_, _, h.nodesOn_eq hw .bid, h.nodesOn_eq hw .ask, hnd, hlen, fun id => ⟨b.lookup id,
      h.rep.inv.find_eq id, fun o => ?_⟩⟩
    rw [hmem]
    constructor
    · intro hl
      exact ⟨h.rep.inv.mapped hl, h.rep.inv.id hl⟩
    · rintro ⟨hm, rfl⟩
      exact hm

end SimBy

theorem spec_wf {ops : List Op} {a : Spec.Book} (h : Runs.run (specStep accepts) {} ops = some a) : a.Wf := by
  refine Runs.inv_of_run (I := Spec.Book.Wf) (fun a op out a' hwf hs => ?_) ops Spec.Book.wf_empty h
  obtain ⟨-, rfl⟩ := Prod.mk.inj (Option.some.inj ((specStep_eq a op).symm.trans hs))
  exact hwf.apply accepts op

theorem invariant_of_run {b₀ : OrderBook MapLadder OpenAddressIdMap} (h₀ : new {} = some b₀)
    (ops : List Op) (hfew : Runs.Along apply FewAt b₀ ops) :
    ∃ b, Runs.run apply b₀ ops = some b ∧ b.Invariant := by
  obtain ⟨b, hb, hsim⟩ := new_sim (M := OpenAddressIdMap) MapLadder.vacant
  cases h₀.symm.trans hb
  obtain ⟨b, a, hb, ha, ⟨T, Q, h⟩, hat⟩ := run_sim Sim.within_of_fewAt hsim ops hfew
  exact ⟨b, hb, h.invariant (Sim.within_of_fewAt ⟨T, Q, h⟩ hat) (spec_wf ha)⟩

/-- An order that trades in part, is replaced, and is reduced. -/
theorem invariant_of_run_replace : ∃ b₀ b : OrderBook MapLadder OpenAddressIdMap, new {} = some b₀ ∧
    Runs.run apply b₀ [.addLimitAs 7 1 .bid 5 10, .addLimitAs 8 2 .ask 5 4, .replace 1 3 6 9,
      .insertPassive 4 .ask 8 2, .reduceResting 3 2] = some b ∧ b.Invariant := by
  obtain ⟨b₀, h₀, hsim⟩ := new_sim (M := OpenAddressIdMap) MapLadder.vacant
  obtain ⟨b, hb, hinv⟩ := invariant_of_run h₀ [.addLimitAs 7 1 .bid 5 10, .addLimitAs 8 2 .ask 5 4,
    .replace 1 3 6 9, .insertPassive 4 .ask 8 2, .reduceResting 3 2]
    (along_fewAt hsim (along_few hsim _ (by decide)))
  exact ⟨b₀, b, h₀, hb, hinv⟩

end OrderBook

end Pricetime
