import Pricetime.Proof.BookMoves

/-!
# The order pool is exact

The nodes that the pool ever handed out are the released ones, in the order of
the free list, and those that the id map knows: `Arranged`. A removal moves a
node from the second to the first (`Shed.arranged`), and an order that comes to
rest takes the first of them back, or the next node of the arena if there is
none (`rest_arranged`), so that the arena is as large as the most orders that
ever rested.
-/

namespace Pricetime

/-- Node `o` is reached from the head of level `q`. -/
inductive Heap.Linked (h : Heap) (q : LevelPtr) : OrderPtr → Prop
  | head {o : OrderPtr} (ho : (h.level q).head = some o) : Linked h q o
  | next {o n : OrderPtr} (ho : Linked h q o) (hn : (h.order o).next = some n) : Linked h q n

/-! ## Nodes that an update leaves alone -/

theorem Order.ext_data {x y : Order} (hd : x.data = y.data) (hp : x.prev = y.prev) (hn : x.next = y.next)
    (hl : x.level = y.level) : x = y := by
  cases x
  cases y
  simp_all [Order.data]

namespace Level

variable (h : Heap) (q : LevelPtr) (o : OrderPtr) {y : OrderPtr}

theorem remove_order (ho : (h.order o).prev ≠ some o) (hy : y ≠ o) (hp : (h.order o).prev ≠ some y)
    (hn : (h.order o).next ≠ some y) : (remove h q o).order y = h.order y := by
  have hl := remove_links h q o ho
  refine Order.ext_data (remove_data h q o y) ?_ ?_ ?_
  · refine (congrFun (congrArg Links.prev hl) y).trans ?_
    simp [Links.unlink, Heap.links, hy, hn]
  · refine (congrFun (congrArg Links.next hl) y).trans ?_
    simp [Links.unlink, Heap.links, hy, hp]
  · refine (congrFun (congrArg Links.owner hl) y).trans ?_
    simp [Links.unlink, Heap.links, hy]

theorem pushBack_order (ho : (h.level q).tail ≠ some o) (hy : y ≠ o) (ht : (h.level q).tail ≠ some y) :
    (pushBack h q o).order y = h.order y := by
  have hl := pushBack_links h q o ho
  refine Order.ext_data (pushBack_data h q o y) ?_ ?_ ?_
  · refine (congrFun (congrArg Links.prev hl) y).trans ?_
    simp [Links.append, Heap.links, hy]
  · refine (congrFun (congrArg Links.next hl) y).trans ?_
    simp [Links.append, Heap.links, hy, ht]
  · refine (congrFun (congrArg Links.owner hl) y).trans ?_
    simp [Links.append, Heap.links, hy]

theorem reduce_order (delta : Qty) (hy : y ≠ o) : (reduce h q o delta).order y = h.order y := by
  simp only [reduce, Heap.modifyLevel_order, Heap.modifyOrder_order, if_neg hy]

end Level

/-- A node comes from the free list, reset, or is the next of the arena, where
no node was ever written to. -/
theorem OrderPool.alloc_cases {pool : OrderPool} {h : Heap} (ha : pool.Arena)
    (hblank : ∀ o, pool.total ≤ o → h.order o = {}) :
    (∃ o, pool.freeHead = some o ∧
      pool.alloc h = (o, { pool with freeHead := (h.order o).next }, h.modifyOrder o fun _ => {})) ∨
    (pool.freeHead = none ∧ ∃ pool' : OrderPool, pool.alloc h = (pool.total, pool', h) ∧
      pool'.total = pool.total + 1 ∧ pool'.freeHead = none) := by
  obtain ⟨ha, hused⟩ := ha
  rw [alloc]
  cases hf : pool.freeHead with
  | some o => exact .inl ⟨o, rfl, rfl⟩
  | none =>
    refine .inr ⟨rfl, ?_⟩
    rw [grow]
    by_cases hg : pool.usedInLast = kChunkSize
    · have hsame : (fun p => if p / kChunkSize = pool.chunks then ({} : Order) else h.order p) = h.order := by
        funext p
        split
        · rename_i hp
          have hle : pool.chunks * kChunkSize ≤ p := by
            rw [← hp]
            exact Nat.div_mul_le_self p kChunkSize
          exact (hblank p (by omega)).symm
        · rfl
      have haddr : pool.chunks * kChunkSize = pool.total := by omega
      simp only [if_pos hg, Nat.add_sub_cancel, Nat.add_zero, hsame, haddr]
      exact ⟨_, rfl, rfl, hf⟩
    · obtain ⟨c, hc⟩ : ∃ c, pool.chunks = c + 1 := by
        refine Nat.exists_eq_succ_of_ne_zero fun h0 => ?_
        rw [h0] at ha
        omega
      have haddr : (pool.chunks - 1) * kChunkSize + pool.usedInLast = pool.total := by
        rw [hc, Nat.add_mul] at ha
        rw [hc, Nat.add_sub_cancel]
        omega
      simp only [if_neg hg, haddr]
      exact ⟨_, rfl, rfl, hf⟩

namespace OrderBook

variable {L M : Type} [Ladder L] [LawfulLadder L] [IdMap M] [LawfulIdMap M] {b b₁ b' : OrderBook L M}
  {free : List OrderPtr}

/-- The released nodes are in `free`, and with those in use they are all that
the pool handed out. The others are as they were made. -/
structure Arranged (b : OrderBook L M) (free : List OrderPtr) : Prop where
  frees : b.pool.Frees b.heap free
  nodup : free.Nodup
  dead : ∀ o ∈ free, ¬ b.Mapped o
  used : ∀ o ∈ free, o < b.pool.total
  count : free.length + b.openOrders = b.pool.total
  blank : ∀ o, b.pool.total ≤ o → b.heap.order o = {}

namespace Arranged

omit [Ladder L] [LawfulLadder L] in
/-- A step that leaves the pool, and all nodes that are not in use, alone. -/
theorem keep (ha : Arranged b free) (h : NodeInv b) (hp : b'.pool = b.pool)
    (hm : ∀ o, b'.Mapped o ↔ b.Mapped o) (hs : b'.openOrders = b.openOrders)
    (ho : ∀ o, ¬ b.Mapped o → b'.heap.order o = b.heap.order o) : Arranged b' free where
  frees := by
    rw [OrderPool.Frees, hp]
    exact ⟨ha.frees.1, ha.frees.2.congr fun o hof => congrArg Order.next (ho o (ha.dead o hof))⟩
  nodup := ha.nodup
  dead o hof hmo := ha.dead o hof ((hm o).mp hmo)
  used o hof := by
    rw [hp]
    exact ha.used o hof
  count := by rw [hp, hs, ha.count]
  blank o hle := by
    rw [hp] at hle
    have hnot : ¬ b.Mapped o := fun hmo => absurd (h.used hmo) (Nat.not_lt.mpr hle)
    rw [ho o hnot]
    exact ha.blank o hle

end Arranged

omit [Ladder L] [LawfulLadder L] in
/-- A node is released. -/
theorem Removed.arranged (h : NodeInv b) (ha : Arranged b free) {q : LevelPtr} {o : OrderPtr} (ho : b.Mapped o)
    (hb : b.removeOrder q o = some b') (hr : Removed b q o b') : Arranged b' (o :: free) := by
  obtain ⟨m, -, hb⟩ := Option.bind_eq_some_iff.mp hb
  cases hb
  -- the nodes that are not in use are left alone
  have hkeep : ∀ y, ¬ b.Mapped y → y ≠ o ∧ (Level.remove b.heap q o).order y = b.heap.order y := fun y hy => by
    have hyo : y ≠ o := fun e => hy (e ▸ ho)
    refine ⟨hyo, Level.remove_order _ _ _ (h.prev_ne ho) hyo (fun e => hy ?_) fun e => hy ?_⟩
    · exact (h.links.prev ho e).1
    · exact (h.links.next ho e).1
  refine ⟨⟨rfl, ?_, ?_⟩, List.nodup_cons.mpr ⟨fun hm => ha.dead o hm ho, ha.nodup⟩, fun y hy => ?_, fun y hy => ?_, ?_,
    fun y hy => ?_⟩
  · simp only [Heap.modifyOrder_order, if_true, Option.or_none]
    exact ha.frees.1
  · refine ha.frees.2.congr fun y hy => ?_
    obtain ⟨hyo, hsame⟩ := hkeep y (ha.dead y hy)
    simp only [Heap.modifyOrder_order, if_neg hyo, hsame]
  · rw [hr.mapped]
    rcases List.mem_cons.mp hy with rfl | hy
    · exact fun hm => hm.2 rfl
    · exact fun hm => ha.dead y hy hm.1
  · rcases List.mem_cons.mp hy with rfl | hy
    · exact h.used ho
    · exact ha.used y hy
  · have hopen := hr.openOrders
    have hcount := ha.count
    rw [List.length_cons]
    show _ = b.pool.total
    omega
  · have hle : b.pool.total ≤ y := hy
    have hnot : ¬ b.Mapped y := fun hm => absurd (h.used hm) (Nat.not_lt.mpr hle)
    obtain ⟨hyo, hsame⟩ := hkeep y hnot
    simp only [Heap.modifyOrder_order, if_neg hyo, hsame]
    exact ha.blank y hle

omit [LawfulLadder L] in
theorem Shed.arranged (h : NodeInv b) (ha : Arranged b free) (hs : Shed b b') :
    (∃ free', Arranged b' free') ∧ b'.pool.total = b.pool.total := by
  cases hs with
  | counters c => exact ⟨⟨free, ha.keep h rfl (fun _ => Iff.rfl) rfl fun _ _ => rfl⟩, rfl⟩
  | policy p => exact ⟨⟨free, ha.keep h rfl (fun _ => Iff.rfl) rfl fun _ _ => rfl⟩, rfl⟩
  | @reserve n _ hb =>
    obtain ⟨m, hm, hb⟩ := Option.bind_eq_some_iff.mp hb
    cases hb
    obtain ⟨m', hm', -, hlk, hsize⟩ := LawfulIdMap.reserve_spec h.ok n
    cases hm.symm.trans hm'
    refine ⟨⟨free, ha.keep h rfl (fun o => ?_) hsize fun _ _ => rfl⟩, rfl⟩
    rw [Mapped, lookup, hlk]
    rfl
  | @reduce o ho q delta =>
    refine ⟨⟨free, ha.keep h rfl (reduce_mapped b q o delta) rfl fun y hy => ?_⟩, rfl⟩
    exact Level.reduce_order _ _ _ _ fun e => hy (e ▸ ho)
  | remove ho hq hb =>
    obtain ⟨-, hr⟩ := removeOrder_keeps h ho hq hb
    exact ⟨⟨_, hr.arranged h ha ho hb⟩, hr.rest.2.2.2⟩
  | drop hb =>
    rw [dropIfEmpty] at hb
    split at hb
    · obtain ⟨l, -, hb⟩ := Option.bind_eq_some_iff.mp hb
      cases hb
      exact ⟨⟨free, ha.keep h rfl (fun _ => Iff.rfl) rfl fun _ _ => rfl⟩, rfl⟩
    · cases hb
      exact ⟨⟨free, ha⟩, rfl⟩

theorem Sheds.arranged (h : NodeInv b) (ha : Arranged b free) (hs : Sheds b b') :
    (∃ free', Arranged b' free') ∧ b'.pool.total = b.pool.total := by
  induction hs with
  | refl => exact ⟨⟨free, ha⟩, rfl⟩
  | @tail b₁ b₂ hs hstep ih =>
    obtain ⟨⟨free', ha'⟩, htotal⟩ := ih
    have hk : Keeps b b₁ := Sheds.keeps h hs
    obtain ⟨ha'', htotal'⟩ := hstep.arranged hk.inv ha'
    exact ⟨ha'', htotal'.trans htotal⟩

/-! ## Entry -/

/-- What `alloc` answers when an order comes to rest: a node that is in no
level's queue, and reset. -/
def Allocates (b : OrderBook L M) (side : Side) (price : Price) : Prop :=
  ∃ q ladder level o pool heap, Ladder.getOrCreate b.ladder b.heap.level side price = some (q, ladder, level) ∧
    b.pool.alloc { b.heap with level } = (o, pool, heap) ∧ heap.order o = {} ∧
    (∀ r, ¬ b.heap.Linked r o) ∧ (∀ r, ¬ heap.Linked r o) ∧ o < pool.total

omit [Ladder L] [LawfulLadder L] in
/-- The node that `alloc` hands out, and the free list it leaves. -/
theorem Arranged.alloc (ha : Arranged b free) (h : NodeInv b) (level : Levels) :
    ∃ o pool heap free', b.pool.alloc { b.heap with level } = (o, pool, heap) ∧ ¬ b.Mapped o ∧
      heap.level = level ∧ heap.order o = {} ∧ (∀ y, y ≠ o → heap.order y = b.heap.order y) ∧
      pool.freeHead = free'.head? ∧ Links.Path (fun y => (b.heap.order y).next) free' none ∧
      ((free = o :: free' ∧ pool.total = b.pool.total) ∨
        (free = [] ∧ free' = [] ∧ o = b.pool.total ∧ pool.total = b.pool.total + 1)) := by
  rcases OrderPool.alloc_cases (h := { b.heap with level }) h.arena ha.blank with
    ⟨o, hhead, halloc⟩ | ⟨hhead, pool, halloc, htotal, hnone⟩
  · cases free with
    | nil =>
      rw [ha.frees.1] at hhead
      cases hhead
    | cons x free' =>
      have hx : x = o := Option.some.inj (ha.frees.1.symm.trans hhead)
      subst hx
      refine ⟨x, _, _, free', halloc, ha.dead x List.mem_cons_self, rfl, ?_, fun y hy => ?_, ?_, ha.frees.2.2,
        .inl ⟨rfl, rfl⟩⟩
      · rw [Heap.modifyOrder_order, if_pos rfl]
      · rw [Heap.modifyOrder_order, if_neg hy]
      · exact ha.frees.2.1.trans Option.or_none
  · cases free with
    | cons x free' =>
      rw [ha.frees.1] at hhead
      cases hhead
    | nil =>
      have hfresh : ¬ b.Mapped b.pool.total := fun hm => Nat.lt_irrefl _ (h.used hm)
      exact ⟨_, pool, _, [], halloc, hfresh, rfl, ha.blank _ (Nat.le_refl _), fun _ _ => rfl, hnone, trivial,
        .inr ⟨rfl, rfl, rfl, htotal⟩⟩

omit [Ladder L] [LawfulLadder L] in
/-- A level reaches nodes that are in use. -/
theorem linked_live {heap : Heap} {live : OrderPtr → Prop} (hv : heap.links.Valid live) {q : LevelPtr} {o : OrderPtr}
    (hl : heap.Linked q o) : live o := by
  induction hl with
  | head ho => exact (hv.head ho).1
  | next _ hn ih => exact (hv.next ih hn).1

theorem rest_arranged (h : NodeInv b) (ha : Arranged b free) {id : OrderId} (h0 : id ≠ 0) (hid : b.lookup id = none)
    {side : Side} {price : Price} {qty : Qty} {actor : ParticipantId}
    (hb : b.rest id side price qty actor = some b') :
    (∃ free', Arranged b' free') ∧ b'.pool.total = max b.pool.total b'.openOrders ∧ b.Allocates side price := by
  obtain ⟨⟨q, ladder, level⟩, hg, hb₁⟩ := Option.bind_eq_some_iff.mp hb
  have hframe := (LawfulLadder.getOrCreate_frame hg).1
  obtain ⟨o', b₂, hb₂, -, hr⟩ := rest_spec h h0 hid hg hframe qty actor
  cases hb.symm.trans hb₂
  obtain ⟨o, pool, heap, free', halloc, hfresh, hlevel, hreset, hsame, hhead, hpath, hfree⟩ := ha.alloc h level
  have hvalid := hframe.valid h.links
  have htail : ∀ y, ¬ b.Mapped y → (level q).tail ≠ some y := fun y hy e => hy (hvalid.tail e).1
  -- the node that the id map learns is the one handed out
  obtain ⟨m, hm, -, hlk, -⟩ := LawfulIdMap.insert_spec h.ok h0 hid o
  simp only [halloc, hm, Option.bind_eq_bind, Option.bind_some, Option.some.injEq] at hb₁
  subst hb₁
  have ho' : o' = o := by
    have e := congrFun hr.lookup id
    rw [lookup, hlk, Function.update_self, Function.update_self] at e
    exact (Option.some.inj e).symm
  subst ho'
  have hkeep : ∀ y, y ≠ o' → ¬ b.Mapped y → (Level.pushBack (heap.modifyOrder o' fun x =>
      { x with id := id, price := price, qty := qty, side := side, participant := actor }) q o').order y =
        b.heap.order y := by
    intro y hy hnot
    rw [Level.pushBack_order, Heap.modifyOrder_order, if_neg hy, hsame y hy]
    · rw [Heap.modifyOrder_level, hlevel]
      exact htail o' hfresh
    · exact hy
    · rw [Heap.modifyOrder_level, hlevel]
      exact htail y hnot
  have hunlinked : ∀ r, ¬ heap.Linked r o' := by
    intro r hl
    refine hfresh (linked_live ?_ hl)
    refine hvalid.congr (fun y hy => ?_) (fun y hy => ?_) (fun y hy => ?_) ?_ ?_
    · exact congrArg Order.prev (hsame y fun e => hfresh (e ▸ hy))
    · exact congrArg Order.next (hsame y fun e => hfresh (e ▸ hy))
    · exact congrArg Order.level (hsame y fun e => hfresh (e ▸ hy))
    · funext r
      exact congrArg Level.head (congrFun hlevel r)
    · funext r
      exact congrArg Level.tail (congrFun hlevel r)
  have hsub : ∀ y ∈ free', y ∈ free ∧ y ≠ o' := by
    rcases hfree with ⟨rfl, -⟩ | ⟨rfl, rfl, -⟩
    · exact fun y hy => ⟨List.mem_cons_of_mem _ hy, fun e => (List.nodup_cons.mp ha.nodup).1 (e ▸ hy)⟩
    · simp
  have htotal : b.pool.total ≤ pool.total ∧ o' < pool.total := by
    rcases hfree with ⟨rfl, ht⟩ | ⟨-, -, rfl, ht⟩
    · exact ⟨Nat.le_of_eq ht.symm, by rw [ht]; exact ha.used o' List.mem_cons_self⟩
    · rw [ht]
      exact ⟨Nat.le_succ _, Nat.lt_succ_self _⟩
  have hopen := hr.openOrders
  have hcount := ha.count
  refine ⟨⟨free', ⟨hhead, ?_⟩, ?_, fun y hy => ?_, fun y hy => ?_, ?_, fun y hy => ?_⟩, ?_,
    q, ladder, level, o', pool, heap, hg, halloc, hreset, fun r hl => hfresh (linked_live h.links hl), hunlinked,
    htotal.2⟩
  · refine hpath.congr fun y hy => ?_
    obtain ⟨hyf, hyo⟩ := hsub y hy
    exact congrArg Order.next (hkeep y hyo (ha.dead y hyf))
  · rcases hfree with ⟨rfl, -⟩ | ⟨-, rfl, -⟩
    · exact (List.nodup_cons.mp ha.nodup).2
    · exact List.nodup_nil
  · obtain ⟨hyf, hyo⟩ := hsub y hy
    rw [hr.mapped]
    exact not_or.mpr ⟨hyo, ha.dead y hyf⟩
  · exact Nat.lt_of_lt_of_le (ha.used y (hsub y hy).1) htotal.1
  · show _ = pool.total
    rcases hfree with ⟨rfl, ht⟩ | ⟨rfl, rfl, -, ht⟩
    · rw [List.length_cons] at hcount
      omega
    · rw [List.length_nil] at hcount ⊢
      omega
  · have hle : pool.total ≤ y := hy
    have hold := Nat.le_trans htotal.1 hle
    have hnot : ¬ b.Mapped y := fun hm => absurd (h.used hm) (Nat.not_lt.mpr hold)
    have hne : y ≠ o' := fun e => Nat.lt_irrefl _ (Nat.lt_of_lt_of_le htotal.2 (e ▸ hle))
    exact (hkeep y hne hnot).trans (ha.blank y hold)
  · show pool.total = _
    rcases hfree with ⟨rfl, ht⟩ | ⟨rfl, rfl, -, ht⟩
    · rw [List.length_cons] at hcount
      omega
    · rw [List.length_nil] at hcount
      omega

/-! ## Runs -/

/-- The nodes that the pool handed out are the released ones, on the free list,
and those of the resting orders, which alone are in the levels' queues. -/
structure PoolOk (b : OrderBook L M) : Prop where
  nodes : ∃ free live, b.pool.Frees b.heap free ∧ (∀ o, o ∈ live ↔ b.Mapped o) ∧ live.length = b.openOrders ∧
    (free ++ live).Perm (List.range b.pool.allocated)
  linked : ∀ q o, b.heap.Linked q o → b.Mapped o

/-- Each release is of a node that is not free, and makes it the first that is. -/
def Releases (b : OrderBook L M) : Prop :=
  ∀ q o b', b.Mapped o → (b.heap.order o).level = some q → b.removeOrder q o = some b' →
    ∃ free, b.pool.Frees b.heap free ∧ o ∉ free ∧ b'.pool.Frees b'.heap (o :: free)

omit [Ladder L] [LawfulLadder L] in
theorem Arranged.poolOk (ha : Arranged b free) (h : NodeInv b) : PoolOk b := by
  refine ⟨?_, fun q o hl => linked_live h.links hl⟩
  obtain ⟨live, hnd, hlive, hlen⟩ := h.count
  refine ⟨free, live, ha.frees, hlive, hlen, ?_⟩
  have hdistinct : (free ++ live).Nodup :=
    List.nodup_append.mpr ⟨ha.nodup, hnd, fun x hx y hy e => ha.dead x hx (e ▸ (hlive y).mp hy)⟩
  have hsub : free ++ live ⊆ List.range b.pool.allocated := fun o ho =>
    List.mem_range.mpr ((List.mem_append.mp ho).elim (ha.used o) fun ho => h.used ((hlive o).mp ho))
  refine (hdistinct.subperm hsub).perm_of_length_le ?_
  rw [List.length_range, List.length_append, hlen, ha.count]
  exact Nat.le_refl _

omit [LawfulLadder L] in
theorem Arranged.releases (ha : Arranged b free) (h : NodeInv b) : Releases b := by
  intro q o b' ho hq hb
  obtain ⟨-, hr⟩ := removeOrder_keeps h ho hq hb
  exact ⟨free, ha.frees, fun hm => ha.dead o hm ho, (hr.arranged h ha ho hb).frees⟩

/-- An operation, with the one entry that it may end in. -/
theorem apply_arranged (h : NodeInv b) (ha : Arranged b free) {op : Op} {reply : Reply}
    (hb : b.apply op = some (reply, b')) :
    (∃ free', Arranged b' free') ∧ b'.pool.total = max b.pool.total b'.openOrders ∧
      ∃ b₁, Sheds b b₁ ∧ (b' = b₁ ∨ ∃ id side price qty actor, b₁.rest id side price qty actor = some b' ∧
        b₁.Allocates side price) := by
  obtain ⟨b₁, hs, hm⟩ := apply_moves h hb
  obtain ⟨⟨free₁, ha₁⟩, htotal⟩ := hs.arranged h ha
  have h₁ := (hs.keeps h).inv
  rcases hm with rfl | ⟨id, side, price, qty, actor, h0, hid, hb⟩
  · have hcount := ha₁.count
    exact ⟨⟨free₁, ha₁⟩, by omega, _, hs, .inl rfl⟩
  · obtain ⟨ha', htotal', halloc⟩ := rest_arranged h₁ ha₁ h0 hid hb
    exact ⟨ha', by omega, b₁, hs, .inr ⟨id, side, price, qty, actor, hb, halloc⟩⟩

omit [Ladder L] [LawfulLadder L] in
/-- The nodes on a path from the head of a level. -/
theorem linked_of_path {heap : Heap} {q : LevelPtr} : ∀ {xs : List OrderPtr} {n : Option OrderPtr},
    Links.Path (fun y => (heap.order y).next) xs n → (∀ x, xs.head? = some x → heap.Linked q x) →
      ∀ x ∈ xs, heap.Linked q x
  | [], _, _, _ => nofun
  | x :: xs, n, hp, hh => by
    have hx := hh x rfl
    intro y hy
    rcases List.mem_cons.mp hy with rfl | hy
    · exact hx
    · refine linked_of_path hp.2 (fun z hz => ?_) y hy
      exact .next hx (hp.1.trans (by rw [hz]; rfl))

omit [Ladder L] [LawfulLadder L] in
/-- The pool of a new book. -/
theorem new_arranged {ladder : L} (hb : new ladder = some b) (h : NodeInv b) : Arranged b [] := by
  obtain ⟨m₀, -, hb⟩ := Option.bind_eq_some_iff.mp hb
  obtain ⟨m, -, hb⟩ := Option.bind_eq_some_iff.mp hb
  cases hb
  refine ⟨⟨rfl, trivial⟩, List.nodup_nil, nofun, nofun, ?_, fun _ _ => rfl⟩
  obtain ⟨live, -, hlive, hlen⟩ := h.count
  -- no node is in use, as none was handed out
  have hnil : live = [] := List.eq_nil_iff_forall_not_mem.mpr fun o ho =>
    absurd (h.used ((hlive o).mp ho)) (Nat.not_lt_zero o)
  rw [hnil] at hlen
  rw [← hlen]
  rfl

theorem arranged_of_run {ladder : L} {b₀ : OrderBook L M} (h₀ : new ladder = some b₀) {ops : List Op}
    (hb : Runs.run apply b₀ ops = some b) :
    NodeInv b ∧ (∃ free, Arranged b free) ∧ b.pool.total = Runs.peak apply openOrders b₀ ops := by
  obtain ⟨b₁, hb₁, h, -⟩ := new_inv (M := M) ladder
  cases h₀.symm.trans hb₁
  have ha := new_arranged h₀ h
  have hempty : openOrders b₀ = b₀.pool.total := by
    rw [← ha.count, List.length_nil, Nat.zero_add]
  have hstep : ∀ (b : OrderBook L M) op reply b', NodeInv b ∧ (∃ free, Arranged b free) → True →
      b.apply op = some (reply, b') → (NodeInv b' ∧ ∃ free, Arranged b' free) ∧
        b'.pool.total = max b.pool.total b'.openOrders := by
    rintro b op reply b' ⟨h, free, ha⟩ - hb
    obtain ⟨ha', htotal, -⟩ := apply_arranged h ha hb
    exact ⟨⟨(apply_answered h hb).inv, ha'⟩, htotal⟩
  obtain ⟨⟨h, hfree⟩, hpeak⟩ := Runs.peak_of_steps hstep ops ⟨h, [], ha⟩ (Nat.le_of_eq hempty)
    (Runs.steps_true b₀ ops) hb
  refine ⟨h, hfree, hpeak.trans (Nat.max_eq_right ?_)⟩
  rw [← hempty]
  exact Runs.le_peak ..

/-- With few orders, the orders in use are those in the levels' queues. -/
theorem SimBy.linked_iff {accepts : Price → Bool} {a : Spec.Book} {T : Side → List LevelPtr}
    {Q : LevelPtr → List OrderPtr} (h : SimBy accepts b a T Q) (o : OrderPtr) :
    b.Mapped o ↔ ∃ q, b.heap.Linked q o := by
  refine ⟨fun ho => ?_, fun ⟨q, hl⟩ => linked_live h.rep.inv.links hl⟩
  obtain ⟨q, hq⟩ := h.rep.inv.owned ho
  have hqueue := h.rep.queue q
  exact ⟨q, linked_of_path hqueue.path (fun x hx => .head (hqueue.head.trans hx)) o ((hqueue.mem o).mpr ⟨ho, hq⟩)⟩

/-- After every run of a book, the pool's nodes are accounted for; no operation
releases a node twice, or is handed out one that is in a queue or not reset;
and there are as many as the most orders that ever rested. -/
theorem pool_exact {ladder : L} (hv : Vacant ladder) {b₀ : OrderBook L M} (h₀ : new ladder = some b₀)
    (ops : List Op) :
    (∀ b, Runs.run apply b₀ ops = some b →
      PoolOk b ∧ b.pool.allocated = Runs.peak apply openOrders b₀ ops ∧
      (∀ b₁, Sheds b b₁ → PoolOk b₁ ∧ Releases b₁) ∧
      ∀ op reply b', b.apply op = some (reply, b') →
        ∃ b₁, Sheds b b₁ ∧ (b' = b₁ ∨ ∃ id side price qty actor, b₁.rest id side price qty actor = some b' ∧
          b₁.Allocates side price)) ∧
    (Runs.Along apply Few b₀ ops →
      ∃ b, Runs.run apply b₀ ops = some b ∧ ∀ o, b.Mapped o ↔ ∃ q, b.heap.Linked q o) := by
  refine ⟨fun b hb => ?_, fun hfew => ?_⟩
  · obtain ⟨h, ⟨free, ha⟩, hpeak⟩ := arranged_of_run h₀ hb
    refine ⟨ha.poolOk h, hpeak, fun b₁ hs => ?_, fun op reply b' hb => (apply_arranged h ha hb).2.2⟩
    obtain ⟨⟨free₁, ha₁⟩, -⟩ := hs.arranged h ha
    have h₁ := (hs.keeps h).inv
    exact ⟨ha₁.poolOk h₁, ha₁.releases h₁⟩
  · obtain ⟨b₁, hb₁, hsim⟩ := new_sim (M := M) hv
    cases h₀.symm.trans hb₁
    obtain ⟨b, a, hb, -, ⟨T, Q, h⟩, -⟩ := run_sim Sim.within_of_few hsim ops hfew
    exact ⟨b, hb, h.linked_iff⟩

/-- An order that is filled, and another that rests in its node. -/
theorem pool_exact_recycled : ∃ b₀ b : OrderBook MapLadder OpenAddressIdMap, new {} = some b₀ ∧
    Runs.run apply b₀ [.addLimitAs 7 1 .ask 20 5, .addLimitAs 8 2 .bid 20 5, .insertPassive 3 .bid 19 4] = some b ∧
    PoolOk b ∧ b.pool.allocated = Runs.peak apply openOrders b₀ [.addLimitAs 7 1 .ask 20 5,
      .addLimitAs 8 2 .bid 20 5, .insertPassive 3 .bid 19 4] := by
  obtain ⟨b₀, h₀, hsim⟩ := new_sim (M := OpenAddressIdMap) MapLadder.vacant
  obtain ⟨hpool, hrun⟩ := pool_exact MapLadder.vacant h₀ [.addLimitAs 7 1 .ask 20 5, .addLimitAs 8 2 .bid 20 5,
    .insertPassive 3 .bid 19 4]
  obtain ⟨b, hb, -⟩ := hrun (along_few hsim _ (by decide))
  obtain ⟨hok, hpeak, -⟩ := hpool b hb
  exact ⟨b₀, b, h₀, hb, hok, hpeak⟩

end OrderBook

end Pricetime
