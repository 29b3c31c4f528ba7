import Pricetime.Proof.BookMoves

/-!
# The pooled ladder recycles its nodes

A side of a `PooledMapLadder` makes a node only when none is parked, and frees
one only when `kMaxCached` are. While its tree and its parked nodes are all
the nodes it ever made (`Kept`), the parked ones are fewer than that. So on a
side with at most `kMaxCached` levels at a time the nodes made are as many as
the most levels it ever had, and none is lost.
-/

namespace Pricetime

namespace StdMap

variable {K V : Type}

theorem length_emplace (lt : K → K → Bool) : ∀ (m : StdMap K V) (k : K) (v : V),
    (m.emplace lt k v).length = m.length + 1
  | [], _, _ => rfl
  | kv :: m, k, v => by
    have ih := length_emplace lt m k v
    rw [emplace]
    split
    · rw [List.length_cons, ih, List.length_cons]
    · rfl

theorem length_erase [DecidableEq K] {m : StdMap K V} {k : K} {v : V} (h : m.find k = some v) :
    (m.erase k).length + 1 = m.length := by
  obtain ⟨kv, hkv, -⟩ := Option.map_eq_some_iff.mp h
  have hm := List.mem_of_find?_eq_some hkv
  have hlen := List.length_eraseP_of_mem hm (List.find?_some hkv)
  have hpos := List.length_pos_of_mem hm
  rw [erase, hlen]
  omega

end StdMap

namespace PooledSide

variable {m : PooledSide}

/-- Every node ever made is in the tree or parked. -/
def Kept (m : PooledSide) : Prop := m.nodes.length + m.cache.length = m.created

/-- `m'` is `m` with levels gone, their nodes parked if few were ever made. -/
structure Thins (m m' : PooledSide) : Prop where
  created : m'.created = m.created
  nodes : m'.nodes.length ≤ m.nodes.length
  kept : m.Kept → m.created ≤ kMaxCached → m'.Kept

theorem Thins.refl (m : PooledSide) : Thins m m := ⟨rfl, Nat.le_refl _, fun h _ => h⟩

theorem Thins.trans {m₁ m₂ : PooledSide} (h : Thins m m₁) (h' : Thins m₁ m₂) : Thins m m₂ where
  created := h'.created.trans h.created
  nodes := Nat.le_trans h'.nodes h.nodes
  kept hk hc := h'.kept (h.kept hk hc) (by rw [h.created]; exact hc)

theorem park_thins (m : PooledSide) (p : Price) : Thins m (m.park p) := by
  rw [park]
  cases hf : m.nodes.find p with
  | none => exact .refl m
  | some q =>
    have hlen := StdMap.length_erase hf
    refine ⟨rfl, ?_, fun h hc => ?_⟩
    · show (m.nodes.erase p).length ≤ _
      omega
    · -- the node that leaves the tree is not among those parked
      rw [Kept] at h ⊢
      have hroom : m.cache.length < kMaxCached := by omega
      simp only [hroom, if_true, List.length_cons]
      omega

/-- A level that is found, one recycled, or one made. -/
theorem getIn_cases (m : PooledSide) (levels : Levels) (s : Side) (p : Price) :
    (∃ q, m.nodes.find p = some q ∧ m.getIn levels s p = (q, m, levels)) ∨
    ∃ q m', m.nodes.find p = none ∧ m.getIn levels s p = (q, m', Function.update levels q { price := p }) ∧
      m'.nodes.length = m.nodes.length + 1 ∧
      ((m'.cache.length + 1 = m.cache.length ∧ m'.created = m.created) ∨
        (m.cache = [] ∧ m'.cache = [] ∧ m'.created = m.created + 1)) := by
  rw [getIn]
  cases hf : m.nodes.find p with
  | some q => exact .inl ⟨q, rfl, rfl⟩
  | none =>
    cases hc : m.cache with
    | nil => exact .inr ⟨_, _, rfl, rfl, StdMap.length_emplace .., .inr ⟨rfl, rfl, rfl⟩⟩
    | cons q cache => exact .inr ⟨_, _, rfl, rfl, StdMap.length_emplace .., .inl ⟨rfl, rfl⟩⟩

end PooledSide

/-- The nodes of the tree and the parked ones are all that were made. -/
theorem PooledMapLadder.TracksPool.nodes_perm {s : Side} {m : PooledSide} {price : LevelPtr → Price}
    {qs : List LevelPtr} (h : TracksPool s m price qs) (hk : m.Kept) :
    (qs ++ m.cache).Perm ((List.range m.created).map (levelAddr s)) := by
  have hdistinct : (qs ++ m.cache).Nodup :=
    List.nodup_append.mpr ⟨h.tree.worsening.nodup, h.nodup, fun q hq r hr e => (h.parked r hr).1 (e ▸ hq)⟩
  have hsub : qs ++ m.cache ⊆ (List.range m.created).map (levelAddr s) := by
    intro q hq
    have hmade : ∃ k < m.created, q = levelAddr s k :=
      (List.mem_append.mp hq).elim (h.tree.made q) fun hq => (h.parked q hq).2
    obtain ⟨k, hk, rfl⟩ := hmade
    exact List.mem_map_of_mem (List.mem_range.mpr hk)
  have hlen : m.nodes.length = qs.length := by rw [h.tree.nodes, treeNodes, List.length_map]
  refine (hdistinct.subperm hsub).perm_of_length_le ?_
  rw [List.length_map, List.length_range, List.length_append, ← hlen]
  exact Nat.le_of_eq hk.symm

namespace OrderBook

variable {M : Type} [IdMap M] [LawfulIdMap M] {b b' : OrderBook PooledMapLadder M}

theorem Shed.thins (h : Shed b b') (s : Side) : (b.ladder.side s).Thins (b'.ladder.side s) := by
  cases h with
  | counters => exact .refl _
  | policy => exact .refl _
  | reserve hb =>
    obtain ⟨m, -, hb⟩ := Option.bind_eq_some_iff.mp hb
    cases hb
    exact .refl _
  | reduce => exact .refl _
  | remove _ _ hb =>
    obtain ⟨m, -, hb⟩ := Option.bind_eq_some_iff.mp hb
    cases hb
    exact .refl _
  | @drop s' q _ hb =>
    rw [dropIfEmpty] at hb
    split at hb
    · cases hb
      simp only [PooledMapLadder.onLevelEmpty, PooledMapLadder.side_setSide]
      split
      · rename_i e
        rw [e]
        exact PooledSide.park_thins _ _
      · exact .refl _
    · cases hb
      exact .refl _

theorem Sheds.thins (h : Sheds b b') (s : Side) : (b.ladder.side s).Thins (b'.ladder.side s) := by
  induction h with
  | refl => exact .refl _
  | tail _ hs ih => exact ih.trans (hs.thins s)

omit [LawfulIdMap M] in
/-- The ladder after an order came to rest. -/
theorem rest_ladder {id : OrderId} {side : Side} {price : Price} {qty : Qty} {actor : ParticipantId}
    (hb : b.rest id side price qty actor = some b') :
    b'.ladder = (b.ladder.getOrCreate b.heap.level side price).2.1 := by
  obtain ⟨m, -, hb⟩ := Option.bind_eq_some_iff.mp hb
  cases hb
  rfl

/-- A side none of whose nodes was freed, after an operation. -/
theorem apply_kept {s : Side} (h : NodeInv b) (hk : (b.ladder.side s).Kept)
    (hc : (b.ladder.side s).created ≤ PooledSide.kMaxCached) {op : Op} {reply : Reply}
    (hb : b.apply op = some (reply, b')) :
    (b'.ladder.side s).Kept ∧ (b'.ladder.side s).created =
      max (b.ladder.side s).created (b'.ladder.side s).nodes.length := by
  obtain ⟨b₁, hs, hm⟩ := apply_moves h hb
  have ht := hs.thins s
  have hk₁ := ht.kept hk hc
  have hcreated := ht.created
  have hnodes : (b₁.ladder.side s).nodes.length + (b₁.ladder.side s).cache.length = _ := hk₁
  rcases hm with rfl | ⟨id, side, price, qty, actor, -, -, hb⟩
  · exact ⟨hk₁, by omega⟩
  · rw [rest_ladder hb, PooledMapLadder.getOrCreate, PooledMapLadder.side_setSide]
    split
    · rename_i e
      rw [← e]
      rcases (b₁.ladder.side s).getIn_cases b₁.heap.level s price with
        ⟨q, -, hg⟩ | ⟨q, m', -, hg, hlen, ⟨hcache, hmade⟩ | ⟨hnone, hnone', hmade⟩⟩
      · rw [hg]
        refine ⟨hk₁, ?_⟩
        dsimp only
        omega
      · rw [hg, PooledSide.Kept]
        dsimp only
        omega
      · -- no node is parked: this is the most levels that there have been
        rw [hnone, List.length_nil] at hnodes
        rw [hg, PooledSide.Kept]
        dsimp only
        rw [hnone', List.length_nil]
        omega
    · exact ⟨hk₁, by omega⟩

/-- The levels of a side. -/
def levelCount (s : Side) (b : OrderBook PooledMapLadder M) : Nat := (b.ladder.side s).nodes.length

/-- An operation adds one level to a side at most. -/
theorem apply_levelCount (h : NodeInv b) (s : Side) {op : Op} {reply : Reply}
    (hb : b.apply op = some (reply, b')) : levelCount s b' ≤ levelCount s b + 1 := by
  obtain ⟨b₁, hs, hm⟩ := apply_moves h hb
  have hnodes := (hs.thins s).nodes
  rw [levelCount, levelCount]
  rcases hm with rfl | ⟨id, side, price, qty, actor, -, -, hb⟩
  · omega
  · rw [rest_ladder hb, PooledMapLadder.getOrCreate, PooledMapLadder.side_setSide]
    split
    · rename_i e
      rw [← e]
      rcases (b₁.ladder.side s).getIn_cases b₁.heap.level s price with ⟨q, -, hg⟩ | ⟨q, m', -, hg, hlen, -⟩ <;>
      · rw [hg]
        dsimp only
        omega
    · omega

/-- A side that has made few nodes, and freed none. -/
structure Recycles (s : Side) (b : OrderBook PooledMapLadder M) : Prop where
  inv : NodeInv b
  kept : (b.ladder.side s).Kept
  few : (b.ladder.side s).created ≤ PooledSide.kMaxCached

theorem Recycles.apply {s : Side} (h : Recycles s b) {op : Op} {reply : Reply}
    (hb : b.apply op = some (reply, b')) (hlevels : levelCount s b' ≤ PooledSide.kMaxCached) :
    Recycles s b' ∧ (b'.ladder.side s).created = max (b.ladder.side s).created (levelCount s b') := by
  obtain ⟨hn, hk, hc⟩ := h
  obtain ⟨hk', hmade⟩ := apply_kept hn hk hc hb
  rw [levelCount] at hlevels ⊢
  exact ⟨⟨(apply_answered hn hb).inv, hk', by omega⟩, hmade⟩

/-- After every run in which a side never has more than `kMaxCached` levels,
the nodes made for it are as many as the most levels that it had; its tree and
its parked nodes are all of them, each once; and a level that comes out of the
cache is blank. -/
theorem recycling_exact {b₀ : OrderBook PooledMapLadder M} (h₀ : new {} = some b₀) (ops : List Op) (s : Side)
    (hfew : Runs.Along apply Few b₀ ops)
    (hcached : Runs.Along apply (fun b => levelCount s b ≤ PooledSide.kMaxCached) b₀ ops) :
    ∃ b, Runs.run apply b₀ ops = some b ∧
      (b.ladder.side s).created = Runs.peak apply (levelCount s) b₀ ops ∧
      levelCount s b + (b.ladder.side s).cache.length = (b.ladder.side s).created ∧
      ((b.ladder.walk s ++ (b.ladder.side s).cache).Perm
        ((List.range (b.ladder.side s).created).map (levelAddr s))) ∧
      (∀ q, (b.heap.level q).orderCount ≠ 0 ↔ q ∈ b.ladder.walk (levelSide q)) ∧
      ∀ (l : PooledMapLadder) (levels : Levels) (p : Price),
        ((l.side s).nodes.find p = some (l.getOrCreate levels s p).1 ∧ (l.getOrCreate levels s p).2.2 = levels) ∨
        ((l.side s).nodes.find p = none ∧
          (l.getOrCreate levels s p).2.2 (l.getOrCreate levels s p).1 = { price := p }) := by
  obtain ⟨b₁, hb₁, hsim⟩ := new_sim (M := M) PooledMapLadder.vacant
  cases h₀.symm.trans hb₁
  obtain ⟨b, a, hb, -, ⟨T, Q, h⟩, hat⟩ := run_sim Sim.within_of_few hsim ops hfew
  obtain ⟨_, hnew, hn₀, -, hlad, -⟩ := new_inv (M := M) ({} : PooledMapLadder)
  cases h₀.symm.trans hnew
  have hempty : b₀.ladder.side s = {} := by
    rw [hlad]
    cases s <;> rfl
  have hstart : Recycles s b₀ := ⟨hn₀, by rw [hempty]; rfl, by rw [hempty]; exact Nat.zero_le _⟩
  obtain ⟨⟨-, hk, -⟩, hpeak⟩ := Runs.peak_of_steps (I := Recycles s)
    (fun _ _ reply b' h hnext hb => h.apply hb (hnext reply b' hb)) ops hstart
    (by rw [levelCount, hempty]; exact Nat.le_refl _) hcached.next hb
  rw [hempty] at hpeak
  have htracks : PooledMapLadder.Tracks b.ladder (fun q => (b.heap.level q).price) T := h.rep.tracks
  have hwalk : ∀ s, b.ladder.walk s = T s := fun s => (htracks s).tree.walk_eq
  refine ⟨b, hb, hpeak.trans (Nat.zero_max _), hk, ?_, fun q => ?_, fun l levels p => ?_⟩
  · rw [hwalk]
    exact (htracks s).nodes_perm hk
  · rw [hwalk]
    exact h.active (Sim.within_of_few ⟨T, Q, h⟩ hat) q
  · rcases (l.side s).getIn_cases levels s p with ⟨q, hf, hg⟩ | ⟨q, m', hf, hg, -⟩
    · rw [PooledMapLadder.getOrCreate, hg]
      exact .inl ⟨hf, rfl⟩
    · rw [PooledMapLadder.getOrCreate, hg]
      exact .inr ⟨hf, Function.update_self ..⟩

/-- A level that empties, and one at another price after it. -/
theorem recycling_exact_churn : ∃ b₀ b : OrderBook PooledMapLadder OpenAddressIdMap, new {} = some b₀ ∧
    Runs.run apply b₀ [.addLimitAs 7 1 .ask 20 5, .addLimitAs 7 2 .ask 30 5, .cancel 1,
      .addLimitAs 7 3 .ask 40 5] = some b ∧
    (b.ladder.side .ask).created = Runs.peak apply (levelCount .ask) b₀ [.addLimitAs 7 1 .ask 20 5,
      .addLimitAs 7 2 .ask 30 5, .cancel 1, .addLimitAs 7 3 .ask 40 5] := by
  obtain ⟨b₀, h₀, hsim⟩ := new_sim (M := OpenAddressIdMap) PooledMapLadder.vacant
  obtain ⟨_, hnew, hinv, -, hlad, -⟩ := new_inv (M := OpenAddressIdMap) ({} : PooledMapLadder)
  cases h₀.symm.trans hnew
  have hempty : b₀.ladder.side .ask = {} := by rw [hlad]; rfl
  have hfew := along_few hsim [.addLimitAs 7 1 .ask 20 5, .addLimitAs 7 2 .ask 30 5, .cancel 1,
    .addLimitAs 7 3 .ask 40 5] (by decide)
  have hcached : Runs.Along apply (fun b => levelCount .ask b ≤ PooledSide.kMaxCached) b₀ [.addLimitAs 7 1 .ask 20 5,
      .addLimitAs 7 2 .ask 30 5, .cancel 1, .addLimitAs 7 3 .ask 40 5] := by
    refine (Runs.along_le (n := levelCount .ask) (I := NodeInv) ?_ _ ?_ ?_).imp fun _ => Nat.lt_succ_iff.mp
    · exact fun b op reply b' h _ hb => ⟨(apply_answered h hb).inv, apply_levelCount h .ask hb⟩
    · exact hinv
    · rw [levelCount, hempty]
      decide
  obtain ⟨b, hb, hpeak, -⟩ := recycling_exact h₀ _ .ask hfew hcached
  exact ⟨b₀, b, h₀, hb, hpeak⟩

end OrderBook

end Pricetime
