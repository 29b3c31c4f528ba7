import Pricetime.Impl.Ladder

/-!
# Lawful ladders

What a book may rely on of its ladder (`LawfulLadder`). `Tracks l price T`
says that ladder `l` holds, on each side `s`, exactly the levels `T s`, best
first, at the prices `price`. The dense ladder tells its levels by their order
counts, so that its operations need `Active`: a count is zero exactly off the
ladder.
-/

namespace Pricetime

/-! ## Counts -/

/-- A count below `2^32` is zero only if it is. -/
theorem ofNat_ne_zero {n : Nat} (hlt : n < 2 ^ 32) (h : n ≠ 0) : UInt32.ofNat n ≠ 0 := fun e => by
  have := congrArg UInt32.toNat e
  rw [UInt32.toNat_ofNat_of_lt' hlt] at this
  exact h this

theorem ofNat_succ_sub_one (n : Nat) : UInt32.ofNat (n + 1) - 1 = UInt32.ofNat n := by
  rw [UInt32.ofNat_add]
  exact UInt32.add_sub_cancel _ _

/-! ## Prices of a side -/

namespace Side

theorem better_irrefl (s : Side) (a : Price) : s.better a a = false := by
  cases s <;> simp [better]

theorem better_trans {s : Side} {a b c : Price} (h₁ : s.better a b = true) (h₂ : s.better b c = true) :
    s.better a c = true := by
  cases s <;> simp only [better, decide_eq_true_eq] at * <;> grind

theorem better_total {s : Side} {a b : Price} (h : s.better a b = false) (hne : a ≠ b) :
    s.better b a = true := by
  cases s <;> simp only [better, decide_eq_true_eq, decide_eq_false_iff_not] at * <;> grind

theorem better_asymm {s : Side} {a b : Price} (h : s.better a b = true) : s.better b a = false := by
  cases s <;> simp only [better, decide_eq_true_eq, decide_eq_false_iff_not] at * <;> grind

/-- To be no worse is transitive, and total by asymmetry. -/
theorem no_worse_trans {s : Side} {a b c : Price} (h₁ : s.better b a = false) (h₂ : s.better c b = false) :
    s.better c a = false := by
  cases s <;> simp only [better, decide_eq_false_iff_not] at * <;> grind

end Side

theorem Side.opposite_of_ne {s s' : Side} (h : s ≠ s') : s = opposite s' := by
  cases s <;> cases s' <;> first | rfl | exact absurd rfl h

theorem Side.opposite_ne (s : Side) : opposite s ≠ s := by
  cases s <;> decide

/-- An aggressor that reaches a price reaches every better one. -/
theorem reaches_mono {side : Side} {limit : Option Price} {p p' : Price} (h : reaches side limit p' = true)
    (hb : (opposite side).better p p' = true) : reaches side limit p = true := by
  cases limit with
  | none => rfl
  | some price =>
    cases side <;> simp only [reaches, crosses, opposite, Side.better, decide_eq_true_eq] at * <;> grind

/-- The side whose nodes are at an address. -/
def levelSide (q : LevelPtr) : Side := if q % 2 = 0 then .bid else .ask

theorem levelSide_levelAddr (s : Side) (k : Nat) : levelSide (levelAddr s k) = s := by
  cases s <;> simp [levelSide, levelAddr, Side.index]

theorem levelAddr_inj {s : Side} {k k' : Nat} (h : levelAddr s k = levelAddr s k') : k = k' := by
  have h : 2 * k + s.index = 2 * k' + s.index := h
  omega

/-- The levels `qs` are in strictly worsening order of their prices. -/
def Worsening (s : Side) (price : LevelPtr → Price) (qs : List LevelPtr) : Prop :=
  qs.Pairwise fun q r => s.better (price q) (price r) = true

theorem Worsening.nodup {s : Side} {price : LevelPtr → Price} {qs : List LevelPtr}
    (h : Worsening s price qs) : qs.Nodup :=
  h.imp fun {q r} (hqr : s.better (price q) (price r) = true) (e : q = r) => by
    rw [e, Side.better_irrefl] at hqr
    cases hqr

theorem Worsening.price_inj {s : Side} {price : LevelPtr → Price} :
    ∀ {qs : List LevelPtr}, Worsening s price qs → ∀ {q r}, q ∈ qs → r ∈ qs → price q = price r → q = r
  | x :: qs, h, q, r, hq, hr, e => by
    obtain ⟨hx, hs⟩ := List.pairwise_cons.mp h
    have ne : ∀ y ∈ qs, price x ≠ price y := fun y hy e => by
      have := hx y hy
      rw [e, Side.better_irrefl] at this
      cases this
    rcases List.mem_cons.mp hq with rfl | hq' <;> rcases List.mem_cons.mp hr with rfl | hr'
    · rfl
    · exact absurd e (ne r hr')
    · exact absurd e.symm (ne q hq')
    · exact Worsening.price_inj hs hq' hr' e

theorem Worsening.congr {s : Side} {price price' : LevelPtr → Price} {qs : List LevelPtr}
    (h : Worsening s price qs) (hp : ∀ q ∈ qs, price' q = price q) : Worsening s price' qs :=
  List.Pairwise.imp_of_mem (fun {q r} hq hr hb => by rw [hp q hq, hp r hr]; exact hb) h

/-- A level between those better and those worse. -/
theorem Worsening.insert {s : Side} {price : LevelPtr → Price} {xs ys : List LevelPtr} {q : LevelPtr}
    (h : Worsening s price (xs ++ ys)) (hx : ∀ x ∈ xs, s.better (price x) (price q) = true)
    (hy : ∀ y ∈ ys, s.better (price q) (price y) = true) : Worsening s price (xs ++ q :: ys) := by
  obtain ⟨h1, h2, h3⟩ := List.pairwise_append.mp h
  refine List.pairwise_append.mpr ⟨h1, List.pairwise_cons.mpr ⟨hy, h2⟩, fun x hxm y hym => ?_⟩
  rcases List.mem_cons.mp hym with rfl | hym
  · exact hx x hxm
  · exact h3 x hxm y hym

/-! ## The laws -/

/-- The levels after `getOrCreate` returned level `q`: no other level has
changed, and its queue is what it was or empty. -/
structure LevelFrame (q : LevelPtr) (level level' : Levels) : Prop where
  other : ∀ r, r ≠ q → level' r = level r
  ends : ((level' q).head = (level q).head ∧ (level' q).tail = (level q).tail) ∨
    ((level' q).head = none ∧ (level' q).tail = none)

theorem LevelFrame.refl (q : LevelPtr) (level : Levels) : LevelFrame q level level :=
  ⟨fun _ _ => rfl, .inl ⟨rfl, rfl⟩⟩

/-- A level has orders exactly if it is on the ladder. -/
def Active (level : Levels) (T : Side → List LevelPtr) : Prop :=
  ∀ q, (level q).orderCount ≠ 0 ↔ q ∈ T (levelSide q)

/-- A level with no orders and nothing left of any. -/
def Level.Blank (l : Level) : Prop := l = { price := l.price }

class LawfulLadder (L : Type) [Ladder L] where
  Tracks : L → (LevelPtr → Price) → (Side → List LevelPtr) → Prop
  /-- The number of levels a side may have. -/
  Fits : Nat → Prop
  fits_of_lt {n : Nat} (h : n < 2 ^ 32) : Fits n
  fits_mono {m n : Nat} (h : Fits n) (hm : m ≤ n) : Fits m
  getOrCreate_frame {l l' : L} {level level' : Levels} {s : Side} {p : Price} {q : LevelPtr}
    (h : Ladder.getOrCreate l level s p = some (q, l', level')) :
    LevelFrame q level level' ∧ Ladder.validPrice l' = Ladder.validPrice l
  onLevelEmpty_frame {l l' : L} {level : Levels} {s : Side} {q : LevelPtr}
    (h : Ladder.onLevelEmpty l level s q = some l') : Ladder.validPrice l' = Ladder.validPrice l
  congr {l : L} {price price' : LevelPtr → Price} {T : Side → List LevelPtr} (h : Tracks l price T)
    (hp : ∀ s, ∀ q ∈ T s, price' q = price q) : Tracks l price' T
  worsening {l : L} {price : LevelPtr → Price} {T : Side → List LevelPtr} (h : Tracks l price T)
    (s : Side) : Worsening s price (T s)
  side {l : L} {price : LevelPtr → Price} {T : Side → List LevelPtr} (h : Tracks l price T) {s : Side}
    {q : LevelPtr} (hq : q ∈ T s) : levelSide q = s
  best_eq {l : L} {price : LevelPtr → Price} {T : Side → List LevelPtr} (h : Tracks l price T)
    (s : Side) : Ladder.best l s = (T s).head?
  levels_eq {l : L} {level : Levels} {T : Side → List LevelPtr}
    (h : Tracks l (fun q => (level q).price) T) (ha : Active level T) (s : Side)
    (hf : Fits (T s).length) : Ladder.levels l level s = some (T s)
  /-- The level at a valid price is one of the ladder's, or a blank one that
  joins them. -/
  getOrCreate_spec {l : L} {level : Levels} {T : Side → List LevelPtr}
    (h : Tracks l (fun q => (level q).price) T) (ha : Active level T)
    (hb : ∀ q, q ∉ T (levelSide q) → (level q).Blank) {p : Price}
    (hp : Ladder.validPrice l p = true) (s : Side) :
    (∃ q ∈ T s, (level q).price = p ∧ Ladder.getOrCreate l level s p = some (q, l, level)) ∨
    ∃ q l' xs ys, levelSide q = s ∧ q ∉ T s ∧ T s = xs ++ ys ∧
      Ladder.getOrCreate l level s p = some (q, l', Function.update level q { price := p }) ∧
      Tracks l' (fun r => (Function.update level q { price := p } r).price)
        (Function.update T s (xs ++ q :: ys))
  onLevelEmpty_spec {l : L} {level : Levels} {T : Side → List LevelPtr}
    (h : Tracks l (fun q => (level q).price) T) {s : Side} {q : LevelPtr} (hq : q ∈ T s)
    (ha : ∀ r, (level r).orderCount ≠ 0 ↔ r ∈ T (levelSide r) ∧ r ≠ q) (hf : Fits (T s).length) :
    ∃ l', Ladder.onLevelEmpty l level s q = some l' ∧
      Tracks l' (fun q => (level q).price) (Function.update T s ((T s).erase q))

/-- A ladder without levels. -/
def Vacant {L : Type} [Ladder L] [LawfulLadder L] (ladder : L) : Prop :=
  LawfulLadder.Tracks ladder (fun _ => (0 : Price)) fun _ => []

/-! ## Sorted trees -/

/-- The nodes of a side's tree. -/
def treeNodes (price : LevelPtr → Price) (qs : List LevelPtr) : StdMap Price LevelPtr :=
  qs.map fun q => (price q, q)

namespace StdMap

theorem find_treeNodes (price : LevelPtr → Price) (p : Price) : ∀ qs : List LevelPtr,
    (treeNodes price qs).find p = qs.find? fun q => price q = p
  | [] => rfl
  | q :: qs => by
    have ih := find_treeNodes price p qs
    by_cases h : price q = p
    · simp [find, treeNodes, h]
    · simp only [find, treeNodes, List.map_cons, List.find?_cons, h, decide_false] at ih ⊢
      exact ih

/-- Where `emplace` puts a node whose key is not in the tree. -/
theorem emplace_treeNodes {s : Side} {price : LevelPtr → Price} {p : Price} (q : LevelPtr) :
    ∀ {qs : List LevelPtr}, Worsening s price qs → (∀ r ∈ qs, price r ≠ p) →
      ∃ xs ys, qs = xs ++ ys ∧ (∀ x ∈ xs, s.better (price x) p = true) ∧
        (∀ y ∈ ys, s.better p (price y) = true) ∧
        emplace s.better (treeNodes price qs) p q = treeNodes price xs ++ (p, q) :: treeNodes price ys
  | [], _, _ => ⟨[], [], rfl, nofun, nofun, rfl⟩
  | r :: qs, h, hne => by
    obtain ⟨hr, h⟩ := List.pairwise_cons.mp h
    by_cases hb : s.better (price r) p = true
    · obtain ⟨xs, ys, hqs, hx, hy, he⟩ := emplace_treeNodes q h fun r hr => hne r (List.mem_cons_of_mem _ hr)
      refine ⟨r :: xs, ys, by rw [hqs]; rfl, fun x hxm => ?_, hy, ?_⟩
      · rcases List.mem_cons.mp hxm with rfl | hxm
        · exact hb
        · exact hx x hxm
      · show (if s.better (price r) p then _ else _) = _
        rw [if_pos hb]
        exact congrArg (List.cons (price r, r)) he
    · have hpr := Side.better_total (Bool.eq_false_iff.mpr hb) (hne r List.mem_cons_self)
      refine ⟨[], r :: qs, rfl, nofun, fun y hy => ?_, ?_⟩
      · rcases List.mem_cons.mp hy with rfl | hy
        · exact hpr
        · exact Side.better_trans hpr (hr y hy)
      · show (if s.better (price r) p then _ else _) = _
        rw [if_neg hb]
        rfl

theorem erase_treeNodes {s : Side} {price : LevelPtr → Price} : ∀ {qs : List LevelPtr},
    Worsening s price qs → ∀ {q}, q ∈ qs →
      (treeNodes price qs).erase (price q) = treeNodes price (qs.erase q)
  | r :: qs, h, q, hq => by
    have hinj := h.price_inj hq List.mem_cons_self
    obtain ⟨-, h⟩ := List.pairwise_cons.mp h
    by_cases e : r = q
    · subst e
      simp [erase, treeNodes]
    · have hp : price r ≠ price q := fun e' => e (hinj e'.symm).symm
      have hq' : q ∈ qs := (List.mem_cons.mp hq).resolve_left (Ne.symm e)
      have ih := erase_treeNodes h hq'
      simp only [erase, treeNodes, List.map_cons, List.eraseP_cons, hp, decide_false,
        List.erase_cons, beq_iff_eq, e] at ih ⊢
      simp [ih]

end StdMap

theorem treeNodes_congr {price price' : LevelPtr → Price} {qs : List LevelPtr}
    (h : ∀ q ∈ qs, price' q = price q) : treeNodes price' qs = treeNodes price qs :=
  List.map_congr_left fun q hq => by rw [h q hq]

theorem treeNodes_append (price : LevelPtr → Price) (xs ys : List LevelPtr) :
    treeNodes price (xs ++ ys) = treeNodes price xs ++ treeNodes price ys := List.map_append

/-- A tree, of nodes at the first `created` addresses of its side. -/
structure TracksTree (s : Side) (nodes : StdMap Price LevelPtr) (created : Nat)
    (price : LevelPtr → Price) (qs : List LevelPtr) : Prop where
  nodes : nodes = treeNodes price qs
  worsening : Worsening s price qs
  made : ∀ q ∈ qs, ∃ k < created, q = levelAddr s k

namespace TracksTree

variable {s : Side} {nodes : StdMap Price LevelPtr} {created : Nat} {price : LevelPtr → Price}
  {qs : List LevelPtr}

theorem empty (s : Side) (price : LevelPtr → Price) : TracksTree s [] 0 price [] :=
  ⟨rfl, List.Pairwise.nil, nofun⟩

theorem congr {price' : LevelPtr → Price} (h : TracksTree s nodes created price qs)
    (hp : ∀ q ∈ qs, price' q = price q) : TracksTree s nodes created price' qs :=
  ⟨h.nodes.trans (treeNodes_congr hp).symm, h.worsening.congr hp, h.made⟩

theorem side (h : TracksTree s nodes created price qs) {q : LevelPtr} (hq : q ∈ qs) :
    levelSide q = s := by
  obtain ⟨k, -, rfl⟩ := h.made q hq
  exact levelSide_levelAddr s k

theorem best_eq (h : TracksTree s nodes created price qs) : nodes.head?.map Prod.snd = qs.head? := by
  rw [h.nodes]
  cases qs <;> rfl

theorem walk_eq (h : TracksTree s nodes created price qs) : nodes.map Prod.snd = qs := by
  rw [h.nodes, treeNodes, List.map_map]
  exact List.map_id qs

theorem find_some (h : TracksTree s nodes created price qs) {p : Price} {q : LevelPtr}
    (hq : nodes.find p = some q) : q ∈ qs ∧ price q = p := by
  rw [h.nodes, StdMap.find_treeNodes] at hq
  exact ⟨List.mem_of_find?_eq_some hq, by simpa using List.find?_some hq⟩

theorem find_self (h : TracksTree s nodes created price qs) {q : LevelPtr} (hq : q ∈ qs) :
    nodes.find (price q) = some q := by
  cases hf : nodes.find (price q) with
  | some r =>
    obtain ⟨hr, hp⟩ := h.find_some hf
    rw [h.worsening.price_inj hr hq hp]
  | none =>
    rw [h.nodes, StdMap.find_treeNodes] at hf
    have := List.find?_eq_none.mp hf q hq
    simp at this

/-- A new node for a price that has none. -/
theorem emplace (h : TracksTree s nodes created price qs) {p : Price} (hp : nodes.find p = none)
    {q : LevelPtr} (hq : q ∉ qs) {created' : Nat} (hc : created ≤ created')
    (hk : ∃ k < created', q = levelAddr s k) (level : Levels) (hl : price = fun r => (level r).price) :
    ∃ xs ys, qs = xs ++ ys ∧ TracksTree s (nodes.emplace s.better p q) created'
      (fun r => (Function.update level q { price := p } r).price) (xs ++ q :: ys) := by
  have hne : ∀ r ∈ qs, price r ≠ p := by
    rw [h.nodes, StdMap.find_treeNodes] at hp
    intro r hr e
    have := List.find?_eq_none.mp hp r hr
    simp [e] at this
  obtain ⟨xs, ys, rfl, hx, hy, he⟩ := StdMap.emplace_treeNodes q h.worsening hne
  have hself : (Function.update level q ({ price := p } : Level) q).price = p := by
    rw [Function.update_self]
  have hother : ∀ r ∈ xs ++ ys, (Function.update level q ({ price := p } : Level) r).price = price r := by
    intro r hr
    have hne : r ≠ q := fun e => hq (e ▸ hr)
    rw [Function.update_of_ne hne, hl]
  have hox : ∀ r ∈ xs, _ := fun r hr => hother r (List.mem_append_left _ hr)
  have hoy : ∀ r ∈ ys, _ := fun r hr => hother r (List.mem_append_right _ hr)
  refine ⟨xs, ys, rfl, ?_, ?_, ?_⟩
  · rw [h.nodes, he, treeNodes_append, treeNodes_congr hox]
    rw [show treeNodes (fun r => (Function.update level q ({ price := p } : Level) r).price) (q :: ys) =
      (p, q) :: treeNodes price ys from
      congrArg₂ List.cons (congrArg (fun p => (p, q)) hself) (treeNodes_congr hoy)]
  · refine (h.worsening.congr hother).insert (fun x hxm => ?_) fun y hym => ?_
    · rw [hself, hox x hxm]
      exact hx x hxm
    · rw [hself, hoy y hym]
      exact hy y hym
  · intro r hr
    rcases List.mem_append.mp hr with hr | hr
    · obtain ⟨k, hk, e⟩ := h.made r (List.mem_append_left _ hr)
      exact ⟨k, by omega, e⟩
    · rcases List.mem_cons.mp hr with rfl | hr
      · exact hk
      · obtain ⟨k, hk, e⟩ := h.made r (List.mem_append_right _ hr)
        exact ⟨k, by omega, e⟩

theorem erase (h : TracksTree s nodes created price qs) {q : LevelPtr} (hq : q ∈ qs) :
    TracksTree s (nodes.erase (price q)) created price (qs.erase q) where
  nodes := by rw [h.nodes, StdMap.erase_treeNodes h.worsening hq]
  worsening := h.worsening.sublist List.erase_sublist
  made r hr := h.made r (List.mem_of_mem_erase hr)

end TracksTree

theorem LevelFrame.update (level : Levels) (q : LevelPtr) (p : Price) :
    LevelFrame q level (Function.update level q { price := p }) where
  other r hr := Function.update_of_ne hr _ _
  ends := .inr (by rw [Function.update_self]; exact ⟨rfl, rfl⟩)

/-! ## The map ladder -/

namespace MapLadder

@[simp] theorem side_setSide (l : MapLadder) (s s' : Side) (m : MapSide) :
    (l.setSide s m).side s' = if s' = s then m else l.side s' := by
  cases s <;> cases s' <;> rfl

def Tracks (l : MapLadder) (price : LevelPtr → Price) (T : Side → List LevelPtr) : Prop :=
  ∀ s, TracksTree s (l.side s).nodes (l.side s).created price (T s)

theorem Tracks.setSide {l : MapLadder} {price price' : LevelPtr → Price} {T : Side → List LevelPtr}
    (h : Tracks l price T) {s : Side} {m : MapSide} {qs : List LevelPtr}
    (hm : TracksTree s m.nodes m.created price' qs) (hp : ∀ s', s' ≠ s → ∀ q ∈ T s', price' q = price q) :
    Tracks (l.setSide s m) price' (Function.update T s qs) := by
  intro s'
  rw [side_setSide]
  by_cases hs : s' = s
  · subst hs
    rw [if_pos rfl, Function.update_self]
    exact hm
  · rw [if_neg hs, Function.update_of_ne hs]
    exact (h s').congr (hp s' hs)

/-- A level pointer not yet made on a side is no level of it. -/
theorem Tracks.fresh {l : MapLadder} {price : LevelPtr → Price} {T : Side → List LevelPtr}
    (h : Tracks l price T) (s : Side) : levelAddr s (l.side s).created ∉ T s := fun hq => by
  obtain ⟨k, hk, e⟩ := (h s).made _ hq
  rw [← levelAddr_inj e] at hk
  exact Nat.lt_irrefl _ hk

/-- The level at a price, whatever the queues hold. -/
theorem getOrCreate_tracks {l : MapLadder} {level : Levels} {T : Side → List LevelPtr}
    (h : Tracks l (fun q => (level q).price) T) (p : Price) (s : Side) :
    (∃ q ∈ T s, (level q).price = p ∧ Ladder.getOrCreate l level s p = some (q, l, level)) ∨
    ∃ q l' xs ys, levelSide q = s ∧ q ∉ T s ∧ T s = xs ++ ys ∧
      Ladder.getOrCreate l level s p = some (q, l', Function.update level q { price := p }) ∧
      Tracks l' (fun r => (Function.update level q { price := p } r).price)
        (Function.update T s (xs ++ q :: ys)) := by
  simp only [Ladder.getOrCreate, getOrCreate, MapSide.getOrCreateIn]
  cases hf : (l.side s).nodes.find p with
  | some q =>
    obtain ⟨hq, hp⟩ := (h s).find_some hf
    refine .inl ⟨q, hq, hp, ?_⟩
    cases s <;> rfl
  | none =>
    obtain ⟨xs, ys, hqs, ht⟩ := (h s).emplace hf (h.fresh s) (Nat.le_succ _)
      ⟨(l.side s).created, Nat.lt_succ_self _, rfl⟩ level rfl
    refine .inr ⟨_, _, xs, ys, levelSide_levelAddr s _, h.fresh s, hqs, rfl, h.setSide ht ?_⟩
    intro s' hs q hq
    rw [Function.update_of_ne]
    rintro rfl
    exact hs (((h s').side hq).symm.trans (levelSide_levelAddr s _))

instance : LawfulLadder MapLadder where
  Tracks := Tracks
  Fits _ := True
  fits_of_lt _ := trivial
  fits_mono _ _ := trivial
  getOrCreate_frame {l l' level level' s p q} h := by
    simp only [Ladder.getOrCreate, getOrCreate, MapSide.getOrCreateIn, Option.some.injEq] at h
    cases hf : (l.side s).nodes.find p with
    | some r =>
      simp only [hf, Prod.mk.injEq] at h
      obtain ⟨rfl, -, rfl⟩ := h
      exact ⟨LevelFrame.refl _ _, rfl⟩
    | none =>
      simp only [hf, Prod.mk.injEq] at h
      obtain ⟨rfl, -, rfl⟩ := h
      exact ⟨LevelFrame.update _ _ _, rfl⟩
  onLevelEmpty_frame _ := rfl
  congr h hp s := (h s).congr (hp s)
  worsening h s := (h s).worsening
  side {_ _ _} h {s _} hq := (h s).side hq
  best_eq h s := (h s).best_eq
  levels_eq h _ s _ := congrArg some (h s).walk_eq
  getOrCreate_spec h _ _ p _ s := getOrCreate_tracks h p s
  onLevelEmpty_spec {l level T} h {s q} hq _ _ :=
    ⟨_, rfl, h.setSide ((h s).erase hq) fun _ _ _ _ => rfl⟩

theorem vacant : Vacant ({} : MapLadder) := fun s => by
  cases s <;> exact TracksTree.empty _ _

end MapLadder

/-! ## The pooled ladder -/

namespace PooledMapLadder

@[simp] theorem side_setSide (l : PooledMapLadder) (s s' : Side) (m : PooledSide) :
    (l.setSide s m).side s' = if s' = s then m else l.side s' := by
  cases s <;> cases s' <;> rfl

/-- The parked nodes are nodes of the side that are not in its tree. -/
structure TracksPool (s : Side) (m : PooledSide) (price : LevelPtr → Price) (qs : List LevelPtr) :
    Prop where
  tree : TracksTree s m.nodes m.created price qs
  parked : ∀ q ∈ m.cache, q ∉ qs ∧ ∃ k < m.created, q = levelAddr s k
  nodup : m.cache.Nodup

def Tracks (l : PooledMapLadder) (price : LevelPtr → Price) (T : Side → List LevelPtr) : Prop :=
  ∀ s, TracksPool s (l.side s) price (T s)

theorem Tracks.setSide {l : PooledMapLadder} {price price' : LevelPtr → Price}
    {T : Side → List LevelPtr} (h : Tracks l price T) {s : Side} {m : PooledSide} {qs : List LevelPtr}
    (hm : TracksPool s m price' qs) (hp : ∀ s', s' ≠ s → ∀ q ∈ T s', price' q = price q) :
    Tracks (l.setSide s m) price' (Function.update T s qs) := by
  intro s'
  rw [side_setSide]
  by_cases hs : s' = s
  · subst hs
    rw [if_pos rfl, Function.update_self]
    exact hm
  · rw [if_neg hs, Function.update_of_ne hs]
    exact ⟨(h s').tree.congr (hp s' hs), (h s').parked, (h s').nodup⟩

/-- The level a missing price is given: the last parked one, or a new one. -/
theorem getIn_none {m : PooledSide} {price : LevelPtr → Price} {qs : List LevelPtr} {s : Side}
    (h : TracksPool s m price qs) {p : Price} (hf : m.nodes.find p = none) (level : Levels)
    (hl : price = fun r => (level r).price) :
    ∃ q m' xs ys, m.getIn level s p = (q, m', Function.update level q { price := p }) ∧
      levelSide q = s ∧ q ∉ qs ∧ qs = xs ++ ys ∧
      TracksPool s m' (fun r => (Function.update level q { price := p } r).price) (xs ++ q :: ys) := by
  cases hc : m.cache with
  | nil =>
    have hq : levelAddr s m.created ∉ qs := fun hq => by
      obtain ⟨k, hk, e⟩ := h.tree.made _ hq
      rw [← levelAddr_inj e] at hk
      exact Nat.lt_irrefl _ hk
    obtain ⟨xs, ys, hqs, ht⟩ := h.tree.emplace hf hq (Nat.le_succ _)
      ⟨m.created, Nat.lt_succ_self _, rfl⟩ level hl
    refine ⟨levelAddr s m.created, { m with
        nodes := m.nodes.emplace s.better p (levelAddr s m.created), created := m.created + 1 }, xs, ys,
      by rw [PooledSide.getIn, hf]; simp only [hc], levelSide_levelAddr s _, hq, hqs, ht, ?_, ?_⟩
    · rw [hc]; exact nofun
    · rw [hc]; exact List.nodup_nil
  | cons q cache =>
    obtain ⟨hq, k, hk, e⟩ := h.parked q (by rw [hc]; exact List.mem_cons_self)
    have hn := h.nodup
    rw [hc] at hn
    obtain ⟨hqc, hn⟩ := List.nodup_cons.mp hn
    obtain ⟨xs, ys, hqs, ht⟩ := h.tree.emplace hf hq (Nat.le_refl _) ⟨k, hk, e⟩ level hl
    refine ⟨q, { m with nodes := m.nodes.emplace s.better p q, cache := cache }, xs, ys,
      by rw [PooledSide.getIn, hf]; simp only [hc], by rw [e]; exact levelSide_levelAddr s k, hq, hqs,
      ht, fun r hr => ?_, hn⟩
    obtain ⟨hr', hk'⟩ := h.parked r (by rw [hc]; exact List.mem_cons_of_mem _ hr)
    refine ⟨fun hm => ?_, hk'⟩
    rw [List.mem_append, List.mem_cons] at hm
    rw [hqs, List.mem_append] at hr'
    rcases hm with hm | rfl | hm
    · exact hr' (.inl hm)
    · exact hqc hr
    · exact hr' (.inr hm)

theorem park_tracks {m : PooledSide} {price : LevelPtr → Price} {qs : List LevelPtr} {s : Side}
    (h : TracksPool s m price qs) {q : LevelPtr} (hq : q ∈ qs) :
    TracksPool s (m.park (price q)) price (qs.erase q) := by
  have ht := h.tree.erase hq
  have hnd := h.tree.worsening.nodup
  have hold : ∀ r ∈ m.cache, r ∉ qs.erase q ∧ ∃ k < m.created, r = levelAddr s k := fun r hr =>
    ⟨fun hm => (h.parked r hr).1 (List.mem_of_mem_erase hm), (h.parked r hr).2⟩
  rw [PooledSide.park, h.tree.find_self hq]
  by_cases hlen : m.cache.length < PooledSide.kMaxCached
  · refine ⟨ht, ?_, ?_⟩
    · simp only [hlen, if_true, List.mem_cons]
      rintro r (rfl | hr)
      · exact ⟨hnd.not_mem_erase, h.tree.made _ hq⟩
      · exact hold r hr
    · simp only [hlen, if_true, List.nodup_cons]
      exact ⟨fun hm => (h.parked q hm).1 hq, h.nodup⟩
  · refine ⟨ht, ?_, ?_⟩
    · simpa only [hlen, if_false] using hold
    · simpa only [hlen, if_false] using h.nodup

/-- The level at a price, whatever the queues hold. -/
theorem getOrCreate_tracks {l : PooledMapLadder} {level : Levels} {T : Side → List LevelPtr}
    (h : Tracks l (fun q => (level q).price) T) (p : Price) (s : Side) :
    (∃ q ∈ T s, (level q).price = p ∧ Ladder.getOrCreate l level s p = some (q, l, level)) ∨
    ∃ q l' xs ys, levelSide q = s ∧ q ∉ T s ∧ T s = xs ++ ys ∧
      Ladder.getOrCreate l level s p = some (q, l', Function.update level q { price := p }) ∧
      Tracks l' (fun r => (Function.update level q { price := p } r).price)
        (Function.update T s (xs ++ q :: ys)) := by
  cases hf : (l.side s).nodes.find p with
  | some q =>
    obtain ⟨hq, hp⟩ := (h s).tree.find_some hf
    refine .inl ⟨q, hq, hp, ?_⟩
    simp only [Ladder.getOrCreate, getOrCreate, PooledSide.getIn, hf]
    cases s <;> rfl
  | none =>
    obtain ⟨q, m', xs, ys, hg, hside, hq, hqs, ht⟩ := getIn_none (h s) hf level rfl
    refine .inr ⟨q, l.setSide s m', xs, ys, hside, hq, hqs, ?_, h.setSide ht ?_⟩
    · simp only [Ladder.getOrCreate, getOrCreate, hg]
    · intro s' hs r hr
      rw [Function.update_of_ne]
      rintro rfl
      exact hs (((h s').tree.side hr).symm.trans hside)

instance : LawfulLadder PooledMapLadder where
  Tracks := Tracks
  Fits _ := True
  fits_of_lt _ := trivial
  fits_mono _ _ := trivial
  getOrCreate_frame {l l' level level' s p q} h := by
    simp only [Ladder.getOrCreate, getOrCreate, PooledSide.getIn, Option.some.injEq] at h
    cases hf : (l.side s).nodes.find p with
    | some r =>
      simp only [hf, Prod.mk.injEq] at h
      obtain ⟨rfl, -, rfl⟩ := h
      exact ⟨LevelFrame.refl _ _, rfl⟩
    | none =>
      cases hc : (l.side s).cache <;> simp only [hf, hc, Prod.mk.injEq] at h <;>
      · obtain ⟨rfl, -, rfl⟩ := h
        exact ⟨LevelFrame.update _ _ _, rfl⟩
  onLevelEmpty_frame _ := rfl
  congr h hp s := ⟨(h s).tree.congr (hp s), (h s).parked, (h s).nodup⟩
  worsening h s := (h s).tree.worsening
  side {_ _ _} h {s _} hq := (h s).tree.side hq
  best_eq h s := (h s).tree.best_eq
  levels_eq h _ s _ := congrArg some (h s).tree.walk_eq
  getOrCreate_spec h _ _ p _ s := getOrCreate_tracks h p s
  onLevelEmpty_spec {l level T} h {s q} hq _ _ :=
    ⟨_, rfl, h.setSide (park_tracks (h s) hq) fun _ _ _ _ => rfl⟩

theorem vacant : Vacant ({} : PooledMapLadder) := fun s => by
  cases s <;> exact ⟨TracksTree.empty _ _, nofun, List.nodup_nil⟩

end PooledMapLadder

end Pricetime
