import Pricetime.Proof.Ladder

/-!
# The dense ladder is lawful

A side's levels are at the slots of their prices, and `best` is the slot of
the first. The scan and the walk go over the slots `ahead` of one, toward worse
prices, and stop at those that have orders.
-/

namespace Pricetime.DenseLadder

variable (l : DenseLadder) (s : Side)

/-! ## Slots -/

/-- The slot of a price. -/
def slot (p : Price) : Nat := (p.toInt - l.min.toInt).toNat

variable {l s}

theorem validPrice_iff {p : Price} : l.validPrice p = true ↔ l.min ≤ p ∧ p ≤ l.max := by
  simp [validPrice]

theorem indexOf_valid {p : Price} (hp : l.validPrice p = true) : l.indexOf p = some (l.slot p) := by
  rw [indexOf, if_pos hp, slot]

theorem slot_lt {p : Price} (hp : l.validPrice p = true) : l.slot p < l.span := by
  obtain ⟨h1, h2⟩ := validPrice_iff.mp hp
  rw [Int64.le_iff_toInt_le] at h1 h2
  unfold slot span
  omega

theorem better_slot {p p' : Price} (hp : l.validPrice p = true) (hp' : l.validPrice p' = true) :
    better s (l.slot p) (l.slot p') = s.better p p' := by
  obtain ⟨h1, -⟩ := validPrice_iff.mp hp
  obtain ⟨h2, -⟩ := validPrice_iff.mp hp'
  rw [Int64.le_iff_toInt_le] at h1 h2
  have hlt : ∀ a b : Price, l.min.toInt ≤ a.toInt → (l.slot a < l.slot b ↔ a < b) := fun a b ha => by
    rw [Int64.lt_iff_toInt_lt]
    unfold slot
    omega
  cases s
  · exact decide_eq_decide.mpr (hlt p' p h2)
  · exact decide_eq_decide.mpr (hlt p p' h1)

theorem slot_inj {p p' : Price} (hp : l.validPrice p = true) (hp' : l.validPrice p' = true)
    (h : l.slot p = l.slot p') : p = p' := by
  obtain ⟨h1, -⟩ := validPrice_iff.mp hp
  obtain ⟨h2, -⟩ := validPrice_iff.mp hp'
  rw [Int64.le_iff_toInt_le] at h1 h2
  unfold slot at h
  exact Int64.toInt_inj.mp (by omega)

/-- The slots at which a walk that has reached `i` may still arrive. -/
def ahead (s : Side) : Option Nat → Nat → Prop
  | none, _ => False
  | some i, k => k = i ∨ better s i k = true

/-- How many slots a walk that has reached `i` has left. -/
def room (l : DenseLadder) (s : Side) : Option Nat → Nat
  | none => 0
  | some i =>
    match s with
    | .bid => i + 1
    | .ask => l.span - i

theorem next_lt {i i' : Nat} (hi : i < l.span) (h : l.next s i = some i') : i' < l.span := by
  cases s <;> simp only [next] at h <;> split at h <;> simp at h <;> omega

theorem room_next {i : Nat} (hi : i < l.span) : room l s (l.next s i) + 1 ≤ room l s (some i) := by
  cases s <;> simp only [next] <;> split <;> simp only [room] <;> omega

theorem ahead_next {i k : Nat} (hk : k < l.span) :
    ahead s (some i) k ↔ k = i ∨ ahead s (l.next s i) k := by
  cases s <;> simp only [next] <;> split <;>
    simp only [ahead, better, decide_eq_true_eq, or_false] <;> omega

theorem not_ahead_next {i : Nat} : ¬ ahead s (l.next s i) i := by
  cases s <;> simp only [next] <;> split <;>
    simp only [ahead, better, decide_eq_true_eq, not_false_eq_true] <;> omega

/-! ## The scan and the walk -/

/-- `js` are the active slots ahead of `i`, nearest first. -/
structure Ahead (l : DenseLadder) (level : Levels) (s : Side) (i : Option Nat) (js : List Nat) : Prop where
  sorted : js.Pairwise fun j k => better s j k = true
  mem : ∀ k, k ∈ js ↔ k < l.span ∧ (level (levelAddr s k)).orderCount ≠ 0 ∧ ahead s i k

variable {level : Levels}

/-- A slot with no orders is passed over. -/
theorem Ahead.skip {i : Nat} {js : List Nat} (h : Ahead l level s (some i) js)
    (hi : (level (levelAddr s i)).orderCount = 0) : Ahead l level s (l.next s i) js where
  sorted := h.sorted
  mem k := by
    rw [h.mem]
    refine and_congr_right fun hk => and_congr_right fun hc => ?_
    rw [ahead_next hk]
    refine or_iff_right fun e => ?_
    rw [e] at hc
    exact hc hi

/-- A slot with orders is the nearest. -/
theorem Ahead.hit {i : Nat} {js : List Nat} (h : Ahead l level s (some i) js) (hlt : i < l.span)
    (hi : (level (levelAddr s i)).orderCount ≠ 0) :
    ∃ js', js = i :: js' ∧ Ahead l level s (l.next s i) js' := by
  have hmem : i ∈ js := (h.mem i).mpr ⟨hlt, hi, .inl rfl⟩
  cases js with
  | nil => cases hmem
  | cons j js =>
    obtain ⟨hj, hs⟩ := List.pairwise_cons.mp h.sorted
    have irr : ∀ {a b : Nat}, better s a b = true → better s b a = true → False := by
      intro a b h1 h2
      cases s <;> simp only [better, decide_eq_true_eq] at h1 h2 <;> omega
    have hji : j = i := by
      rcases List.mem_cons.mp hmem with e | hm
      · exact e.symm
      · rcases ((h.mem j).mp List.mem_cons_self).2.2 with e | hb
        · exact e
        · exact (irr hb (hj i hm)).elim
    subst hji
    refine ⟨js, rfl, hs, fun k => ?_⟩
    have hk := h.mem k
    rw [List.mem_cons] at hk
    constructor
    · intro hm
      obtain ⟨h1, h2, h3⟩ := hk.mp (.inr hm)
      refine ⟨h1, h2, ((ahead_next h1).mp h3).resolve_left fun e => ?_⟩
      rw [e] at hm
      exact irr (hj j hm) (hj j hm)
    · rintro ⟨h1, h2, h3⟩
      refine (hk.mpr ⟨h1, h2, (ahead_next h1).mpr (.inr h3)⟩).resolve_left fun e => ?_
      rw [e] at h3
      exact not_ahead_next h3

theorem scan_spec {j : Nat} {js : List Nat} : ∀ (fuel : Nat) {i : Nat}, i < l.span →
    Ahead l level s (l.next s i) (j :: js) → room l s (l.next s i) ≤ fuel →
    l.scan level s fuel i = some j
  | fuel, i, hi, h, hf => by
    cases hn : l.next s i with
    | none =>
      rw [hn] at h
      exact (((h.mem j).mp List.mem_cons_self).2.2).elim
    | some i' =>
      rw [hn] at h hf
      have hi' := next_lt hi hn
      have hroom := room_next (s := s) hi'
      cases fuel with
      | zero => omega
      | succ fuel =>
        simp only [scan, hn, Option.bind_eq_bind, Option.bind_some]
        by_cases hc : (level (levelAddr s i')).orderCount = 0
        · rw [if_pos hc]
          exact scan_spec fuel hi' (h.skip hc) (by omega)
        · obtain ⟨js', e, -⟩ := h.hit hi' hc
          rw [if_neg hc, (List.cons.inj e).1]

theorem walk_spec : ∀ (fuel : Nat) {i : Option Nat} {js : List Nat}, (∀ k, i = some k → k < l.span) →
    Ahead l level s i js → js.length < 2 ^ 32 → room l s i ≤ fuel →
    l.walk level s fuel (UInt32.ofNat js.length) i = some (js.map (levelAddr s))
  | fuel, i, [], _, _, _, _ => by
    unfold walk
    rfl
  | fuel, i, j :: js, hi, h, hlen, hf => by
    have hleft : UInt32.ofNat (j :: js).length ≠ 0 := ofNat_ne_zero hlen (Nat.succ_ne_zero _)
    cases i with
    | none => exact (((h.mem j).mp List.mem_cons_self).2.2).elim
    | some i =>
      have hi' := hi i rfl
      have hroom := room_next (s := s) hi'
      have hnext : ∀ k, l.next s i = some k → k < l.span := fun k e => next_lt hi' e
      cases fuel with
      | zero => omega
      | succ fuel =>
        rw [walk, if_neg hleft]
        by_cases hc : (level (levelAddr s i)).orderCount = 0
        · simp only [hc, if_true]
          exact walk_spec fuel hnext (h.skip hc) hlen (by omega)
        · obtain ⟨js', e, h'⟩ := h.hit hi' hc
          obtain ⟨rfl, rfl⟩ := List.cons.inj e
          have ih := walk_spec fuel hnext h' (by rw [List.length_cons] at hlen; omega) (by omega)
          have hsub : UInt32.ofNat (j :: js).length - 1 = UInt32.ofNat js.length :=
            ofNat_succ_sub_one js.length
          simp only [hc, if_false, hsub, ih, Option.bind_eq_bind, Option.bind_some]
          rfl

/-! ## The laws -/

structure TracksSide (l : DenseLadder) (s : Side) (price : LevelPtr → Price) (qs : List LevelPtr) :
    Prop where
  worsening : Worsening s price qs
  placed : ∀ q ∈ qs, l.validPrice (price q) = true ∧ q = levelAddr s (l.slot (price q))
  best : (l.side s).best.map (levelAddr s) = qs.head?
  active : (l.side s).activeLevels = UInt32.ofNat qs.length

def Tracks (l : DenseLadder) (price : LevelPtr → Price) (T : Side → List LevelPtr) : Prop :=
  ∀ s, TracksSide l s price (T s)

/-- The slots of a side's levels. -/
def slots (l : DenseLadder) (price : LevelPtr → Price) (qs : List LevelPtr) : List Nat :=
  qs.map fun q => l.slot (price q)

namespace TracksSide

variable {price : LevelPtr → Price} {qs : List LevelPtr}

theorem map_slots (h : TracksSide l s price qs) : (slots l price qs).map (levelAddr s) = qs := by
  rw [slots, List.map_map]
  refine (List.map_congr_left fun q hq => ?_).trans (List.map_id qs)
  exact (h.placed q hq).2.symm

theorem mem_slots (h : TracksSide l s price qs) {k : Nat} : k ∈ slots l price qs ↔ levelAddr s k ∈ qs := by
  constructor
  · intro hk
    rw [← h.map_slots]
    exact List.mem_map_of_mem hk
  · intro hk
    have e := (h.placed _ hk).2
    exact List.mem_map.mpr ⟨_, hk, (levelAddr_inj e).symm⟩

theorem side (h : TracksSide l s price qs) {q : LevelPtr} (hq : q ∈ qs) : levelSide q = s := by
  rw [(h.placed q hq).2, levelSide_levelAddr]

theorem slots_sorted (h : TracksSide l s price qs) :
    (slots l price qs).Pairwise fun j k => better s j k = true := by
  refine List.pairwise_map.mpr (List.Pairwise.imp_of_mem (fun {q r} hq hr hb => ?_) h.worsening)
  rw [better_slot (h.placed q hq).1 (h.placed r hr).1]
  exact hb

theorem lt_span (h : TracksSide l s price qs) {q : LevelPtr} (hq : q ∈ qs) : l.slot (price q) < l.span :=
  slot_lt (h.placed q hq).1

end TracksSide

@[simp] theorem side_setSide (l : DenseLadder) (s s' : Side) (m : SideLadder) :
    (l.setSide s m).side s' = if s' = s then m else l.side s' := by
  cases s <;> cases s' <;> rfl

@[simp] theorem validPrice_setSide (l : DenseLadder) (s : Side) (m : SideLadder) :
    (l.setSide s m).validPrice = l.validPrice := by
  cases s <;> rfl

@[simp] theorem slot_setSide (l : DenseLadder) (s : Side) (m : SideLadder) :
    (l.setSide s m).slot = l.slot := by
  cases s <;> rfl

theorem Tracks.setSide {price price' : LevelPtr → Price} {T : Side → List LevelPtr}
    (h : Tracks l price T) {m : SideLadder} {qs : List LevelPtr} (hw : Worsening s price' qs)
    (hp : ∀ q ∈ qs, l.validPrice (price' q) = true ∧ q = levelAddr s (l.slot (price' q)))
    (hb : m.best.map (levelAddr s) = qs.head?) (ha : m.activeLevels = UInt32.ofNat qs.length)
    (hpr : ∀ s', s' ≠ s → ∀ q ∈ T s', price' q = price q) :
    Tracks (l.setSide s m) price' (Function.update T s qs) := by
  intro s'
  by_cases hs : s' = s
  · subst hs
    refine ⟨?_, ?_, ?_, ?_⟩ <;> simp only [Function.update_self, side_setSide, validPrice_setSide,
      slot_setSide, if_true]
    · exact hw
    · exact hp
    · exact hb
    · exact ha
  · have h' := h s'
    have hpr' := hpr s' hs
    refine ⟨?_, ?_, ?_, ?_⟩ <;> simp only [Function.update_of_ne hs, side_setSide, validPrice_setSide,
      slot_setSide, if_neg hs]
    · exact h'.worsening.congr hpr'
    · intro q hq
      rw [hpr' q hq]
      exact h'.placed q hq
    · exact h'.best
    · exact h'.active

/-- The slots of the levels after the first are those ahead of it. -/
theorem TracksSide.ahead_first {price : LevelPtr → Price} {q : LevelPtr} {qs : List LevelPtr}
    (h : TracksSide l s price (q :: qs)) {level : Levels}
    (ha : ∀ k, (level (levelAddr s k)).orderCount ≠ 0 → levelAddr s k ∈ q :: qs)
    (hq : ∀ k, levelAddr s k ∈ qs → (level (levelAddr s k)).orderCount ≠ 0) :
    ∀ k, k ≠ l.slot (price q) →
      (k ∈ slots l price qs ↔ k < l.span ∧ (level (levelAddr s k)).orderCount ≠ 0 ∧
        ahead s (some (l.slot (price q))) k) := by
  intro k hk
  have hsort := List.pairwise_cons.mp h.slots_sorted
  have hself : q = levelAddr s (l.slot (price q)) := (h.placed q List.mem_cons_self).2
  have hmem : k ∈ slots l price (q :: qs) ↔ k ∈ slots l price qs := by
    rw [slots, List.map_cons, List.mem_cons, or_iff_right hk, slots]
  constructor
  · intro hm
    have hlq := h.mem_slots.mp (hmem.mpr hm)
    have hlq' : levelAddr s k ∈ qs := by
      rcases List.mem_cons.mp hlq with e | e
      · exact absurd (levelAddr_inj (e.trans hself)) hk
      · exact e
    have hlt := h.lt_span hlq
    rw [← levelAddr_inj (h.placed _ hlq).2] at hlt
    exact ⟨hlt, hq k hlq', .inr (hsort.1 k hm)⟩
  · rintro ⟨-, hc, -⟩
    exact hmem.mp (h.mem_slots.mpr (ha k hc))

theorem room_le {i : Nat} (hi : i < l.span) : room l s (some i) ≤ l.span := by
  cases s <;> simp only [room] <;> omega

theorem forEachLevel_eq {level : Levels} {T : Side → List LevelPtr}
    (h : Tracks l (fun q => (level q).price) T) (ha : Active level T) (s : Side)
    (hf : (T s).length < 2 ^ 32) : l.forEachLevel level s = some (T s) := by
  have hs := h s
  have hact : ∀ k, (level (levelAddr s k)).orderCount ≠ 0 ↔ levelAddr s k ∈ T s := fun k => by
    rw [ha, levelSide_levelAddr]
  have hb := hs.best
  unfold forEachLevel
  cases hT : T s with
  | nil =>
    rw [hT] at hb
    rw [Option.map_eq_none_iff.mp hb]
  | cons q qs =>
    rw [hT] at hs hb hact hf
    obtain ⟨i, hi, e⟩ := Option.map_eq_some_iff.mp hb
    have hslot : i = l.slot (level q).price :=
      levelAddr_inj (e.trans (hs.placed q List.mem_cons_self).2)
    have hlt : i < l.span := by
      rw [hslot]
      exact hs.lt_span List.mem_cons_self
    have hahead : Ahead l level s (some i) (slots l (fun q => (level q).price) (q :: qs)) := by
      refine ⟨hs.slots_sorted, fun k => ?_⟩
      by_cases hk : k = i
      · rw [hk]
        have hm : levelAddr s i ∈ q :: qs := by rw [e]; exact List.mem_cons_self
        exact ⟨fun _ => ⟨hlt, (hact i).mpr hm, .inl rfl⟩, fun _ => hs.mem_slots.mpr hm⟩
      · rw [hslot] at hk ⊢
        rw [← hs.ahead_first (fun k => (hact k).mp)
          (fun k hm => (hact k).mpr (List.mem_cons_of_mem _ hm)) k hk, slots, List.map_cons,
          List.mem_cons, or_iff_right hk, slots]
    rw [hi]
    simp only [hs.active]
    have hlen : (slots l (fun q => (level q).price) (q :: qs)).length = (q :: qs).length :=
      List.length_map _
    rw [← hlen, walk_spec l.span (fun k e => by cases e; exact hlt) hahead (by rw [hlen]; exact hf)
      (room_le hlt), hs.map_slots]

/-- The price of a level that has no orders, on a ladder whose levels have. -/
theorem getOrCreate_new {level : Levels} {T : Side → List LevelPtr}
    (h : Tracks l (fun q => (level q).price) T) {p : Price} (hp : l.validPrice p = true) {s : Side}
    (hq : levelAddr s (l.slot p) ∉ T s) (hc : (level (levelAddr s (l.slot p))).orderCount = 0)
    (hb : (level (levelAddr s (l.slot p))).Blank) :
    ∃ l' xs ys, T s = xs ++ ys ∧ l.getOrCreate level s p =
        some (levelAddr s (l.slot p), l', Function.update level (levelAddr s (l.slot p)) { price := p }) ∧
      Tracks l' (fun r => (Function.update level (levelAddr s (l.slot p)) { price := p } r).price)
        (Function.update T s (xs ++ levelAddr s (l.slot p) :: ys)) := by
  have hs := h s
  have hne : ∀ r ∈ T s, (level r).price ≠ p := fun r hr e => by
    have := (hs.placed r hr).2
    rw [e] at this
    exact hq (this ▸ hr)
  obtain ⟨xs, ys, hT, hx, hy, -⟩ := StdMap.emplace_treeNodes (levelAddr s (l.slot p)) hs.worsening hne
  have hpr : ∀ r, r ≠ levelAddr s (l.slot p) →
      (Function.update level (levelAddr s (l.slot p)) ({ price := p } : Level) r).price = (level r).price :=
    fun r hr => by rw [Function.update_of_ne hr]
  have hself : (Function.update level (levelAddr s (l.slot p)) ({ price := p } : Level)
      (levelAddr s (l.slot p))).price = p := by rw [Function.update_self]
  generalize hq' : levelAddr s (l.slot p) = q at *
  have hmem : ∀ r ∈ T s, r ≠ q := fun r hr e => hq (e ▸ hr)
  have hlevel : (⟨p, (level q).totalQty, (level q).orderCount, (level q).head, (level q).tail⟩ : Level) =
      { price := p } := by rw [hb]
  let best : Nat := match (l.side s).best with
    | none => l.slot p
    | some b => if better s (l.slot p) b then l.slot p else b
  have hbest : some (levelAddr s best) = (xs ++ q :: ys).head? := by
    have hbs := hs.best
    rw [hT] at hbs
    cases hbb : (l.side s).best with
    | none =>
      rw [hbb] at hbs
      obtain ⟨rfl, rfl⟩ := List.append_eq_nil_iff.mp (List.head?_eq_none_iff.mp hbs.symm)
      simp only [best, hbb, hq', List.nil_append, List.head?_cons]
    | some b =>
      rw [hbb, Option.map_some] at hbs
      simp only [best, hbb]
      cases xs with
      | nil =>
        cases ys with
        | nil => cases hbs
        | cons y ys =>
          have hyT : y ∈ T s := by rw [hT]; exact List.mem_cons_self
          obtain ⟨hv, hyq⟩ := hs.placed y hyT
          have hby : b = l.slot (level y).price :=
            levelAddr_inj ((Option.some.inj hbs).trans hyq)
          rw [hby, better_slot hp hv, if_pos (hy y List.mem_cons_self), hq']
          rfl
      | cons x xs =>
        have hxT : x ∈ T s := by rw [hT]; exact List.mem_cons_self
        obtain ⟨hv, hxq⟩ := hs.placed x hxT
        have hbx : b = l.slot (level x).price :=
          levelAddr_inj ((Option.some.inj hbs).trans hxq)
        have hnb : ¬ s.better p (level x).price = true := fun hb' => by
          have := Side.better_trans hb' (hx x List.mem_cons_self)
          rw [Side.better_irrefl] at this
          cases this
        rw [hbx, better_slot hp hv, if_neg hnb, ← hxq]
        rfl
  refine ⟨l.setSide s ⟨some best, (l.side s).activeLevels + 1⟩, xs, ys, hT, ?_, h.setSide ?_ ?_ hbest ?_ ?_⟩
  · simp only [getOrCreate, indexOf_valid hp, hq', Option.bind_eq_bind, Option.bind_some]
    exact (if_pos hc).trans (congrArg (fun lv => some (q, _, Function.update level q lv)) hlevel)
  · have hw : Worsening s (fun r => (Function.update level q { price := p } r).price) (xs ++ ys) := by
      rw [← hT]
      exact hs.worsening.congr fun r hr => hpr r (hmem r hr)
    refine hw.insert (fun x hxm => ?_) fun y hym => ?_
    · rw [hself, hpr x (hmem x (by rw [hT]; exact List.mem_append_left _ hxm))]
      exact hx x hxm
    · rw [hself, hpr y (hmem y (by rw [hT]; exact List.mem_append_right _ hym))]
      exact hy y hym
  · intro r hr
    by_cases hrq : r = q
    · rw [hrq, hself]
      exact ⟨hp, hq'.symm⟩
    · have hrT : r ∈ T s := by
        rw [hT]
        rw [List.mem_append, List.mem_cons] at hr
        exact List.mem_append.mpr (hr.imp_right fun h => h.resolve_left hrq)
      rw [hpr r hrq]
      exact hs.placed r hrT
  · rw [hs.active, hT]
    simp only [List.length_append, List.length_cons, ← Nat.add_assoc]
    exact (UInt32.ofNat_add _ 1).symm
  · intro s' hs' r hr
    refine hpr r fun e => hs' ?_
    rw [← (h s').side hr, e, ← hq', levelSide_levelAddr]

/-- The first of a side's levels leaves, and the scan finds the next. -/
theorem scan_first {level : Levels} {q r : LevelPtr} {qs : List LevelPtr}
    (h : TracksSide l s (fun q => (level q).price) (q :: r :: qs))
    (ha : ∀ k, (level (levelAddr s k)).orderCount ≠ 0 ↔ levelAddr s k ∈ q :: r :: qs ∧ levelAddr s k ≠ q) :
    l.scan level s l.span (l.slot (level q).price) = some (l.slot (level r).price) := by
  have hlt := h.lt_span List.mem_cons_self
  have hq : q = levelAddr s (l.slot (level q).price) := (h.placed q List.mem_cons_self).2
  have hnd := List.nodup_cons.mp h.worsening.nodup
  have hiff := h.ahead_first (fun k hk => ((ha k).mp hk).1)
    (fun k hk => (ha k).mpr ⟨List.mem_cons_of_mem _ hk, fun e => hnd.1 (e ▸ hk)⟩)
  have hahead : Ahead l level s (l.next s (l.slot (level q).price))
      (slots l (fun q => (level q).price) (r :: qs)) := by
    refine ⟨(List.pairwise_cons.mp h.slots_sorted).2, fun k => ?_⟩
    by_cases hk : k = l.slot (level q).price
    · subst hk
      refine ⟨fun hm => ?_, fun ⟨_, _, hm⟩ => absurd hm not_ahead_next⟩
      have := h.slots_sorted
      rw [slots, List.map_cons] at this
      exact absurd hm (List.nodup_cons.mp (this.imp fun {a b} (hb : better s a b = true) (e : a = b) => by
        subst e
        cases s <;> simp [better] at hb)).1
    · refine (hiff k hk).trans ⟨fun ⟨h1, h2, h3⟩ => ⟨h1, h2, ?_⟩, fun ⟨h1, h2, h3⟩ => ⟨h1, h2, ?_⟩⟩
      · exact ((ahead_next h1).mp h3).resolve_left hk
      · exact (ahead_next h1).mpr (.inr h3)
  have hn := room_next (s := s) hlt
  have hr := room_le (s := s) hlt
  exact scan_spec l.span hlt hahead (by omega)

theorem onLevelEmpty_tracks {level : Levels} {T : Side → List LevelPtr}
    (h : Tracks l (fun q => (level q).price) T) {q : LevelPtr} (hq : q ∈ T s)
    (ha : ∀ r, (level r).orderCount ≠ 0 ↔ r ∈ T (levelSide r) ∧ r ≠ q) (hf : (T s).length < 2 ^ 32) :
    ∃ l', l.onLevelEmpty level s q = some l' ∧
      Tracks l' (fun q => (level q).price) (Function.update T s ((T s).erase q)) := by
  have hs := h s
  obtain ⟨hv, hqa⟩ := hs.placed q hq
  have hplaced : ∀ r ∈ (T s).erase q, l.validPrice (level r).price = true ∧
      r = levelAddr s (l.slot (level r).price) := fun r hr => hs.placed r (List.mem_of_mem_erase hr)
  have hworse : Worsening s (fun q => (level q).price) ((T s).erase q) :=
    hs.worsening.sublist List.erase_sublist
  have hlen := List.length_erase_add_one hq
  have hact : (l.side s).activeLevels - 1 = UInt32.ofNat ((T s).erase q).length := by
    rw [hs.active, ← hlen, ofNat_succ_sub_one]
  have keep : ∀ s', s' ≠ s → ∀ r ∈ T s', (level r).price = (level r).price := fun _ _ _ _ => rfl
  simp only [onLevelEmpty, indexOf_valid hv, Option.bind_eq_bind, Option.bind_some, hact]
  by_cases h0 : UInt32.ofNat ((T s).erase q).length = 0
  · have hnil : (T s).erase q = [] := by
      by_contra hne
      exact ofNat_ne_zero (by omega) (fun e => hne (List.length_eq_zero_iff.mp e)) h0
    rw [if_pos h0]
    exact ⟨_, rfl, h.setSide hworse hplaced (by rw [hnil]; rfl) rfl keep⟩
  · rw [if_neg h0]
    have hb := hs.best
    cases hT : T s with
    | nil => rw [hT] at hq; cases hq
    | cons r rs =>
      rw [hT] at hb
      obtain ⟨i, hi, e⟩ := Option.map_eq_some_iff.mp hb
      have hri : r = levelAddr s (l.slot (level r).price) := (hs.placed r (by rw [hT]; exact List.mem_cons_self)).2
      have hir : i = l.slot (level r).price := levelAddr_inj (e.trans hri)
      by_cases hqr : r = q
      · subst hqr
        have hne : (l.side s).best = some (l.slot (level r).price) := by rw [hi, hir]
        rw [hT] at hworse hplaced h0
        rw [List.erase_cons_head] at hworse hplaced h0 ⊢
        rw [if_neg (not_not_intro hne)]
        cases rs with
        | nil => exact absurd rfl h0
        | cons r' rs =>
          have hs' := hs
          rw [hT] at hs'
          have hscan := scan_first hs' fun k => by rw [ha, levelSide_levelAddr, hT]
          simp only [hscan, Option.bind_some]
          refine ⟨_, rfl, h.setSide hworse hplaced ?_ rfl keep⟩
          rw [Option.map_some, ← (hplaced r' List.mem_cons_self).2]
          rfl
      · have hne : (l.side s).best ≠ some (l.slot (level q).price) := by
          rw [hi, hir]
          intro e'
          rw [Option.some.inj e'] at hri
          exact hqr (hri.trans hqa.symm)
        rw [if_pos hne]
        rw [hT] at hworse hplaced
        refine ⟨_, rfl, h.setSide hworse hplaced ?_ rfl keep⟩
        rw [hb, List.erase_cons_tail (by simpa using hqr)]
        rfl

instance : LawfulLadder DenseLadder where
  Tracks := Tracks
  Fits n := n < 2 ^ 32
  fits_of_lt h := h
  fits_mono h hm := Nat.lt_of_le_of_lt hm h
  getOrCreate_frame {l l' level level' s p q} h := by
    simp only [Ladder.getOrCreate, getOrCreate, Option.bind_eq_bind] at h
    obtain ⟨i, -, h⟩ := Option.bind_eq_some_iff.mp h
    split at h <;> simp only [Option.some.injEq, Prod.mk.injEq] at h <;> obtain ⟨rfl, rfl, rfl⟩ := h
    · refine ⟨⟨fun r hr => Function.update_of_ne hr _ _, .inl ?_⟩, validPrice_setSide _ _ _⟩
      rw [Function.update_self]
      exact ⟨rfl, rfl⟩
    · exact ⟨LevelFrame.refl _ _, rfl⟩
  onLevelEmpty_frame {l l' level s q} h := by
    simp only [Ladder.onLevelEmpty, onLevelEmpty, Option.bind_eq_bind] at h
    obtain ⟨i, -, h⟩ := Option.bind_eq_some_iff.mp h
    split at h
    · cases h; exact validPrice_setSide _ _ _
    · split at h
      · cases h; exact validPrice_setSide _ _ _
      · obtain ⟨j, -, h⟩ := Option.bind_eq_some_iff.mp h
        cases h; exact validPrice_setSide _ _ _
  congr h hp s := by
    refine ⟨(h s).worsening.congr (hp s), fun q hq => ?_, (h s).best, (h s).active⟩
    rw [hp s q hq]
    exact (h s).placed q hq
  worsening h s := (h s).worsening
  side {_ _ _} h {s _} hq := (h s).side hq
  best_eq h s := (h s).best
  levels_eq h ha s hf := forEachLevel_eq h ha s hf
  getOrCreate_spec {l level T} h ha hb p hp s := by
    by_cases hc : (level (levelAddr s (l.slot p))).orderCount = 0
    · have hq : levelAddr s (l.slot p) ∉ T s := fun hm =>
        (ha _).mpr (by rw [levelSide_levelAddr]; exact hm) hc
      have hbl := hb (levelAddr s (l.slot p)) (by rw [levelSide_levelAddr]; exact hq)
      obtain ⟨l', xs, ys, hT, hg, ht⟩ := getOrCreate_new h hp hq hc hbl
      exact .inr ⟨_, l', xs, ys, levelSide_levelAddr _ _, hq, hT, hg, ht⟩
    · have hq := (ha _).mp hc
      rw [levelSide_levelAddr] at hq
      obtain ⟨hv, e⟩ := (h s).placed _ hq
      have hprice := slot_inj hp hv (levelAddr_inj e)
      refine .inl ⟨_, hq, hprice.symm, ?_⟩
      simp only [Ladder.getOrCreate, getOrCreate, indexOf_valid hp, Option.bind_eq_bind, Option.bind_some,
        hc, if_false]
  onLevelEmpty_spec {l level T} h {s q} hq ha hf := onLevelEmpty_tracks h hq ha hf

theorem vacant {min max : Price} {l : DenseLadder} (h : new min max = some l) : Vacant l := by
  rw [new] at h
  split at h
  · cases h
    intro s
    cases s <;> exact ⟨List.Pairwise.nil, nofun, rfl, rfl⟩
  · cases h

end Pricetime.DenseLadder
