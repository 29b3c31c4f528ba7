import Mathlib

/-!
# Lists made of frames

`next` cuts one item off the front of a list, or stops with a verdict.
`Chops next xs items rest v` says that cutting `xs` again and again gives
`items`, and stops at `rest` with verdict `v`.

Main results:

* `exists_chops`, `Chops.unique`: every list is chopped, and in one way only.
* `Chops.append`, `Chops.resume`: chopping more of the same list goes on at the rest.
* `Frames.chops`, `Frames.longest`: if `next` cuts off exactly the frames of
  valid items, the items chopped are the longest prefix made of frames.
-/

namespace Framing

/-- What cutting gives. -/
inductive Cut (α β V : Type) where
  | item (b : β) (rest : List α)
  | stop (v : V)

variable {α β V : Type} {next : List α → Cut α β V}

inductive Chops (next : List α → Cut α β V) : List α → List β → List α → V → Prop
  | stop {xs : List α} {v : V} (h : next xs = .stop v) : Chops next xs [] xs v
  | item {xs ys rest : List α} {b : β} {bs : List β} {v : V} (h : next xs = .item b ys)
    (hs : Chops next ys bs rest v) : Chops next xs (b :: bs) rest v

/-- An item takes up something. -/
def Shrinks (next : List α → Cut α β V) : Prop := ∀ {xs b ys}, next xs = .item b ys → ys.length < xs.length

theorem exists_chops (hs : Shrinks next) (xs : List α) : ∃ bs rest v, Chops next xs bs rest v := by
  induction hn : xs.length using Nat.strongRecOn generalizing xs with
  | ind n ih =>
    subst hn
    cases h : next xs with
    | stop v => exact ⟨[], xs, v, .stop h⟩
    | item b ys =>
      obtain ⟨bs, rest, v, hc⟩ := ih ys.length (hs h) ys rfl
      exact ⟨b :: bs, rest, v, .item h hc⟩

namespace Chops

variable {xs rest : List α} {bs : List β} {v : V}

theorem unique (h : Chops next xs bs rest v) {bs' : List β} {rest' : List α} {v' : V}
    (h' : Chops next xs bs' rest' v') : bs = bs' ∧ rest = rest' ∧ v = v' := by
  induction h generalizing bs' with
  | stop h =>
    cases h' with
    | stop h' => exact ⟨rfl, rfl, Cut.stop.inj (h.symm.trans h')⟩
    | item h' => cases h.symm.trans h'
  | item h _ ih =>
    cases h' with
    | stop h' => cases h.symm.trans h'
    | item h' hs' =>
      obtain ⟨rfl, rfl⟩ := Cut.item.inj (h.symm.trans h')
      obtain ⟨rfl, rfl, rfl⟩ := ih hs'
      exact ⟨rfl, rfl, rfl⟩

/-- Chopping stops at the rest. -/
theorem stops (h : Chops next xs bs rest v) : next rest = .stop v := by
  induction h with
  | stop h => exact h
  | item _ _ ih => exact ih

/-- Items stay items when more of the list is there. -/
theorem append (happ : ∀ {xs b ys} (zs : List α), next xs = .item b ys → next (xs ++ zs) = .item b (ys ++ zs))
    (h : Chops next xs bs rest v) {zs rest' : List α} {bs' : List β} {v' : V}
    (h' : Chops next (rest ++ zs) bs' rest' v') : Chops next (xs ++ zs) (bs ++ bs') rest' v' := by
  induction h with
  | stop _ => exact h'
  | item h _ ih => exact .item (happ zs h) (ih h')

/-- Chopping more of the same list goes on at the rest. -/
theorem resume (hs : Shrinks next)
    (happ : ∀ {xs b ys} (zs : List α), next xs = .item b ys → next (xs ++ zs) = .item b (ys ++ zs))
    (h : Chops next xs bs rest v) {zs rest' : List α} {bs' : List β} {v' : V}
    (h' : Chops next (xs ++ zs) bs' rest' v') : ∃ bs'', bs' = bs ++ bs'' ∧ Chops next (rest ++ zs) bs'' rest' v' := by
  obtain ⟨bs'', rest'', v'', h''⟩ := exists_chops hs (rest ++ zs)
  obtain ⟨rfl, rfl, rfl⟩ := h'.unique (h.append happ h'')
  exact ⟨bs'', rfl, h''⟩

end Chops

/-! ## Frames -/

/-- `next` cuts off the frames of the valid items. -/
structure Frames (next : List α → Cut α β V) (frame : β → List α) (valid : β → Prop) : Prop where
  cut : ∀ {xs b ys}, next xs = .item b ys ↔ valid b ∧ xs = frame b ++ ys
  pos : ∀ {b}, valid b → frame b ≠ []

namespace Frames

variable {frame : β → List α} {valid : β → Prop} {xs rest : List α} {bs : List β} {v : V}

theorem shrinks (hf : Frames next frame valid) : Shrinks next := by
  intro xs b ys h
  obtain ⟨hb, rfl⟩ := hf.cut.mp h
  rw [List.length_append]
  have := List.length_pos_iff.mpr (hf.pos hb)
  omega

theorem append (hf : Frames next frame valid) {b : β} {ys : List α} (zs : List α) (h : next xs = .item b ys) :
    next (xs ++ zs) = .item b (ys ++ zs) := by
  obtain ⟨hb, rfl⟩ := hf.cut.mp h
  exact hf.cut.mpr ⟨hb, List.append_assoc ..⟩

/-- What is chopped is frames of valid items. -/
theorem eq (hf : Frames next frame valid) (h : Chops next xs bs rest v) :
    xs = bs.flatMap frame ++ rest ∧ ∀ b ∈ bs, valid b := by
  induction h with
  | stop _ => exact ⟨rfl, nofun⟩
  | item h _ ih =>
    obtain ⟨hb, rfl⟩ := hf.cut.mp h
    obtain ⟨rfl, hbs⟩ := ih
    exact ⟨by rw [List.flatMap_cons, List.append_assoc], List.forall_mem_cons.mpr ⟨hb, hbs⟩⟩

/-- The rest is the end of the list. -/
theorem drop (hf : Frames next frame valid) (h : Chops next xs bs rest v) :
    xs.drop (xs.length - rest.length) = rest := by
  rw [(hf.eq h).1, List.length_append, Nat.add_sub_cancel, List.drop_left]

/-- Frames of valid items are chopped. -/
theorem chops (hf : Frames next frame valid) {ys : List α} : ∀ {bs' : List β}, (∀ b ∈ bs', valid b) →
    Chops next ys bs rest v → Chops next (bs'.flatMap frame ++ ys) (bs' ++ bs) rest v
  | [], _, h => h
  | b :: bs', hv, h => by
    refine .item (hf.cut.mpr ⟨hv b List.mem_cons_self, ?_⟩)
      (hf.chops (fun b hb => hv b (List.mem_cons_of_mem _ hb)) h)
    rw [List.flatMap_cons, List.append_assoc]

/-- No other frames reach further. -/
theorem longest (hf : Frames next frame valid) (h : Chops next xs bs rest v) {bs' : List β} {rest' : List α}
    (hv : ∀ b ∈ bs', valid b) (hx : xs = bs'.flatMap frame ++ rest') : bs' <+: bs := by
  obtain ⟨bs'', rest'', v', h'⟩ := exists_chops hf.shrinks rest'
  have hc := hf.chops hv h'
  rw [← hx] at hc
  obtain ⟨rfl, -, -⟩ := h.unique hc
  exact List.prefix_append ..

end Frames

end Framing
