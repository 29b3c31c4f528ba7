import Pricetime.Proof.BookRefines

/-!
# A matching book is never crossed

An aggressor that matching leaves with shares has met every order it reaches
(`matchLevels_exhausts`), so that what rests of it crosses nothing. The
other operations only take orders away. A book without passive insertions is
therefore never crossed or locked (`never_crossed`).
-/

namespace Pricetime

namespace Spec

/-- Matching with shares left has nothing in reach left. -/
theorem matchLevels_exhausts {side : Side} {limit : Option Price} (policy : SelfTradePolicy) (aggressor : OrderId)
    (actor : ParticipantId) : ∀ {ls : List PriceLevel} {qty : Qty} {c : Counters},
      (ls.map PriceLevel.price).Pairwise (fun p p' => (opposite side).better p p' = true) →
      (matchLevels policy aggressor actor (reaches side limit) ls qty c).left ≠ 0 →
      ∀ l ∈ (matchLevels policy aggressor actor (reaches side limit) ls qty c).levels,
        reaches side limit l.price = false
  | [], _, _, _, _ => nofun
  | l :: ls, qty, c, hs, hleft => by
    obtain ⟨hworse, hs⟩ := List.pairwise_cons.mp hs
    unfold matchLevels at hleft ⊢
    by_cases h0 : qty = 0
    · rw [if_pos h0] at hleft
      exact absurd h0 hleft
    rw [if_neg h0] at hleft ⊢
    by_cases hr : reaches side limit l.price = true
    · rw [if_pos hr] at hleft ⊢
      dsimp only at hleft ⊢
      cases hk : (matchQueue policy aggressor actor l.price l.orders qty c).killed with
      | true =>
        rw [hk, if_pos rfl] at hleft
        exact absurd rfl hleft
      | false =>
        simp only [hk, Bool.false_eq_true, if_false] at hleft ⊢
        have hrest : (matchQueue policy aggressor actor l.price l.orders qty c).rest = [] := by
          refine (matchQueue_done _ _ _ _ _ _ _ hk).resolve_left fun hz => hleft ?_
          rw [hz, matchLevels_zero]
        rw [hrest, keep, if_pos rfl, List.nil_append]
        exact matchLevels_exhausts policy aggressor actor hs hleft
    · rw [if_neg hr]
      -- what is worse than a level out of reach is out of reach
      intro l' hl'
      rcases List.mem_cons.mp hl' with rfl | hl'
      · exact Bool.eq_false_iff.mpr hr
      · exact Bool.eq_false_iff.mpr fun hr' => hr (reaches_mono hr' (hworse _ (List.mem_map_of_mem hl')))

namespace Book

/-- Every bid is below every ask. -/
def Uncrossed (a : Book) : Prop := ∀ bid ∈ a.levels .bid, ∀ ask ∈ a.levels .ask, bid.price < ask.price

/-- No order of a side crosses the prices of the other. -/
def Clear (a : Book) (s : Side) (p : Price) : Prop :=
  ∀ l ∈ a.levels (opposite s), reaches s (some p) l.price = false

theorem uncrossed_iff {a : Book} (s : Side) : a.Uncrossed ↔ ∀ l ∈ a.levels s, a.Clear s l.price := by
  cases s with
  | bid =>
    refine forall₂_congr fun bid _ => forall₂_congr fun ask _ => ?_
    simp only [reaches, crosses, decide_eq_false_iff_not, ge_iff_le]
    exact (Int64.not_le).symm
  | ask =>
    refine ⟨fun h ask ha bid hb => ?_, fun h bid hb ask ha => ?_⟩
    · simpa [reaches, crosses] using h bid hb ask ha
    · simpa [reaches, crosses, Clear, opposite] using h ask ha bid hb

namespace Uncrossed

variable {a a' : Book}

theorem shrinks (h : a.Uncrossed) (hs : ∀ s, Shrinks (a'.levels s) (a.levels s)) : a'.Uncrossed := by
  intro bid hb ask ha
  obtain ⟨bid', hb', e, -⟩ := (hs .bid).mem hb
  obtain ⟨ask', ha', e', -⟩ := (hs .ask).mem ha
  rw [e, e']
  exact h bid' hb' ask' ha'

theorem rest (h : a.Uncrossed) {s : Side} {p : Price} (hc : a.Clear s p) (o : Resting) :
    (a.rest s p o).Uncrossed := by
  rw [uncrossed_iff s, Book.rest, setLevels_self]
  have hclear : ∀ ls p', (a.setLevels s ls).Clear s p' ↔ a.Clear s p' := fun ls p' => by
    rw [Clear, Clear, setLevels_of_ne a (Side.opposite_ne s)]
  intro l hl
  rw [hclear]
  rcases mem_insertAt hl with hl | ⟨e, -⟩
  · exact (uncrossed_iff s).mp h l hl
  · rw [e]
    exact hc

theorem matchMove (h : a.Uncrossed) (hw : a.Wf) (hm : MatchMove a a') : a'.Uncrossed := by
  cases hm with
  | policy p => exact h
  | take id actor side limit qty => exact h.shrinks (taken_shrinks a id actor side limit qty)
  | @enter id h0 hid actor side price qty =>
    have hs := h.shrinks (entered_shrinks a id actor side price qty)
    rw [entered]
    split
    · rename_i hleft
      refine hs.rest ?_ _
      rw [Clear, Book.matchOrder, setLevels_self]
      exact matchLevels_exhausts _ _ _ (hw.side _).sorted (UInt32.pos_iff_ne_zero.mp hleft)
    · exact hs
  | remove hf isExecution => exact h.shrinks (remove_shrinks (a.counted _ isExecution) _)
  | @reduce id pl hf take hlt isExecution => exact h.shrinks (reduce_shrinks (a.counted take isExecution) _ _)

theorem apply (h : a.Wf ∧ a.Uncrossed) (accepts : Price → Bool) {op : OrderBook.Op} (hop : op.isPassive = false) :
    (a.apply accepts op).2.Wf ∧ (a.apply accepts op).2.Uncrossed :=
  apply_match_inv (I := fun a => a.Wf ∧ a.Uncrossed) (fun h hm => ⟨h.1.move hm.move, h.2.matchMove h.1 hm⟩) h
    accepts hop

end Uncrossed

end Book

end Spec

namespace OrderBook

variable {L M : Type} [Ladder L] [LawfulLadder L] [IdMap M] [LawfulIdMap M]

/-- After every run without `insert_passive`, the best bid is below the best
ask. -/
theorem never_crossed {ladder : L} (hv : Vacant ladder) {b₀ : OrderBook L M} (h₀ : new ladder = some b₀)
    (ops : List Op) (hops : ∀ op ∈ ops, op.isPassive = false) (hfew : Runs.Along apply Few b₀ ops) :
    ∃ b, Runs.run apply b₀ ops = some b ∧
      ∀ bid ask, b.best .bid = some bid → b.best .ask = some ask → bid.price < ask.price := by
  obtain ⟨b, hb, hsim⟩ := new_sim (M := M) hv
  cases h₀.symm.trans hb
  have hstep : ∀ (b : OrderBook L M) op,
      (∃ a, Sim (Ladder.validPrice ladder) b a ∧ a.Wf ∧ a.Uncrossed) → Few b → op.isPassive = false →
      ∃ out b', b.apply op = some (out, b') ∧ ∃ a, Sim (Ladder.validPrice ladder) b' a ∧ a.Wf ∧ a.Uncrossed := by
    rintro b op ⟨a, h, hu⟩ hb hop
    obtain ⟨b', hb', h'⟩ := h.apply (h.within_of_few hb) op
    exact ⟨_, b', hb', _, h', Spec.Book.Uncrossed.apply hu _ hop⟩
  obtain ⟨b, hb, ⟨a, h, hw, hu⟩, -⟩ := Runs.run_inv hstep ops
    ⟨{}, hsim, Spec.Book.wf_empty, fun _ hbid => absurd hbid List.not_mem_nil⟩ hops hfew
  refine ⟨b, hb, fun bid ask hbid hask => ?_⟩
  have best : ∀ {s l}, b.best s = some l → ∃ l' ∈ a.levels s, l'.price = l.price := by
    intro s l hl
    have he := h.best_eq s
    rw [hl, Option.map_some] at he
    obtain ⟨l', hl', e⟩ := Option.map_eq_some_iff.mp he.symm
    exact ⟨l', List.mem_of_mem_head? hl', congrArg DepthLevel.price e⟩
  obtain ⟨bid', hbid', e⟩ := best hbid
  obtain ⟨ask', hask', e'⟩ := best hask
  rw [← e, ← e']
  exact hu bid' hbid' ask' hask'

/-- A bid that trades in part, and is replaced by one that trades. -/
theorem never_crossed_replace : ∃ (b₀ b : OrderBook MapLadder OpenAddressIdMap) (bid ask : Level), new {} = some b₀ ∧
    Runs.run apply b₀ [.addLimitAs 7 1 .bid 5 10, .addLimitAs 8 2 .ask 5 4, .addLimitAs 8 3 .ask 7 4,
      .addLimitAs 8 4 .ask 12 3, .replace 1 1 8 9] = some b ∧
    b.best .bid = some bid ∧ b.best .ask = some ask ∧ bid.price = 8 ∧ ask.price = 12 ∧ bid.price < ask.price := by
  obtain ⟨b₀, h₀, hsim⟩ := new_sim (M := OpenAddressIdMap) MapLadder.vacant
  obtain ⟨b, hb, h⟩ := never_crossed MapLadder.vacant h₀ [.addLimitAs 7 1 .bid 5 10, .addLimitAs 8 2 .ask 5 4,
    .addLimitAs 8 3 .ask 7 4, .addLimitAs 8 4 .ask 12 3, .replace 1 1 8 9] (by decide) (along_few hsim _ (by decide))
  have hview : ((new {} : Option (OrderBook MapLadder OpenAddressIdMap)).bind fun b₀ =>
      (Runs.run apply b₀ [.addLimitAs 7 1 .bid 5 10, .addLimitAs 8 2 .ask 5 4, .addLimitAs 8 3 .ask 7 4,
        .addLimitAs 8 4 .ask 12 3, .replace 1 1 8 9]).map fun b =>
          ((b.best .bid).map Level.price, (b.best .ask).map Level.price)) = some (some 8, some 12) := by decide +kernel
  rw [h₀, Option.bind_some, hb, Option.map_some, Option.some.injEq, Prod.mk.injEq] at hview
  obtain ⟨bid, hbid, hbidPrice⟩ := Option.map_eq_some_iff.mp hview.1
  obtain ⟨ask, hask, haskPrice⟩ := Option.map_eq_some_iff.mp hview.2
  exact ⟨b₀, b, bid, ask, h₀, hb, hbid, hask, hbidPrice, haskPrice, h bid ask hbid hask⟩

end OrderBook

end Pricetime
