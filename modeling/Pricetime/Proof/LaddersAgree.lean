import Pricetime.Proof.BookRefines
import Pricetime.Proof.DenseLadder

/-!
# The ladders cannot be told apart

Books over the three ladders all refine the same abstract book, as long as no
operation names a price outside the dense ladder's bounds. So what they answer
and what they show after every operation is the same (`ladders_agree`).
-/

namespace Pricetime

open Spec (PriceLevel)

/-- What a book shows of itself. -/
structure Observation where
  best : Side → Option DepthLevel
  levels : Side → Option (List LevelView)
  depth : Nat → Option Depth
  counters : Counters

/-- What an abstract book shows of itself. -/
def Spec.Book.observe (a : Spec.Book) : Observation where
  best s := (a.levels s).head?.map PriceLevel.depth
  levels s := some (a.walk s)
  depth maxLevels := some (a.depth maxLevels)
  counters := a.counters

namespace OrderBook

def observe {L M : Type} [Ladder L] [IdMap M] (b : OrderBook L M) : Observation where
  best s := (b.best s).map fun l => ⟨l.price, l.totalQty, l.orderCount⟩
  levels s := b.walk s
  depth maxLevels := b.depth maxLevels
  counters := b.counters

/-- The price an operation names. -/
def Op.price : Op → Option Price
  | .addLimitAs _ _ _ price _ => some price
  | .addIocAs _ _ _ price _ => some price
  | .addFokAs _ _ _ price _ => some price
  | .replace _ _ newPrice _ => some newPrice
  | .insertPassive _ _ price _ => some price
  | _ => none

/-- Every price named lies within the bounds. -/
def Op.Within (min max : Price) (op : Op) : Prop := ∀ p, op.price = some p → min ≤ p ∧ p ≤ max

/-- Only the price that an operation names is asked to be acceptable. -/
theorem apply_accepts {accepts accepts' : Price → Bool} (a : Spec.Book) {op : Op}
    (h : ∀ p, op.price = some p → accepts p = accepts' p) : a.apply accepts op = a.apply accepts' op := by
  have validate : ∀ (a : Spec.Book) (id : OrderId) {price : Price} (qty : Qty), op.price = some price →
      a.validate accepts id price qty = a.validate accepts' id price qty := fun a id price qty e => by
    rw [Spec.Book.validate, Spec.Book.validate, h price e]
  cases op with
  | addLimitAs actor id side price qty =>
    rw [Spec.Book.apply, Spec.Book.apply, Spec.Book.addLimitAs, Spec.Book.addLimitAs, validate a id qty rfl]
  | addIocAs actor id side price qty =>
    rw [Spec.Book.apply, Spec.Book.apply, Spec.Book.addIocAs, Spec.Book.addIocAs, validate a id qty rfl]
  | addFokAs actor id side price qty =>
    rw [Spec.Book.apply, Spec.Book.apply, Spec.Book.addFokAs, Spec.Book.addFokAs, validate a id qty rfl]
  | insertPassive id side price qty =>
    rw [Spec.Book.apply, Spec.Book.apply, Spec.Book.insertPassive, Spec.Book.insertPassive,
      validate a id qty rfl]
  | replace oldId newId newPrice newQty =>
    rw [Spec.Book.apply, Spec.Book.apply, Spec.Book.replace, Spec.Book.replace]
    cases a.find oldId with
    | none => rfl
    | some pl => simp only [h newPrice rfl, Spec.Book.addLimitAs, validate _ newId newQty rfl]
  | setSelfTradePolicy p => rfl
  | reserveOrders n => rfl
  | addMarketAs actor id side qty => rfl
  | cancel id => rfl
  | executeResting id qty => rfl
  | reduceResting id qty => rfl

variable {L M : Type} [Ladder L] [LawfulLadder L] [IdMap M] [LawfulIdMap M]

theorem Sim.observe_eq {accepts : Price → Bool} {b : OrderBook L M} {a : Spec.Book}
    (h : Sim accepts b a) (hb : b.Few) : b.observe = a.observe := by
  have hw := h.within_of_few hb
  have hcounters : b.counters = a.counters := by
    obtain ⟨T, Q, h⟩ := h
    exact h.counters.symm
  simp only [observe, Spec.Book.observe, h.best_eq, h.walk_eq hw, h.depth_eq hw, hcounters]

theorem ladders_agree {min max : Price} {bounds : DenseLadder} (hbounds : DenseLadder.new min max = some bounds)
    {dense : OrderBook DenseLadder OpenAddressIdMap} (hdense : new bounds = some dense)
    {tree : OrderBook MapLadder OpenAddressIdMap} (htree : new {} = some tree)
    {pooled : OrderBook PooledMapLadder OpenAddressIdMap} (hpooled : new {} = some pooled)
    (ops : List Op) (hops : ∀ op ∈ ops, op.Within min max) (hfew : Runs.Along apply Few tree ops) :
    ∃ outs, Runs.trace (Runs.observed apply observe) dense ops = some outs ∧
      Runs.trace (Runs.observed apply observe) tree ops = some outs ∧
      Runs.trace (Runs.observed apply observe) pooled ops = some outs := by
  obtain ⟨dense₀, h₀, simd⟩ := new_sim (M := OpenAddressIdMap) (DenseLadder.vacant hbounds)
  cases hdense.symm.trans h₀
  obtain ⟨tree₀, h₀, simt⟩ := new_sim (M := OpenAddressIdMap) MapLadder.vacant
  cases htree.symm.trans h₀
  obtain ⟨pooled₀, h₀, simo⟩ := new_sim (M := OpenAddressIdMap) PooledMapLadder.vacant
  cases hpooled.symm.trans h₀
  -- the three abstract machines step alike
  have inside : ∀ op ∈ ops, ∀ p, op.price = some p → true = Ladder.validPrice bounds p := by
    intro op hop p hp
    obtain ⟨h1, h2⟩ := hops op hop p hp
    rw [DenseLadder.new] at hbounds
    split at hbounds
    · cases hbounds
      simp only [Ladder.validPrice, DenseLadder.validPrice, h1, h2, decide_true, Bool.and_self]
    · cases hbounds
  have same : ∀ op ∈ ops, ∀ a, specStep (fun _ => true) a op = specStep (Ladder.validPrice bounds) a op :=
    fun op hop a => congrArg some (apply_accepts a (inside op hop))
  have hspec := along_spec simt hfew
  have hfewd := along_of_spec simd (Runs.along_congr same hspec)
  have hfewp := along_of_spec simo hspec
  obtain ⟨outs, ht, hs⟩ := trace_sim Sim.within_of_few Sim.observe_eq simt ops hfew
  obtain ⟨outsd, hd, hsd⟩ := trace_sim Sim.within_of_few Sim.observe_eq simd ops hfewd
  obtain ⟨outsp, hp, hsp⟩ := trace_sim Sim.within_of_few Sim.observe_eq simo ops hfewp
  have hsame : Runs.trace (Runs.observed (specStep fun _ => true) Spec.Book.observe) {} ops =
      Runs.trace (Runs.observed (specStep (Ladder.validPrice bounds)) Spec.Book.observe) {} ops :=
    Runs.trace_congr (fun op hop a => by simp only [Runs.observed, same op hop a]) _
  refine ⟨outs, ?_, ht, ?_⟩
  · rw [hd, ← hsd, ← hsame]
    exact hs
  · rw [hp, ← hsp]
    exact hs

/-- Two orders that trade in part, the remainder resting and being reduced. -/
theorem ladders_agree_crossing :
    ∃ (bounds : DenseLadder) (dense : OrderBook DenseLadder OpenAddressIdMap)
      (tree : OrderBook MapLadder OpenAddressIdMap) (pooled : OrderBook PooledMapLadder OpenAddressIdMap)
      (outs : List (Reply × Observation)),
      DenseLadder.new 0 10 = some bounds ∧ new bounds = some dense ∧ new {} = some tree ∧
      new {} = some pooled ∧
      Runs.trace (Runs.observed apply observe) dense
        [.addLimitAs 0 1 .bid 5 10, .addLimitAs 0 2 .ask 5 4, .reduceResting 1 2] = some outs ∧
      Runs.trace (Runs.observed apply observe) tree
        [.addLimitAs 0 1 .bid 5 10, .addLimitAs 0 2 .ask 5 4, .reduceResting 1 2] = some outs ∧
      Runs.trace (Runs.observed apply observe) pooled
        [.addLimitAs 0 1 .bid 5 10, .addLimitAs 0 2 .ask 5 4, .reduceResting 1 2] = some outs := by
  have hbounds : DenseLadder.new 0 10 = some { min := 0, max := 10 } := by decide
  obtain ⟨dense, hd, -⟩ := new_sim (M := OpenAddressIdMap) (DenseLadder.vacant hbounds)
  obtain ⟨tree, ht, simt⟩ := new_sim (M := OpenAddressIdMap) MapLadder.vacant
  obtain ⟨pooled, hp, -⟩ := new_sim (M := OpenAddressIdMap) PooledMapLadder.vacant
  have hops : ∀ op ∈ [Op.addLimitAs 0 1 .bid 5 10, .addLimitAs 0 2 .ask 5 4, .reduceResting 1 2],
      op.Within 0 10 := by
    intro op hop p hp
    simp only [List.mem_cons, List.not_mem_nil, or_false] at hop
    rcases hop with rfl | rfl | rfl
    · cases hp
      decide
    · cases hp
      decide
    · cases hp
  obtain ⟨outs, h⟩ := ladders_agree hbounds hd ht hp _ hops (along_few simt _ (by decide))
  exact ⟨_, dense, tree, pooled, outs, hbounds, hd, ht, hp, h⟩

end OrderBook

end Pricetime
