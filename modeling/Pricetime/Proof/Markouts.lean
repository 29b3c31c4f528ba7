import Pricetime.Proof.Framework.Timeline
import Pricetime.Proof.ItchWriter
import Pricetime.Proof.SandboxSteps

/-!
# Markouts

The market maker's history of the mid is what the quotes of the run come to
when those that repeat the one before are left out (`Follows`). A markout looks
for the first entry from the horizon on (`markout_at_or_after`). It is the mid
in force there if the mid changes at that very time; otherwise it is the next
one, or none (`markout_in_force`).
-/

namespace Pricetime

open Itch (Message Replayer ReplayEvent WriterCall decode be48)
open Timeline (inForce here changes Ordered)

/-! ## Timestamps -/

namespace Itch

/-- The timestamp of a message. -/
def stamp (msg : List UInt8) : UInt64 := (be48 msg 5).getD 0

/-- The timestamp that the replayer reads of a message. -/
def Message.timestamp : Message → Option UInt64
  | .add m => some m.timestamp
  | .executed m => some m.timestamp
  | .cancel m => some m.timestamp
  | .delete m => some m.timestamp
  | .replace m => some m.timestamp
  | .trade timestamp => some timestamp
  | .systemEvent m => some m.timestamp
  | .administrative => none

section Fields

variable {msg : List UInt8}

theorem add_timestamp {e : AddOrder} (h : decodeAddOrder msg = some e) : be48 msg 5 = some e.timestamp := by
  obtain ⟨timestamp, hts, h⟩ := Option.bind_eq_some_iff.mp h
  obtain ⟨reference, -, h⟩ := Option.bind_eq_some_iff.mp h
  obtain ⟨side, -, h⟩ := Option.bind_eq_some_iff.mp h
  obtain ⟨shares, -, h⟩ := Option.bind_eq_some_iff.mp h
  obtain ⟨symbol, -, h⟩ := Option.bind_eq_some_iff.mp h
  obtain ⟨price, -, h⟩ := Option.bind_eq_some_iff.mp h
  cases h
  exact hts

theorem executed_timestamp {e : OrderExecuted} (h : decodeOrderExecuted msg = some e) : be48 msg 5 = some e.timestamp := by
  obtain ⟨timestamp, hts, h⟩ := Option.bind_eq_some_iff.mp h
  obtain ⟨reference, -, h⟩ := Option.bind_eq_some_iff.mp h
  obtain ⟨shares, -, h⟩ := Option.bind_eq_some_iff.mp h
  obtain ⟨matchNumber, -, h⟩ := Option.bind_eq_some_iff.mp h
  obtain ⟨type, -, h⟩ := Option.bind_eq_some_iff.mp h
  split at h
  · obtain ⟨printable, -, h⟩ := Option.bind_eq_some_iff.mp h
    obtain ⟨price, -, h⟩ := Option.bind_eq_some_iff.mp h
    cases h
    exact hts
  · cases h
    exact hts

theorem cancel_timestamp {e : OrderCancel} (h : decodeOrderCancel msg = some e) : be48 msg 5 = some e.timestamp := by
  obtain ⟨timestamp, hts, h⟩ := Option.bind_eq_some_iff.mp h
  obtain ⟨reference, -, h⟩ := Option.bind_eq_some_iff.mp h
  obtain ⟨shares, -, h⟩ := Option.bind_eq_some_iff.mp h
  cases h
  exact hts

theorem delete_timestamp {e : OrderDelete} (h : decodeOrderDelete msg = some e) : be48 msg 5 = some e.timestamp := by
  obtain ⟨timestamp, hts, h⟩ := Option.bind_eq_some_iff.mp h
  obtain ⟨reference, -, h⟩ := Option.bind_eq_some_iff.mp h
  cases h
  exact hts

theorem replace_timestamp {e : OrderReplace} (h : decodeOrderReplace msg = some e) : be48 msg 5 = some e.timestamp := by
  obtain ⟨timestamp, hts, h⟩ := Option.bind_eq_some_iff.mp h
  obtain ⟨originalReference, -, h⟩ := Option.bind_eq_some_iff.mp h
  obtain ⟨newReference, -, h⟩ := Option.bind_eq_some_iff.mp h
  obtain ⟨shares, -, h⟩ := Option.bind_eq_some_iff.mp h
  obtain ⟨price, -, h⟩ := Option.bind_eq_some_iff.mp h
  cases h
  exact hts

theorem systemEvent_timestamp {e : SystemEvent} (h : decodeSystemEvent msg = some e) : be48 msg 5 = some e.timestamp := by
  obtain ⟨timestamp, hts, h⟩ := Option.bind_eq_some_iff.mp h
  obtain ⟨code, -, h⟩ := Option.bind_eq_some_iff.mp h
  cases h
  exact hts

/-- It is at the same place in all of them. -/
theorem stamp_eq {m : Message} (h : decode msg = some m) : ∀ ts ∈ m.timestamp, ts = stamp msg := by
  suffices hat : ∀ ts ∈ m.timestamp, be48 msg 5 = some ts by
    intro ts hts
    rw [stamp, hat ts hts]
    rfl
  obtain ⟨type, -, h⟩ := Option.bind_eq_some_iff.mp h
  rintro ts hts
  split at h
  case h_1 | h_2 =>
    obtain ⟨e, he, rfl⟩ := Option.map_eq_some_iff.mp h
    exact Option.some.inj hts ▸ add_timestamp he
  case h_3 | h_4 =>
    obtain ⟨e, he, rfl⟩ := Option.map_eq_some_iff.mp h
    exact Option.some.inj hts ▸ executed_timestamp he
  case h_5 =>
    obtain ⟨e, he, rfl⟩ := Option.map_eq_some_iff.mp h
    exact Option.some.inj hts ▸ cancel_timestamp he
  case h_6 =>
    obtain ⟨e, he, rfl⟩ := Option.map_eq_some_iff.mp h
    exact Option.some.inj hts ▸ delete_timestamp he
  case h_7 =>
    obtain ⟨e, he, rfl⟩ := Option.map_eq_some_iff.mp h
    exact Option.some.inj hts ▸ replace_timestamp he
  case h_8 =>
    obtain ⟨timestamp, he, rfl⟩ := Option.map_eq_some_iff.mp h
    exact Option.some.inj hts ▸ he
  case h_9 =>
    obtain ⟨e, he, rfl⟩ := Option.map_eq_some_iff.mp h
    exact Option.some.inj hts ▸ systemEvent_timestamp he
  case h_10 =>
    cases h
    cases hts

end Fields

namespace Replayer

variable {L M : Type} [Ladder L] [IdMap M] {r r' : Replayer L M} {out : List ReplayEvent}

theorem onReduced_timestamp {timestamp : UInt64} {reference : OrderId} {shares : Qty} {isExecution : Bool}
    (h : r.onReduced timestamp reference shares isExecution = some (out, r')) :
    r'.stats.lastTimestamp = timestamp := by
  obtain ⟨found, -, h⟩ := Option.bind_eq_some_iff.mp h
  cases found with
  | none =>
    cases h
    rfl
  | some p =>
    obtain ⟨⟨reply, books⟩, -, h⟩ := Option.bind_eq_some_iff.mp h
    obtain ⟨b, -, h⟩ := Option.bind_eq_some_iff.mp h
    obtain ⟨o, -, h⟩ := Option.bind_eq_some_iff.mp h
    cases o with
    | none =>
      obtain ⟨books', -, h⟩ := Option.bind_eq_some_iff.mp h
      cases h
      dsimp only [setStats]
      split <;> split <;> rfl
    | some o =>
      cases h
      dsimp only [setStats]
      split <;> split <;> rfl

/-- A message with a timestamp sets that of the replayer; another changes
nothing. -/
theorem dispatch_timestamp {m : Message} (h : r.dispatch m = some (out, r')) :
    (∃ ts ∈ m.timestamp, r'.stats.lastTimestamp = ts) ∨ m = .administrative ∧ r' = r := by
  cases m with
  | add m =>
    refine .inl ⟨_, rfl, ?_⟩
    rw [dispatch, onAdd] at h
    dsimp only at h
    split at h
    · cases h
      rfl
    · obtain ⟨⟨p, books⟩, -, h⟩ := Option.bind_eq_some_iff.mp h
      obtain ⟨⟨reply, books'⟩, -, h⟩ := Option.bind_eq_some_iff.mp h
      dsimp only at h
      split at h
      · obtain ⟨books'', -, h⟩ := Option.bind_eq_some_iff.mp h
        cases h
        rfl
      · cases h
        rfl
  | executed m => exact .inl ⟨_, rfl, onReduced_timestamp h⟩
  | cancel m => exact .inl ⟨_, rfl, onReduced_timestamp h⟩
  | delete m =>
    refine .inl ⟨_, rfl, ?_⟩
    obtain ⟨found, -, h⟩ := Option.bind_eq_some_iff.mp h
    cases found with
    | none =>
      cases h
      rfl
    | some p =>
      obtain ⟨⟨reply, books⟩, -, h⟩ := Option.bind_eq_some_iff.mp h
      obtain ⟨books', -, h⟩ := Option.bind_eq_some_iff.mp h
      cases h
      rfl
  | replace m =>
    refine .inl ⟨_, rfl, ?_⟩
    obtain ⟨found, -, h⟩ := Option.bind_eq_some_iff.mp h
    cases found with
    | none =>
      cases h
      rfl
    | some p =>
      obtain ⟨b, -, h⟩ := Option.bind_eq_some_iff.mp h
      obtain ⟨o, -, h⟩ := Option.bind_eq_some_iff.mp h
      cases o with
      | none =>
        cases h
        rfl
      | some o =>
        obtain ⟨⟨reply, books⟩, -, h⟩ := Option.bind_eq_some_iff.mp h
        obtain ⟨books', -, h⟩ := Option.bind_eq_some_iff.mp h
        obtain ⟨⟨reply', books''⟩, -, h⟩ := Option.bind_eq_some_iff.mp h
        dsimp only at h
        split at h
        · obtain ⟨books₃, -, h⟩ := Option.bind_eq_some_iff.mp h
          cases h
          rfl
        · cases h
          rfl
  | trade timestamp =>
    cases h
    exact .inl ⟨_, rfl, rfl⟩
  | systemEvent m =>
    cases h
    exact .inl ⟨_, rfl, rfl⟩
  | administrative =>
    cases h
    exact .inr ⟨rfl, rfl⟩

end Replayer

end Itch

/-! ## The search -/

/-- A time as a number. -/
abbrev MidPoint.time (p : MidPoint) : Nat := p.ts.toNat

namespace MarketMaker

/-- The search ends between the entries before `ts` and those from `ts` on. -/
theorem searchMids_spec {mids : List MidPoint} (hs : Ordered MidPoint.time mids) (ts : UInt64) (lo hi : Nat)
    (hhi : hi ≤ mids.length) (hle : lo ≤ hi) (hlo : ∀ i < lo, ∀ p ∈ mids[i]?, p.ts < ts)
    (hge : ∀ i ≥ hi, ∀ p ∈ mids[i]?, ts ≤ p.ts) :
    (∀ i < searchMids mids ts lo hi hhi, ∀ p ∈ mids[i]?, p.ts < ts) ∧
      ∀ i ≥ searchMids mids ts lo hi hhi, ∀ p ∈ mids[i]?, ts ≤ p.ts := by
  have hmono : ∀ (i j : Nat) (hj : j < mids.length), i ≤ j → ∀ p ∈ mids[i]?, p.ts ≤ mids[j].ts := by
    intro i j hj hij p hp
    obtain ⟨hi, rfl⟩ := List.getElem?_eq_some_iff.mp hp
    rcases Nat.lt_or_eq_of_le hij with hlt | rfl
    · exact UInt64.le_iff_toNat_le.mpr (List.pairwise_iff_getElem.mp hs i j hi hj hlt)
    · exact UInt64.le_refl _
  have hmono' : ∀ (i j : Nat) (hi : i < mids.length), i ≤ j → ∀ p ∈ mids[j]?, mids[i].ts ≤ p.ts := by
    intro i j hi hij p hp
    obtain ⟨hj, rfl⟩ := List.getElem?_eq_some_iff.mp hp
    exact hmono i j hj hij _ (List.getElem?_eq_getElem hi)
  fun_induction searchMids mids ts lo hi hhi with
  | case1 lo hi hhi h midIdx hlt ih =>
    have hmid : midIdx < hi := by omega
    exact ih (by omega) (fun i hi' p hp =>
      UInt64.lt_of_le_of_lt (hmono i midIdx (by omega) (Nat.lt_succ_iff.mp hi') p hp) hlt) hge
  | case2 lo hi hhi h midIdx hlt ih =>
    have hmid : midIdx < hi := by omega
    exact ih (by omega) hlo fun i hi' p hp =>
      UInt64.le_trans (UInt64.not_lt.mp hlt) (hmono' midIdx i (by omega) hi' p hp)
  | case3 lo hi hhi h => exact ⟨hlo, fun i hi' p hp => hge i (by omega) p hp⟩

/-- `mid_at_or_after`, of a history in the order of time. -/
theorem midAtOrAfter_eq {m : MarketMaker} (hs : Ordered MidPoint.time m.midHistory) (ts : UInt64) :
    m.midAtOrAfter ts =
      ((m.midHistory.find? fun p => ts.toNat ≤ p.time).map MidPoint.mid).getD kNoMid := by
  obtain ⟨hlt, hge⟩ := searchMids_spec hs ts 0 m.midHistory.length (Nat.le_refl _) (Nat.zero_le _) nofun
    fun i hi p hp => by cases (List.getElem?_eq_none hi).symm.trans hp
  have hfind : (m.midHistory.find? fun p => ts.toNat ≤ p.time) =
      m.midHistory[searchMids m.midHistory ts 0 m.midHistory.length (Nat.le_refl _)]? := by
    generalize searchMids m.midHistory ts 0 m.midHistory.length (Nat.le_refl _) = i at hlt hge
    have hskip : (m.midHistory.take i).find? (fun p => ts.toNat ≤ p.time) = none := by
      rw [List.find?_eq_none]
      intro p hp
      obtain ⟨j, hj, rfl⟩ := List.mem_take_iff_getElem.mp hp
      have hlt := hlt j (by omega) _ (List.getElem?_eq_getElem (by omega))
      simpa using UInt64.lt_iff_toNat_lt.mp hlt
    conv_lhs => rw [← List.take_append_drop i m.midHistory]
    rw [List.find?_append, hskip, Option.none_or, ← List.head?_drop]
    cases hd : m.midHistory.drop i with
    | nil => rfl
    | cons p ps =>
      have hp : p ∈ m.midHistory[i]? := by
        rw [← List.head?_drop, hd]
        rfl
      exact List.find?_cons_of_pos (decide_eq_true (UInt64.le_iff_toNat_le.mp (hge i (Nat.le_refl _) p hp)))
  rw [midAtOrAfter, hfind]
  cases m.midHistory[searchMids m.midHistory ts 0 m.midHistory.length (Nat.le_refl _)]? <;> rfl

/-- The moves of `markout`, with no history or with one. -/
theorem markout_eq (m : MarketMaker) (horizon : UInt64) : m.markout horizon = m.fillsLog.filterMap fun f =>
    (m.future horizon f).map fun future =>
      if f.side = .bid then future - f.midAtFill else -(future - f.midAtFill) := by
  rw [markout]
  split
  · rename_i hempty
    rw [List.isEmpty_iff] at hempty
    have hnone : ∀ f ∈ m.fillsLog, m.future horizon f = none := fun f _ => by
      have hno : m.midAtOrAfter (f.timestamp + horizon) = kNoMid := by
        rw [midAtOrAfter, List.getElem?_eq_none (Nat.le_trans (Nat.le_of_eq (congrArg List.length hempty)) (Nat.zero_le _))]
      rw [future, hno]
      exact if_pos rfl
    refine (List.filterMap_eq_nil_iff.mpr fun f hf => ?_).symm
    rw [hnone f hf]
    rfl
  · rfl

end MarketMaker

namespace MmSandbox

variable {s s' : MmSandbox} {msg : List UInt8} {placed : List Side}

/-! ## The history -/

/-- The mid after each message of a run that leaves both sides quoted. -/
def quotes (s : MmSandbox) : List (List UInt8) → List MidPoint
  | [] => []
  | msg :: msgs =>
    match s.step msg with
    | none => []
    | some (_, s') => (s'.quote.map fun mid => ⟨Itch.stamp msg, mid⟩).toList ++ s'.quotes msgs

theorem quotes_stamps : ∀ (s : MmSandbox) (msgs : List (List UInt8)),
    ((s.quotes msgs).map MidPoint.ts).Sublist (msgs.map Itch.stamp)
  | _, [] => .refl _
  | s, msg :: msgs => by
    rw [quotes]
    split
    · exact List.nil_sublist _
    · rename_i s' _
      have ih := quotes_stamps s' msgs
      cases hq : s'.quote with
      | none => exact ih.cons _
      | some mid => exact ih.cons_cons _

theorem quote_ne {mid : Price} (h : mid ∈ s.quote) : mid ≠ MarketMaker.kNoMid := by
  obtain ⟨book, -, h⟩ := Option.bind_eq_some_iff.mp h
  obtain ⟨bid, -, h⟩ := Option.bind_eq_some_iff.mp h
  obtain ⟨ask, -, h⟩ := Option.bind_eq_some_iff.mp h
  cases h
  generalize bid.price + ask.price = p
  intro e
  have hlt := p.toInt_lt
  have hle := p.le_toInt
  have htwo : (2 : Price).toInt = 2 := rfl
  have hmin : MarketMaker.kNoMid.toInt = -2 ^ 63 := rfl
  have hdiv := congrArg Int64.toInt e
  rw [Int64.toInt_div_of_ne_right _ _ (by decide), htwo, hmin, Int.tdiv_eq_ediv] at hdiv
  have hsign : Int.sign 2 = 1 := rfl
  split at hdiv <;> omega

/-- The history and the last mid, after the quotes `qs`. -/
structure Follows (qs : List MidPoint) (s : MmSandbox) : Prop where
  history : s.mm.midHistory = changes MidPoint.mid qs
  last : qs.getLast?.map MidPoint.mid = if s.haveMid then some s.lastMid else none
  current : ∀ mid ∈ s.quote, s.haveMid = true ∧ s.lastMid = mid
  mids : ∀ q ∈ qs, q.mid ≠ MarketMaker.kNoMid

theorem quote_congr (hcfg : s'.cfg = s.cfg) (hbooks : s'.rep.books = s.rep.books) : s'.quote = s.quote := by
  rw [quote, quote, hcfg, hbooks]

theorem Follows.step {qs : List MidPoint} (hs : Follows qs s) (h : s.step msg = some (placed, s')) :
    Follows (qs ++ (s'.quote.map fun mid => ⟨Itch.stamp msg, mid⟩).toList) s' := by
  obtain ⟨out, rep, s₁, fill, hrep, hrec, -, href⟩ := step_cases h
  obtain ⟨m, hm, hrep⟩ := Option.bind_eq_some_iff.mp hrep
  have hhist : s₁.mm.midHistory = s.mm.midHistory := by
    rw [hrec.mm]
    cases fill <;> rfl
  have hquote : s'.quote = s₁.quote := quote_congr href.cfg (congrArg _ href.rep)
  rw [hquote]
  cases hq : s₁.quote with
  | none =>
    obtain ⟨rfl, -⟩ := href.unquoted hq
    rw [Option.map_none, Option.toList_none, List.append_nil]
    refine ⟨hhist.trans hs.history, ?_, fun mid hmid => (nomatch hq.symm.trans hmid), hs.mids⟩
    rw [hs.last, hrec.haveMid, hrec.lastMid]
  | some mid =>
    obtain ⟨hhave, hlast, hnew⟩ := href.quoted mid hq
    rw [hhist, hrec.haveMid, hrec.lastMid] at hnew
    refine ⟨?_, ?_, fun mid' hmid => ?_, fun q hqs => ?_⟩
    · have hsame : qs.getLast?.map MidPoint.mid = some mid ↔ s.haveMid = true ∧ mid = s.lastMid := by
        rw [hs.last]
        split
        · rename_i hmid
          exact ⟨fun e => ⟨hmid, (Option.some.inj e).symm⟩, fun e => congrArg some e.2.symm⟩
        · rename_i hmid
          exact ⟨nofun, fun e => absurd e.1 hmid⟩
      rw [hnew, Option.map_some, Option.toList_some, Timeline.changes_concat, ← hs.history, if_congr hsame rfl rfl]
      split
      · rfl
      · rename_i hchanged
        -- a message that does not tell the time leaves the mid as it was
        rcases Itch.Replayer.dispatch_timestamp hrep with ⟨ts, hts, hlast⟩ | ⟨-, rfl⟩
        · rw [hrec.rep, hlast, Itch.stamp_eq hm ts hts]
        · have hold : s.quote = some mid := (quote_congr hrec.cfg (congrArg _ hrec.rep)).symm.trans hq
          obtain ⟨hmid, rfl⟩ := hs.current mid hold
          exact absurd ⟨hmid, rfl⟩ hchanged
    · rw [Option.map_some, Option.toList_some, List.getLast?_concat, hhave, hlast]
      rfl
    · cases hq.symm.trans (hquote.symm.trans hmid)
      exact ⟨hhave, hlast⟩
    · rcases List.mem_append.mp hqs with hqs | hqs
      · exact hs.mids q hqs
      · cases List.mem_singleton.mp hqs
        exact quote_ne hq

theorem Follows.run : ∀ {qs : List MidPoint} {s s' : MmSandbox} (msgs : List (List UInt8)), Follows qs s →
    Runs.run MmSandbox.step s msgs = some s' → Follows (qs ++ s.quotes msgs) s'
  | qs, s, s', [], hs, h => by
    cases h
    rwa [quotes, List.append_nil]
  | qs, s, s', msg :: msgs, hs, h => by
    obtain ⟨⟨placed, s₁⟩, hstep, h⟩ := Option.bind_eq_some_iff.mp h
    rw [quotes, hstep, ← List.append_assoc]
    exact (hs.step hstep).run msgs h

theorem Follows.of_run {cfg : SandboxConfig} {s₀ : MmSandbox} {msgs : List (List UInt8)}
    (h₀ : MmSandbox.new cfg = some s₀) (h : Runs.run MmSandbox.step s₀ msgs = some s) : Follows (s₀.quotes msgs) s := by
  obtain ⟨-, hquote, hmm, hmid, -⟩ := new_eq h₀
  have hstart : Follows [] s₀ := by
    refine ⟨?_, ?_, fun mid hq => (nomatch hquote.symm.trans hq), nofun⟩
    · rw [hmm]
      rfl
    · rw [hmid]
      rfl
  exact hstart.run msgs h

/-- Messages in the order of time quote in the order of time. -/
theorem quotes_ordered {msgs : List (List UInt8)} (hts : msgs.Pairwise fun msg msg' => Itch.stamp msg ≤ Itch.stamp msg')
    (s : MmSandbox) : Ordered MidPoint.time (s.quotes msgs) := by
  have hmap := (List.pairwise_map.mpr hts).sublist (quotes_stamps s msgs)
  exact (List.pairwise_map.mp hmap).imp fun hle => UInt64.le_iff_toNat_le.mp hle

/-! ## Markouts -/

/-- A markout looks for the first change from its horizon on, which has not
wrapped. -/
theorem Follows.future_eq {qs : List MidPoint} (hs : Follows qs s) (hordered : Ordered MidPoint.time qs) {f : FillEvent}
    {horizon : UInt64} {t : Nat} (ht : f.timestamp.toNat + horizon.toNat = t) (hlt : t < 2 ^ 64) :
    s.mm.future horizon f = ((changes MidPoint.mid qs).find? fun p => t ≤ p.time).map MidPoint.mid := by
  have htime : (f.timestamp + horizon).toNat = t := by
    rw [UInt64.toNat_add, ht, Nat.mod_eq_of_lt hlt]
  have hchanges : Ordered MidPoint.time (changes MidPoint.mid qs) := hordered.sublist (Timeline.changes_sublist qs)
  have hsearch := MarketMaker.midAtOrAfter_eq (hs.history ▸ hchanges) (f.timestamp + horizon)
  rw [hs.history, htime] at hsearch
  rw [MarketMaker.future, hsearch]
  cases hfind : (changes MidPoint.mid qs).find? fun p => t ≤ p.time with
  | none => rfl
  | some p => exact if_neg (hs.mids p ((Timeline.changes_sublist qs).mem (List.mem_of_find?_eq_some hfind)))

/-- What a markout at the time `t` asks for: the mid in force there, if the
stream continues past it with both sides quoted. The fill is skipped only if
the stream ends before. -/
def Marked (qs : List MidPoint) (msgs : List (List UInt8)) (t : Nat) (future : Option Price) : Prop :=
  ((∃ q ∈ qs, t < q.time) → future = (inForce MidPoint.time qs t).map MidPoint.mid) ∧
  (future = none → ∀ msg ∈ msgs, (Itch.stamp msg).toNat < t)

/-- The stream ends before `t`, or the mid changes at that very time and, if the
stream continues, the first change there leads to the same mid as the last. -/
def Settles (qs : List MidPoint) (msgs : List (List UInt8)) (t : Nat) : Prop :=
  (∀ msg ∈ msgs, (Itch.stamp msg).toNat < t) ∨
    here MidPoint.time (changes MidPoint.mid qs) t ≠ [] ∧ ((∃ q ∈ qs, t < q.time) →
      (here MidPoint.time (changes MidPoint.mid qs) t).head?.map MidPoint.mid =
        (here MidPoint.time (changes MidPoint.mid qs) t).getLast?.map MidPoint.mid)

/-- In every run over messages in the order of time, a markout uses the mid in
force at its horizon exactly when the stream ends before that, or the mid
settles there at once. -/
theorem markout_in_force {cfg : SandboxConfig} {s₀ s : MmSandbox} {msgs : List (List UInt8)}
    (h₀ : MmSandbox.new cfg = some s₀) (hts : msgs.Pairwise fun msg msg' => Itch.stamp msg ≤ Itch.stamp msg')
    (h : Runs.run step s₀ msgs = some s) : ∀ f ∈ s.mm.fillsLog, ∀ (horizon : UInt64) (t : Nat),
      t = f.timestamp.toNat + horizon.toNat →
      (Marked (s₀.quotes msgs) msgs t (s.mm.future horizon f) ↔ Settles (s₀.quotes msgs) msgs t) := by
  rintro f - horizon t rfl
  generalize ht : f.timestamp.toNat + horizon.toNat = t
  have hfollows := Follows.of_run h₀ h
  have hstamp : ∀ q ∈ s₀.quotes msgs, ∃ msg ∈ msgs, Itch.stamp msg = q.ts := fun q hq =>
    List.mem_map.mp ((quotes_stamps s₀ msgs).mem (List.mem_map_of_mem hq))
  have hordered := s₀.quotes_ordered hts
  generalize s₀.quotes msgs = qs at hfollows hstamp hordered ⊢
  by_cases hend : ∀ msg ∈ msgs, (Itch.stamp msg).toNat < t
  · refine ⟨fun _ => .inl hend, fun _ => ⟨fun ⟨q, hq, hlt⟩ => ?_, fun _ => hend⟩⟩
    obtain ⟨msg, hmsg, he⟩ := hstamp q hq
    have hlt' := hend msg hmsg
    rw [he] at hlt'
    exact absurd hlt (Nat.lt_asymm hlt')
  have hsome : ∃ msg ∈ msgs, t ≤ (Itch.stamp msg).toNat := by
    by_contra hno
    exact hend fun msg hmsg => Nat.lt_of_not_le fun hle => hno ⟨msg, hmsg, hle⟩
  obtain ⟨msg, hmsg, hle⟩ := hsome
  have hchanges : Ordered MidPoint.time (changes MidPoint.mid qs) := hordered.sublist (Timeline.changes_sublist qs)
  have hforce : (inForce MidPoint.time (changes MidPoint.mid qs) t).map MidPoint.mid =
      (inForce MidPoint.time qs t).map MidPoint.mid := Timeline.inForce_changes hordered
  have hchain : (changes MidPoint.mid qs).IsChain fun x y => x.mid ≠ y.mid := List.isChain_destutter _ qs
  have hmem : ∀ q ∈ changes MidPoint.mid qs, q ∈ qs := fun q hq => (Timeline.changes_sublist qs).mem hq
  have hlt := (Itch.stamp msg).toNat_lt
  have hfuture := hfollows.future_eq hordered ht (by omega)
  rw [Settles, or_iff_right hend, Marked, hfuture, ← hforce]
  generalize changes MidPoint.mid qs = mids at *
  by_cases hhere : here MidPoint.time mids t = []
  · -- what the search finds is a later mid, if anything
    refine ⟨fun ⟨hused, hskipped⟩ => ?_, fun h => absurd hhere h.1⟩
    cases hfind : mids.find? fun p => t ≤ p.time with
    | none =>
      rw [hfind] at hskipped
      exact absurd (hskipped rfl) hend
    | some q =>
      rw [hfind] at hused
      have hq := hmem q (List.mem_of_find?_eq_some hfind)
      have hle : t ≤ q.time := by simpa using List.find?_some hfind
      have hne : q.time ≠ t := fun e => by
        have hat : q ∈ here MidPoint.time mids t :=
          List.mem_filter.mpr ⟨List.mem_of_find?_eq_some hfind, decide_eq_true e⟩
        rw [hhere] at hat
        cases hat
      have hused := hused ⟨q, hq, Nat.lt_of_le_of_ne hle hne.symm⟩
      obtain ⟨p, hp, he⟩ := Option.map_eq_some_iff.mp hused.symm
      exact absurd he.symm (Timeline.find_ne hchanges hchain hhere hp hfind)
  · obtain ⟨hfirst, hlast⟩ := Timeline.find_of_here hchanges hhere
    rw [hfirst, hlast, and_iff_right hhere]
    refine and_iff_left fun hnone => ?_
    rw [Option.map_eq_none_iff, List.head?_eq_none_iff] at hnone
    exact absurd hnone hhere

/-- In every run over messages in the order of time, a markout uses the first
change of the mid from its horizon on, if the stream gets there. It skips a fill
only if there is none. -/
theorem markout_at_or_after {cfg : SandboxConfig} {s₀ s : MmSandbox} {msgs : List (List UInt8)}
    (h₀ : MmSandbox.new cfg = some s₀) (hts : msgs.Pairwise fun msg msg' => Itch.stamp msg ≤ Itch.stamp msg')
    (h : Runs.run step s₀ msgs = some s) (horizon : UInt64) :
    (s.mm.markout horizon = s.mm.fillsLog.filterMap fun f => (s.mm.future horizon f).map fun future =>
      if f.side = .bid then future - f.midAtFill else -(future - f.midAtFill)) ∧
    ∀ f ∈ s.mm.fillsLog, ∀ t : Nat, t = f.timestamp.toNat + horizon.toNat →
      ((∃ msg ∈ msgs, t ≤ (Itch.stamp msg).toNat) → s.mm.future horizon f =
        ((changes MidPoint.mid (s₀.quotes msgs)).find? fun p => t ≤ p.time).map MidPoint.mid) ∧
      (s.mm.future horizon f = none → ∀ p ∈ changes MidPoint.mid (s₀.quotes msgs), p.time < t) := by
  refine ⟨s.mm.markout_eq horizon, ?_⟩
  rintro f - t ht
  have hfollows := Follows.of_run h₀ h
  have hordered := s₀.quotes_ordered hts
  refine ⟨fun ⟨msg, _, hle⟩ => ?_, fun hnone p hp => ?_⟩
  · have hlt := (Itch.stamp msg).toNat_lt
    exact hfollows.future_eq hordered ht.symm (by omega)
  · by_cases hlt : t < 2 ^ 64
    · rw [hfollows.future_eq hordered ht.symm hlt, Option.map_eq_none_iff, List.find?_eq_none] at hnone
      have hno := hnone p hp
      rw [decide_eq_true_eq] at hno
      exact Nat.lt_of_not_le hno
    · -- no message has so late a timestamp
      have hp := p.ts.toNat_lt
      exact Nat.lt_of_lt_of_le hp (Nat.le_of_not_lt hlt)

/-- A bid is filled at time 5, when the mid is 200. The mid changes to 250 at
time 100. -/
def lateChange : List WriterCall :=
  [.addOrder 1 1 .bid 1 {} 100, .addOrder 2 2 .ask 100 {} 300, .addOrder 3 3 .bid 50 {} 100, .orderDelete 4 1,
    .orderExecuted 5 3 10 7, .addOrder 100 4 .bid 5 {} 200]

/-- The markout at time 15 is the move from 200 to 250. -/
theorem markout_at_or_after_change : ∃ (s₀ s : MmSandbox), MmSandbox.new { symbol := {} } = some s₀ ∧
    Runs.run step s₀ (lateChange.map WriterCall.body) = some s ∧
    s.mm.fillsLog = [⟨.bid, 100, 10, 5, 200⟩] ∧ s.mm.markout 10 = [250 - 200] := by
  have hrun : ((MmSandbox.new { symbol := {} }).bind fun s₀ =>
      (Runs.run step s₀ (lateChange.map WriterCall.body)).map fun s =>
        (s.mm.fillsLog, s₀.quotes (lateChange.map WriterCall.body))) =
      some ([⟨.bid, 100, 10, 5, 200⟩], [⟨2, 200⟩, ⟨3, 200⟩, ⟨4, 200⟩, ⟨5, 200⟩, ⟨100, 250⟩]) := by decide +kernel
  obtain ⟨s₀, h₀, hrun⟩ := Option.bind_eq_some_iff.mp hrun
  obtain ⟨s, hs, hview⟩ := Option.map_eq_some_iff.mp hrun
  injection hview with hfills hquotes
  obtain ⟨hmoves, hused⟩ := markout_at_or_after h₀ (by decide +kernel) hs 10
  have hf : ⟨.bid, 100, 10, 5, 200⟩ ∈ s.mm.fillsLog := by
    rw [hfills]
    exact List.mem_singleton_self _
  have hlate : s.mm.future 10 ⟨.bid, 100, 10, 5, 200⟩ = some 250 := by
    rw [(hused _ hf 15 rfl).1 (by decide +kernel), hquotes]
    decide
  refine ⟨s₀, s, h₀, hs, hfills, ?_⟩
  rw [hmoves, hfills, List.filterMap_cons, hlate]
  rfl

/-- The markout at time 15 uses the mid of time 100. -/
theorem markout_in_force_late : ∃ (s₀ s : MmSandbox) (f : FillEvent), MmSandbox.new { symbol := {} } = some s₀ ∧
    (lateChange.map WriterCall.body).Pairwise (fun msg msg' => Itch.stamp msg ≤ Itch.stamp msg') ∧
    Runs.run step s₀ (lateChange.map WriterCall.body) = some s ∧ f ∈ s.mm.fillsLog ∧ f.timestamp.toNat + 10 = 15 ∧
    (∃ q ∈ s₀.quotes (lateChange.map WriterCall.body), 15 < q.time) ∧
    (inForce MidPoint.time (s₀.quotes (lateChange.map WriterCall.body)) 15).map MidPoint.mid = some 200 ∧
    s.mm.future 10 f = some 250 := by
  have hrun : ((MmSandbox.new { symbol := {} }).bind fun s₀ =>
      (Runs.run step s₀ (lateChange.map WriterCall.body)).map fun s =>
        (s.mm.fillsLog, s.mm.fillsLog.map (s.mm.future 10), s₀.quotes (lateChange.map WriterCall.body))) =
      some ([⟨.bid, 100, 10, 5, 200⟩], [some 250], [⟨2, 200⟩, ⟨3, 200⟩, ⟨4, 200⟩, ⟨5, 200⟩, ⟨100, 250⟩]) := by
    decide +kernel
  obtain ⟨s₀, h₀, hrun⟩ := Option.bind_eq_some_iff.mp hrun
  obtain ⟨s, hs, hview⟩ := Option.map_eq_some_iff.mp hrun
  injection hview with hfills hview
  injection hview with hfuture hquotes
  rw [hfills] at hfuture
  refine ⟨s₀, s, ⟨.bid, 100, 10, 5, 200⟩, h₀, by decide +kernel, hs, ?_, rfl, ?_, ?_, (List.cons.inj hfuture).1⟩
  · rw [hfills]
    exact List.mem_singleton_self _
  · rw [hquotes]
    decide
  · rw [hquotes]
    rfl

end MmSandbox

end Pricetime
