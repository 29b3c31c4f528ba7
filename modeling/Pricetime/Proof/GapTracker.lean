import Pricetime.Impl.MoldUdp64
import Pricetime.Proof.Framework.Runs

/-!
# What a gap tracker takes for missing

The tracker knows one number, up to which it takes all messages for delivered
or missed. A packet that starts below that number is taken for an old one, even
if it goes on beyond it (`Straddles`): its further messages are delivered, and
later counted as missed. In a run with no such packet, and in no other, the
tracker never counts what was delivered (`reliable_iff`).
-/

namespace Pricetime

namespace Mold

namespace Header

/-- The packet has messages. -/
def IsData (h : Header) : Prop := h.count ≠ kHeartbeat ∧ h.count ≠ kEndOfSession

instance (h : Header) : Decidable h.IsData := inferInstanceAs (Decidable (_ ∧ _))

/-- The number after its last message. -/
def stop (h : Header) : Nat := h.sequence.toNat + h.count.toNat

def Carries (h : Header) (n : Nat) : Prop := h.IsData ∧ h.sequence.toNat ≤ n ∧ n < h.stop

instance (h : Header) (n : Nat) : Decidable (h.Carries n) := inferInstanceAs (Decidable (_ ∧ _))

end Header

namespace GapTracker

/-- The tracker that has received these packets. -/
def after (hdrs : List Header) : GapTracker := hdrs.foldl (fun g h => (g.onPacket h).2) {}

theorem after_append (hdrs : List Header) (h : Header) : after (hdrs ++ [h]) = ((after hdrs).onPacket h).2 := by
  simp [after]

/-- The messages that `onPacket` counts as missed. -/
def counted (g : GapTracker) (h : Header) : Finset Nat :=
  if g.started then Finset.Ico g.next.toNat h.sequence.toNat else ∅

theorem onPacket_card (g : GapTracker) (h : Header) : (g.onPacket h).1.toNat = (g.counted h).card := by
  show (if g.started ∧ h.sequence > g.next then h.sequence - g.next else 0).toNat = _
  rw [counted]
  by_cases hs : g.started = true
  · rw [if_pos hs, Nat.card_Ico]
    by_cases hlt : h.sequence > g.next
    · have hle : g.next ≤ h.sequence := UInt64.le_of_lt hlt
      rw [if_pos ⟨hs, hlt⟩, UInt64.toNat_sub_of_le _ _ hle]
    · have hge : h.sequence.toNat ≤ g.next.toNat := UInt64.le_iff_toNat_le.mp (UInt64.not_lt.mp hlt)
      rw [if_neg fun e => hlt e.2]
      show 0 = _
      omega
  · rw [if_neg fun e => hs e.1, if_neg hs]
    rfl

/-- What a receiver may rely on when `h` arrives after the packets `seen`. -/
structure Reliable (seen : List Header) (h : Header) : Prop where
  counts : ((after seen).onPacket h).1.toNat = ((after seen).counted h).card
  forward : (after seen).nextExpected ≤ (after (seen ++ [h])).nextExpected
  passed : ∀ x ∈ seen ++ [h], x.IsData → x.stop ≤ (after (seen ++ [h])).nextExpected.toNat
  unseen : ∀ x ∈ seen, ∀ n, x.Carries n → n ∉ (after seen).counted h

/-- The packet starts in the past, and goes on beyond it. -/
def Straddles (g : GapTracker) (h : Header) : Prop :=
  g.started = true ∧ h.IsData ∧ h.sequence < g.next ∧ g.next.toNat < h.stop

instance (g : GapTracker) (h : Header) : Decidable (g.Straddles h) := inferInstanceAs (Decidable (_ ∧ _))

/-! ## Packets -/

variable {g : GapTracker} {h : Header} {seen : List Header}

/-- What is expected after a packet. -/
theorem onPacket_next (g : GapTracker) (h : Header) : (g.onPacket h).2.next =
    if g.started = true ∧ h.sequence < g.next then g.next
    else if h.IsData then h.sequence + h.count.toUInt64 else max g.next h.sequence := by
  have hmax : (if h.sequence > g.next then h.sequence else g.next) = max g.next h.sequence := by
    rw [UInt64.max_def]
    split <;> split <;> grind
  by_cases hs : g.started = true ∧ h.sequence < g.next
  · have hold : ¬ ((!g.started) = true ∨ h.sequence ≥ g.next) := by
      rintro (e | e)
      · simp [hs.1] at e
      · exact UInt64.not_le.mpr hs.2 e
    simp only [onPacket, if_neg hold, if_pos hs]
  · have hnew : (!g.started) = true ∨ h.sequence ≥ g.next := by
      by_cases hg : g.started = true
      · exact .inr (UInt64.not_lt.mp fun e => hs ⟨hg, e⟩)
      · exact .inl (by simpa using hg)
    simp only [onPacket, if_pos hnew, if_neg hs, hmax]
    rfl

theorem onPacket_started (g : GapTracker) (h : Header) : (g.onPacket h).2.started = true := by
  by_cases hnew : (!g.started) = true ∨ h.sequence ≥ g.next
  · simp only [onPacket, if_pos hnew]
  · have hs : g.started = true := by
      by_contra hs
      exact hnew (.inl (by simpa using hs))
    rw [onPacket]
    dsimp only
    rw [if_neg hnew]
    exact hs

theorem stop_eq (hwrap : h.stop < 2 ^ 64) : (h.sequence + h.count.toUInt64).toNat = h.stop := by
  rw [UInt64.toNat_add, UInt16.toNat_toUInt64]
  exact Nat.mod_eq_of_lt hwrap

/-- A tracker that is past the messages of `seen`. -/
structure Passes (g : GapTracker) (seen : List Header) : Prop where
  fresh : g.started = false → g.next = 1 ∧ seen = []
  passed : ∀ x ∈ seen, x.IsData → x.stop ≤ g.next.toNat

theorem passes_new : Passes {} [] := ⟨fun _ => ⟨rfl, rfl⟩, nofun⟩

/-- No packet moves the tracker back. -/
theorem Passes.forward (hg : g.Passes seen) (hwrap : h.IsData → h.stop < 2 ^ 64) : g.next ≤ (g.onPacket h).2.next := by
  rw [onPacket_next]
  split
  · exact UInt64.le_refl _
  rename_i hold
  split
  · rename_i hd
    rw [UInt64.le_iff_toNat_le, stop_eq (hwrap hd)]
    cases hs : g.started with
    | false =>
      -- the first packet has a message, whatever its number
      have hpos : h.count.toNat ≠ 0 := fun e => hd.1 (UInt16.toNat_inj.mp e)
      have hone : g.next.toNat = 1 := by rw [(hg.fresh hs).1]; rfl
      rw [hone, Header.stop]
      omega
    | true =>
      have hle := UInt64.le_iff_toNat_le.mp (UInt64.not_lt.mp fun e => hold ⟨hs, e⟩)
      rw [Header.stop]
      omega
  · rw [UInt64.max_def]
    split <;> grind

theorem Passes.onPacket (hg : g.Passes seen) (hwrap : h.IsData → h.stop < 2 ^ 64) (hno : ¬ g.Straddles h) :
    (g.onPacket h).2.Passes (seen ++ [h]) := by
  refine ⟨fun e => ?_, fun x hx hd => ?_⟩
  · rw [onPacket_started] at e
    cases e
  rcases List.mem_append.mp hx with hx | hx
  · exact Nat.le_trans (hg.passed x hx hd) (UInt64.le_iff_toNat_le.mp (hg.forward hwrap))
  · obtain rfl := List.mem_singleton.mp hx
    rw [onPacket_next]
    split
    · rename_i hold
      exact Nat.not_lt.mp fun hlt => hno ⟨hold.1, hd, hold.2, hlt⟩
    · rw [stop_eq (hwrap hd)]

/-- A number that has been passed is not counted. -/
theorem Passes.unseen (hg : g.Passes seen) (h : Header) {x : Header} (hx : x ∈ seen) {n : Nat} (hn : x.Carries n) :
    n ∉ g.counted h := by
  have hle := hg.passed x hx hn.1
  have hlt := hn.2.2
  rw [counted]
  split
  · rw [Finset.mem_Ico]
    omega
  · exact Finset.notMem_empty n

theorem Passes.reliable (hg : (after seen).Passes seen) (hwrap : h.IsData → h.stop < 2 ^ 64)
    (hno : ¬ (after seen).Straddles h) : Reliable seen h := by
  have hnext := hg.onPacket hwrap hno
  rw [← after_append] at hnext
  refine ⟨onPacket_card .., ?_, hnext.passed, fun x hx n hn => hg.unseen h hx hn⟩
  rw [after_append]
  exact hg.forward hwrap

/-- A packet that straddles is not passed. -/
theorem Reliable.not_straddles (hr : Reliable seen h) : ¬ (after seen).Straddles h := by
  rintro ⟨hs, hd, hlt, hstop⟩
  have hpassed := hr.passed h (List.mem_append_right _ List.mem_cons_self) hd
  rw [after_append, nextExpected, onPacket_next, if_pos ⟨hs, hlt⟩] at hpassed
  omega

/-! ## Runs -/

/-- The tracker is reliable throughout a run if and only if no packet of the
run straddles what it expects. -/
theorem reliable_iff (hdrs : List Header) (hwrap : ∀ h ∈ hdrs, h.IsData → h.stop < 2 ^ 64) :
    (∀ seen h rest, hdrs = seen ++ h :: rest → Reliable seen h) ↔
      Runs.Folds (fun g h => (g.onPacket h).2) (fun g h => ¬ Straddles g h) {} hdrs := by
  rw [Runs.folds_iff]
  constructor
  · intro hr seen h rest e
    exact (hr seen h rest e).not_straddles
  · intro hno
    have hpasses : ∀ seen rest, hdrs = seen ++ rest → (after seen).Passes seen := by
      intro seen
      induction seen using List.reverseRecOn with
      | nil => exact fun _ _ => passes_new
      | append_singleton seen h ih =>
        intro rest e
        rw [List.append_assoc] at e
        rw [after_append]
        exact (ih _ e).onPacket (hwrap h (e ▸ by simp)) (hno seen h rest e)
    intro seen h rest e
    exact (hpasses seen _ e).reliable (hwrap h (e ▸ by simp)) (hno seen h rest e)

/-- Packets in order, one that is lost, an old one and a duplicate. -/
theorem reliable_iff_gap : ∃ hdrs : List Header,
    hdrs = [⟨[], 1, 3⟩, ⟨[], 4, 2⟩, ⟨[], 9, 1⟩, ⟨[], 4, 2⟩, ⟨[], 9, 1⟩, ⟨[], 12, 0⟩] ∧
    (after hdrs).totalMissed = 5 ∧ ∀ seen h rest, hdrs = seen ++ h :: rest → Reliable seen h :=
  ⟨_, rfl, by decide, (reliable_iff _ (by decide)).mpr (by decide)⟩

/-- Messages 3 to 7 arrive in one packet, after 3 has been seen: 4 to 7 are
delivered, and then counted as missed. -/
theorem unreliable : ∃ hdrs : List Header, hdrs = [⟨[], 1, 3⟩, ⟨[], 3, 5⟩, ⟨[], 8, 1⟩] ∧
    (∀ h ∈ hdrs, h.stop < 2 ^ 64) ∧ (after hdrs).totalMissed = 4 ∧
    ((after [⟨[], 1, 3⟩, ⟨[], 3, 5⟩]).onPacket ⟨[], 8, 1⟩).1 = 4 ∧
    (after [⟨[], 1, 3⟩, ⟨[], 3, 5⟩]).nextExpected.toNat < Header.stop ⟨[], 3, 5⟩ ∧
    (∀ n ∈ [4, 5, 6, 7], Header.Carries ⟨[], 3, 5⟩ n ∧
      n ∈ (after [⟨[], 1, 3⟩, ⟨[], 3, 5⟩]).counted ⟨[], 8, 1⟩) ∧
    ¬ ∀ seen h rest, hdrs = seen ++ h :: rest → Reliable seen h := by
  refine ⟨_, rfl, by decide, by decide, by decide, by decide, ?_, fun hr => ?_⟩
  · decide
  · exact (hr [⟨[], 1, 3⟩] ⟨[], 3, 5⟩ [⟨[], 8, 1⟩] rfl).not_straddles (by decide)

end GapTracker

end Mold

end Pricetime
