import Pricetime.Proof.Lossless
import Pricetime.Proof.MarketData

/-!
# The book of a receiver

From the client's bytes to the packets of the feed: whatever the order of the
threads' steps, a receiver that has missed nothing from the first message on
rebuilds the book of the engine (`session_feed`). That it has missed nothing it
can tell by itself: its first packet has number 1, and its tracker has counted
none (`Mold.all_received`).
-/

namespace Pricetime

open Wire (Request Response)
open Engine (sellFive buyEight)
open MdLoop (dataPacket endPacket dataPackets)

namespace Mold

variable {msgs : List (List UInt8)} {kms : List (List UInt8 × Nat)}

/-- The number of the first packet: that of its message, or of the end. -/
theorem firstSequence_eq (n : Nat) (hm : ∀ km ∈ kms, km.1 ≠ [] ∧ km.1.length < 2 ^ 16) :
    firstSequence (kms.map (fun km => dataPacket (UInt64.ofNat km.2) km.1) ++ [endPacket (UInt64.ofNat n)]) =
      some (UInt64.ofNat ((kms.map Prod.snd).head?.getD n)) := by
  cases kms with
  | nil =>
    rw [firstSequence, List.map_nil, List.nil_append, List.head?_cons]
    simp only [Option.bind_eq_bind, Option.bind_some]
    rw [unpack_end]
    rfl
  | cons km kms =>
    rw [firstSequence, List.map_cons, List.cons_append, List.head?_cons]
    simp only [Option.bind_eq_bind, Option.bind_some]
    rw [unpack_data (hm km List.mem_cons_self)]
    rfl

/-- Messages received in order, the first one among them, and none missed after
it: these are all. -/
theorem all_received (hs : List.Sublist kms (msgs.zipIdx 1))
    (hfirst : (kms.map Prod.snd).head?.getD (msgs.length + 1) = 1)
    (hmissed : undelivered msgs.length 1 (kms.map Prod.snd) = 0) : kms = msgs.zipIdx 1 := by
  have hsub : List.range' 1 msgs.length ⊆ kms.map Prod.snd := fun k hk => by
    obtain ⟨h1, hn⟩ := List.mem_range'_1.mp hk
    by_cases hone : k = 1
    · subst hone
      cases kms with
      | nil =>
        have hlen : msgs.length + 1 = 1 := hfirst
        omega
      | cons km kms =>
        have hkm : km.2 = 1 := hfirst
        rw [List.map_cons, hkm]
        exact List.mem_cons_self
    · by_contra hk
      rw [undelivered, Finset.card_eq_zero, Finset.filter_eq_empty_iff] at hmissed
      exact hmissed (Finset.mem_Icc.mpr ⟨h1, by omega⟩) ⟨by omega, hk⟩
  refine hs.eq_of_length_le ?_
  have hnodup : (List.range' 1 msgs.length).Nodup := List.nodup_range'
  have hle := (hnodup.subperm hsub).length_le
  rw [List.length_range', List.length_map] at hle
  rw [List.length_zipIdx]
  exact hle

/-- A receiver of the packets of a session gets all messages, if it can tell
that it has missed none. -/
theorem receive_all (hm : ∀ msg ∈ msgs, msg ≠ [] ∧ msg.length < 2 ^ 16) (hn : msgs.length + 1 < 2 ^ 64)
    {got : List (List UInt8)} (hgot : got.Sublist (dataPackets 1 msgs)) : ∃ g seen first,
      receive {} (got ++ [endPacket (UInt64.ofNat (msgs.length + 1))]) = some (g, seen) ∧
      firstSequence (got ++ [endPacket (UInt64.ofNat (msgs.length + 1))]) = some first ∧
      (first = 1 → g.totalMissed = 0 → seen.map Prod.snd = msgs) := by
  obtain ⟨kms, hs, rfl⟩ := List.sublist_map_iff.mp hgot
  obtain ⟨g, first, hr, hf, hmissed, -⟩ := receive_sublist hm hn hs
  refine ⟨g, _, first, hr, hf, fun h1 h0 => ?_⟩
  have hkms : ∀ km ∈ kms, (km.1 ≠ [] ∧ km.1.length < 2 ^ 16) ∧ km.2 < 2 ^ 64 := fun km hkm => by
    have hz := hs.subset hkm
    have hidx := List.mem_zipIdx hz
    exact ⟨hm _ (List.fst_mem_of_mem_zipIdx hz), by omega⟩
  have hfirst := (firstSequence_eq (msgs.length + 1) fun km hkm => (hkms km hkm).1).symm.trans hf
  rw [h1] at hfirst hmissed
  rw [h0] at hmissed
  have hhead : (kms.map Prod.snd).head?.getD (msgs.length + 1) < 2 ^ 64 := by
    cases kms with
    | nil => exact hn
    | cons km kms => exact (hkms km List.mem_cons_self).2
  have hone := congrArg UInt64.toNat (Option.some.inj hfirst)
  rw [UInt64.toNat_ofNat_of_lt' hhead] at hone
  rw [all_received hs hone hmissed.symm, List.map_map]
  exact List.zipIdx_map_fst 1 msgs

end Mold

namespace Server

/-- Some of the packets, and the last one: a receiver that can tell that it has
missed none of the messages has the engine's book, once a replayer has been
given them. -/
def FeedDelivers (symbol : Symbol) (book : OrderBook MapLadder OpenAddressIdMap) (packets : List (List UInt8)) : Prop :=
  ∃ data last r₀, packets = data ++ [last] ∧ Itch.Replayer.new ({} : MapLadder) = some r₀ ∧
    ∀ got, List.Sublist got data → ∃ g seen first, Mold.receive {} (got ++ [last]) = some (g, seen) ∧
      Mold.firstSequence (got ++ [last]) = some first ∧
      (first = 1 → g.totalMissed = 0 → ∃ r : Itch.Replayer MapLadder OpenAddressIdMap,
        Runs.run Itch.Replayer.apply r₀ (seen.map Prod.snd) = some r ∧
        (∀ side, ∃ ls, book.walk side = some ls ∧ r.books.walk symbol side = some ls) ∧
        ∃ v, book.stateHash = some v ∧ r.books.stateHash symbol = some v)

variable {s : Server} {e₀ : Engine} {log : ServerLog}

theorem Follows.feedDelivers (h : Follows e₀ s log) (hport : e₀.mdPort ≠ 0) (hfew : s.engine.book.Few) (hend : s.Ended)
    (hpacked : log.packed = log.messages)
    (hprice : ∀ op ∈ log.handled, 0 ≤ op.2.price.toInt ∧ op.2.price.toInt < 2 ^ 32)
    (hlen : log.packed.length + 1 < 2 ^ 64) : FeedDelivers e₀.symbol s.engine.book s.md.state.packets := by
  -- all messages of the engine have been packed
  obtain ⟨-, -, hpushes, -, hq⟩ := h.ended hend
  have ha := h.answers
  rw [hpushes, hq, List.append_nil, ← hpacked] at ha
  obtain ⟨r₀, r, os, hr₀, hr, ho, hf⟩ := ha.fed hport hprice
  rw [show Push.messages [] = [] from rfl, List.append_nil] at hr
  have hshows : (∀ side, ∃ ls, s.engine.book.walk side = some ls ∧ r.books.walk e₀.symbol side = some ls) ∧
      ∃ v, s.engine.book.stateHash = some v ∧ r.books.stateHash e₀.symbol = some v := by
    obtain ⟨a, hsim, hl, -⟩ := ho.book
    exact hf.shows (ho.length_eq ▸ hfew) (fun o hm => (ho.symbol o hm).trans ha.symbol) hsim hl hfew
  have hmsgs : ∀ msg ∈ log.packed.map MdMsg.payload, msg ≠ [] ∧ msg.length < 2 ^ 16 := fun msg hmsg => by
    obtain ⟨m, hm, rfl⟩ := List.mem_map.mp hmsg
    have hle := m.payload_length
    exact ⟨(h.packs.framed m hm).payload_ne_nil.1, by omega⟩
  have hpackets := h.packets
  rw [if_pos hend.2.2.2] at hpackets
  refine ⟨_, _, r₀, hpackets, hr₀, fun got hgot => ?_⟩
  rw [← List.length_map MdMsg.payload] at hlen ⊢
  obtain ⟨g, seen, first, hrec, hfirst, hall⟩ := Mold.receive_all hmsgs hlen hgot
  refine ⟨g, seen, first, hrec, hfirst, fun h1 h0 => ⟨r, ?_, hshows⟩⟩
  rw [hall h1 h0]
  exact hr

/-- A session that has ended, and whose last message was not lost: whoever
receives its packets and can tell that none is missing has the engine's
book. -/
theorem session_feed (bound : Nat) {symbol : Symbol} {mdPort : UInt16} (hport : mdPort ≠ 0) {e₀ : Engine}
    (h₀ : Engine.new symbol mdPort = some e₀) (buf : RecvBuffer) (ops : List ServerOp)
    (hfew : Runs.Along (step bound) (fun s => s.engine.book.Few) (start buf e₀) ops) :
    ∃ evs s, Runs.Exec (step bound) (start buf e₀) ops evs s ∧
      (s.Ended → (ServerLog.of evs).packed = (ServerLog.of evs).messages →
        (∀ op ∈ (ServerLog.of evs).handled, 0 ≤ op.2.price.toInt ∧ op.2.price.toInt < 2 ^ 32) →
        (ServerLog.of evs).packed.length + 1 < 2 ^ 64 → FeedDelivers symbol s.engine.book s.md.state.packets) := by
  obtain ⟨e₁, he₁, hsym, hmd, ho⟩ := Engine.Orders.new symbol mdPort
  cases h₀.symm.trans he₁
  obtain ⟨evs, s, he, h, -, hfew'⟩ := exec_follows bound (.start buf ho) ⟨.slnil, .slnil, .slnil⟩ ops hfew
  refine ⟨evs, s, he, fun hend hpacked hprice hlen => ?_⟩
  rw [← hsym]
  exact h.feedDelivers (by rwa [hmd]) hfew' hend hpacked hprice hlen

theorem session_feed_trade : ∃ (evs : List ServerEvent) (s : Server), Engine.new {} 1 = some (Engine.idle {} 1) ∧
    Runs.Exec (step 1) (start .blank (Engine.idle {} 1)) trading evs s ∧ s.Ended ∧
    (ServerLog.of evs).handled = [(7, sellFive), (7, buyEight)] ∧ (ServerLog.of evs).packed.length = 3 ∧
    FeedDelivers {} s.engine.book s.md.state.packets := by
  obtain ⟨evs, s, he, hend, hloss, hhandled, -, hlen⟩ := trading_exec
  obtain ⟨evs', s', he', hfeed⟩ := session_feed 1 (by decide) (Engine.new_eq {} 1) .blank trading trading_few
  cases he.trace.symm.trans he'.trace
  cases he.run.symm.trans he'.run
  refine ⟨evs, s, Engine.new_eq {} 1, he, hend, hhandled, hlen, hfeed hend hloss.packed ?_ ?_⟩
  · rw [hhandled]
    decide
  · rw [hlen]
    decide

end Server

end Pricetime
