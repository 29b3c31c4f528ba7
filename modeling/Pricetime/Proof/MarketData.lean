import Pricetime.Proof.Shutdown

/-!
# Every message of the feed is accounted for

A receiver unpacks the packets that reach it and counts what it missed
(`receive`). Of a session of `n` messages it gets those of the packets that
reach it, and the tracker has counted the others from the first packet on
(`Accounted`): after each packet, what it counted and what was delivered since
the first packet add up to the numbers passed (`receive_rest`).
-/

namespace Pricetime

open MdLoop (dataPacket endPacket dataPackets session session_length)
open Stage (taken popped)

namespace Mold

/-- A receiver of packets: the tracker at the end, and the messages with their
numbers; `none` if a packet does not unpack. -/
def receive : GapTracker → List (List UInt8) → Option (GapTracker × List (UInt64 × List UInt8))
  | g, [] => some (g, [])
  | g, pkt :: pkts => do
    let u ← unpack pkt {}
    if u.ok then do
      let (g, msgs) ← receive (g.onPacket u.header).2 pkts
      some (g, u.msgs ++ msgs)
    else none

/-- The sequence number of the first packet. -/
def firstSequence (pkts : List (List UInt8)) : Option UInt64 := do
  let pkt ← pkts.head?
  let u ← unpack pkt {}
  some u.header.sequence

/-- How many of the messages 1 to `n` have a number greater than `first` that
is not in `numbers`. -/
def undelivered (n first : Nat) (numbers : List Nat) : Nat :=
  ((Finset.Icc 1 n).filter fun k => first < k ∧ k ∉ numbers).card

/-- Of a session that sends `msgs`, the packets and what a receiver of some of
them, and of the last one, gets. -/
def Accounted (msgs packets : List (List UInt8)) : Prop :=
  ∃ data last, packets = data ++ [last] ∧
    (∃ g seen, receive {} packets = some (g, seen) ∧ seen.map (fun m => (m.2, m.1.toNat)) = msgs.zipIdx 1) ∧
    (∃ header, unpack last {} = some { ok := true, header } ∧ header.count = kEndOfSession ∧
      header.sequence.toNat = msgs.length + 1) ∧
    ∀ got, List.Sublist got data → ∃ g seen first, receive {} (got ++ [last]) = some (g, seen) ∧
      firstSequence (got ++ [last]) = some first ∧
      g.totalMissed.toNat = undelivered msgs.length first.toNat (seen.map fun m => m.1.toNat) ∧
      g.nextExpected.toNat = msgs.length + 1

theorem receive_cons {g : GapTracker} {pkt : List UInt8} {pkts : List (List UInt8)} {u : Unpacked}
    (h : unpack pkt {} = some u) (hok : u.ok = true) :
    receive g (pkt :: pkts) = (receive (g.onPacket u.header).2 pkts).map fun r => (r.1, u.msgs ++ r.2) := by
  rw [receive, h]
  simp only [Option.bind_eq_bind, Option.bind_some]
  rw [if_pos hok]
  cases receive (g.onPacket u.header).2 pkts <;> rfl

/-! ## The tracker -/

namespace GapTracker

/-- Started, it expects number `a`, and has counted `m` missed. -/
structure Tracks (g : GapTracker) (a m : Nat) : Prop where
  started : g.started = true
  next : g.next = UInt64.ofNat a
  missed : g.totalMissed = UInt64.ofNat m

variable {g : GapTracker} {a m k : Nat} {s : List UInt8}

theorem ofNat_lt_iff (ha : a < 2 ^ 64) (hk : k < 2 ^ 64) : UInt64.ofNat a < UInt64.ofNat k ↔ a < k := by
  rw [UInt64.lt_iff_toNat_lt, UInt64.toNat_ofNat_of_lt' ha, UInt64.toNat_ofNat_of_lt' hk]

theorem ofNat_le_iff (ha : a < 2 ^ 64) (hk : k < 2 ^ 64) : UInt64.ofNat a ≤ UInt64.ofNat k ↔ a ≤ k := by
  rw [UInt64.le_iff_toNat_le, UInt64.toNat_ofNat_of_lt' ha, UInt64.toNat_ofNat_of_lt' hk]

/-- A packet that starts at what is expected or later; `b` is what is expected
after it. -/
theorem Tracks.onPacket (h : g.Tracks a m) (hak : a ≤ k) (hk : k < 2 ^ 64) (count : UInt16) {b : Nat}
    (hb : (if count ≠ kHeartbeat ∧ count ≠ kEndOfSession then UInt64.ofNat k + count.toUInt64 else UInt64.ofNat k) =
      UInt64.ofNat b) : (g.onPacket ⟨s, UInt64.ofNat k, count⟩).2.Tracks b (m + (k - a)) := by
  have hmissed : (if g.started ∧ UInt64.ofNat k > g.next then UInt64.ofNat k - g.next else 0) = UInt64.ofNat (k - a) := by
    rw [h.next]
    by_cases hlt : a < k
    · rw [if_pos ⟨h.started, (ofNat_lt_iff (by omega) hk).mpr hlt⟩, UInt64.ofNat_sub hak]
    · rw [if_neg fun hc => hlt ((ofNat_lt_iff (by omega) hk).mp hc.2), show k - a = 0 by omega]
      rfl
  have hge : UInt64.ofNat k ≥ g.next := by
    rw [h.next]
    exact (ofNat_le_iff (by omega) hk).mpr hak
  have hmax : (if UInt64.ofNat k > g.next then UInt64.ofNat k else g.next) = UInt64.ofNat k := by
    by_cases hlt : UInt64.ofNat k > g.next
    · rw [if_pos hlt]
    · rw [if_neg hlt]
      exact UInt64.le_antisymm hge (UInt64.not_lt.mp hlt)
  rw [GapTracker.onPacket]
  dsimp only
  rw [hmissed, if_pos (.inr hge), hmax, hb]
  refine ⟨rfl, rfl, ?_⟩
  show g.totalMissed + UInt64.ofNat (k - a) = _
  rw [h.missed, UInt64.ofNat_add]

/-- The first packet, whatever its number, is what the tracker starts at. -/
theorem tracks_first (hk : 1 ≤ k) (hk64 : k < 2 ^ 64) (count : UInt16) {b : Nat}
    (hb : (if count ≠ kHeartbeat ∧ count ≠ kEndOfSession then UInt64.ofNat k + count.toUInt64 else UInt64.ofNat k) =
      UInt64.ofNat b) : (GapTracker.onPacket {} ⟨s, UInt64.ofNat k, count⟩).2.Tracks b 0 := by
  have hmax : (if UInt64.ofNat k > 1 then UInt64.ofNat k else 1) = UInt64.ofNat k := by
    by_cases hlt : UInt64.ofNat 1 < UInt64.ofNat k
    · exact if_pos hlt
    · rw [ofNat_lt_iff (by omega) hk64] at hlt
      obtain rfl : k = 1 := by omega
      rfl
  have hnone : ¬ (false = true ∧ UInt64.ofNat k > 1) := fun hc => absurd hc.1 (by decide)
  have hfirst : (!false) = true ∨ UInt64.ofNat k ≥ 1 := .inl rfl
  rw [GapTracker.onPacket]
  dsimp only
  rw [if_neg hnone, if_pos hfirst, hmax, hb]
  exact ⟨rfl, rfl, rfl⟩

end GapTracker

/-! ## A session -/

section Session

variable {n : Nat} {g : GapTracker} {a m k : Nat} {msg : List UInt8} {kms : List (List UInt8 × Nat)}

theorem unpack_data (h : msg ≠ [] ∧ msg.length < 2 ^ 16) (seq : UInt64) :
    unpack (dataPacket seq msg) {} = some { ok := true, msgs := [(seq, msg)], header := ⟨session, seq, 1⟩ } := by
  have hu := @unpack_packet ⟨session, seq, 1⟩ session_length [msg] rfl
    (show (1 : UInt16) ≠ kEndOfSession by decide) (by simpa using h) {}
  rw [dataPacket, hu]
  simp [numbered]

theorem unpack_end (seq : UInt64) :
    unpack (endPacket seq) {} = some { ok := true, header := ⟨session, seq, kEndOfSession⟩ } :=
  unpack_endOfSession session_length rfl {}

theorem ofNat_succ (k : Nat) : (if (1 : UInt16) ≠ kHeartbeat ∧ (1 : UInt16) ≠ kEndOfSession then
    UInt64.ofNat k + (1 : UInt16).toUInt64 else UInt64.ofNat k) = UInt64.ofNat (k + 1) := by
  rw [if_pos (by decide), UInt64.ofNat_add]
  rfl

/-- The packets of some of the messages, and the last one, to a tracker that
has started: what it counts and what it gets add up. -/
theorem receive_rest (hn : n + 1 < 2 ^ 64) : ∀ {kms : List (List UInt8 × Nat)} {g : GapTracker} {a m : Nat},
    g.Tracks a m → a ≤ n + 1 → (kms.map Prod.snd).Pairwise (· < ·) →
    (∀ km ∈ kms, (km.1 ≠ [] ∧ km.1.length < 2 ^ 16) ∧ a ≤ km.2 ∧ km.2 ≤ n) →
    ∃ g' m', receive g (kms.map (fun km => dataPacket (UInt64.ofNat km.2) km.1) ++ [endPacket (UInt64.ofNat (n + 1))]) =
      some (g', kms.map fun km => (UInt64.ofNat km.2, km.1)) ∧ g'.Tracks (n + 1) m' ∧
      m' + kms.length + a = m + n + 1
  | [], g, a, m, h, ha, _, _ => by
    have ht := h.onPacket (s := session) ha hn kEndOfSession (if_neg (by simp))
    refine ⟨_, _, ?_, ht, by simp only [List.length_nil]; omega⟩
    rw [List.map_nil, List.nil_append, receive_cons (unpack_end _) rfl]
    rfl
  | (msg, k) :: kms, g, a, m, h, ha, hp, hm => by
    obtain ⟨hmsg, hak, hkn⟩ := hm _ List.mem_cons_self
    rw [List.map_cons, List.pairwise_cons] at hp
    have ht := h.onPacket (s := session) (k := k) hak (by omega) 1 (ofNat_succ k)
    obtain ⟨g', m', hr, ht', hsum⟩ := receive_rest hn ht (by omega) hp.2 fun km hkm =>
      ⟨(hm km (List.mem_cons_of_mem _ hkm)).1, hp.1 km.2 (List.mem_map_of_mem hkm),
        (hm km (List.mem_cons_of_mem _ hkm)).2.2⟩
    refine ⟨g', m', ?_, ht', ?_⟩
    · rw [List.map_cons, List.cons_append, receive_cons (unpack_data hmsg _) rfl, hr]
      rfl
    · rw [List.length_cons]
      dsimp only at hak
      omega

/-- What follows the first message and is not in the list of those delivered
after it. -/
theorem undelivered_cons {ks : List Nat} (hp : (k :: ks).Pairwise (· < ·)) (hks : ∀ x ∈ k :: ks, 1 ≤ x ∧ x ≤ n) :
    undelivered n k (k :: ks) + ks.length = n - k := by
  rw [List.pairwise_cons] at hp
  have hsub : ks.toFinset ⊆ Finset.Ioc k n := fun x hx => by
    rw [List.mem_toFinset] at hx
    exact Finset.mem_Ioc.mpr ⟨hp.1 x hx, (hks x (List.mem_cons_of_mem _ hx)).2⟩
  have hset : ((Finset.Icc 1 n).filter fun x => k < x ∧ x ∉ k :: ks) = Finset.Ioc k n \ ks.toFinset := by
    ext x
    simp only [Finset.mem_filter, Finset.mem_Icc, Finset.mem_sdiff, Finset.mem_Ioc, List.mem_toFinset, List.mem_cons,
      not_or]
    constructor
    · rintro ⟨⟨-, hn⟩, hk, -, hx⟩
      exact ⟨⟨hk, hn⟩, hx⟩
    · rintro ⟨⟨hk, hn⟩, hx⟩
      exact ⟨⟨by omega, hn⟩, hk, by omega, hx⟩
  have hcard : ks.toFinset.card = ks.length := List.toFinset_card_of_nodup (hp.2.imp Nat.ne_of_lt)
  have hle := Finset.card_le_card hsub
  rw [undelivered, hset, Finset.card_sdiff_of_subset hsub, Nat.card_Ioc, hcard]
  rw [Nat.card_Ioc, hcard] at hle
  omega

theorem undelivered_none (n : Nat) (numbers : List Nat) : undelivered n (n + 1) numbers = 0 := by
  rw [undelivered, Finset.card_eq_zero, Finset.filter_eq_empty_iff]
  intro x hx hc
  rw [Finset.mem_Icc] at hx
  omega

/-- Of the numbered messages, some, in order. -/
theorem receive_sublist {msgs : List (List UInt8)} (hm : ∀ msg ∈ msgs, msg ≠ [] ∧ msg.length < 2 ^ 16)
    (hn : msgs.length + 1 < 2 ^ 64) (hs : List.Sublist kms (msgs.zipIdx 1)) : ∃ g first,
      receive {} (kms.map (fun km => dataPacket (UInt64.ofNat km.2) km.1) ++
        [endPacket (UInt64.ofNat (msgs.length + 1))]) = some (g, kms.map fun km => (UInt64.ofNat km.2, km.1)) ∧
      firstSequence (kms.map (fun km => dataPacket (UInt64.ofNat km.2) km.1) ++
        [endPacket (UInt64.ofNat (msgs.length + 1))]) = some first ∧
      g.totalMissed.toNat = undelivered msgs.length first.toNat (kms.map Prod.snd) ∧
      g.next.toNat = msgs.length + 1 := by
  have hmem : ∀ km ∈ kms, (km.1 ≠ [] ∧ km.1.length < 2 ^ 16) ∧ 1 ≤ km.2 ∧ km.2 ≤ msgs.length := by
    intro km hkm
    have hz := hs.subset hkm
    have hidx := List.mem_zipIdx hz
    exact ⟨hm _ (List.fst_mem_of_mem_zipIdx hz), hidx.1, by omega⟩
  have hpair : (kms.map Prod.snd).Pairwise (· < ·) := by
    refine List.Pairwise.sublist (hs.map Prod.snd) ?_
    rw [List.zipIdx_map_snd]
    exact List.pairwise_lt_range'
  have hend : (UInt64.ofNat (msgs.length + 1)).toNat = msgs.length + 1 := UInt64.toNat_ofNat_of_lt' hn
  cases kms with
  | nil =>
    have ht := GapTracker.tracks_first (s := session) (k := msgs.length + 1) (by omega) hn kEndOfSession
      (if_neg (by simp))
    refine ⟨(GapTracker.onPacket {} ⟨session, UInt64.ofNat (msgs.length + 1), kEndOfSession⟩).2,
      UInt64.ofNat (msgs.length + 1), ?_, ?_, ?_, ?_⟩
    · rw [List.map_nil, List.nil_append, receive_cons (unpack_end _) rfl]
      rfl
    · rw [firstSequence, List.map_nil, List.nil_append, List.head?_cons]
      simp only [Option.bind_eq_bind, Option.bind_some]
      rw [unpack_end]
      rfl
    · rw [ht.missed, hend, undelivered_none]
      rfl
    · rw [ht.next, hend]
  | cons km kms =>
    obtain ⟨msg, k⟩ := km
    obtain ⟨hmsg, hk1, hkn⟩ := hmem _ List.mem_cons_self
    dsimp only at hk1 hkn
    rw [List.map_cons] at hpair
    have ht := GapTracker.tracks_first (s := session) hk1 (by omega) 1 (ofNat_succ k)
    obtain ⟨g, m, hr, htr, hsum⟩ := receive_rest hn ht (by omega) (List.pairwise_cons.mp hpair).2 fun km hkm =>
      ⟨(hmem km (List.mem_cons_of_mem _ hkm)).1, (List.pairwise_cons.mp hpair).1 km.2 (List.mem_map_of_mem hkm),
        (hmem km (List.mem_cons_of_mem _ hkm)).2.2⟩
    have hund : undelivered msgs.length k (k :: kms.map Prod.snd) + (kms.map Prod.snd).length = msgs.length - k :=
      undelivered_cons hpair fun x hx => by
        obtain ⟨km, hkm, rfl⟩ := List.mem_map.mp (show x ∈ ((msg, k) :: kms).map Prod.snd from hx)
        exact (hmem km hkm).2
    rw [List.length_map] at hund
    refine ⟨g, UInt64.ofNat k, ?_, ?_, ?_, ?_⟩
    · rw [List.map_cons, List.cons_append, receive_cons (unpack_data hmsg _) rfl, hr]
      rfl
    · rw [firstSequence, List.map_cons, List.cons_append, List.head?_cons]
      simp only [Option.bind_eq_bind, Option.bind_some]
      rw [unpack_data hmsg]
      rfl
    · rw [htr.missed, UInt64.toNat_ofNat_of_lt' (show m < 2 ^ 64 by omega),
        UInt64.toNat_ofNat_of_lt' (show k < 2 ^ 64 by omega)]
      show m = undelivered msgs.length k (k :: kms.map Prod.snd)
      omega
    · rw [htr.next, hend]

theorem accounted {msgs : List (List UInt8)} (hm : ∀ msg ∈ msgs, msg ≠ [] ∧ msg.length < 2 ^ 16)
    (hn : msgs.length + 1 < 2 ^ 64) :
    Accounted msgs (dataPackets 1 msgs ++ [endPacket (UInt64.ofNat (msgs.length + 1))]) := by
  have hnum : ∀ {kms : List (List UInt8 × Nat)}, List.Sublist kms (msgs.zipIdx 1) →
      ∀ km ∈ kms, (UInt64.ofNat km.2).toNat = km.2 := by
    intro kms hs km hkm
    have hidx := List.mem_zipIdx (hs.subset hkm)
    exact UInt64.toNat_ofNat_of_lt' (show km.2 < 2 ^ 64 by omega)
  refine ⟨dataPackets 1 msgs, _, rfl, ?_, ⟨_, unpack_end _, rfl, UInt64.toNat_ofNat_of_lt' hn⟩, ?_⟩
  · obtain ⟨g, first, hr, -⟩ := receive_sublist hm hn (List.Sublist.refl _)
    refine ⟨g, _, hr, ?_⟩
    rw [List.map_map]
    refine (List.map_congr_left fun km hkm => ?_).trans (List.map_id _)
    show (km.1, (UInt64.ofNat km.2).toNat) = km
    rw [hnum (List.Sublist.refl _) km hkm]
  · intro got hgot
    obtain ⟨kms, hs, rfl⟩ := List.sublist_map_iff.mp hgot
    obtain ⟨g, first, hr, hf, hmissed, hnext⟩ := receive_sublist hm hn hs
    refine ⟨g, _, first, hr, hf, ?_, hnext⟩
    have hseen : (kms.map fun km => (UInt64.ofNat km.2, km.1)).map (fun m => m.1.toNat) = kms.map Prod.snd := by
      rw [List.map_map]
      exact List.map_congr_left fun km hkm => hnum hs km hkm
    rw [hmissed, hseen]

end Session

end Mold

/-! ## The loop -/

theorem md_accounts (bound : Nat) (items : List MdMsg) (ops : List StageOp) (s : Stage MdMsg (Drain MdLoop))
    (hr : Runs.run (Stage.step bound fun _ => mdLoop) (Stage.start items { state := {} }) ops = some s)
    (hs : s.loop.pc = .exited) :
    ∃ evs, Runs.trace (Stage.step bound fun _ => mdLoop) (Stage.start items { state := {} }) ops = some evs ∧
      ((∀ m ∈ taken evs, m.Framed) → (taken evs).length + 1 < 2 ^ 64 →
        Mold.Accounted ((taken evs).map MdMsg.payload) s.loop.state.packets) := by
  obtain ⟨evs, state, ht, hf, hfin, -⟩ := Drain.exit_iff hr hs
  refine ⟨evs, ht, fun hm hn => ?_⟩
  have hpackets := MdLoop.packets_eq hm hf hfin
  have hmsgs : ∀ msg ∈ (taken evs).map MdMsg.payload, msg ≠ [] ∧ msg.length < 2 ^ 16 := by
    intro msg hmsg
    obtain ⟨m, hmem, rfl⟩ := List.mem_map.mp hmsg
    have hlen := m.payload_length
    exact ⟨(hm m hmem).payload_ne_nil.1, by omega⟩
  have hacc := Mold.accounted hmsgs (by rwa [List.length_map])
  rw [hpackets]
  rwa [List.length_map] at hacc

/-- Any messages can be sent. -/
theorem exec_session {items : List MdMsg} (hm : ∀ m ∈ items, m.Framed) : ∃ evs s,
    Runs.Exec (Stage.step items.length fun _ => mdLoop) (Stage.start items { state := {} })
      (Drain.eagerOps items.length) evs s ∧ s.loop.pc = .exited ∧ taken evs = items ∧ popped evs = items ∧
      s.loop.state.packets =
        dataPackets 1 (items.map MdMsg.payload) ++ [endPacket (UInt64.ofNat (items.length + 1))] := by
  obtain ⟨l, hf, hok, -, -⟩ := MdLoop.foldlM_pack MdLoop.start_ok (rfl : (1 : UInt64) = UInt64.ofNat 1) hm
  obtain ⟨l', hfin, -⟩ := MdLoop.finish_spec hok
  exact ⟨_, _, Drain.exec_eager hf hfin, rfl, Drain.taken_eager items, Drain.popped_eager items, MdLoop.packets_eq hm hf hfin⟩

/-- Of three messages the second is lost, and counted. -/
theorem md_accounts_lost : ∃ (msgs : List MdMsg) (s : Stage MdMsg (Drain MdLoop)) (p₁ p₂ p₃ last : List UInt8)
    (g : Mold.GapTracker) (seen : List (UInt64 × List UInt8)), msgs.map MdMsg.payload = [[83], [84], [85]] ∧
    Runs.run (Stage.step 3 fun _ => mdLoop) (Stage.start msgs { state := {} }) (Drain.eagerOps 3) = some s ∧
    Mold.Accounted [[83], [84], [85]] s.loop.state.packets ∧ s.loop.state.packets = [p₁, p₂, p₃, last] ∧
    Mold.receive {} [p₁, p₃, last] = some (g, seen) ∧ seen.map Prod.snd = [[83], [85]] ∧ g.totalMissed = 1 ∧
    g.nextExpected = 4 := by
  let msgs : List MdMsg := [⟨[0, 1, 83], by decide⟩, ⟨[0, 1, 84], by decide⟩, ⟨[0, 1, 85], by decide⟩]
  have hm : ∀ m ∈ msgs, m.Framed := by
    simp only [msgs, List.forall_mem_cons]
    exact ⟨⟨[83], by simp, rfl⟩, ⟨[84], by simp, rfl⟩, ⟨[85], by simp, rfl⟩, fun _ h => absurd h List.not_mem_nil⟩
  obtain ⟨evs, s, he, hs, htaken, -, hpackets⟩ := exec_session hm
  obtain ⟨evs', ht, hacc⟩ := md_accounts 3 _ _ s he.run hs
  cases ht.symm.trans he.trace
  rw [htaken] at hacc
  have hlost : (Mold.receive {} [dataPacket 1 [83], dataPacket 3 [85], endPacket 4]).map (fun r =>
      (r.2.map Prod.snd, r.1.totalMissed, r.1.nextExpected)) = some ([[83], [85]], 1, 4) := by decide +kernel
  obtain ⟨⟨g, seen⟩, hreceive, hseen⟩ := Option.map_eq_some_iff.mp hlost
  simp only [Prod.mk.injEq] at hseen
  exact ⟨msgs, s, _, _, _, _, g, seen, rfl, he.run, hacc hm (by decide), hpackets, hreceive, hseen⟩

/-- After `2 ^ 64 - 1` messages the number of the next does not fit; and a
message that the second `try_pop` gets is in no packet. -/
theorem md_unaccounted :
    (∃ (items : List MdMsg) (ops : List StageOp) (evs : List (StageEvent MdMsg)) (s : Stage MdMsg (Drain MdLoop)),
      (∀ m ∈ items, m.Framed) ∧ items.length = 2 ^ 64 - 1 ∧
      Runs.trace (Stage.step (2 ^ 64 - 1) fun _ => mdLoop) (Stage.start items { state := {} }) ops = some evs ∧
      Runs.run (Stage.step (2 ^ 64 - 1) fun _ => mdLoop) (Stage.start items { state := {} }) ops = some s ∧
      s.loop.pc = .exited ∧ popped evs = items ∧
      ∃ last header, s.loop.state.packets.getLast? = some last ∧
        Mold.unpack last {} = some { ok := true, header } ∧ header.sequence.toNat ≠ items.length + 1) ∧
    ∃ (m : MdMsg) (evs : List (StageEvent MdMsg)) (s : Stage MdMsg (Drain MdLoop)), m.Framed ∧
      Runs.trace (Stage.step 1 fun _ => mdLoop) (Stage.start [m] { state := {} }) Stage.lateOps = some evs ∧
      Runs.run (Stage.step 1 fun _ => mdLoop) (Stage.start [m] { state := {} }) Stage.lateOps = some s ∧
      s.loop.pc = .exited ∧ popped evs = [m] ∧ s.loop.state.packets = [endPacket 1] := by
  have hframed : (⟨[0, 1, 83], by decide⟩ : MdMsg).Framed := ⟨[83], by simp, rfl⟩
  constructor
  · obtain ⟨items, hm, hlen⟩ : ∃ items : List MdMsg, (∀ m ∈ items, m.Framed) ∧ items.length = 2 ^ 64 - 1 :=
      ⟨List.replicate _ ⟨[0, 1, 83], by decide⟩, fun m hmem => (List.mem_replicate.mp hmem).2 ▸ hframed,
        List.length_replicate⟩
    obtain ⟨evs, s, he, hs, -, hpopped, hpackets⟩ := exec_session hm
    rw [hlen] at he hpackets
    refine ⟨items, _, evs, s, hm, hlen, he.trace, he.run, hs, hpopped, endPacket (UInt64.ofNat (2 ^ 64 - 1 + 1)),
      _, ?_, Mold.unpack_end _, ?_⟩
    · rw [hpackets, List.getLast?_append, List.getLast?_singleton]
      rfl
    · rw [hlen]
      decide
  · obtain ⟨l, hfin, hpackets⟩ := MdLoop.finish_spec MdLoop.start_ok
    have he := @Drain.exec_late _ _ MdLoop.pack _ _ _ hfin ⟨[0, 1, 83], by decide⟩
    exact ⟨_, _, _, hframed, he.trace, he.run, rfl, rfl, hpackets⟩

end Pricetime
