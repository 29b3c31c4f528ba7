import Pricetime.Impl.MoldUdp64
import Pricetime.Proof.ItchReader

/-!
# What a packer packs, `unpack` unpacks

`Packer.Holds p msgs`: the packer has `msgs` in its blocks. A message is added
if it fits (`Holds.add`), and the sealed packet is a header and the frames of
the messages (`Holds.close`), which `unpack` gives back with their numbers
(`unpack_packet`).
-/

namespace Pricetime

namespace Mold

open Itch (sizeSub slice be be16 be_bytesBe bytesBe_length slice_of_drop be16_of_drop prefixLength_frame)
open Itch.Writer (bytesBe)
open Spec (frame)

variable {session : List UInt8} {msgs : List (List UInt8)} {msg : List UInt8}

/-- The bytes of a header. -/
def Header.bytes (h : Header) : List UInt8 := h.session ++ bytesBe 8 h.sequence ++ bytesBe 2 h.count.toUInt64

/-- A packet that carries `msgs`. -/
def packet (h : Header) (msgs : List (List UInt8)) : List UInt8 := h.bytes ++ msgs.flatMap frame

theorem Header.bytes_length {h : Header} (hs : h.session.length = 10) : h.bytes.length = kHeaderSize := by
  rw [bytes, List.length_append, List.length_append, bytesBe_length, bytesBe_length, hs]
  rfl

theorem frame_length (msg : List UInt8) : (frame msg).length = 2 + msg.length := by
  rw [frame, List.length_cons, List.length_cons]
  omega

theorem length_frames (msgs : List (List UInt8)) : 2 * msgs.length ≤ (msgs.flatMap frame).length := by
  induction msgs with
  | nil => exact Nat.le_refl 0
  | cons msg msgs ih =>
    rw [List.flatMap_cons, List.length_append, frame_length, List.length_cons]
    omega

/-! ## Packing -/

namespace Packer

variable {p : Packer}

/-- Its arrays have the lengths they are made with. -/
structure Ok (p : Packer) : Prop where
  session : p.session.length = 10
  size : p.buf.length = kBufSize

theorem new_ok (session10 : List UInt8) : (new session10).Ok := by
  refine ⟨?_, List.length_replicate⟩
  show (session10.take 10 ++ List.replicate (10 - session10.length) ' '.toUInt8).length = 10
  rw [List.length_append, List.length_take, List.length_replicate]
  omega

/-- The packer has `msgs` in its blocks. -/
structure Filled (p : Packer) (msgs : List (List UInt8)) : Prop extends p.Ok where
  len : p.len = kHeaderSize + (msgs.flatMap frame).length
  fits : p.len ≤ kBufSize
  blocks : (p.buf.take p.len).drop kHeaderSize = msgs.flatMap frame

/-- It has counted them, too. -/
structure Holds (p : Packer) (msgs : List (List UInt8)) : Prop extends p.Filled msgs where
  count : p.count.toNat = msgs.length

theorem filled_nil (h : p.Ok) (hlen : p.len = kHeaderSize) : p.Filled [] where
  toOk := h
  len := hlen
  fits := by
    rw [hlen]
    decide
  blocks := by
    rw [hlen, List.flatMap_nil, List.drop_eq_nil_iff, List.length_take]
    exact Nat.min_le_left ..

theorem start_holds (h : p.Ok) (seq : UInt64) : (p.start seq).Holds [] :=
  ⟨filled_nil ⟨h.session, h.size⟩ rfl, rfl⟩

theorem Holds.add (h : p.Holds msgs) (msg : List UInt8) (hfits : p.len + 2 + msg.length ≤ kBufSize) :
    ∃ p', p.add msg = some (true, p') ∧
    p'.Holds (msgs ++ [msg]) ∧ p'.session = p.session ∧ p'.firstSeq = p.firstSeq := by
  have hsize := h.size
  have hbytes : [((msg.length >>> 8) &&& 0xFF).toUInt8, (msg.length &&& 0xFF).toUInt8] ++ msg = frame msg := by
    rw [Itch.shift_toUInt8, Itch.and_toUInt8]
    rfl
  have hlen := frame_length msg
  have hframes : ((msgs ++ [msg]).flatMap frame) = msgs.flatMap frame ++ frame msg := by simp
  have hw : write p.buf p.len (frame msg) =
      some (p.buf.take p.len ++ frame msg ++ p.buf.drop (p.len + (frame msg).length)) := if_pos (by omega)
  refine ⟨{ p with
    buf := p.buf.take p.len ++ frame msg ++ p.buf.drop (p.len + (frame msg).length)
    len := p.len + (2 + msg.length)
    count := p.count + 1 }, ?_, ⟨⟨⟨h.session, ?_⟩, ?_, ?_, ?_⟩, ?_⟩, rfl, rfl⟩
  · rw [Packer.add, if_neg (by omega), hbytes]
    dsimp only
    rw [hw]
    rfl
  · simp only [List.length_append, List.length_take, List.length_drop]
    omega
  · have hl := h.len
    simp only [hframes, List.length_append]
    omega
  · show p.len + (2 + msg.length) ≤ kBufSize
    omega
  · have htake : (p.buf.take p.len ++ frame msg).length = p.len + (2 + msg.length) := by
      rw [List.length_append, List.length_take, hlen]
      omega
    have hl := h.len
    show ((p.buf.take p.len ++ frame msg ++ _).take (p.len + (2 + msg.length))).drop kHeaderSize = _
    rw [List.take_append_of_le_length (Nat.le_of_eq htake.symm), List.take_of_length_le (Nat.le_of_eq htake),
      List.drop_append_of_le_length, h.blocks, hframes]
    rw [List.length_take]
    omega
  · have hl := h.len
    have hmsgs := length_frames msgs
    have hf := h.fits
    have hc := h.count
    have hsucc : (p.count + 1).toNat = (p.count.toNat + 1) % 2 ^ 16 := UInt16.toNat_add ..
    show (p.count + 1).toNat = (msgs ++ [msg]).length
    rw [hsucc, List.length_append, List.length_singleton]
    simp only [kBufSize, kHeaderSize] at hf hl
    omega

theorem add_full (h : p.Ok) (hfull : kBufSize < p.len + 2 + msg.length) : p.add msg = some (false, p) := by
  have hsize := h.size
  rw [Packer.add, if_pos (by omega)]

theorem Filled.writeHeader (h : p.Filled msgs) (count : UInt16) : ∃ p', p.writeHeader count = some p' ∧ p'.Ok ∧
    p'.bytes = packet ⟨p.session, p.firstSeq, count⟩ msgs ∧ p'.session = p.session ∧ p'.count = p.count := by
  have hh := Header.bytes_length (h := ⟨p.session, p.firstSeq, count⟩) h.session
  have hsize := h.size
  have hl := h.len
  have hw : write p.buf 0 (Header.bytes ⟨p.session, p.firstSeq, count⟩) =
      some (p.buf.take 0 ++ Header.bytes ⟨p.session, p.firstSeq, count⟩ ++
        p.buf.drop (0 + (Header.bytes ⟨p.session, p.firstSeq, count⟩).length)) := by
    refine if_pos ?_
    rw [hh, hsize]
    decide
  rw [hh, List.take_zero, List.nil_append, Nat.zero_add] at hw
  refine ⟨{ p with buf := Header.bytes ⟨p.session, p.firstSeq, count⟩ ++ p.buf.drop kHeaderSize }, ?_,
    ⟨h.session, ?_⟩, ?_, rfl, rfl⟩
  · show (write p.buf 0 (Header.bytes ⟨p.session, p.firstSeq, count⟩)).bind _ = _
    rw [hw]
    rfl
  · rw [List.length_append, List.length_drop, hh, hsize]
    decide
  · show (Header.bytes _ ++ p.buf.drop kHeaderSize).take p.len = packet _ msgs
    rw [packet, ← h.blocks, List.take_append, hh, List.take_of_length_le (by omega), List.drop_take]

theorem Holds.close (h : p.Holds msgs) : ∃ p', p.close = some p' ∧ p'.Ok ∧
    p'.bytes = packet ⟨p.session, p.firstSeq, p.count⟩ msgs ∧ p'.session = p.session ∧ p'.count = p.count :=
  h.writeHeader p.count

/-- The packer after `add` has returned true for each of the messages. -/
def addAll (p : Packer) : List (List UInt8) → Option Packer
  | [] => some p
  | msg :: msgs => do
    let (ok, p) ← p.add msg
    if ok then p.addAll msgs else none

/-- A message that is added did fit. -/
theorem fits_of_add (h : p.Ok) {p' : Packer} (hadd : p.add msg = some (true, p')) :
    p.len + 2 + msg.length ≤ kBufSize := by
  by_contra hfull
  cases (add_full h (Nat.not_le.mp hfull)).symm.trans hadd

theorem Holds.addAll : ∀ {more msgs : List (List UInt8)} {p p' : Packer}, p.Holds msgs → p.addAll more = some p' →
    p'.Holds (msgs ++ more) ∧ p'.session = p.session ∧ p'.firstSeq = p.firstSeq
  | [], msgs, p, p', h, hadd => by
    cases hadd
    rw [List.append_nil]
    exact ⟨h, rfl, rfl⟩
  | msg :: more, msgs, p, p', h, hadd => by
    obtain ⟨⟨ok, p₁⟩, hp₁, hrest⟩ := Option.bind_eq_some_iff.mp hadd
    cases ok with
    | false => cases hrest
    | true =>
      obtain ⟨p₂, hp₂, h₂, hs₂, hq₂⟩ := h.add msg (fits_of_add h.toOk hp₁)
      cases hp₁.symm.trans hp₂
      obtain ⟨h', hs', hq'⟩ := Holds.addAll h₂ hrest
      rw [List.append_assoc] at h'
      exact ⟨h', hs'.trans hs₂, hq'.trans hq₂⟩

theorem length_le_of_mem {msgs : List (List UInt8)} (hm : msg ∈ msgs) : msg.length ≤ (msgs.flatMap frame).length := by
  obtain ⟨xs, ys, rfl⟩ := List.append_of_mem hm
  have hlen := frame_length msg
  rw [List.flatMap_append, List.flatMap_cons, List.length_append, List.length_append]
  omega

theorem closeEndOfSession_spec (h : p.Ok) (seq : UInt64) : ∃ p', p.closeEndOfSession seq = some p' ∧ p'.Ok ∧
    p'.bytes = packet ⟨p.session, seq, kEndOfSession⟩ [] ∧ p'.session = p.session := by
  have hf : ({ p with len := kHeaderSize, firstSeq := seq } : Packer).Filled [] := filled_nil ⟨h.session, h.size⟩ rfl
  obtain ⟨p', hp, hok, hbytes, hs, -⟩ := hf.writeHeader kEndOfSession
  exact ⟨p', hp, hok, hbytes, hs⟩

end Packer

/-! ## Unpacking -/

/-- The messages with their numbers, from the `i`-th one of the packet on. -/
def numbered (sequence : UInt64) : UInt16 → List (List UInt8) → List (UInt64 × List UInt8)
  | _, [] => []
  | i, msg :: msgs => (sequence + i.toUInt64, msg) :: numbered sequence (i + 1) msgs

theorem sizeSub_of_le {a b : Nat} (h : b ≤ a) : sizeSub a b = some (a - b) := if_pos h

theorem unpackBlocks_eq {pkt : List UInt8} {hdr : Header} : ∀ {msgs : List (List UInt8)} {i : UInt16} {off : Nat},
    pkt.drop off = msgs.flatMap frame → off ≤ pkt.length → (∀ msg ∈ msgs, msg ≠ [] ∧ msg.length < 2 ^ 16) →
      unpackBlocks pkt hdr msgs.length i off = some (true, numbered hdr.sequence i msgs)
  | [], i, off, hd, hoff, _ => by
    have hlen := Itch.length_of_drop hd hoff
    have heq : off = pkt.length := by
      rw [hlen]
      rfl
    show some (off == pkt.length, []) = _
    rw [heq, beq_self_eq_true]
    rfl
  | msg :: msgs, i, off, hd, hoff, hm => by
    obtain ⟨hne, hlt⟩ := hm msg List.mem_cons_self
    have hpos := List.length_pos_of_ne_nil hne
    rw [List.flatMap_cons, frame, List.cons_append, List.cons_append] at hd
    have hlen := Itch.length_of_drop hd hoff
    simp only [List.length_cons, List.length_append] at hlen
    have hlen16 := be16_of_drop hd
    rw [prefixLength_frame hlt] at hlen16
    have hd2 : pkt.drop (off + 2) = msg ++ msgs.flatMap frame := by
      rw [← List.drop_drop, hd]
      rfl
    have hslice := slice_of_drop hd2 (by omega) (n := msg.length) (by simp)
    rw [List.take_left] at hslice
    have hd3 : pkt.drop (off + 2 + msg.length) = msgs.flatMap frame := by
      rw [← List.drop_drop, hd2, List.drop_left]
    have ih := @unpackBlocks_eq pkt hdr msgs (i + 1) _ hd3 (by omega) fun m hmem => hm m (List.mem_cons_of_mem _ hmem)
    rw [List.length_cons, unpackBlocks, sizeSub_of_le hoff]
    simp only [Option.bind_eq_bind, Option.bind_some]
    rw [if_neg (by omega), hlen16]
    simp only [Option.bind_some]
    rw [sizeSub_of_le (by omega)]
    simp only [Option.bind_some]
    rw [if_neg (by omega), hslice]
    simp only [Option.bind_some]
    rw [ih]
    rfl

/-- Blocks that are accepted are frames, and there are as many as announced. -/
theorem unpackBlocks_frames {pkt : List UInt8} {hdr : Header} : ∀ (n : Nat) (i : UInt16) {off : Nat}, off ≤ pkt.length →
    ∃ ok out, unpackBlocks pkt hdr n i off = some (ok, out) ∧ (ok = true → ∃ msgs : List (List UInt8), msgs.length = n ∧
      (∀ msg ∈ msgs, msg ≠ [] ∧ msg.length < 2 ^ 16) ∧ pkt.drop off = msgs.flatMap frame)
  | 0, i, off, hoff => by
    refine ⟨_, _, rfl, fun hok => ⟨[], rfl, nofun, ?_⟩⟩
    have heq : off = pkt.length := by simpa using hok
    rw [heq, List.drop_length]
    rfl
  | n + 1, i, off, hoff => by
    have hlen : (pkt.drop off).length = pkt.length - off := List.length_drop ..
    rw [unpackBlocks, sizeSub_of_le hoff]
    simp only [Option.bind_eq_bind, Option.bind_some]
    split
    · exact ⟨_, _, rfl, nofun⟩
    rename_i htwo
    obtain ⟨hi, lo, body, hd⟩ : ∃ hi lo body, pkt.drop off = hi :: lo :: body := by
      match hd : pkt.drop off with
      | [] | [_] => simp [hd] at hlen; omega
      | hi :: lo :: body => exact ⟨hi, lo, body, rfl⟩
    have hbody : body.length = pkt.length - (off + 2) := by
      rw [hd, List.length_cons, List.length_cons] at hlen
      omega
    have hd2 : pkt.drop (off + 2) = body := by
      rw [← List.drop_drop, hd]
      rfl
    rw [be16_of_drop hd, Option.bind_some, sizeSub_of_le (by omega)]
    simp only [Option.bind_some]
    split
    · exact ⟨_, _, rfl, nofun⟩
    rename_i hfits
    obtain ⟨hpos, hle⟩ := not_or.mp hfits
    have hslice := slice_of_drop hd2 (by omega) (n := Spec.prefixLength hi lo) (by omega)
    rw [hslice, Option.bind_some]
    obtain ⟨ok, out, hrec, hblocks⟩ := @unpackBlocks_frames pkt hdr n (i + 1) (off + 2 + Spec.prefixLength hi lo)
      (by omega)
    rw [hrec]
    refine ⟨ok, _, rfl, fun hok => ?_⟩
    obtain ⟨msgs, hn, hall, hrest⟩ := hblocks hok
    have htake : (body.take (Spec.prefixLength hi lo)).length = Spec.prefixLength hi lo := by
      rw [List.length_take]
      omega
    refine ⟨body.take (Spec.prefixLength hi lo) :: msgs, congrArg _ hn, ?_, ?_⟩
    · refine List.forall_mem_cons.mpr ⟨⟨fun e => hpos ?_, ?_⟩, hall⟩
      · rw [← htake, e]
        rfl
      · rw [htake]
        exact Itch.prefixLength_lt hi lo
    · rw [List.flatMap_cons, ← hrest, ← List.drop_drop, hd2, Itch.frame_of_length hi lo htake, hd, List.cons_append,
        List.cons_append, List.take_append_drop]

/-- The numbers go up by one, modulo `2^64`. -/
theorem numbered_eq (sequence : UInt64) : ∀ {i : UInt16} {msgs : List (List UInt8)}, i.toNat + msgs.length < 2 ^ 16 →
    numbered sequence i msgs = (msgs.zipIdx i.toNat).map fun m => (sequence + UInt64.ofNat m.2, m.1)
  | _, [], _ => rfl
  | i, msg :: msgs, h => by
    rw [List.length_cons] at h
    have hone : (1 : UInt16).toNat = 1 := rfl
    have hsucc : (i + 1).toNat = i.toNat + 1 := by
      rw [UInt16.toNat_add, hone]
      omega
    have hi : i.toUInt64 = UInt64.ofNat i.toNat := by
      refine UInt64.toNat_inj.mp ?_
      rw [UInt16.toNat_toUInt64, UInt64.toNat_ofNat_of_lt' (Nat.lt_trans i.toNat_lt (by decide))]
    rw [numbered, numbered_eq sequence (by omega), hsucc, hi]
    rfl

theorem numbered_zero (sequence : UInt64) {msgs : List (List UInt8)} (h : msgs.length < 2 ^ 16) :
    numbered sequence 0 msgs = msgs.zipIdx.map fun m => (sequence + UInt64.ofNat m.2, m.1) :=
  numbered_eq sequence (show 0 + msgs.length < 2 ^ 16 by omega)

/-- A datagram that a receiver is to take: its header and its messages. Two
counts stand for something else than a number of blocks. -/
structure Datagram (pkt : List UInt8) (h : Header) (msgs : List (List UInt8)) : Prop where
  size : kHeaderSize ≤ pkt.length
  session : pkt.take 10 = h.session
  sequence : be 8 pkt 10 = some h.sequence
  count : be16 pkt 18 = some h.count.toNat
  body : if h.count = kHeartbeat ∨ h.count = kEndOfSession then pkt.length = kHeaderSize ∧ msgs = []
    else msgs.length = h.count.toNat ∧ (∀ msg ∈ msgs, msg ≠ [] ∧ msg.length < 2 ^ 16) ∧
      pkt.drop kHeaderSize = msgs.flatMap frame

/-- What `unpack` does once it has read the header. -/
theorem unpack_header {pkt : List UInt8} (hsize : kHeaderSize ≤ pkt.length) (hdr : Header) :
    ∃ h : Header, pkt.take 10 = h.session ∧ be 8 pkt 10 = some h.sequence ∧ be16 pkt 18 = some h.count.toNat ∧
      unpack pkt hdr = if h.count = kHeartbeat ∨ h.count = kEndOfSession then
        some { ok := pkt.length == kHeaderSize, header := h }
      else (unpackBlocks pkt h h.count.toNat 0 kHeaderSize).map fun r => { ok := r.1, msgs := r.2, header := h } := by
  have h20 : 20 ≤ pkt.length := hsize
  obtain ⟨seq, hseq⟩ := Itch.be_some (n := 8) (p := pkt) (i := 10) (by omega)
  obtain ⟨w, hw⟩ := Itch.be_some (n := 2) (p := pkt) (i := 18) (by omega)
  have hslice : slice pkt 0 10 = some (pkt.take 10) := if_pos (by omega)
  have hlt : w.toNat < 2 ^ 16 := Itch.be_toNat_lt (by omega) hw
  have hcount : w.toUInt16.toNat = w.toNat := by
    rw [UInt64.toNat_toUInt16]
    exact Nat.mod_eq_of_lt hlt
  refine ⟨⟨pkt.take 10, seq, w.toUInt16⟩, rfl, hseq, by rw [be16, hw, Option.map_some, hcount], ?_⟩
  rw [unpack, if_neg (by omega), hslice, hseq, hw]
  simp only [Option.bind_eq_bind, Option.bind_some]
  split
  · rfl
  · cases unpackBlocks pkt ⟨pkt.take 10, seq, w.toUInt16⟩ w.toUInt16.toNat 0 kHeaderSize <;> rfl

theorem Datagram.unpack {pkt : List UInt8} {h : Header} {msgs : List (List UInt8)} (hd : Datagram pkt h msgs)
    (hdr : Header) : unpack pkt hdr = some { ok := true, msgs := numbered h.sequence 0 msgs, header := h } := by
  obtain ⟨h', hsess, hseq, hcount, hu⟩ := unpack_header hd.size hdr
  have heq : h' = h := by
    have hs : h'.session = h.session := hsess.symm.trans hd.session
    have hq : h'.sequence = h.sequence := Option.some.inj (hseq.symm.trans hd.sequence)
    have hc : h'.count = h.count := UInt16.toNat_inj.mp (Option.some.inj (hcount.symm.trans hd.count))
    cases h'
    cases h
    subst hs hq hc
    rfl
  subst heq
  have hbody := hd.body
  rw [hu]
  split at hbody
  · rename_i hres
    rw [if_pos hres, hbody.1, hbody.2]
    rfl
  · rename_i hres
    obtain ⟨hn, hall, hdrop⟩ := hbody
    rw [if_neg hres, ← hn, unpackBlocks_eq hdrop hd.size hall]
    rfl

theorem unpack_accepts (pkt : List UInt8) (hdr : Header) :
    ∃ u, unpack pkt hdr = some u ∧ (u.ok = true → ∃ h msgs, Datagram pkt h msgs) := by
  by_cases hsize : pkt.length < kHeaderSize
  · exact ⟨_, if_pos hsize, nofun⟩
  have hle := Nat.not_lt.mp hsize
  obtain ⟨h, hsess, hseq, hcount, hu⟩ := unpack_header hle hdr
  rw [hu]
  split
  · rename_i hres
    exact ⟨_, rfl, fun hok => ⟨h, [], hle, hsess, hseq, hcount, by rw [if_pos hres]; exact ⟨by simpa using hok, rfl⟩⟩⟩
  · rename_i hres
    obtain ⟨ok, out, hb, hblocks⟩ := @unpackBlocks_frames pkt h h.count.toNat 0 kHeaderSize hle
    refine ⟨_, by rw [hb]; rfl, fun hok => ?_⟩
    obtain ⟨msgs, hmsgs⟩ := hblocks hok
    exact ⟨h, msgs, hle, hsess, hseq, hcount, by rwa [if_neg hres]⟩

variable {h : Header}

/-- What there is to read of the header of a packet. -/
theorem header_reads (hs : h.session.length = 10) (body : List UInt8) :
    (h.bytes ++ body).take 10 = h.session ∧ be 8 (h.bytes ++ body) 10 = some h.sequence ∧
      be16 (h.bytes ++ body) 18 = some h.count.toNat := by
  obtain ⟨seq, hseq, hseqn⟩ := be_bytesBe h.session (bytesBe 2 h.count.toUInt64 ++ body) h.sequence (Nat.le_refl 8)
  obtain ⟨w, hw, hwn⟩ := be_bytesBe (n := 2) (h.session ++ bytesBe 8 h.sequence) body h.count.toUInt64 (by omega)
  refine ⟨?_, ?_, ?_⟩
  · rw [Header.bytes, List.append_assoc, List.append_assoc, ← hs, List.take_left]
  · have heq : seq = h.sequence := by
      rw [← UInt64.toNat_inj, hseqn]
      exact Nat.mod_eq_of_lt h.sequence.toNat_lt
    rw [← heq, ← hseq, hs, Header.bytes]
    simp only [List.append_assoc]
  · have hlt := h.count.toNat_lt
    rw [List.length_append, bytesBe_length, hs] at hw
    rw [Header.bytes, be16, hw, Option.map_some, hwn, UInt16.toNat_toUInt64]
    exact congrArg some (Nat.mod_eq_of_lt hlt)

theorem packet_datagram (hs : h.session.length = 10) {msgs : List (List UInt8)} (hcount : h.count.toNat = msgs.length)
    (heos : h.count ≠ kEndOfSession) (hm : ∀ msg ∈ msgs, msg ≠ [] ∧ msg.length < 2 ^ 16) :
    Datagram (packet h msgs) h msgs := by
  obtain ⟨hsess, hseq, hcnt⟩ := header_reads hs (msgs.flatMap frame)
  have hlen := Header.bytes_length hs
  refine ⟨by rw [packet, List.length_append]; omega, hsess, hseq, hcnt, ?_⟩
  split
  · rename_i hres
    have hnil : msgs = [] := by
      rcases hres with e | e
      · rw [e] at hcount
        exact List.eq_nil_of_length_eq_zero hcount.symm
      · exact absurd e heos
    rw [hnil, packet, List.flatMap_nil, List.append_nil]
    exact ⟨hlen, rfl⟩
  · exact ⟨hcount.symm, hm, by rw [packet, ← hlen, List.drop_left]⟩

theorem unpack_packet (hs : h.session.length = 10) {msgs : List (List UInt8)} (hcount : h.count.toNat = msgs.length)
    (heos : h.count ≠ kEndOfSession) (hm : ∀ msg ∈ msgs, msg ≠ [] ∧ msg.length < 2 ^ 16)
    (hdr : Header) : unpack (packet h msgs) hdr = some { ok := true, msgs := numbered h.sequence 0 msgs, header := h } :=
  (packet_datagram hs hcount heos hm).unpack hdr

theorem unpack_endOfSession (hs : h.session.length = 10) (heos : h.count = kEndOfSession) (hdr : Header) :
    unpack (packet h []) hdr = some { ok := true, header := h } := by
  obtain ⟨hsess, hseq, hcnt⟩ := header_reads hs []
  have hlen : (packet h []).length = kHeaderSize := by
    rw [packet, List.flatMap_nil, List.append_nil, Header.bytes_length hs]
  exact Datagram.unpack ⟨Nat.le_of_eq hlen.symm, hsess, hseq, hcnt, by rw [if_pos (.inr heos)]; exact ⟨hlen, rfl⟩⟩ hdr

/-! ## Both ways -/

theorem Datagram.length_lt {pkt : List UInt8} {msgs : List (List UInt8)} (hd : Datagram pkt h msgs) :
    msgs.length < 2 ^ 16 := by
  have hbody := hd.body
  split at hbody
  · rw [hbody.2]
    decide
  · rw [hbody.1]
    exact h.count.toNat_lt

/-- What is accepted is a datagram, of any bytes, and all the messages in it
are delivered; what is packed is one that has the messages. -/
theorem packing_exact :
    (∀ (pkt : List UInt8) (hdr : Header), ∃ u, unpack pkt hdr = some u ∧
      (u.ok = true ↔ ∃ h msgs, Datagram pkt h msgs) ∧
      ∀ h msgs, Datagram pkt h msgs →
        u = ⟨true, msgs.zipIdx.map fun m => (h.sequence + UInt64.ofNat m.2, m.1), h⟩) ∧
    ∀ p : Packer, p.Ok → ∀ (seq : UInt64) (msgs : List (List UInt8)) (p' : Packer), (∀ msg ∈ msgs, msg ≠ []) →
      (p.start seq).addAll msgs = some p' → ∃ q, p'.close = some q ∧ q.bytes.length ≤ 1400 ∧
        ∀ hdr, unpack q.bytes hdr = some ⟨true, msgs.zipIdx.map fun m => (seq + UInt64.ofNat m.2, m.1),
          ⟨p.session, seq, UInt16.ofNat msgs.length⟩⟩ := by
  constructor
  · intro pkt hdr
    obtain ⟨u, hu, hok⟩ := unpack_accepts pkt hdr
    have hdat : ∀ h msgs, Datagram pkt h msgs →
        u = ⟨true, msgs.zipIdx.map fun m => (h.sequence + UInt64.ofNat m.2, m.1), h⟩ := fun h msgs hd => by
      rw [← numbered_zero h.sequence hd.length_lt]
      exact Option.some.inj (hu.symm.trans (hd.unpack hdr))
    refine ⟨u, hu, ⟨hok, ?_⟩, hdat⟩
    rintro ⟨h, msgs, hd⟩
    rw [hdat h msgs hd]
  · intro p hp seq msgs p' hne hadd
    obtain ⟨hh, hs, hq⟩ := (Packer.start_holds hp seq).addAll hadd
    rw [List.nil_append] at hh
    obtain ⟨q, hclose, hqok, hbytes, -, -⟩ := hh.close
    have hlen := hh.len
    have hfits := hh.fits
    have hframes := length_frames msgs
    simp only [kBufSize, kHeaderSize] at hfits hlen
    have hcount : p'.count = UInt16.ofNat msgs.length := by
      rw [← hh.count, UInt16.ofNat_toNat]
    have hdat : Datagram q.bytes ⟨p'.session, p'.firstSeq, p'.count⟩ msgs := by
      rw [hbytes]
      refine packet_datagram hh.session hh.count (fun e => ?_) fun msg hm => ⟨hne msg hm, ?_⟩
      · have hc := hh.count
        rw [show p'.count = kEndOfSession from e] at hc
        have hmax : kEndOfSession.toNat = 65535 := rfl
        omega
      · have := Packer.length_le_of_mem hm
        omega
    refine ⟨q, hclose, ?_, fun hdr => ?_⟩
    · rw [Packer.bytes, List.length_take, hqok.size]
      exact Nat.min_le_right ..
    · rw [hdat.unpack hdr, numbered_zero p'.firstSeq hdat.length_lt, hq, hs, hcount]
      rfl

/-- Two messages, numbered 41 and 42. -/
theorem packing_exact_two : ∃ p' q : Packer, ((Packer.new Packer.defaultSession).start 41).addAll [[1, 2], [3]] = some p' ∧
    p'.close = some q ∧ unpack q.bytes {} = some ⟨true, [(41, [1, 2]), (42, [3])], ⟨Packer.defaultSession, 41, 2⟩⟩ := by
  have hok := Packer.new_ok Packer.defaultSession
  obtain ⟨p₁, h₁, hh₁, -, -⟩ := (Packer.start_holds hok 41).add [1, 2] (by decide)
  obtain ⟨p₂, h₂, -, -, -⟩ := hh₁.add [3] (by rw [hh₁.len]; decide)
  have hadd : ((Packer.new Packer.defaultSession).start 41).addAll [[1, 2], [3]] = some p₂ := by
    simp only [Packer.addAll, h₁, h₂, Option.bind_eq_bind, Option.bind_some, if_true]
  obtain ⟨q, hclose, -, hu⟩ := packing_exact.2 _ hok 41 [[1, 2], [3]] p₂ (by decide) hadd
  exact ⟨p₂, q, hadd, hclose, hu {}⟩

/-- Blocks behind the count that announces the end of a session, as many as
that count says, are not accepted. -/
theorem packing_reserved : ∃ (h : Header) (msgs : List (List UInt8)),
    h = ⟨Packer.defaultSession, 1, kEndOfSession⟩ ∧ msgs = List.replicate 65535 [0] ∧
    (packet h msgs).take 10 = h.session ∧ be 8 (packet h msgs) 10 = some h.sequence ∧
    be16 (packet h msgs) 18 = some 65535 ∧ (packet h msgs).drop kHeaderSize = msgs.flatMap frame ∧
    msgs.length = 65535 ∧ (∀ msg ∈ msgs, msg ≠ [] ∧ msg.length < 2 ^ 16) ∧
    ∃ u, unpack (packet h msgs) {} = some u ∧ u.ok = false := by
  have hs : (⟨Packer.defaultSession, 1, kEndOfSession⟩ : Header).session.length = 10 := rfl
  have hlen := Header.bytes_length hs
  obtain ⟨hsess, hseq, hcount⟩ := header_reads hs ((List.replicate 65535 [0]).flatMap frame)
  have hframes := length_frames (List.replicate 65535 [0])
  rw [List.length_replicate] at hframes
  have hsize : kHeaderSize < (packet ⟨Packer.defaultSession, 1, kEndOfSession⟩ (List.replicate 65535 [0])).length := by
    rw [packet, List.length_append]
    omega
  refine ⟨_, _, rfl, rfl, hsess, hseq, hcount, ?_, List.length_replicate, fun msg hm => ?_, ?_⟩
  · rw [packet, ← hlen, List.drop_left]
  · rw [List.eq_of_mem_replicate hm]
    decide
  · obtain ⟨h', -, -, hcount', hu⟩ := unpack_header (Nat.le_of_lt hsize) {}
    have heos : h'.count = kEndOfSession := UInt16.toNat_inj.mp (Option.some.inj (hcount'.symm.trans hcount))
    rw [if_pos (.inr heos)] at hu
    exact ⟨_, hu, beq_eq_false_iff_ne.mpr (Nat.ne_of_gt hsize)⟩

end Mold

end Pricetime
