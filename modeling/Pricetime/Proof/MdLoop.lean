import Pricetime.Impl.Stages
import Pricetime.Proof.MoldUdp64

/-!
# The packets of the market-data loop

`md_loop` makes a packet of one message of each item, numbered from 1 on
(`foldlM_pack`), and an empty one of the next number to end the session
(`finish_spec`).
-/

namespace Pricetime

open Mold (packet kEndOfSession)

/-- The message, without its length. -/
def MdMsg.payload (m : MdMsg) : List UInt8 := m.bytes.drop 2

/-- It is framed, and not empty. -/
def MdMsg.Framed (m : MdMsg) : Prop := ∃ msg, msg ≠ [] ∧ m.bytes = Spec.frame msg

theorem MdMsg.payload_length (m : MdMsg) : m.payload.length ≤ 62 := by
  have hfits := m.fits
  rw [payload, List.length_drop]
  omega

theorem MdMsg.Framed.payload_ne_nil {m : MdMsg} (h : m.Framed) : m.payload ≠ [] ∧ 2 ≤ m.bytes.length := by
  obtain ⟨msg, hne, hb⟩ := h
  rw [payload, hb]
  exact ⟨hne, by rw [Mold.frame_length]; omega⟩

namespace MdLoop

/-- The session of the packets. -/
def session : List UInt8 := (Mold.Packer.new Mold.Packer.defaultSession).session

theorem session_length : session.length = 10 := (Mold.Packer.new_ok _).session

/-- The packet of one message. -/
def dataPacket (seq : UInt64) (msg : List UInt8) : List UInt8 := packet ⟨session, seq, 1⟩ [msg]

def endPacket (seq : UInt64) : List UInt8 := packet ⟨session, seq, kEndOfSession⟩ []

/-- The packer's arrays have their lengths, and the session is the loop's. -/
structure Ok (l : MdLoop) : Prop where
  packer : l.packer.Ok
  session : l.packer.session = session

theorem start_ok : Ok {} := ⟨Mold.Packer.new_ok _, rfl⟩

variable {l : MdLoop}

theorem pack_spec (h : l.Ok) {m : MdMsg} (hm : m.Framed) : ∃ l', l.pack m = some l' ∧ l'.Ok ∧ l'.seq = l.seq + 1 ∧
    l'.packets = l.packets ++ [dataPacket l.seq m.payload] := by
  have hlen := m.payload_length
  have hfits : Mold.kHeaderSize + 2 + m.payload.length ≤ Mold.kBufSize := by
    simp only [Mold.kHeaderSize, Mold.kBufSize]
    omega
  obtain ⟨p, hp, hholds, hs, hseq⟩ := (Mold.Packer.start_holds h.packer l.seq).add m.payload hfits
  obtain ⟨p', hp', hok, hbytes, hs', hcount⟩ := hholds.close
  have hsession : p.session = session := hs.trans h.session
  have hone : p.count = 1 := UInt16.toNat_inj.mp hholds.count
  refine ⟨{ packer := p', seq := l.seq + p'.count.toUInt64, packets := l.packets ++ [p'.bytes] }, ?_,
    ⟨hok, hs'.trans hsession⟩, ?_, ?_⟩
  · rw [pack, if_pos hm.payload_ne_nil.2]
    show ((l.packer.start l.seq).add m.payload).bind _ = _
    rw [hp]
    show (p.close).bind _ = _
    rw [hp']
    rfl
  · show l.seq + p'.count.toUInt64 = l.seq + 1
    rw [hcount, hone]
    rfl
  · show l.packets ++ [p'.bytes] = _
    rw [hbytes, hsession, hseq, hone]
    rfl

theorem finish_spec (h : l.Ok) : ∃ l', l.finish = some l' ∧ l'.packets = l.packets ++ [endPacket l.seq] := by
  obtain ⟨p, hp, _, hbytes, _⟩ := Mold.Packer.closeEndOfSession_spec h.packer l.seq
  refine ⟨{ l with packer := p, packets := l.packets ++ [p.bytes] }, ?_, ?_⟩
  · show (l.packer.closeEndOfSession l.seq).bind _ = _
    rw [hp]
    rfl
  · show l.packets ++ [p.bytes] = _
    rw [hbytes, h.session]
    rfl

/-- The packets of messages that are numbered from `k` on. -/
def dataPackets (k : Nat) (msgs : List (List UInt8)) : List (List UInt8) :=
  (msgs.zipIdx k).map fun m => dataPacket (UInt64.ofNat m.2) m.1

theorem foldlM_pack : ∀ {ms : List MdMsg} {l : MdLoop} {k : Nat}, l.Ok → l.seq = UInt64.ofNat k →
    (∀ m ∈ ms, m.Framed) → ∃ l', ms.foldlM pack l = some l' ∧ l'.Ok ∧ l'.seq = UInt64.ofNat (k + ms.length) ∧
      l'.packets = l.packets ++ dataPackets k (ms.map MdMsg.payload)
  | [], l, k, h, hk, _ => ⟨l, rfl, h, hk, by simp [dataPackets]⟩
  | m :: ms, l, k, h, hk, hm => by
    obtain ⟨l₁, h₁, hok₁, hseq₁, hp₁⟩ := pack_spec h (hm m List.mem_cons_self)
    have hk₁ : l₁.seq = UInt64.ofNat (k + 1) := by
      rw [hseq₁, hk, UInt64.ofNat_add]
      rfl
    obtain ⟨l', h', hok', hseq', hp'⟩ := foldlM_pack hok₁ hk₁ fun m hmem => hm m (List.mem_cons_of_mem _ hmem)
    refine ⟨l', ?_, hok', ?_, ?_⟩
    · rw [List.foldlM_cons, h₁]
      exact h'
    · rw [hseq', List.length_cons, Nat.add_right_comm, Nat.add_assoc]
    · rw [hp', hp₁, hk, List.append_assoc]
      rfl

/-- What the loop has built at its end, from the messages it took. -/
theorem packets_eq {ms : List MdMsg} {l l' : MdLoop} (hm : ∀ m ∈ ms, m.Framed) (h : ms.foldlM pack {} = some l)
    (h' : l.finish = some l') :
    l'.packets = dataPackets 1 (ms.map MdMsg.payload) ++ [endPacket (UInt64.ofNat (ms.length + 1))] := by
  obtain ⟨l₁, h₁, hok, hseq, hp⟩ := foldlM_pack start_ok (rfl : (1 : UInt64) = UInt64.ofNat 1) hm
  cases h.symm.trans h₁
  obtain ⟨l₂, h₂, hp₂⟩ := finish_spec hok
  cases h'.symm.trans h₂
  rw [hp₂, hp, hseq, Nat.add_comm 1]
  rfl

end MdLoop

end Pricetime
