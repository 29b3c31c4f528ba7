import Pricetime.Impl.RecvLoop
import Pricetime.Proof.Framework.Framing
import Pricetime.Proof.Framework.Runs
import Pricetime.Proof.Wire

/-!
# Request intake does not see the segments

What the receive loop takes out of its buffer are the blocks that end with the
magic tag (`takeMessages_eq`), and what it leaves there is the rest. So each
turn goes on where the blocks of the bytes received so far end
(`Chops.append`), and what has been pushed depends on these bytes alone
(`Intake`), however they came.
-/

namespace Pricetime

open Spec (blocks tagged)
open Wire (Request kMessageSize kMagic0 kMagic1)
open Framing (Cut Chops Frames)

/-! ## Blocks -/

theorem blocks_short {xs : List UInt8} (h : xs.length < kMessageSize) : blocks xs = [] := by
  rw [blocks, Nat.div_eq_of_lt h]
  rfl

theorem blocks_append {b : List UInt8} (hb : b.length = kMessageSize) (ys : List UInt8) :
    blocks (b ++ ys) = b :: blocks ys := by
  have hpos : 0 < kMessageSize := by decide
  rw [blocks, List.length_append, hb, Nat.add_div_left _ hpos, List.range_succ_eq_map, List.map_cons, List.map_map]
  congr 1
  · rw [Nat.mul_zero, List.drop_zero, ← hb, List.take_left]
  · refine List.map_congr_left fun i _ => ?_
    show ((b ++ ys).drop (kMessageSize * (i + 1))).take kMessageSize = _
    rw [Nat.mul_succ, Nat.add_comm, ← List.drop_drop, ← hb, List.drop_left]

/-- Why no further message is taken out of the buffer. -/
inductive Halt where
  | incomplete
  | desync
  deriving DecidableEq

/-- The next message, or why there is none. -/
def nextBlock (xs : List UInt8) : Cut UInt8 (List UInt8) Halt :=
  if xs.length < kMessageSize then .stop .incomplete
  else if tagged (xs.take kMessageSize) then .item (xs.take kMessageSize) (xs.drop kMessageSize)
  else .stop .desync

theorem block_frames : Frames nextBlock id fun b => b.length = kMessageSize ∧ tagged b = true where
  cut := by
    intro xs b ys
    rw [nextBlock]
    constructor
    · intro h
      split_ifs at h with hlen htag
      cases h
      refine ⟨⟨?_, htag⟩, (List.take_append_drop ..).symm⟩
      rw [List.length_take]
      omega
    · rintro ⟨⟨hlen, htag⟩, rfl⟩
      rw [id, List.length_append, ← hlen, List.take_left, List.drop_left, if_neg (by omega), if_pos htag]
  pos := by
    rintro b ⟨hlen, -⟩ rfl
    cases hlen

/-- A block without the tag stays one when more bytes follow. -/
theorem nextBlock_desync {xs : List UInt8} (h : nextBlock xs = .stop .desync) (zs : List UInt8) :
    nextBlock (xs ++ zs) = .stop .desync := by
  rw [nextBlock] at h ⊢
  split_ifs at h with hlen htag
  · cases h
  rw [List.take_append_of_le_length (by omega), List.length_append, if_neg (by omega), if_neg htag]

/-- What is chopped are the blocks before the first without the tag. -/
theorem chops_blocks {xs rest : List UInt8} {items : List (List UInt8)} {v : Halt}
    (h : Chops nextBlock xs items rest v) :
    items = (blocks xs).takeWhile tagged ∧ (v = .desync ↔ (blocks xs).all tagged = false) := by
  induction h with
  | @stop xs v h =>
    rw [nextBlock] at h
    split_ifs at h with hlen htag
    · obtain rfl := Cut.stop.inj h
      rw [blocks_short hlen]
      simp
    · obtain rfl := Cut.stop.inj h
      have hcut : (xs.take kMessageSize).length = kMessageSize := by
        rw [List.length_take]
        omega
      rw [← List.take_append_drop kMessageSize xs, blocks_append hcut]
      simp [htag]
  | item h _ ih =>
    obtain ⟨⟨hlen, htag⟩, rfl⟩ := block_frames.cut.mp h
    rw [id, blocks_append hlen, List.takeWhile_cons_of_pos htag, List.all_cons, htag, Bool.true_and]
    exact ⟨congrArg _ ih.1, ih.2⟩

/-! ## The loops -/

namespace RecvBuffer

theorem write_eq (buf : RecvBuffer) {i : Nat} {data : List UInt8} (h : i + data.length ≤ kRecvBytes) :
    ∃ buf' : RecvBuffer, buf.write i data = some buf' ∧ buf'.bytes.take (i + data.length) = buf.bytes.take i ++ data := by
  refine ⟨_, dif_pos h, ?_⟩
  have hlen : (buf.bytes.take i ++ data).length = i + data.length := by
    have := buf.size
    rw [List.length_append, List.length_take]
    omega
  exact List.take_left' hlen

theorem moveDown_eq (buf : RecvBuffer) {off n : Nat} (h : off + n ≤ kRecvBytes) :
    ∃ buf' : RecvBuffer, buf.moveDown off n = some buf' ∧ buf'.bytes.take n = (buf.bytes.drop off).take n := by
  have hlen : ((buf.bytes.drop off).take n).length = n := by
    have := buf.size
    rw [List.length_take, List.length_drop]
    omega
  obtain ⟨buf', hw, ht⟩ := buf.write_eq (show 0 + ((buf.bytes.drop off).take n).length ≤ kRecvBytes by omega)
  rw [Nat.zero_add, hlen, List.take_zero, List.nil_append] at ht
  exact ⟨buf', (if_pos h).trans hw, ht⟩

end RecvBuffer

namespace RecvLoop

/-- The state after the inner loop has pushed `reqs`. -/
def took (s : RecvLoop) (reqs : List Request) (v : Halt) : RecvLoop :=
  match v with
  | .incomplete => { s with qIn := s.qIn ++ reqs }
  | .desync => { s with qIn := s.qIn ++ reqs, desyncs := s.desyncs + 1, alive := false }

/-- The requests that blocks are decoded to. -/
def Decoded (items : List (List UInt8)) (reqs : List Request) : Prop :=
  items.map Request.decode = reqs.map fun req => some (some req)

theorem Decoded.append {items items' : List (List UInt8)} {reqs reqs' : List Request} (h : Decoded items reqs)
    (h' : Decoded items' reqs') : Decoded (items ++ items') (reqs ++ reqs') := by
  rw [Decoded, List.map_append, List.map_append, h, h']

/-- `decode(buf + off)` reads the next block of what is held. -/
theorem decode_held {bytes : List UInt8} {off held : Nat} (h : off + kMessageSize ≤ held)
    (hheld : held ≤ bytes.length) :
    Request.decode (bytes.drop off) = Request.decode (((bytes.take held).drop off).take kMessageSize) := by
  have hblock : ((bytes.take held).drop off).take kMessageSize = (bytes.drop off).take kMessageSize := by
    rw [List.drop_take, List.take_take, Nat.min_eq_left (by omega)]
  have hlen : ((bytes.drop off).take kMessageSize).length = kMessageSize := by
    rw [List.length_take, List.length_drop]
    omega
  rw [hblock, ← Wire.decode_append (Nat.le_of_eq hlen.symm), List.take_append_drop]

theorem sizeSub_eq {a b : Nat} (h : b ≤ a) : Itch.sizeSub a b = some (a - b) := if_pos h

/-- The inner loop takes the blocks of what is held. -/
theorem takeMessages_eq : ∀ {fuel off : Nat} {s : RecvLoop} {items : List (List UInt8)} {rest : List UInt8} {v : Halt},
    s.held - off < fuel → off ≤ s.held → s.held ≤ kRecvBytes →
      Chops nextBlock ((s.buf.bytes.take s.held).drop off) items rest v →
      ∃ reqs, Decoded items reqs ∧ takeMessages fuel off s = some (s.held - rest.length, s.took reqs v)
  | 0, _, _, _, _, _, hf, _, _, _ => absurd hf (Nat.not_lt_zero _)
  | fuel + 1, off, s, items, rest, v, hf, hoff, hheld, h => by
    have hsize := s.buf.size
    have hpos : 0 < kMessageSize := by decide
    have hlen : ((s.buf.bytes.take s.held).drop off).length = s.held - off := by
      rw [List.length_drop, List.length_take]
      omega
    rw [takeMessages, sizeSub_eq hoff]
    simp only [Option.bind_eq_bind, Option.bind_some]
    cases h with
    | stop h =>
      refine ⟨[], rfl, ?_⟩
      rw [nextBlock, hlen] at h
      have hback : s.held - (s.held - off) = off := by omega
      split_ifs at h with hshort htag
      · obtain rfl := Cut.stop.inj h
        rw [if_neg (by omega), hlen, hback, took, List.append_nil]
      · obtain rfl := Cut.stop.inj h
        have hblock : (((s.buf.bytes.take s.held).drop off).take kMessageSize).length = kMessageSize := by
          rw [List.length_take]
          omega
        have hle : off + kMessageSize ≤ s.held := by omega
        rw [if_pos (by omega), decode_held hle (by omega),
          Request.decode_untagged hblock (Bool.eq_false_iff.mpr htag), hlen, hback, took, List.append_nil]
        rfl
    | @item _ ys _ b bs _ h hs =>
      obtain ⟨⟨hb, htag⟩, hxs⟩ := block_frames.cut.mp h
      have hxs : (s.buf.bytes.take s.held).drop off = b ++ ys := hxs
      have hys : (s.buf.bytes.take s.held).drop (off + kMessageSize) = ys := by
        rw [← List.drop_drop, hxs, ← hb, List.drop_left]
      have hle : off + kMessageSize ≤ s.held := by
        rw [hxs, List.length_append] at hlen
        omega
      obtain ⟨req, hreq, -⟩ := Request.decode_tagged hb htag
      rw [if_pos (by omega), decode_held hle (by omega), hxs, ← hb, List.take_left, hreq, hb]
      subst hys
      obtain ⟨reqs, hreqs, hloop⟩ := takeMessages_eq (s := { s with qIn := s.qIn ++ [req] })
        (show s.held - (off + kMessageSize) < fuel by omega) hle hheld hs
      refine ⟨req :: reqs, ?_, ?_⟩
      · rw [Decoded, List.map_cons, List.map_cons, hreq, hreqs]
      · refine hloop.trans ?_
        cases v <;> simp [took]

/-- A turn of the loop that offers at least the space of `piece`. -/
theorem turn_eq {s : RecvLoop} {piece rest : List UInt8} {items : List (List UInt8)} {v : Halt}
    (hfit : s.held + piece.length ≤ kRecvBytes) (h : Chops nextBlock (s.buf.bytes.take s.held ++ piece) items rest v) :
    ∃ (reqs : List Request) (buf : RecvBuffer), Decoded items reqs ∧ buf.bytes.take rest.length = rest ∧
      s.turn piece = some { s.took reqs v with buf, held := rest.length } := by
  obtain ⟨buf, hbuf, htake⟩ := s.buf.write_eq hfit
  have hdrop := block_frames.drop h
  have hlen := congrArg List.length (block_frames.eq h).1
  rw [← htake] at h hdrop hlen
  have hheld : (buf.bytes.take (s.held + piece.length)).length = s.held + piece.length := by
    rw [List.length_take, buf.size]
    omega
  rw [List.length_append, hheld] at hlen
  rw [hheld] at hdrop
  obtain ⟨reqs, hreqs, hloop⟩ := takeMessages_eq (s := { s with buf, held := s.held + piece.length })
    (Nat.lt_succ_self _) (Nat.zero_le _) hfit h
  rw [turn, hbuf]
  simp only [Nat.sub_zero, Nat.succ_eq_add_one, Option.bind_eq_bind, Option.bind_some] at hloop ⊢
  rw [hloop]
  generalize s.held + piece.length = held at *
  have htook : (took { s with buf, held } reqs v).held = held ∧ (took { s with buf, held } reqs v).buf = buf ∧
      ∀ buf', { took { s with buf, held } reqs v with buf := buf', held := rest.length } =
        { s.took reqs v with buf := buf', held := rest.length } := by
    cases v <;> exact ⟨rfl, rfl, fun _ => rfl⟩
  obtain ⟨hheld', hbuf', hstate⟩ := htook
  have hback : held - (held - rest.length) = rest.length := by omega
  have htail : (buf.bytes.drop (held - rest.length)).take rest.length = rest := by
    rw [List.drop_take, hback] at hdrop
    exact hdrop
  simp only [Option.bind_some, hheld', hbuf', sizeSub_eq (Nat.sub_le _ _), hback, hstate]
  by_cases hmove : held - rest.length > 0 ∧ held - rest.length < held
  · obtain ⟨buf', hmoved, htake'⟩ := buf.moveDown_eq (show held - rest.length + rest.length ≤ kRecvBytes by omega)
    refine ⟨reqs, buf', hreqs, htake'.trans htail, ?_⟩
    rw [if_pos hmove, hmoved, Option.bind_some]
  · refine ⟨reqs, buf, hreqs, ?_, if_neg hmove⟩
    -- nothing was taken, or nothing is left
    rcases (show held - rest.length = 0 ∨ rest.length = 0 by omega) with h0 | h0
    · rwa [h0, List.drop_zero] at htail
    · rw [h0, List.take_zero, List.eq_nil_of_length_eq_zero h0]

/-- The loop as it stands after the bytes `seen`. -/
inductive Intake : RecvLoop → List UInt8 → Prop
  | going {s : RecvLoop} {seen : List UInt8} {items : List (List UInt8)} (hgo : s.alive = true)
    (h : Chops nextBlock seen items (s.buf.bytes.take s.held) .incomplete) (hheld : s.held ≤ kRecvBytes)
    (hq : Decoded items s.qIn) (hd : s.desyncs = 0) : Intake s seen
  | ended {s : RecvLoop} {seen rest : List UInt8} {items : List (List UInt8)} (hgo : s.alive = false)
    (h : Chops nextBlock seen items rest .desync) (hheld : s.held ≤ kRecvBytes) (hq : Decoded items s.qIn)
    (hd : s.desyncs = 1) : Intake s seen

/-- What `recv_some` may answer: at least one byte, and no more than it is
offered. -/
def Offered (s : RecvLoop) (piece : List UInt8) : Prop :=
  s.alive = true → piece ≠ [] ∧ ∀ n ∈ s.space, piece.length ≤ n

namespace Intake

theorem new (buf : RecvBuffer) : Intake { buf } [] :=
  .going rfl (.stop rfl) (Nat.zero_le _) rfl rfl

/-- What is held between two turns is less than a message. -/
theorem held_lt {s : RecvLoop} {seen : List UInt8} (h : Intake s seen) (hgo : s.alive = true) :
    s.held < kMessageSize := by
  cases h with
  | ended hend => exact absurd (hgo.symm.trans hend) nofun
  | going _ h hheld =>
    have hstop := h.stops
    have hlen : (s.buf.bytes.take s.held).length = s.held := by
      rw [List.length_take, s.buf.size]
      omega
    rw [nextBlock, hlen] at hstop
    split_ifs at hstop with hshort
    · exact hshort
    · cases hstop

theorem step {s : RecvLoop} {seen piece : List UInt8} (h : Intake s seen) (ho : Offered s piece) :
    ∃ s', s.step piece = some ((), s') ∧ Intake s' (seen ++ piece) := by
  cases h with
  | ended hend h hheld hq hd =>
    have hmore := h.append block_frames.append (.stop (nextBlock_desync h.stops piece))
    rw [List.append_nil] at hmore
    exact ⟨s, if_pos (by simp [hend]), .ended hend hmore hheld hq hd⟩
  | going hgo h hheld hq hd =>
    obtain ⟨hne, hfit⟩ := ho hgo
    have hfit := hfit _ (sizeSub_eq hheld)
    obtain ⟨items, rest, v, hmore⟩ := Framing.exists_chops block_frames.shrinks (s.buf.bytes.take s.held ++ piece)
    obtain ⟨reqs, buf, hreqs, hrest, hturn⟩ := turn_eq (by omega) hmore
    have hall := h.append block_frames.append hmore
    have hle : rest.length ≤ kRecvBytes := by
      rw [← hrest, List.length_take, buf.size]
      omega
    have hstep : s.step piece = some ((), { s.took reqs v with buf, held := rest.length }) := by
      rw [RecvLoop.step, if_neg (by simp [hgo]), if_neg hne, hturn]
      rfl
    refine ⟨_, hstep, ?_⟩
    cases v with
    | incomplete =>
      rw [← hrest] at hall
      exact .going hgo hall hle (hq.append hreqs) hd
    | desync => exact .ended rfl hall hle (hq.append hreqs) (congrArg (· + 1) hd)

end Intake

theorem offers {s : RecvLoop} (h : ∃ seen, Intake s seen) :
    s.held ≤ kRecvBytes ∧ (s.alive = true → ∃ n ∈ s.space, 1 ≤ n) := by
  obtain ⟨seen, h⟩ := h
  have hheld : s.held ≤ kRecvBytes := by
    cases h with
    | going _ _ hheld => exact hheld
    | ended _ _ hheld => exact hheld
  refine ⟨hheld, fun hgo => ⟨_, sizeSub_eq hheld, ?_⟩⟩
  have hlt := h.held_lt hgo
  have : kMessageSize < kRecvBytes := by decide
  omega

/-- Whatever `recv_some` makes of a stream, the requests of its blocks up to
the first without the tag are pushed. -/
theorem intake_unsegmented (buf : RecvBuffer) (pieces : List (List UInt8))
    (ho : Runs.Steps step Offered { buf } pieces) :
    Runs.Along step (fun s => s.held ≤ kRecvBytes ∧ (s.alive = true → ∃ n ∈ s.space, 1 ≤ n)) { buf } pieces ∧
    ∃ s, Runs.run step { buf } pieces = some s ∧ Decoded ((blocks pieces.flatten).takeWhile tagged) s.qIn ∧
      s.desyncs = if (blocks pieces.flatten).all tagged then 0 else 1 := by
  constructor
  · refine Runs.along_of_steps (fun s => offers) (fun s piece out s' ⟨seen, h⟩ ho hs => ?_) pieces ⟨[], .new buf⟩ ho
    obtain ⟨s₁, hs₁, h'⟩ := h.step ho
    cases hs.symm.trans hs₁
    exact ⟨_, h'⟩
  have hstep : ∀ s seen piece, Intake s seen → True → True → Offered s piece →
      ∃ out s', s.step piece = some (out, s') ∧ Intake s' (seen ++ piece) :=
    fun _ _ _ h _ _ ho => ⟨(), h.step ho⟩
  obtain ⟨s, hrun, h, -⟩ := Runs.run_foldl hstep pieces (.new buf) (fun _ _ => trivial) (Runs.along_true _ _) ho
  have hseen : pieces.foldl (fun seen piece => seen ++ piece) [] = pieces.flatten := by
    rw [List.foldl_append_eq_append, List.map_id', List.nil_append]
  rw [hseen] at h
  refine ⟨s, hrun, ?_⟩
  cases h with
  | going _ h _ hq hd =>
    obtain ⟨rfl, hv⟩ := chops_blocks h
    refine ⟨hq, hd.trans (if_pos ?_).symm⟩
    exact Bool.of_not_eq_false fun e => absurd (hv.mpr e) nofun
  | ended _ h _ hq hd =>
    obtain ⟨rfl, hv⟩ := chops_blocks h
    refine ⟨hq, hd.trans (if_neg ?_).symm⟩
    exact ne_true_of_eq_false (hv.mp rfl)

/-- Pieces that leave room for a message are always offered their space. -/
theorem Intake.steps_offered : ∀ {pieces : List (List UInt8)} {s : RecvLoop} {seen : List UInt8}, Intake s seen →
    (∀ piece ∈ pieces, piece ≠ [] ∧ piece.length + kMessageSize ≤ kRecvBytes) →
    Runs.Steps RecvLoop.step Offered s pieces
  | [], _, _, _, _ => trivial
  | piece :: pieces, s, seen, h, hp => by
    have ho : Offered s piece := fun hgo => by
      have hlt := h.held_lt hgo
      obtain ⟨hne, hle⟩ := hp piece List.mem_cons_self
      refine ⟨hne, fun n hn => ?_⟩
      cases (sizeSub_eq (by omega)).symm.trans hn
      omega
    obtain ⟨s', hs, h'⟩ := h.step ho
    exact Runs.Steps.cons hs ho (h'.steps_offered fun piece hpiece => hp piece (List.mem_cons_of_mem _ hpiece))

/-- A message cut in two, and one without the tag. -/
theorem intake_unsegmented_cut : ∃ s, Runs.run step { buf := ⟨List.replicate kRecvBytes 0, List.length_replicate⟩ }
    [List.replicate 25 1, List.replicate 13 1 ++ [kMagic0, kMagic1] ++ List.replicate 50 1] = some s ∧
      s.qIn.length = 1 ∧ s.desyncs = 1 := by
  obtain ⟨-, s, hrun, hq, hd⟩ := intake_unsegmented ⟨List.replicate kRecvBytes 0, List.length_replicate⟩
    [List.replicate 25 1, List.replicate 13 1 ++ [kMagic0, kMagic1] ++ List.replicate 50 1]
    ((Intake.new _).steps_offered (by decide))
  have hlen := congrArg List.length hq
  rw [List.length_map, List.length_map] at hlen
  exact ⟨s, hrun, hlen.symm.trans (by decide), hd.trans (by decide)⟩

end RecvLoop

end Pricetime
