import Pricetime.Proof.Framework.Framing
import Pricetime.Proof.Itch
import Pricetime.Spec.Itch

/-!
# The readers read what is well formed

`nextFramed` and `nextRaw` are the two loop bodies as functions of the bytes
left, and the loops chop with them (`framedLoop_eq`, `rawLoop_eq`).
-/

namespace Pricetime

open Spec (WellFormed RawWellFormed FramedViolation RawViolation frame prefixLength)
open Framing (Cut Chops Frames)

namespace Itch

/-- A framed message, or why there is none. -/
def nextFramed : List UInt8 → Cut UInt8 (List UInt8) ReadResult
  | [] => .stop {}
  | [_] => .stop { status := .truncatedPrefix }
  | hi :: lo :: body =>
    let len := prefixLength hi lo
    if len = 0 then .stop { status := .zeroLength }
    else if body.length < len then .stop { status := .truncatedMessage, declaredLength := len }
    else
      let type := body.headD 0
      if messageLength type ≠ 0 ∧ messageLength type ≠ len then
        .stop { status := .lengthMismatch, badType := type, declaredLength := len, expectedLength := messageLength type }
      else .item (body.take len) (body.drop len)

/-- A raw message, or why there is none. -/
def nextRaw : List UInt8 → Cut UInt8 (List UInt8) ReadResult
  | [] => .stop {}
  | type :: body =>
    let len := messageLength type
    if len = 0 then .stop { status := .unknownType, badType := type }
    else if (type :: body).length < len then .stop { status := .truncatedMessage, declaredLength := len }
    else .item ((type :: body).take len) ((type :: body).drop len)

/-! ## Frames -/

theorem shift_toUInt8 (n : Nat) : ((n >>> 8) &&& 0xFF).toUInt8 = (n / 2 ^ 8).toUInt8 := by
  refine UInt8.toNat_inj.mp ?_
  show ((n >>> 8) &&& (2 ^ 8 - 1)) % 2 ^ 8 = n / 2 ^ 8 % 2 ^ 8
  rw [Nat.and_two_pow_sub_one_eq_mod, Nat.mod_mod, Nat.shiftRight_eq_div_pow]

theorem and_toUInt8 (n : Nat) : (n &&& 0xFF).toUInt8 = (n % 2 ^ 8).toUInt8 := by
  refine UInt8.toNat_inj.mp ?_
  show (n &&& (2 ^ 8 - 1)) % 2 ^ 8 = n % 2 ^ 8 % 2 ^ 8
  rw [Nat.and_two_pow_sub_one_eq_mod]

theorem prefixLength_frame {n : Nat} (h : n < 2 ^ 16) :
    prefixLength (n / 2 ^ 8).toUInt8 (n % 2 ^ 8).toUInt8 = n := by
  show n / 2 ^ 8 % 2 ^ 8 * 2 ^ 8 + n % 2 ^ 8 % 2 ^ 8 = n
  omega

theorem prefixLength_lt (hi lo : UInt8) : prefixLength hi lo < 2 ^ 16 := by
  have := hi.toNat_lt
  have := lo.toNat_lt
  rw [prefixLength]
  omega

theorem frame_of_length (hi lo : UInt8) {msg : List UInt8} (h : msg.length = prefixLength hi lo) :
    frame msg = hi :: lo :: msg := by
  have hh := hi.toNat_lt
  have hl := lo.toNat_lt
  rw [frame, h, prefixLength]
  congr 1
  · refine UInt8.toNat_inj.mp ?_
    show (hi.toNat * 2 ^ 8 + lo.toNat) / 2 ^ 8 % 2 ^ 8 = hi.toNat
    omega
  · congr 1
    refine UInt8.toNat_inj.mp ?_
    show (hi.toNat * 2 ^ 8 + lo.toNat) % 2 ^ 8 % 2 ^ 8 = lo.toNat
    omega

theorem headD_take {body : List UInt8} {n : Nat} (h0 : n ≠ 0) : (body.take n).head? = body.head? := by
  cases body with
  | nil => rw [List.take_nil]
  | cons b bs =>
    cases n with
    | zero => exact absurd rfl h0
    | succ n => rfl

theorem framed_frames : Frames nextFramed frame WellFormed where
  cut {xs msg ys} := by
    constructor
    · intro h
      match xs with
      | [] => cases h
      | [_] => cases h
      | hi :: lo :: body =>
        rw [nextFramed] at h
        dsimp only at h
        split at h
        · cases h
        split at h
        · cases h
        split at h
        · cases h
        rename_i h0 hlt hlen
        obtain ⟨rfl, rfl⟩ := Cut.item.inj h
        have hl : (body.take (prefixLength hi lo)).length = prefixLength hi lo := by
          rw [List.length_take]
          omega
        refine ⟨⟨fun e => ?_, ?_, fun type ht hne => ?_⟩, ?_⟩
        · rw [e] at hl
          exact h0 hl.symm
        · rw [hl]
          exact prefixLength_lt hi lo
        · rw [headD_take h0] at ht
          have ht' : body.headD 0 = type := by
            rw [List.headD_eq_head?_getD, ht]
            rfl
          rw [ht'] at hlen
          rw [hl]
          exact (Classical.not_not.mp fun e => hlen ⟨hne, e⟩).symm
        · rw [frame_of_length hi lo hl]
          simp only [List.cons_append, List.take_append_drop]
    · rintro ⟨⟨hne, hfits, hlen⟩, rfl⟩
      have hp := prefixLength_frame hfits
      have hpos := List.length_pos_iff.mpr hne
      obtain ⟨type, body, rfl⟩ := List.exists_cons_of_ne_nil hne
      rw [frame, List.cons_append, List.cons_append, nextFramed]
      simp only [hp]
      rw [if_neg (by omega), if_neg (by rw [List.length_append]; omega), if_neg, List.take_left, List.drop_left]
      rintro ⟨hk, hm⟩
      exact hm (hlen type rfl hk).symm
  pos {msg} _ := by
    rw [frame]
    exact List.cons_ne_nil _ _

theorem raw_frames : Frames nextRaw id RawWellFormed where
  cut {xs msg ys} := by
    constructor
    · intro h
      match xs with
      | [] => cases h
      | type :: body =>
        rw [nextRaw] at h
        split at h
        · cases h
        split at h
        · cases h
        rename_i h0 hlt
        obtain ⟨rfl, rfl⟩ := Cut.item.inj h
        refine ⟨⟨type, ?_, h0, ?_⟩, (List.take_append_drop ..).symm⟩
        · rw [headD_take h0]
          rfl
        · rw [List.length_take]
          omega
    · rintro ⟨⟨type, ht, h0, hlen⟩, rfl⟩
      obtain ⟨body, rfl⟩ : ∃ body, msg = type :: body := by
        cases msg with
        | nil => cases ht
        | cons b bs => exact ⟨bs, by rw [Option.some.inj ht]⟩
      rw [id, List.cons_append, nextRaw]
      rw [if_neg h0, if_neg (by rw [← List.cons_append, List.length_append]; omega), ← List.cons_append, ← hlen,
        List.take_left, List.drop_left]
  pos {msg} h := by
    rintro rfl
    obtain ⟨_, ht, -⟩ := h
    cases ht

/-! ## Verdicts -/

theorem framed_violation {xs : List UInt8} {v : ReadResult} (h : nextFramed xs = .stop v) :
    FramedViolation xs v.status := by
  match xs with
  | [] =>
    obtain rfl := Cut.stop.inj h
    exact .done
  | [b] =>
    obtain rfl := Cut.stop.inj h
    exact .truncatedPrefix b
  | hi :: lo :: body =>
    rw [nextFramed] at h
    dsimp only at h
    split at h
    · rename_i h0
      obtain rfl := Cut.stop.inj h
      exact .zeroLength h0
    split at h
    · rename_i h0 hlt
      obtain rfl := Cut.stop.inj h
      exact .truncatedMessage h0 hlt
    split at h
    · rename_i h0 hlt hm
      obtain rfl := Cut.stop.inj h
      cases body with
      | nil => exact absurd (Nat.pos_of_ne_zero h0) hlt
      | cons type body => exact .lengthMismatch h0 (Nat.le_of_not_lt hlt) hm.1 hm.2
    · cases h

theorem raw_violation {xs : List UInt8} {v : ReadResult} (h : nextRaw xs = .stop v) : RawViolation xs v.status := by
  match xs with
  | [] =>
    obtain rfl := Cut.stop.inj h
    exact .done
  | type :: body =>
    rw [nextRaw] at h
    split at h
    · rename_i h0
      obtain rfl := Cut.stop.inj h
      exact .unknownType h0
    split at h
    · rename_i h0 hlt
      obtain rfl := Cut.stop.inj h
      exact .truncatedMessage h0 hlt
    · cases h

/-! ## The loops -/

section At

variable {data body : List UInt8} {off : Nat}

theorem length_of_drop {xs : List UInt8} (h : data.drop off = xs) (hoff : off ≤ data.length) :
    data.length = off + xs.length := by
  have hl := congrArg List.length h
  rw [List.length_drop] at hl
  omega

theorem getElem?_of_drop {xs : List UInt8} (h : data.drop off = xs) (i : Nat) : data[off + i]? = xs[i]? := by
  rw [← h, List.getElem?_drop]

theorem slice_of_drop {xs : List UInt8} (h : data.drop off = xs) (hoff : off ≤ data.length) {n : Nat}
    (hn : n ≤ xs.length) : slice data off n = some (xs.take n) := by
  have hl := length_of_drop h hoff
  rw [slice, if_pos (by omega), h]

theorem be16_of_drop {hi lo : UInt8} (h : data.drop off = hi :: lo :: body) :
    be16 data off = some (prefixLength hi lo) := by
  have h0 : data[off]? = some hi := getElem?_of_drop h 0
  have h1 : data[off + 1]? = some lo := getElem?_of_drop h 1
  obtain ⟨v, hv, hvn⟩ := be_succ (n := 0) (by omega) h1 rfl
  obtain ⟨w, hw, hwn⟩ := be_succ (n := 1) (by omega) h0 hv
  rw [be16, hw, Option.map_some, hwn, hvn, prefixLength]
  simp

end At

/-- The result of a loop that has read `n` messages and stopped at `off`. -/
def ReadResult.stoppedAt (v : ReadResult) (n off : Nat) : ReadResult := { v with messages := n, offset := off }

/-- A turn of a loop that reads `data` cuts one message off what is left. -/
def Turns (data : List UInt8) (next : List UInt8 → Cut UInt8 (List UInt8) ReadResult)
    (loop : Nat → Nat → ReadResult → Option (List (List UInt8) × ReadResult)) : Prop :=
  ∀ fuel off k, off ≤ data.length → loop (fuel + 1) off { messages := k } =
    match next (data.drop off) with
    | .stop v => some ([], v.stoppedAt k off)
    | .item msg ys => (loop fuel (data.length - ys.length) { messages := k + 1 }).bind fun x => some (msg :: x.1, x.2)

theorem Turns.eq {data : List UInt8} {next : List UInt8 → Cut UInt8 (List UInt8) ReadResult}
    {loop : Nat → Nat → ReadResult → Option (List (List UInt8) × ReadResult)} {frame : List UInt8 → List UInt8}
    {valid : List UInt8 → Prop} (hf : Frames next frame valid) (ht : Turns data next loop) :
    ∀ {fuel off k : Nat} {msgs : List (List UInt8)} {rest : List UInt8} {v : ReadResult},
      Chops next (data.drop off) msgs rest v → off ≤ data.length → data.length - off < fuel →
      loop fuel off { messages := k } = some (msgs, v.stoppedAt (k + msgs.length) (data.length - rest.length))
  | 0, _, _, _, _, _, _, _, hfuel => absurd hfuel (Nat.not_lt_zero _)
  | fuel + 1, off, k, msgs, rest, v, h, hoff, hfuel => by
    rw [ht fuel off k hoff]
    generalize hx : data.drop off = xs at h
    have hlen := length_of_drop hx hoff
    cases h with
    | stop hs =>
      rw [hs, hlen, Nat.add_sub_cancel]
      rfl
    | item hs hc =>
      rename_i ys msg msgs
      obtain ⟨hv, hxs⟩ := hf.cut.mp hs
      have hpos := List.length_pos_iff.mpr (hf.pos hv)
      have hys : data.drop (data.length - ys.length) = ys := by
        have hdata : data = (data.take off ++ frame msg) ++ ys := by
          rw [List.append_assoc, ← hxs, ← hx, List.take_append_drop]
        have hsub : data.length - ys.length = (data.take off ++ frame msg).length := by
          rw [congrArg List.length hdata, List.length_append, Nat.add_sub_cancel]
        rw [hsub]
        exact (congrArg (List.drop _) hdata).trans List.drop_left
      have hless := congrArg List.length hxs
      rw [List.length_append] at hless
      rw [← hys] at hc
      rw [hs]
      dsimp only
      rw [Turns.eq hf ht hc (Nat.sub_le ..) (by omega), Option.bind_some, List.length_cons, Nat.add_assoc,
        Nat.add_comm 1]

theorem framedLoop_turns (data : List UInt8) : Turns data nextFramed (framedLoop data) := by
  intro fuel off k hoff
  have hleft : sizeSub data.length off = some (data.length - off) := if_pos hoff
  rw [framedLoop]
  generalize hx : data.drop off = xs
  have hlen := length_of_drop hx hoff
  match xs with
  | [] =>
    rw [if_neg (by rw [hlen]; exact Nat.lt_irrefl _)]
    rfl
  | [b] =>
    rw [if_pos (by rw [hlen]; exact Nat.lt_succ_self _), hleft]
    simp only [Option.bind_eq_bind, Option.bind_some]
    rw [if_pos (by rw [hlen]; simp)]
    rfl
  | hi :: lo :: body =>
    have hb := be16_of_drop hx
    rw [List.length_cons, List.length_cons] at hlen
    have hleft' : sizeSub (data.length - off) 2 = some body.length := by
      rw [sizeSub, if_pos (by omega)]
      exact congrArg some (by omega)
    rw [if_pos (by omega), hleft, nextFramed]
    simp only [Option.bind_eq_bind, Option.bind_some]
    rw [if_neg (by omega), hb]
    simp only [Option.bind_some]
    by_cases h0 : prefixLength hi lo = 0
    · rw [if_pos h0, if_pos h0]
      rfl
    rw [if_neg h0, if_neg h0, hleft']
    simp only [Option.bind_some]
    by_cases hlt : body.length < prefixLength hi lo
    · rw [if_pos hlt, if_pos hlt]
      rfl
    rw [if_neg hlt, if_neg hlt]
    obtain ⟨type, more, hbody⟩ : ∃ type more, body = type :: more :=
      List.exists_cons_of_length_pos (by omega)
    have htype : data[off + 2]? = some type := by
      rw [getElem?_of_drop hx, hbody]
      rfl
    have hhead : body.headD 0 = type := by
      rw [hbody]
      rfl
    rw [htype, hhead]
    simp only [Option.bind_some]
    by_cases hm : messageLength type ≠ 0 ∧ messageLength type ≠ prefixLength hi lo
    · rw [if_pos hm, if_pos hm]
      rfl
    rw [if_neg hm, if_neg hm]
    have hbodyAt : data.drop (off + 2) = body := by
      rw [← List.drop_drop, hx]
      rfl
    have hnext : off + (2 + prefixLength hi lo) = data.length - (body.drop (prefixLength hi lo)).length := by
      rw [List.length_drop]
      omega
    rw [slice_of_drop hbodyAt (by omega) (Nat.le_of_not_lt hlt), hnext]
    rfl

theorem forEachFramedMessage_eq {data : List UInt8} {msgs : List (List UInt8)} {rest : List UInt8} {v : ReadResult}
    (h : Chops nextFramed data msgs rest v) :
    forEachFramedMessage data = some (msgs, v.stoppedAt msgs.length (data.length - rest.length)) := by
  have hl : framedLoop data (data.length + 1) 0 {} = _ :=
    (framedLoop_turns data).eq framed_frames h (Nat.zero_le _) (Nat.lt_succ_self _)
  rwa [Nat.zero_add] at hl

theorem rawLoop_turns (data : List UInt8) : Turns data nextRaw (rawLoop data) := by
  intro fuel off k hoff
  have hleft : sizeSub data.length off = some (data.length - off) := if_pos hoff
  rw [rawLoop]
  generalize hx : data.drop off = xs
  have hlen := length_of_drop hx hoff
  match xs with
  | [] =>
    rw [if_neg (by rw [hlen]; exact Nat.lt_irrefl _)]
    rfl
  | type :: body =>
    have htype : data[off]? = some type := getElem?_of_drop hx 0
    have hxl : data.length - off = (type :: body).length := by omega
    rw [List.length_cons] at hlen
    rw [if_pos (by omega), htype, nextRaw]
    simp only [Option.bind_eq_bind, Option.bind_some]
    by_cases h0 : messageLength type = 0
    · rw [if_pos h0, if_pos h0]
      rfl
    rw [if_neg h0, if_neg h0, hleft]
    simp only [Option.bind_some]
    rw [hxl]
    by_cases hlt : (type :: body).length < messageLength type
    · rw [if_pos hlt, if_pos hlt]
      rfl
    have hnext : off + messageLength type = data.length - ((type :: body).drop (messageLength type)).length := by
      rw [List.length_drop]
      omega
    rw [if_neg hlt, if_neg hlt, slice_of_drop hx hoff (Nat.le_of_not_lt hlt), hnext]
    rfl

theorem forEachRawMessage_eq {data : List UInt8} {msgs : List (List UInt8)} {rest : List UInt8} {v : ReadResult}
    (h : Chops nextRaw data msgs rest v) :
    forEachRawMessage data = some (msgs, v.stoppedAt msgs.length (data.length - rest.length)) := by
  have hl : rawLoop data (data.length + 1) 0 {} = _ :=
    (rawLoop_turns data).eq raw_frames h (Nat.zero_le _) (Nat.lt_succ_self _)
  rwa [Nat.zero_add] at hl

/-! ## Handlers -/

/-- The decoders and the replayer, on a message, read nothing outside of it. -/
structure ReadInside (msg : List UInt8) : Prop where
  decode : ∃ m, decode msg = some m
  stockDirectory : msg.head? = some MsgType.stockDirectory.code.toUInt8 → ∃ m, decodeStockDirectory msg = some m

theorem messageLength_pos (t : MsgType) : t.length ≠ 0 := by
  cases t <;> decide

theorem decodeStockDirectory_some {p : List UInt8} (h : 39 ≤ p.length) : ∃ m, decodeStockDirectory p = some m := by
  obtain ⟨timestamp, ht⟩ := be48_some (p := p) (i := 5) (by omega)
  obtain ⟨symbol, hs⟩ := fromWire_some (p := p) (i := 11) (by omega)
  obtain ⟨category, hc⟩ := byte_some (p := p) (i := 19) (by omega)
  exact ⟨_, by rw [decodeStockDirectory, ht, hs, hc]; rfl⟩

theorem Complete.readInside {msg : List UInt8} (h : Complete msg) : ReadInside msg where
  decode := h.decode_some
  stockDirectory hr := by
    obtain ⟨type, ht, -, hlen⟩ := h
    rw [← List.head?_eq_getElem?, hr] at ht
    obtain rfl := Option.some.inj ht
    exact decodeStockDirectory_some (by rw [hlen]; decide)

end Itch

namespace Spec

open Itch (ReadStatus Complete ReadInside MsgType messageLength messageLength_pos)

theorem RawWellFormed.complete {msg : List UInt8} (h : RawWellFormed msg) : Complete msg := by
  obtain ⟨type, ht, h0, hlen⟩ := h
  exact ⟨type, by rw [← List.head?_eq_getElem?]; exact ht, Nat.pos_of_ne_zero h0, hlen⟩

/-- A message of an unknown type is not read into. -/
theorem WellFormed.readInside {msg : List UInt8} (h : WellFormed msg) : ReadInside msg := by
  obtain ⟨type, body, rfl⟩ := List.exists_cons_of_ne_nil h.nonempty
  by_cases h0 : messageLength type = 0
  · have hnone : MsgType.ofByte type = none := by
      rw [messageLength] at h0
      cases ht : MsgType.ofByte type with
      | none => rfl
      | some t =>
        rw [ht] at h0
        exact absurd h0 (messageLength_pos t)
    refine ⟨⟨.administrative, ?_⟩, fun hr => ?_⟩
    · rw [Itch.decode, List.getElem?_cons_zero]
      simp only [Option.bind_eq_bind, Option.bind_some, hnone]
    · obtain rfl := Option.some.inj hr
      exact absurd h0 (by decide)
  · exact Complete.readInside ⟨type, rfl, Nat.pos_of_ne_zero h0, h.length type rfl h0⟩

theorem FramedViolation.ok_iff {rest : List UInt8} {status : ReadStatus} (h : FramedViolation rest status) :
    status = .ok ↔ rest = [] := by
  cases h <;> simp

theorem RawViolation.ok_iff {rest : List UInt8} {status : ReadStatus} (h : RawViolation rest status) :
    status = .ok ↔ rest = [] := by
  cases h <;> simp

end Spec

namespace Itch

/-- On any bytes, each reader gives its handler the messages of the longest
prefix that is well formed, stops at its end, and says what is wrong there;
nothing is read out of bounds. -/
theorem parsing_exact (data : List UInt8) :
    (∃ msgs rest r, forEachFramedMessage data = some (msgs, r) ∧ data = msgs.flatMap frame ++ rest ∧
      (∀ msg ∈ msgs, WellFormed msg) ∧
      (∀ msgs' rest', (∀ msg ∈ msgs', WellFormed msg) → data = msgs'.flatMap frame ++ rest' → msgs' <+: msgs) ∧
      r.offset = (msgs.flatMap frame).length ∧ r.messages = msgs.length ∧ (r.status = .ok ↔ rest = []) ∧
      FramedViolation rest r.status ∧ ∀ msg ∈ msgs, ReadInside msg) ∧
    ∃ msgs rest r, forEachRawMessage data = some (msgs, r) ∧ data = msgs.flatten ++ rest ∧
      (∀ msg ∈ msgs, RawWellFormed msg) ∧
      (∀ msgs' rest', (∀ msg ∈ msgs', RawWellFormed msg) → data = msgs'.flatten ++ rest' → msgs' <+: msgs) ∧
      r.offset = msgs.flatten.length ∧ r.messages = msgs.length ∧ (r.status = .ok ↔ rest = []) ∧
      RawViolation rest r.status ∧ ∀ msg ∈ msgs, ReadInside msg := by
  constructor
  · obtain ⟨msgs, rest, v, h⟩ := Framing.exists_chops framed_frames.shrinks data
    obtain ⟨hdata, hwf⟩ := framed_frames.eq h
    have hv := framed_violation h.stops
    refine ⟨msgs, rest, _, forEachFramedMessage_eq h, hdata, hwf, fun _ _ => framed_frames.longest h, ?_, rfl, ?_, hv,
      fun msg hm => (hwf msg hm).readInside⟩
    · have hl := congrArg List.length hdata
      rw [List.length_append] at hl
      exact Nat.sub_eq_of_eq_add hl
    · exact hv.ok_iff
  · obtain ⟨msgs, rest, v, h⟩ := Framing.exists_chops raw_frames.shrinks data
    have hflat : ∀ xss : List (List UInt8), xss.flatMap id = xss.flatten := fun _ => List.flatMap_id
    obtain ⟨hdata, hwf⟩ := raw_frames.eq h
    have hv := raw_violation h.stops
    rw [hflat] at hdata
    refine ⟨msgs, rest, _, forEachRawMessage_eq h, hdata, hwf,
      fun _ _ hw hx => raw_frames.longest h hw (by rw [hflat]; exact hx), ?_, rfl, ?_, hv,
      fun msg hm => (hwf msg hm).complete.readInside⟩
    · have hl := congrArg List.length hdata
      rw [List.length_append] at hl
      exact Nat.sub_eq_of_eq_add hl
    · exact hv.ok_iff

end Itch

end Pricetime
