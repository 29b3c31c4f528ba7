import Pricetime.Proof.ItchReader

/-!
# The streamed reader reads what the whole-file reader reads

A chunk boundary only ever cuts a message in two: what a reader finds in a
buffer it finds in the whole file (`Chops.append`), and a verdict other than
a truncated one stays when more bytes follow (`nextFramed_append_fatal`). So
the loop goes on where the file's own chopping goes on (`streamLoop_eq`).

That each refill fits in the buffer is a property of the file
(`stream_fits_iff`): the slack is for a frame of a known type, but a length
prefix may say more.
-/

namespace Pricetime

namespace Itch

open Spec (frame prefixLength Unfinished)
open Framing (Cut Chops)

/-! ## Verdicts and what follows them -/

/-- A verdict that more bytes may change. -/
def ReadStatus.Open (s : ReadStatus) : Prop := s = .ok ∨ s = .truncatedPrefix ∨ s = .truncatedMessage

theorem nextFramed_append_fatal {xs : List UInt8} {v : ReadResult} (h : nextFramed xs = .stop v)
    (hv : ¬ v.status.Open) (zs : List UInt8) : nextFramed (xs ++ zs) = .stop v := by
  match xs with
  | [] =>
    obtain rfl := Cut.stop.inj h
    exact absurd (.inl rfl) hv
  | [b] =>
    obtain rfl := Cut.stop.inj h
    exact absurd (.inr (.inl rfl)) hv
  | hi :: lo :: body =>
    rw [nextFramed] at h
    rw [List.cons_append, List.cons_append, nextFramed]
    dsimp only at h ⊢
    by_cases h0 : prefixLength hi lo = 0
    · rw [if_pos h0] at h ⊢
      exact h
    rw [if_neg h0] at h ⊢
    by_cases hlt : body.length < prefixLength hi lo
    · rw [if_pos hlt] at h
      obtain rfl := Cut.stop.inj h
      exact absurd (.inr (.inr rfl)) hv
    have hlt' : ¬ (body ++ zs).length < prefixLength hi lo := by
      rw [List.length_append]
      omega
    have hhead : (body ++ zs).headD 0 = body.headD 0 := by
      cases body with
      | nil => exact absurd (Nat.pos_of_ne_zero h0) hlt
      | cons type body => rfl
    rw [if_neg hlt] at h
    rw [if_neg hlt', hhead]
    split at h
    · rename_i hm
      rw [if_pos hm]
      exact h
    · cases h

/-- What the verdict on some bytes can be. -/
inductive Verdict (xs : List UInt8) : ReadResult → Prop
  | done (h : xs = []) : Verdict xs {}
  | truncated {status : ReadStatus} (len : Nat) (hs : status = .truncatedPrefix ∨ status = .truncatedMessage)
    (hne : xs ≠ []) : Verdict xs { status, declaredLength := len }
  | fatal {v : ReadResult} (hv : ¬ v.status.Open) : Verdict xs v

theorem nextFramed_verdict {xs : List UInt8} {v : ReadResult} (h : nextFramed xs = .stop v) : Verdict xs v := by
  match xs with
  | [] =>
    obtain rfl := Cut.stop.inj h
    exact .done rfl
  | [b] =>
    obtain rfl := Cut.stop.inj h
    exact .truncated 0 (.inl rfl) (List.cons_ne_nil _ _)
  | hi :: lo :: body =>
    rw [nextFramed] at h
    dsimp only at h
    split at h
    · obtain rfl := Cut.stop.inj h
      exact .fatal (by simp [ReadStatus.Open])
    split at h
    · obtain rfl := Cut.stop.inj h
      exact .truncated _ (.inr rfl) (List.cons_ne_nil _ _)
    split at h
    · obtain rfl := Cut.stop.inj h
      exact .fatal (by simp [ReadStatus.Open])
    · cases h

/-! ## The loop -/

theorem stream_bind {s : Except StreamFault (List (List UInt8) × ReadResult)} {ms msgs : List (List UInt8)}
    {r : ReadResult} (h : s ≠ .error .overflow → s = .ok (msgs, r))
    (hok : (do
      let x ← s
      .ok (ms ++ x.1, x.2)) ≠ Except.error StreamFault.overflow) :
    (do
      let x ← s
      .ok (ms ++ x.1, x.2)) = Except.ok (ms ++ msgs, r) := by
  have hs : s ≠ .error .overflow := by
    rintro rfl
    exact hok rfl
  rw [h hs]
  rfl

theorem streamLoop_eq {chunkBytes : Nat} (hchunk : 0 < chunkBytes) : ∀ {fuel : Nat} {rest buf : List UInt8}
    {consumed k off : Nat} {msgs : List (List UInt8)} {rem : List UInt8} {v : ReadResult}, rest.length < fuel →
      (buf = [] → off = consumed) → Chops nextFramed (buf ++ rest) msgs rem v →
      streamLoop chunkBytes fuel rest buf consumed { messages := k, offset := off } ≠ .error .overflow →
      streamLoop chunkBytes fuel rest buf consumed { messages := k, offset := off } =
        .ok (msgs, v.stoppedAt (k + msgs.length) (consumed + ((buf ++ rest).length - rem.length)))
  | 0, _, _, _, _, _, _, _, _, hf, _, _, _ => absurd hf (Nat.not_lt_zero _)
  | fuel + 1, rest, buf, consumed, k, off, msgs, rem, v, hf, hoff, h, hok => by
    rw [streamLoop] at hok ⊢
    by_cases hover : ¬ buf.length + chunkBytes ≤ chunkBytes + 64
    · rw [if_pos hover] at hok
      exact absurd rfl hok
    rw [if_neg hover] at hok ⊢
    dsimp only at hok ⊢
    have hsplit : buf ++ rest = (buf ++ rest.take chunkBytes) ++ rest.drop chunkBytes := by
      rw [List.append_assoc, List.take_append_drop]
    have htake : (rest.take chunkBytes).length = min chunkBytes rest.length := List.length_take
    have hdrop : (rest.drop chunkBytes).length = rest.length - chunkBytes := List.length_drop
    rw [hsplit] at h
    by_cases hempty : (buf ++ rest.take chunkBytes).length = 0
    · have hnil := List.eq_nil_of_length_eq_zero hempty
      obtain ⟨hbuf, hgot⟩ := List.append_eq_nil_iff.mp hnil
      rw [hgot, List.length_nil] at htake
      have hrest : rest.drop chunkBytes = [] := List.eq_nil_of_length_eq_zero (by omega)
      rw [hnil, hrest] at h
      obtain ⟨rfl, rfl, rfl⟩ := h.unique (.stop rfl)
      rw [if_pos hempty, hoff hbuf, hsplit, hnil, hrest]
      rfl
    have heof : decide ((rest.take chunkBytes).length < chunkBytes) = true → rest.drop chunkBytes = [] := fun e => by
      have := of_decide_eq_true e
      exact List.eq_nil_of_length_eq_zero (by omega)
    have hfuel : ¬ decide ((rest.take chunkBytes).length < chunkBytes) = true → (rest.drop chunkBytes).length < fuel :=
      fun e => by
        have := mt decide_eq_true e
        omega
    rw [hsplit]
    generalize decide ((rest.take chunkBytes).length < chunkBytes) = atEof at heof hfuel hok ⊢
    generalize rest.drop chunkBytes = rest' at heof hfuel hok h ⊢
    generalize buf ++ rest.take chunkBytes = buf' at hempty hok h ⊢
    obtain ⟨ms, rem', v', h'⟩ := Framing.exists_chops framed_frames.shrinks buf'
    obtain ⟨msgs', rfl, hmore⟩ := h'.resume framed_frames.shrinks framed_frames.append h
    have hbuf := (framed_frames.eq h').1
    have hlen := congrArg List.length hbuf
    have hlen' := congrArg List.length (framed_frames.eq hmore).1
    rw [List.length_append] at hlen
    rw [List.length_append, List.length_append] at hlen'
    have hdropbuf := framed_frames.drop h'
    simp only [if_neg hempty, forEachFramedMessage_eq h', ReadResult.stoppedAt] at hok ⊢
    cases nextFramed_verdict h'.stops with
    | done hrem =>
      subst hrem
      by_cases he : atEof = true
      · rw [if_pos he]
        rw [heof he] at hmore ⊢
        obtain ⟨rfl, rfl, rfl⟩ := hmore.unique (.stop rfl)
        simp
      · dsimp only at hok ⊢
        rw [if_neg he] at hok ⊢
        rw [stream_bind (streamLoop_eq hchunk (hfuel he) (fun _ => rfl) hmore) hok]
        simp only [ReadResult.stoppedAt, List.length_append, List.length_nil] at hlen' ⊢
        grind
    | truncated len hs hne =>
      have hcarried : (buf'.drop (buf'.length - rem'.length)) = [] → off = consumed + (buf'.length - rem'.length) :=
        fun e => absurd (hdropbuf ▸ e) hne
      rw [← hdropbuf] at hmore
      rcases hs with rfl | rfl <;>
      · dsimp only at hok ⊢
        by_cases he : atEof = true
        · rw [if_pos he]
          rw [heof he, List.append_nil, hdropbuf] at hmore
          obtain ⟨rfl, rfl, rfl⟩ := hmore.unique (.stop h'.stops)
          simp [heof he]
        · rw [if_neg he] at hok ⊢
          rw [stream_bind (streamLoop_eq hchunk (hfuel he) hcarried hmore) hok]
          simp only [ReadResult.stoppedAt, List.length_append, hdropbuf] at hlen' ⊢
          grind
    | fatal hv =>
      obtain ⟨rfl, rfl, rfl⟩ := hmore.unique (.stop (nextFramed_append_fatal h'.stops hv rest'))
      have hoffset : (buf' ++ rest').length - (rem' ++ rest').length = buf'.length - rem'.length := by
        rw [List.length_append, List.length_append]
        omega
      rw [hoffset, List.append_nil]
      split
      · exact absurd (.inl ‹_›) hv
      · exact absurd (.inr (.inl ‹_›)) hv
      · exact absurd (.inr (.inr ‹_›)) hv
      · rfl

/-- A streamed read, if each refill fits, delivers what the whole-file reader
delivers, with the same result. -/
theorem stream_reads_whole {bytes : List UInt8} {chunkBytes : Nat} (hchunk : 0 < chunkBytes)
    (hfits : forEachFramedStream (some bytes) chunkBytes ≠ .error .overflow) :
    ∃ msgs r, forEachFramedMessage bytes = some (msgs, r) ∧
      forEachFramedStream (some bytes) chunkBytes = .ok (msgs, r) := by
  obtain ⟨msgs, rest, v, h⟩ := Framing.exists_chops framed_frames.shrinks bytes
  refine ⟨msgs, _, forEachFramedMessage_eq h, ?_⟩
  have hs : streamLoop chunkBytes (bytes.length + 2) bytes [] 0 {} = _ :=
    streamLoop_eq hchunk (by omega) (fun _ => rfl) h hfits
  rwa [Nat.zero_add, Nat.zero_add] at hs

/-- Chunks of three bytes: the first ends inside of a message, the second
behind a length, and the file inside of one. -/
theorem stream_reads_whole_bytes : ∃ msgs r, forEachFramedMessage [0, 2, 1, 1, 0, 1, 2, 0] = some (msgs, r) ∧
    forEachFramedStream (some [0, 2, 1, 1, 0, 1, 2, 0]) 3 = .ok (msgs, r) :=
  stream_reads_whole (by decide) (by decide)

/-! ## The buffer -/

/-- What the reader carries over once it has read `xs`, if it goes on. -/
def Carried (xs rem : List UInt8) : Prop :=
  ∃ msgs v, Chops nextFramed xs msgs rem v ∧ v.status.Open

theorem Carried.self {xs : List UInt8} {v : ReadResult} (h : nextFramed xs = .stop v) (hv : v.status.Open) :
    Carried xs xs := ⟨[], v, .stop h, hv⟩

/-- Bytes read later are carried over as if the rest alone had come before. -/
theorem carried_append {xs rem rem' : List UInt8} {msgs : List (List UInt8)} {v : ReadResult}
    (h : Chops nextFramed xs msgs rem v) (zs : List UInt8) : Carried (xs ++ zs) rem' ↔ Carried (rem ++ zs) rem' := by
  constructor
  · rintro ⟨msgs', v', h', hv'⟩
    obtain ⟨msgs'', -, hmore⟩ := h.resume framed_frames.shrinks framed_frames.append h'
    exact ⟨msgs'', v', hmore, hv'⟩
  · rintro ⟨msgs', v', h', hv'⟩
    exact ⟨_, v', h.append framed_frames.append h', hv'⟩

theorem not_carried {xs rem rem' : List UInt8} {msgs : List (List UInt8)} {v : ReadResult}
    (h : Chops nextFramed xs msgs rem v) (hv : ¬ v.status.Open) (zs : List UInt8) : ¬ Carried (xs ++ zs) rem' := by
  rw [carried_append h]
  rintro ⟨msgs', v', h', hv'⟩
  obtain ⟨-, -, rfl⟩ := h'.unique (.stop (nextFramed_append_fatal h.stops hv zs))
  exact hv hv'

/-- The reader carries at most 64 bytes over to each refill: those that follow
a whole number of chunks. -/
def Fits (chunkBytes : Nat) (buf rest : List UInt8) : Prop :=
  ∀ k, k * chunkBytes ≤ rest.length → ∀ rem, Carried (buf ++ rest.take (k * chunkBytes)) rem → rem.length ≤ 64

namespace Fits

variable {chunkBytes : Nat} {buf rest rem : List UInt8} {msgs : List (List UInt8)} {v v' : ReadResult}

/-- The refill at hand is the first of them. -/
theorem head (hbuf : nextFramed buf = .stop v) (hv : v.status.Open) (h : Fits chunkBytes buf rest) :
    buf.length ≤ 64 :=
  h 0 (by omega) buf (by simpa using Carried.self hbuf hv)

theorem of_head (hbuf : nextFramed buf = .stop v) (hle : buf.length ≤ 64) {rem : List UInt8}
    (h : Carried (buf ++ rest.take (0 * chunkBytes)) rem) : rem.length ≤ 64 := by
  rw [Nat.zero_mul, List.take_zero, List.append_nil] at h
  obtain ⟨msgs, v', hc, -⟩ := h
  obtain ⟨-, rfl, -⟩ := hc.unique (.stop hbuf)
  exact hle

/-- No refill follows the last. -/
theorem last (hbuf : nextFramed buf = .stop v) (hle : buf.length ≤ 64) (hshort : rest.length < chunkBytes) :
    Fits chunkBytes buf rest := by
  intro k hk rem h
  cases k with
  | zero => exact of_head hbuf hle h
  | succ k =>
    rw [Nat.succ_mul] at hk
    omega

/-- None follows a fatal verdict. -/
theorem fatal (hbuf : nextFramed buf = .stop v) (hle : buf.length ≤ 64)
    (h' : Chops nextFramed (buf ++ rest.take chunkBytes) msgs rem v') (hv' : ¬ v'.status.Open) :
    Fits chunkBytes buf rest := by
  intro k hk rem h
  cases k with
  | zero => exact of_head hbuf hle h
  | succ k =>
    rw [Nat.succ_mul, Nat.add_comm, List.take_add, ← List.append_assoc] at h
    exact absurd h (not_carried h' hv' _)

/-- The others follow the chunk at hand. -/
theorem step (hbuf : nextFramed buf = .stop v) (hle : buf.length ≤ 64) (hlong : chunkBytes ≤ rest.length)
    (h' : Chops nextFramed (buf ++ rest.take chunkBytes) msgs rem v') :
    Fits chunkBytes buf rest ↔ Fits chunkBytes rem (rest.drop chunkBytes) := by
  have hchunk : ∀ k rem', Carried (buf ++ rest.take ((k + 1) * chunkBytes)) rem' ↔
      Carried (rem ++ (rest.drop chunkBytes).take (k * chunkBytes)) rem' := fun k rem' => by
    rw [Nat.succ_mul, Nat.add_comm, List.take_add, ← List.append_assoc]
    exact carried_append h' _
  have hlen : ∀ k, (k + 1) * chunkBytes ≤ rest.length ↔ k * chunkBytes ≤ (rest.drop chunkBytes).length := fun k => by
    rw [Nat.succ_mul, List.length_drop]
    omega
  constructor
  · intro h k hk rem' hc
    exact h (k + 1) ((hlen k).mpr hk) rem' ((hchunk k rem').mpr hc)
  · intro h k hk rem' hc
    cases k with
    | zero => exact of_head hbuf hle hc
    | succ k => exact h k ((hlen k).mp hk) rem' ((hchunk k rem').mp hc)

end Fits

theorem bind_overflow {s : Except StreamFault (List (List UInt8) × ReadResult)} {msgs : List (List UInt8)} :
    (do
      let x ← s
      .ok (msgs ++ x.1, x.2)) ≠ Except.error StreamFault.overflow ↔ s ≠ .error .overflow := by
  cases s with
  | error e => simp [bind, Except.bind]
  | ok x => simp [bind, Except.bind]

theorem streamLoop_fits {chunkBytes : Nat} (hchunk : 0 < chunkBytes) : ∀ {fuel : Nat} {rest buf : List UInt8}
    {consumed : Nat} {total v : ReadResult}, rest.length < fuel → nextFramed buf = .stop v → v.status.Open →
      (streamLoop chunkBytes fuel rest buf consumed total ≠ .error .overflow ↔ Fits chunkBytes buf rest)
  | 0, _, _, _, _, _, hf, _, _ => absurd hf (Nat.not_lt_zero _)
  | fuel + 1, rest, buf, consumed, total, v, hf, hbuf, hv => by
    rw [streamLoop]
    by_cases hle : buf.length ≤ 64
    swap
    · rw [if_pos (by omega)]
      exact iff_of_false (fun h => h rfl) fun h => hle (h.head hbuf hv)
    rw [if_neg (by omega)]
    dsimp only
    have htake : (rest.take chunkBytes).length = min chunkBytes rest.length := List.length_take
    have hlast : rest.length < chunkBytes → Fits chunkBytes buf rest := Fits.last hbuf hle
    have heof : decide ((rest.take chunkBytes).length < chunkBytes) = true → rest.length < chunkBytes := fun e => by
      have := of_decide_eq_true e
      omega
    have hlong : ¬ decide ((rest.take chunkBytes).length < chunkBytes) = true → chunkBytes ≤ rest.length := fun e => by
      have := mt decide_eq_true e
      omega
    obtain ⟨msgs, rem, v', h'⟩ := Framing.exists_chops framed_frames.shrinks (buf ++ rest.take chunkBytes)
    have hfatal := fun hv' => Fits.fatal hbuf hle h' hv'
    have hstep := fun hlong => Fits.step hbuf hle hlong h'
    have hrem := framed_frames.drop h'
    have hdrop : (rest.drop chunkBytes).length = rest.length - chunkBytes := List.length_drop
    by_cases hempty : (buf ++ rest.take chunkBytes).length = 0
    · rw [if_pos hempty]
      rw [List.length_append] at hempty
      exact iff_of_true nofun (hlast (by omega))
    rw [if_neg hempty, forEachFramedMessage_eq h']
    generalize decide ((rest.take chunkBytes).length < chunkBytes) = atEof at heof hlong ⊢
    generalize buf ++ rest.take chunkBytes = buf' at h' hrem ⊢
    simp only [ReadResult.stoppedAt]
    -- the rest of the file after a chunk that was read in full
    have again : ∀ {consumed total}, ¬ atEof = true → v'.status.Open →
        ((do
          let x ← streamLoop chunkBytes fuel (rest.drop chunkBytes) rem consumed total
          .ok (msgs ++ x.1, x.2)) ≠ Except.error StreamFault.overflow ↔ Fits chunkBytes buf rest) := fun he hv' => by
      have := hlong he
      rw [bind_overflow, hstep this]
      exact streamLoop_fits hchunk (by omega) h'.stops hv'
    cases nextFramed_verdict h'.stops with
    | done hnil =>
      subst hnil
      dsimp only
      by_cases he : atEof = true
      · rw [if_pos he]
        exact iff_of_true nofun (hlast (heof he))
      · rw [if_neg he]
        exact again he (.inl rfl)
    | truncated len hs hne =>
      rcases hs with rfl | rfl <;>
      · dsimp only
        by_cases he : atEof = true
        · rw [if_pos he]
          exact iff_of_true nofun (hlast (heof he))
        · rw [if_neg he, hrem]
          exact again he (by simp [ReadStatus.Open])
    | fatal hv' =>
      split
      · exact absurd (.inl ‹_›) hv'
      · exact absurd (.inr (.inl ‹_›)) hv'
      · exact absurd (.inr (.inr ‹_›)) hv'
      · exact iff_of_true nofun (hfatal hv')

/-- What is carried over, but for a byte of a prefix, is of a frame that is not
complete. -/
theorem carried_le_iff {xs : List UInt8} :
    (∀ rem, Carried xs rem → rem.length ≤ 64) ↔ ∀ n, Unfinished xs n → n ≤ 64 := by
  constructor
  · rintro h n ⟨msgs, hi, lo, body, hmsgs, rfl, hlt, rfl⟩
    have hstop : nextFramed (hi :: lo :: body) =
        .stop { status := .truncatedMessage, declaredLength := prefixLength hi lo } := by
      rw [nextFramed]
      dsimp only
      rw [if_neg (by omega), if_pos hlt]
    exact h (hi :: lo :: body) ⟨_, _, framed_frames.chops hmsgs (.stop hstop), .inr (.inr rfl)⟩
  · rintro h rem ⟨msgs, v, hc, hv⟩
    obtain ⟨hxs, hmsgs⟩ := framed_frames.eq hc
    have hviolation := framed_violation hc.stops
    generalize v.status = status at hv hviolation
    cases hviolation with
    | done => exact Nat.zero_le _
    | truncatedPrefix b => exact (by decide : 1 ≤ 64)
    | zeroLength h0 => simp [ReadStatus.Open] at hv
    | @truncatedMessage hi lo body h0 hlt => exact h _ ⟨msgs, hi, lo, body, hmsgs, hxs, hlt, rfl⟩
    | lengthMismatch h0 hle hknown hne => simp [ReadStatus.Open] at hv

/-- Each refill fits in the buffer if and only if no chunk boundary within the
file cuts off more than 64 bytes of a frame. -/
theorem stream_fits_iff {bytes : List UInt8} {chunkBytes : Nat} (hchunk : 0 < chunkBytes) :
    forEachFramedStream (some bytes) chunkBytes ≠ .error .overflow ↔
      ∀ k, k * chunkBytes ≤ bytes.length → ∀ n, Unfinished (bytes.take (k * chunkBytes)) n → n ≤ 64 := by
  have h : streamLoop chunkBytes (bytes.length + 2) bytes [] 0 {} ≠ .error .overflow ↔ Fits chunkBytes [] bytes :=
    streamLoop_fits hchunk (by omega) rfl (.inl rfl)
  rw [forEachFramedStream, h, Fits]
  exact forall₂_congr fun _ _ => carried_le_iff

/-- A frame that a boundary cuts exactly 64 bytes in. -/
theorem stream_fits_iff_bytes :
    Unfinished ((0 :: 100 :: List.replicate 100 'z'.toUInt8).take (1 * 64)) 64 ∧
    forEachFramedStream (some (0 :: 100 :: List.replicate 100 'z'.toUInt8)) 64 ≠ .error .overflow ∧
    ∀ k, k * 64 ≤ 102 → ∀ n, Unfinished ((0 :: 100 :: List.replicate 100 'z'.toUInt8).take (k * 64)) n → n ≤ 64 := by
  have hfits : forEachFramedStream (some (0 :: 100 :: List.replicate 100 'z'.toUInt8)) 64 ≠ .error .overflow := by
    decide +kernel
  exact ⟨⟨[], 0, 100, List.replicate 62 'z'.toUInt8, by simp, rfl, by decide, rfl⟩, hfits,
    (stream_fits_iff (by decide)).mp hfits⟩

/-- A message of 200 bytes, of an unknown type, and chunks of 65 bytes. -/
theorem stream_overflows : ¬ ∀ (bytes : List UInt8) (chunkBytes : Nat), 0 < chunkBytes →
    forEachFramedStream (some bytes) chunkBytes ≠ .error .overflow := fun h =>
  h (0 :: 200 :: List.replicate 200 'z'.toUInt8) 65 (by decide) (by decide +kernel)

end Itch

end Pricetime
