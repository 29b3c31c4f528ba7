import Pricetime.Proof.Itch
import Pricetime.Spec.Wire

/-!
# The order-entry codec

A field is a number in base 256, its bytes the digits (`getLe_ofDigits`,
`putLe64_ofDigits`), so that what is read from the bytes of a message writes
them again (`getLe64_take`), and two numbers with the same bytes are equal.
Requests and responses have the same layout, `message`: whatever ends with the
tag is the message of the fields that are read from it (`read_message`), and a
message has one reading (`message_inj`).
-/

namespace Pricetime

namespace Wire

open Spec (tagged)

/-! ## Fields -/

theorem getLe_total : ∀ {n : Nat} {p : List UInt8} {i : Nat}, i + n ≤ p.length → ∃ v, getLe n p i = some v
  | 0, _, _, _ => ⟨0, rfl⟩
  | n + 1, p, i, h => by
    obtain ⟨v, hv⟩ := getLe_total (show (i + 1) + n ≤ p.length by omega)
    rw [getLe, List.getElem?_eq_getElem (by omega), hv]
    exact ⟨_, rfl⟩

theorem getLe_append : ∀ {n : Nat} {p : List UInt8} {i : Nat} (_ : i + n ≤ p.length) (q : List UInt8),
    getLe n (p ++ q) i = getLe n p i
  | 0, _, _, _, _ => rfl
  | n + 1, p, i, h, q => by
    rw [getLe, getLe, List.getElem?_append_left (by omega), getLe_append (by omega) q]

/-- The number of some bytes, the first one lowest. -/
def number (bs : List UInt8) : Nat := Nat.ofDigits 256 (bs.map UInt8.toNat)

theorem digit_lt (bs : List UInt8) : ∀ d ∈ bs.map UInt8.toNat, d < 256 := by
  intro d hd
  obtain ⟨b, -, rfl⟩ := List.mem_map.mp hd
  exact b.toNat_lt

theorem number_lt (bs : List UInt8) : number bs < 256 ^ bs.length := by
  have h := Nat.ofDigits_lt_base_pow_length (b := 256) (by decide) (digit_lt bs)
  rwa [List.length_map] at h

theorem number_inj {bs bs' : List UInt8} (hlen : bs.length = bs'.length) (h : number bs = number bs') : bs = bs' := by
  have hmap : bs.map UInt8.toNat = bs'.map UInt8.toNat :=
    Nat.ofDigits_inj_of_len_eq (by decide) (by simpa using hlen) (digit_lt bs) (digit_lt bs') h
  exact List.map_injective_iff.mpr (fun _ _ => UInt8.toNat_inj.mp) hmap

theorem getLe_number : ∀ {n : Nat} {p : List UInt8} {i : Nat} {v : UInt64}, n ≤ 8 → getLe n p i = some v →
    v.toNat = number ((p.drop i).take n)
  | 0, _, _, _, _, h => by
    cases h
    rfl
  | n + 1, p, i, v, hn, h => by
    obtain ⟨b, hb, h⟩ := Option.bind_eq_some_iff.mp h
    obtain ⟨w, hw, h⟩ := Option.bind_eq_some_iff.mp h
    cases h
    have ih := getLe_number (by omega) hw
    have hlt : w.toNat < 2 ^ 56 := calc
      w.toNat < 256 ^ ((p.drop (i + 1)).take n).length := ih ▸ number_lt _
      _ ≤ 256 ^ 7 := Nat.pow_le_pow_right (by decide) (by rw [List.length_take]; omega)
      _ = 2 ^ 56 := by decide
    obtain ⟨hi, rfl⟩ := List.getElem?_eq_some_iff.mp hb
    rw [Symbol.toNat_shift_or _ hlt, ih, List.drop_eq_getElem_cons hi, List.take_succ_cons, number, number,
      List.map_cons, Nat.ofDigits_cons]

theorem number_range (m n : Nat) {f : Nat → UInt8} (hf : ∀ k < n, (f k).toNat = m / 256 ^ k % 256) :
    number ((List.range n).map f) = m % 256 ^ n := by
  induction n with
  | zero => rw [Nat.pow_zero, Nat.mod_one]; rfl
  | succ n ih =>
    have hn : ((List.range n).map f).length = n := by rw [List.length_map, List.length_range]
    rw [List.range_succ, List.map_append, number, List.map_append, Nat.ofDigits_append]
    show number _ + 256 ^ (((List.range n).map f).map UInt8.toNat).length * Nat.ofDigits 256 [(f n).toNat] = _
    rw [ih fun k hk => hf k (by omega), List.length_map, hn, Nat.ofDigits_singleton, hf n (Nat.lt_succ_self n),
      Nat.pow_succ, Nat.mod_mul]

theorem putLe64_number (v : UInt64) : number (putLe64 v) = v.toNat := by
  rw [putLe64, number_range v.toNat]
  · exact Nat.mod_eq_of_lt v.toNat_lt
  · intro k hk
    have h8 : (8 * k).toUInt64.toNat = 8 * k := by
      show (8 * k) % 2 ^ 64 = 8 * k
      omega
    rw [UInt64.toNat_toUInt8, UInt64.toNat_shiftRight, h8, Nat.mod_eq_of_lt (by omega : 8 * k < 64),
      Nat.shiftRight_eq_div_pow, Nat.pow_mul]

theorem putLe32_number (v : UInt32) : number (putLe32 v) = v.toNat := by
  rw [putLe32, number_range v.toNat]
  · exact Nat.mod_eq_of_lt v.toNat_lt
  · intro k hk
    have h8 : (8 * k).toUInt32.toNat = 8 * k := by
      show (8 * k) % 2 ^ 32 = 8 * k
      omega
    rw [UInt32.toNat_toUInt8, UInt32.toNat_shiftRight, h8, Nat.mod_eq_of_lt (by omega : 8 * k < 32),
      Nat.shiftRight_eq_div_pow, Nat.pow_mul]

theorem putLe64_length (v : UInt64) : (putLe64 v).length = 8 := by
  rw [putLe64, List.length_map, List.length_range]

theorem putLe32_length (v : UInt32) : (putLe32 v).length = 4 := by
  rw [putLe32, List.length_map, List.length_range]

theorem putLe64_inj {v w : UInt64} (h : putLe64 v = putLe64 w) : v = w := by
  have hn := congrArg number h
  rw [putLe64_number, putLe64_number] at hn
  exact UInt64.toNat_inj.mp hn

theorem putLe32_inj {v w : UInt32} (h : putLe32 v = putLe32 w) : v = w := by
  have hn := congrArg number h
  rw [putLe32_number, putLe32_number] at hn
  exact UInt32.toNat_inj.mp hn

/-- Eight bytes are what is written of the number that is read from them. -/
theorem getLe64_take {p : List UInt8} {i : Nat} (h : i + 8 ≤ p.length) :
    ∃ v, getLe64 p i = some v ∧ (p.drop i).take 8 = putLe64 v := by
  obtain ⟨v, hv⟩ := getLe_total h
  refine ⟨v, hv, number_inj ?_ ?_⟩
  · rw [putLe64_length, List.length_take, List.length_drop]
    omega
  · rw [putLe64_number, getLe_number (by decide) hv]

theorem getLe32_take {p : List UInt8} {i : Nat} (h : i + 4 ≤ p.length) :
    ∃ v, getLe32 p i = some v ∧ (p.drop i).take 4 = putLe32 v := by
  obtain ⟨v, hv⟩ := getLe_total h
  have hn := getLe_number (by decide) hv
  have hlen : ((p.drop i).take 4).length = 4 := by
    rw [List.length_take, List.length_drop]
    omega
  have hlt : v.toNat < 2 ^ 32 := by
    have := number_lt ((p.drop i).take 4)
    rw [hlen, ← hn] at this
    exact this
  refine ⟨v.toUInt32, by rw [getLe32, hv]; rfl, number_inj (hlen.trans (putLe32_length _).symm) ?_⟩
  rw [putLe32_number, UInt64.toNat_toUInt32, Nat.mod_eq_of_lt hlt, hn]

/-! ## Messages -/

/-- The layout of a message. -/
def message (kind code : UInt8) (qty : UInt32) (price id peer clientTs : UInt64) : List UInt8 :=
  [kind, code] ++ putLe32 qty ++ putLe64 price ++ putLe64 id ++ putLe64 peer ++ putLe64 clientTs ++ [kMagic0, kMagic1]

theorem message_length (kind code : UInt8) (qty : UInt32) (price id peer clientTs : UInt64) :
    (message kind code qty price id peer clientTs).length = kMessageSize := by
  simp only [message, List.length_append, putLe32_length, putLe64_length]
  rfl

theorem message_tagged (kind code : UInt8) (qty : UInt32) (price id peer clientTs : UInt64) :
    tagged (message kind code qty price id peer clientTs) = true := by
  rw [tagged, message, List.drop_left']
  · exact decide_eq_true rfl
  · simp only [List.length_append, putLe32_length, putLe64_length]
    rfl

/-- A message says what its fields are. -/
theorem message_inj {kind code kind' code' : UInt8} {qty qty' : UInt32}
    {price id peer clientTs price' id' peer' clientTs' : UInt64}
    (h : message kind code qty price id peer clientTs = message kind' code' qty' price' id' peer' clientTs') :
    (kind = kind' ∧ code = code') ∧ qty = qty' ∧ price = price' ∧ id = id' ∧ peer = peer' ∧ clientTs = clientTs' := by
  simp only [message, List.append_assoc] at h
  obtain ⟨hhead, h⟩ := List.append_inj h rfl
  obtain ⟨hqty, h⟩ := List.append_inj h (by rw [putLe32_length, putLe32_length])
  obtain ⟨hprice, h⟩ := List.append_inj h (by rw [putLe64_length, putLe64_length])
  obtain ⟨hid, h⟩ := List.append_inj h (by rw [putLe64_length, putLe64_length])
  obtain ⟨hpeer, h⟩ := List.append_inj h (by rw [putLe64_length, putLe64_length])
  obtain ⟨hts, -⟩ := List.append_inj h (by rw [putLe64_length, putLe64_length])
  simp only [List.cons.injEq, and_true] at hhead
  exact ⟨hhead, putLe32_inj hqty, putLe64_inj hprice, putLe64_inj hid, putLe64_inj hpeer, putLe64_inj hts⟩

theorem tagged_iff {b : List UInt8} (hb : b.length = kMessageSize) :
    tagged b = true ↔ b[38]? = some kMagic0 ∧ b[39]? = some kMagic1 := by
  have hb : b.length = 40 := hb
  have hdrop : b.drop (kMessageSize - 2) = [b[38], b[39]] := by
    show b.drop 38 = _
    rw [List.drop_eq_getElem_cons (by omega), List.drop_eq_getElem_cons (by omega), List.drop_of_length_le (by omega)]
  rw [tagged, hdrop, List.getElem?_eq_getElem (by omega), List.getElem?_eq_getElem (by omega)]
  simp

/-- A block that ends with the tag is the message of what is read from it. -/
theorem read_message {b : List UInt8} (hb : b.length = kMessageSize) (ht : tagged b = true) :
    ∃ kind code qty price id peer clientTs, b[0]? = some kind ∧ b[1]? = some code ∧ getLe32 b 2 = some qty ∧
      getLe64 b 6 = some price ∧ getLe64 b 14 = some id ∧ getLe64 b 22 = some peer ∧ getLe64 b 30 = some clientTs ∧
      b = message kind code qty price id peer clientTs := by
  have hlen : b.length = 40 := hb
  have htag : b.drop 38 = [kMagic0, kMagic1] := of_decide_eq_true ht
  obtain ⟨qty, hqty, hqty'⟩ := getLe32_take (show 2 + 4 ≤ b.length by omega)
  obtain ⟨price, hprice, hprice'⟩ := getLe64_take (show 6 + 8 ≤ b.length by omega)
  obtain ⟨id, hid, hid'⟩ := getLe64_take (show 14 + 8 ≤ b.length by omega)
  obtain ⟨peer, hpeer, hpeer'⟩ := getLe64_take (show 22 + 8 ≤ b.length by omega)
  obtain ⟨clientTs, hts, hts'⟩ := getLe64_take (show 30 + 8 ≤ b.length by omega)
  -- the fields tile the block
  have tile : ∀ i n, b.drop i = (b.drop i).take n ++ b.drop (i + n) := fun i n => by
    rw [← List.drop_drop, List.take_append_drop]
  have hhead : b = [b[0], b[1]] ++ b.drop 2 := by
    conv => lhs; rw [← List.drop_zero (l := b), List.drop_eq_getElem_cons (by omega), List.drop_eq_getElem_cons (by omega)]
    rfl
  refine ⟨b[0], b[1], qty, price, id, peer, clientTs, List.getElem?_eq_getElem (by omega),
    List.getElem?_eq_getElem (by omega), hqty, hprice, hid, hpeer, hts, ?_⟩
  rw [message, ← hqty', ← hprice', ← hid', ← hpeer', ← hts', ← htag]
  simp only [List.append_assoc]
  rw [← tile 30 8, ← tile 22 8, ← tile 14 8, ← tile 6 8, ← tile 2 4, ← hhead]

/-! ## Requests and responses -/

/-- `decode` reads one message. -/
theorem decode_append {p : List UInt8} (h : kMessageSize ≤ p.length) (q : List UInt8) :
    Request.decode (p ++ q) = Request.decode p := by
  have h : 40 ≤ p.length := h
  simp (disch := omega) only [Request.decode, getLe32, getLe64, getLe_append, List.getElem?_append_left]

theorem Request.encode_eq (r : Request) :
    r.encode = message r.kind r.side r.qty r.price.toUInt64 r.id r.newId r.clientTs := rfl

theorem Response.encode_eq (r : Response) :
    r.encode = message r.kind r.code r.qty r.price.toUInt64 r.id r.peer r.clientTs := rfl

theorem Request.encode_inj {r r' : Request} (h : r.encode = r'.encode) : r = r' := by
  obtain ⟨⟨h₁, h₂⟩, h₃, h₄, h₅, h₆, h₇⟩ := message_inj h
  cases r
  cases r'
  simp only [Request.mk.injEq]
  exact ⟨h₁, h₂, h₃, by simpa using congrArg UInt64.toInt64 h₄, h₅, h₆, h₇⟩

theorem Response.encode_inj {r r' : Response} (h : r.encode = r'.encode) : r = r' := by
  obtain ⟨⟨h₁, h₂⟩, h₃, h₄, h₅, h₆, h₇⟩ := message_inj h
  cases r
  cases r'
  simp only [Response.mk.injEq]
  exact ⟨h₁, h₂, h₃, by simpa using congrArg UInt64.toInt64 h₄, h₅, h₆, h₇⟩

/-- `decode` accepts the blocks that end with the tag, and reads the request
that they encode. -/
theorem Request.decode_tagged {b : List UInt8} (hb : b.length = kMessageSize) (ht : tagged b = true) :
    ∃ r, Request.decode b = some (some r) ∧ r.encode = b := by
  obtain ⟨h₀, h₁⟩ := (tagged_iff hb).mp ht
  obtain ⟨kind, side, qty, price, id, newId, clientTs, hkind, hside, hqty, hprice, hid, hnewId, hts, he⟩ :=
    read_message hb ht
  refine ⟨_, by rw [Request.decode, h₀, h₁, hkind, hside, hqty, hprice, hid, hnewId, hts]; rfl, ?_⟩
  rw [he, Request.encode_eq]
  simp only [UInt64.toUInt64_toInt64]

theorem Response.decode_tagged {b : List UInt8} (hb : b.length = kMessageSize) (ht : tagged b = true) :
    ∃ r, Response.decode b = some (some r) ∧ r.encode = b := by
  obtain ⟨h₀, h₁⟩ := (tagged_iff hb).mp ht
  obtain ⟨kind, code, qty, price, id, peer, clientTs, hkind, hcode, hqty, hprice, hid, hpeer, hts, he⟩ :=
    read_message hb ht
  refine ⟨_, by rw [Response.decode, h₀, h₁, hkind, hcode, hqty, hprice, hid, hpeer, hts]; rfl, ?_⟩
  rw [he, Response.encode_eq]
  simp only [UInt64.toUInt64_toInt64]

/-- What the two tests of `decode` see in a block without the tag. -/
theorem untagged_cases {b : List UInt8} (hb : b.length = kMessageSize) (ht : tagged b = false) :
    ∃ t₀ t₁, b[38]? = some t₀ ∧ b[39]? = some t₁ ∧ (t₀ = kMagic0 → t₁ ≠ kMagic1) := by
  have hno := mt (tagged_iff hb).mpr (ne_true_of_eq_false ht)
  have hb : b.length = 40 := hb
  have h₀ : b[38]? = some b[38] := List.getElem?_eq_getElem (by omega)
  have h₁ : b[39]? = some b[39] := List.getElem?_eq_getElem (by omega)
  rw [h₀, h₁] at hno
  exact ⟨_, _, h₀, h₁, fun h h' => hno ⟨congrArg some h, congrArg some h'⟩⟩

theorem Request.decode_untagged {b : List UInt8} (hb : b.length = kMessageSize) (ht : tagged b = false) :
    Request.decode b = some none := by
  obtain ⟨t₀, t₁, h₀, h₁, hno⟩ := untagged_cases hb ht
  rw [Request.decode, h₀, h₁]
  by_cases h : t₀ = kMagic0
  · simp [h, hno h]
  · simp [h]

theorem Response.decode_untagged {b : List UInt8} (hb : b.length = kMessageSize) (ht : tagged b = false) :
    Response.decode b = some none := by
  obtain ⟨t₀, t₁, h₀, h₁, hno⟩ := untagged_cases hb ht
  rw [Response.decode, h₀, h₁]
  by_cases h : t₀ = kMagic0
  · simp [h, hno h]
  · simp [h]

/-- A codec of messages of 40 bytes: what is encoded is decoded, the blocks
that end with the tag are accepted and no others, and what is decoded of one
encodes to its bytes. -/
structure Codec {A : Type} (encode : A → List UInt8) (decode : List UInt8 → Option (Option A)) : Prop where
  length : ∀ a, (encode a).length = kMessageSize
  decode_encode : ∀ a, decode (encode a) = some (some a)
  decode_iff : ∀ b, b.length = kMessageSize → ((∃ a, decode b = some (some a)) ↔ tagged b = true)
  encode_decode : ∀ b, b.length = kMessageSize → ∀ a, decode b = some (some a) → encode a = b

theorem Codec.of {A : Type} {encode : A → List UInt8} {decode : List UInt8 → Option (Option A)}
    (hinj : ∀ {a a'}, encode a = encode a' → a = a') (hlen : ∀ a, (encode a).length = kMessageSize)
    (htag : ∀ a, tagged (encode a) = true)
    (hyes : ∀ {b}, b.length = kMessageSize → tagged b = true → ∃ a, decode b = some (some a) ∧ encode a = b)
    (hno : ∀ {b}, b.length = kMessageSize → tagged b = false → decode b = some none) : Codec encode decode where
  length := hlen
  decode_encode a := by
    obtain ⟨a', ha', he⟩ := hyes (hlen a) (htag a)
    rw [ha', hinj he]
  decode_iff b hb := by
    constructor
    · rintro ⟨a, ha⟩
      refine Bool.of_not_eq_false fun hf => ?_
      rw [hno hb hf] at ha
      cases ha
    · intro ht
      obtain ⟨a, ha, -⟩ := hyes hb ht
      exact ⟨a, ha⟩
  encode_decode b hb a ha := by
    cases ht : tagged b with
    | false =>
      rw [hno hb ht] at ha
      cases ha
    | true =>
      obtain ⟨a', ha', he⟩ := hyes hb ht
      cases ha.symm.trans ha'
      exact he

/-- Requests and responses are encoded and decoded without loss. -/
theorem codec_bijective : Codec Request.encode Request.decode ∧ Codec Response.encode Response.decode :=
  ⟨.of Request.encode_inj (fun _ => message_length ..) (fun _ => message_tagged ..) Request.decode_tagged
      Request.decode_untagged,
    .of Response.encode_inj (fun _ => message_length ..) (fun _ => message_tagged ..) Response.decode_tagged
      Response.decode_untagged⟩

end Wire

end Pricetime
