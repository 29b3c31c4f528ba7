import Pricetime.Impl.ItchWriter

/-!
# Fields

No field of a message that has all its bytes lies past its end
(`Complete.decode_some`), and a field reads back what the writer puts there
(`be_bytesBe`). A symbol's bits are its own (`Symbol.bits_inj`).
-/

namespace Pricetime

namespace Itch

/-! ## Complete messages -/

/-- A message of a known type with all its bytes. -/
def Complete (msg : List UInt8) : Prop :=
  ∃ type, msg[0]? = some type ∧ 0 < messageLength type ∧ msg.length = messageLength type

theorem be_some : ∀ {n : Nat} {p : List UInt8} {i : Nat}, i + n ≤ p.length → ∃ v, be n p i = some v
  | 0, _, _, _ => ⟨0, rfl⟩
  | n + 1, p, i, h => by
    obtain ⟨v, hv⟩ := be_some (n := n) (p := p) (i := i + 1) (by omega)
    have hb : p[i]? = some p[i] := List.getElem?_eq_getElem (by omega)
    exact ⟨_, by rw [be, hb, hv]; rfl⟩

section Fields

variable {p : List UInt8} {i : Nat}

theorem byte_some (h : i < p.length) : ∃ b, p[i]? = some b := ⟨p[i], List.getElem?_eq_getElem h⟩

theorem be32_some (h : i + 4 ≤ p.length) : ∃ v, be32 p i = some v := by
  obtain ⟨v, hv⟩ := be_some h
  exact ⟨v.toUInt32, by rw [be32, hv]; rfl⟩

theorem be48_some (h : i + 6 ≤ p.length) : ∃ v, be48 p i = some v := be_some h

theorem be64_some (h : i + 8 ≤ p.length) : ∃ v, be64 p i = some v := be_some h

theorem bePrice_some (h : i + 4 ≤ p.length) : ∃ v, bePrice p i = some v := by
  obtain ⟨v, hv⟩ := be32_some h
  exact ⟨v.toUInt64.toInt64, by rw [bePrice, hv]; rfl⟩

theorem fromWire_some (h : i + 8 ≤ p.length) : ∃ s, Symbol.fromWire p i = some s := by
  have hb : ∀ k < 8, p[i + k]? = some (p.getD (i + k) 0) := fun k hk => by
    rw [List.getD_eq_getElem?_getD, List.getElem?_eq_getElem (by omega), Option.getD_some]
  have h0 := hb 0 (by omega)
  rw [Nat.add_zero] at h0
  exact ⟨_, by
    rw [Symbol.fromWire, h0, hb 1 (by omega), hb 2 (by omega), hb 3 (by omega), hb 4 (by omega),
      hb 5 (by omega), hb 6 (by omega), hb 7 (by omega)]
    rfl⟩

theorem decodeAddOrder_some (h : 36 ≤ p.length) : ∃ m, decodeAddOrder p = some m := by
  obtain ⟨timestamp, ht⟩ := be48_some (p := p) (i := 5) (by omega)
  obtain ⟨reference, hr⟩ := be64_some (p := p) (i := 11) (by omega)
  obtain ⟨side, hs⟩ := byte_some (p := p) (i := 19) (by omega)
  obtain ⟨shares, hq⟩ := be32_some (p := p) (i := 20) (by omega)
  obtain ⟨symbol, hy⟩ := fromWire_some (p := p) (i := 24) (by omega)
  obtain ⟨price, hp⟩ := bePrice_some (p := p) (i := 32) (by omega)
  exact ⟨_, by rw [decodeAddOrder, ht, hr, hs, hq, hy, hp]; rfl⟩

theorem decodeOrderExecuted_some (h : 31 ≤ p.length)
    (h' : p[0]? = some MsgType.orderExecutedWithPrice.code.toUInt8 → 36 ≤ p.length) :
    ∃ m, decodeOrderExecuted p = some m := by
  obtain ⟨timestamp, ht⟩ := be48_some (p := p) (i := 5) (by omega)
  obtain ⟨reference, hr⟩ := be64_some (p := p) (i := 11) (by omega)
  obtain ⟨shares, hq⟩ := be32_some (p := p) (i := 19) (by omega)
  obtain ⟨number, hn⟩ := be64_some (p := p) (i := 23) (by omega)
  obtain ⟨type, hy⟩ := byte_some (p := p) (i := 0) (by omega)
  rw [decodeOrderExecuted, ht, hr, hq, hn, hy]
  simp only [Option.bind_eq_bind, Option.bind_some]
  split
  · rename_i e
    have hlen := h' (e ▸ hy)
    obtain ⟨printable, hb⟩ := byte_some (p := p) (i := 31) (by omega)
    obtain ⟨price, hp⟩ := bePrice_some (p := p) (i := 32) (by omega)
    exact ⟨_, by rw [hb, hp]; rfl⟩
  · exact ⟨_, rfl⟩

theorem decodeOrderCancel_some (h : 23 ≤ p.length) : ∃ m, decodeOrderCancel p = some m := by
  obtain ⟨timestamp, ht⟩ := be48_some (p := p) (i := 5) (by omega)
  obtain ⟨reference, hr⟩ := be64_some (p := p) (i := 11) (by omega)
  obtain ⟨shares, hq⟩ := be32_some (p := p) (i := 19) (by omega)
  exact ⟨_, by rw [decodeOrderCancel, ht, hr, hq]; rfl⟩

theorem decodeOrderDelete_some (h : 19 ≤ p.length) : ∃ m, decodeOrderDelete p = some m := by
  obtain ⟨timestamp, ht⟩ := be48_some (p := p) (i := 5) (by omega)
  obtain ⟨reference, hr⟩ := be64_some (p := p) (i := 11) (by omega)
  exact ⟨_, by rw [decodeOrderDelete, ht, hr]; rfl⟩

theorem decodeOrderReplace_some (h : 35 ≤ p.length) : ∃ m, decodeOrderReplace p = some m := by
  obtain ⟨timestamp, ht⟩ := be48_some (p := p) (i := 5) (by omega)
  obtain ⟨original, ho⟩ := be64_some (p := p) (i := 11) (by omega)
  obtain ⟨fresh, hf⟩ := be64_some (p := p) (i := 19) (by omega)
  obtain ⟨shares, hq⟩ := be32_some (p := p) (i := 27) (by omega)
  obtain ⟨price, hp⟩ := bePrice_some (p := p) (i := 31) (by omega)
  exact ⟨_, by rw [decodeOrderReplace, ht, ho, hf, hq, hp]; rfl⟩

theorem decodeSystemEvent_some (h : 12 ≤ p.length) : ∃ m, decodeSystemEvent p = some m := by
  obtain ⟨timestamp, ht⟩ := be48_some (p := p) (i := 5) (by omega)
  obtain ⟨code, hc⟩ := byte_some (p := p) (i := 11) (by omega)
  exact ⟨_, by rw [decodeSystemEvent, ht, hc]; rfl⟩

end Fields

theorem ofByte_code {c : UInt8} {t : MsgType} (h : MsgType.ofByte c = some t) : t.code.toUInt8 = c := by
  simpa using List.find?_some h

theorem Complete.decode_some {msg : List UInt8} (h : Complete msg) : ∃ m, decode msg = some m := by
  obtain ⟨type, ht, hpos, hlen⟩ := h
  rw [messageLength] at hpos hlen
  cases hm : MsgType.ofByte type with
  | none =>
    rw [hm] at hpos
    cases hpos
  | some t =>
    rw [hm] at hlen
    have hcode := ofByte_code hm
    rw [decode, ht]
    simp only [Option.bind_eq_bind, Option.bind_some, hm]
    have of {α : Type} {x : Option α} {f : α → Message} (h : ∃ a, x = some a) : ∃ m, x.map f = some m := by
      obtain ⟨a, rfl⟩ := h
      exact ⟨f a, rfl⟩
    cases t with
    | addOrder => exact of (decodeAddOrder_some (by rw [hlen]; decide))
    | addOrderMpid => exact of (decodeAddOrder_some (by rw [hlen]; decide))
    | orderExecuted =>
      refine of (decodeOrderExecuted_some (by rw [hlen]; decide) fun e => ?_)
      cases ht.symm.trans e
      cases hcode
    | orderExecutedWithPrice =>
      exact of (decodeOrderExecuted_some (by rw [hlen]; decide) fun _ => by rw [hlen]; decide)
    | orderCancel => exact of (decodeOrderCancel_some (by rw [hlen]; decide))
    | orderDelete => exact of (decodeOrderDelete_some (by rw [hlen]; decide))
    | orderReplace => exact of (decodeOrderReplace_some (by rw [hlen]; decide))
    | tradeNonCross => exact of (be48_some (by rw [hlen]; decide))
    | systemEvent => exact of (decodeSystemEvent_some (by rw [hlen]; decide))
    | _ => exact ⟨_, rfl⟩

/-! ## What a field reads -/

open Writer (bytesBe)

theorem shift_or_toNat {n : Nat} (hn : n ≤ 7) (b : UInt8) {v : UInt64} (hv : v.toNat < 2 ^ (8 * n)) :
    ((b.toUInt64 <<< (8 * n).toUInt64) ||| v).toNat = b.toNat * 2 ^ (8 * n) + v.toNat := by
  have hb := b.toNat_lt
  have h8 : (8 * n).toUInt64.toNat = 8 * n := by
    show (8 * n) % 2 ^ 64 = 8 * n
    omega
  have hle : 2 ^ (8 * n) ≤ 2 ^ 56 := Nat.pow_le_pow_right (by decide) (by omega)
  have hmul : b.toNat * 2 ^ (8 * n) < 2 ^ 64 := calc
    b.toNat * 2 ^ (8 * n) ≤ b.toNat * 2 ^ 56 := Nat.mul_le_mul_left _ hle
    _ < 2 ^ 64 := by omega
  rw [UInt64.toNat_or, UInt64.toNat_shiftLeft, h8, UInt8.toNat_toUInt64, Nat.mod_eq_of_lt (by omega : 8 * n < 64),
    Nat.shiftLeft_eq, Nat.mod_eq_of_lt hmul, ← Nat.shiftLeft_eq, ← Nat.shiftLeft_add_eq_or_of_lt hv, Nat.shiftLeft_eq]

theorem be_toNat_lt : ∀ {n : Nat} {p : List UInt8} {i : Nat} {v : UInt64}, n ≤ 8 → be n p i = some v →
    v.toNat < 2 ^ (8 * n)
  | 0, _, _, _, _, h => by
    cases h
    decide
  | n + 1, p, i, v, hn, h => by
    obtain ⟨b, -, h⟩ := Option.bind_eq_some_iff.mp h
    obtain ⟨w, hw, h⟩ := Option.bind_eq_some_iff.mp h
    cases h
    have hlt := be_toNat_lt (by omega) hw
    have hb := b.toNat_lt
    rw [shift_or_toNat (by omega) b hlt, Nat.mul_succ, Nat.pow_add]
    calc b.toNat * 2 ^ (8 * n) + w.toNat < (b.toNat + 1) * 2 ^ (8 * n) := by rw [Nat.add_mul, Nat.one_mul]; omega
      _ ≤ 2 ^ (8 * n) * 2 ^ 8 := by rw [Nat.mul_comm]; exact Nat.mul_le_mul_left _ (by omega)

theorem be_succ {n : Nat} {p : List UInt8} {i : Nat} {b : UInt8} {v : UInt64} (hn : n ≤ 7) (hb : p[i]? = some b)
    (hv : be n p (i + 1) = some v) :
    ∃ w, be (n + 1) p i = some w ∧ w.toNat = b.toNat * 2 ^ (8 * n) + v.toNat :=
  ⟨_, by rw [be, hb, hv]; rfl, shift_or_toNat hn b (be_toNat_lt (by omega) hv)⟩

theorem bytesBe_length : ∀ (n : Nat) (v : UInt64), (bytesBe n v).length = n
  | 0, _ => rfl
  | n + 1, v => by rw [bytesBe, List.length_cons, bytesBe_length n v]

theorem byte_toNat {n : Nat} (hn : n ≤ 7) (v : UInt64) :
    ((v >>> (8 * n).toUInt64) &&& 0xFF).toUInt8.toNat = v.toNat / 2 ^ (8 * n) % 2 ^ 8 := by
  have h8 : (8 * n).toUInt64.toNat = 8 * n := by
    show (8 * n) % 2 ^ 64 = 8 * n
    omega
  rw [UInt64.toNat_toUInt8, UInt64.toNat_and, UInt64.toNat_shiftRight, h8, Nat.mod_eq_of_lt (by omega : 8 * n < 64),
    Nat.shiftRight_eq_div_pow]
  show (_ &&& 255) % 2 ^ 8 = _
  rw [Nat.and_two_pow_sub_one_eq_mod _ 8, Nat.mod_mod]

theorem be_bytesBe : ∀ {n : Nat} (pre post : List UInt8) (v : UInt64), n ≤ 8 →
    ∃ w, be n (pre ++ bytesBe n v ++ post) pre.length = some w ∧ w.toNat = v.toNat % 2 ^ (8 * n)
  | 0, _, _, _, _ => ⟨0, rfl, (Nat.mod_one _).symm⟩
  | n + 1, pre, post, v, hn => by
    obtain ⟨w, hw, hwn⟩ := be_bytesBe (pre ++ [((v >>> (8 * n).toUInt64) &&& 0xFF).toUInt8]) post v (by omega : n ≤ 8)
    have hxs : pre ++ bytesBe (n + 1) v ++ post =
        pre ++ [((v >>> (8 * n).toUInt64) &&& 0xFF).toUInt8] ++ bytesBe n v ++ post := by
      rw [bytesBe, List.append_assoc pre [_], List.singleton_append]
    rw [List.length_append, List.length_singleton] at hw
    obtain ⟨u, hu, hun⟩ := be_succ (p := pre ++ bytesBe (n + 1) v ++ post) (i := pre.length)
      (b := ((v >>> (8 * n).toUInt64) &&& 0xFF).toUInt8) (by omega : n ≤ 7) (by simp [bytesBe]) (hxs ▸ hw)
    refine ⟨u, hu, ?_⟩
    rw [hun, hwn, byte_toNat (by omega), Nat.mul_succ, Nat.pow_add, Nat.mod_mul]
    rw [Nat.mul_comm, Nat.add_comm]

end Itch

namespace Symbol

theorem toNat_shift_or {v : UInt64} (c : UInt8) (hv : v.toNat < 2 ^ 56) :
    ((v <<< 8) ||| c.toUInt64).toNat = c.toNat + 256 * v.toNat := by
  have hc : c.toNat < 2 ^ 8 := c.toNat_lt
  have hshift : (v <<< 8).toNat = v.toNat <<< 8 := by
    rw [UInt64.toNat_shiftLeft]
    show (v.toNat <<< 8) % 2 ^ 64 = _
    rw [Nat.shiftLeft_eq]
    omega
  rw [UInt64.toNat_or, hshift, UInt8.toNat_toUInt64, ← Nat.shiftLeft_add_eq_or_of_lt hc, Nat.shiftLeft_eq]
  omega

/-- The bits of a symbol are its bytes, the first one lowest. -/
theorem toNat_foldr : ∀ cs : List UInt8, cs.length ≤ 8 →
    (cs.foldr (fun c (v : UInt64) => (v <<< 8) ||| c.toUInt64) 0).toNat = Nat.ofDigits 256 (cs.map UInt8.toNat)
  | [], _ => rfl
  | c :: cs, h => by
    have hlen : cs.length ≤ 7 := Nat.le_of_succ_le_succ h
    have ih := toNat_foldr cs (by omega)
    have hlt : Nat.ofDigits 256 (cs.map UInt8.toNat) < 2 ^ 56 := by
      refine Nat.lt_of_lt_of_le (Nat.ofDigits_lt_base_pow_length (b := 256) (by decide) fun d hd => ?_) ?_
      · obtain ⟨x, -, rfl⟩ := List.mem_map.mp hd
        exact x.toNat_lt
      · rw [List.length_map]
        calc 256 ^ cs.length ≤ 256 ^ 7 := Nat.pow_le_pow_right (by decide) hlen
          _ = 2 ^ 56 := by decide
    rw [List.foldr_cons, toNat_shift_or c (by rw [ih]; exact hlt), ih, List.map_cons, Nat.ofDigits_cons]

theorem bits_inj {s t : Symbol} (h : s.bits = t.bits) : s = t := by
  have hs := toNat_foldr s.data.toList (by simp)
  have ht := toNat_foldr t.data.toList (by simp)
  have hdigits : ∀ u : Symbol, ∀ d ∈ u.data.toList.map UInt8.toNat, d < 256 := by
    intro u d hd
    obtain ⟨x, -, rfl⟩ := List.mem_map.mp hd
    exact x.toNat_lt
  have hfold : ∀ u : Symbol, u.bits = u.data.toList.foldr (fun c (v : UInt64) => (v <<< 8) ||| c.toUInt64) 0 :=
    fun u => by
    rw [bits, Vector.foldr_toList]
  rw [← hfold s, h, hfold t, ht] at hs
  have hmap := Nat.ofDigits_inj_of_len_eq (by decide) (by simp) (hdigits t) (hdigits s) hs
  have hlist := List.map_injective_iff.mpr (fun a b e => UInt8.toNat_inj.mp e) hmap
  cases s
  cases t
  congr 1
  exact (Vector.toList_inj.mp hlist).symm

end Symbol

end Pricetime
