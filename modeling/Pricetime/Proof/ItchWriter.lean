import Pricetime.Proof.ItchReader

/-!
# What the writer writes, the readers read

`WriterCall.fields` are the fields of the message that a call writes. A call
appends the frame of their concatenation (`call_eq`), a field of it reads back
what was put there (`be_field`), and so does a whole message (`delivers`). A
run of calls is read back call by call (`writer_round_trip`).
-/

namespace Pricetime

namespace Itch

open Writer (bytesBe sideByte)
open Spec (frame WellFormed RawWellFormed)
open Framing (Chops)

/-! ## The fields of a message -/

/-- The type byte, the stock locate and the tracking number. -/
def header (type : Char) : List (List UInt8) := [[type.toUInt8], [0, 0], [0, 0]]

def priceBytes (p : Price) : List UInt8 := bytesBe 4 p.toUInt64.toUInt32.toUInt64

def WriterCall.fields : WriterCall → List (List UInt8)
  | .systemEvent ts code => header 'S' ++ [bytesBe 6 ts, [code]]
  | .stockDirectory ts sym category =>
    header 'R' ++ [bytesBe 6 ts, sym.data.toList, [category], List.replicate 19 0]
  | .addOrder ts ref side shares sym price =>
    header 'A' ++ [bytesBe 6 ts, bytesBe 8 ref, [sideByte side], bytesBe 4 shares.toUInt64, sym.data.toList,
      priceBytes price]
  | .addOrderMpid ts ref side shares sym price mpid =>
    header 'F' ++ [bytesBe 6 ts, bytesBe 8 ref, [sideByte side], bytesBe 4 shares.toUInt64, sym.data.toList,
      priceBytes price, (List.range 4).map fun i => if i < mpid.length then mpid.getD i 0 else ' '.toUInt8]
  | .orderExecuted ts ref shares matchNumber =>
    header 'E' ++ [bytesBe 6 ts, bytesBe 8 ref, bytesBe 4 shares.toUInt64, bytesBe 8 matchNumber]
  | .orderExecutedWithPrice ts ref shares matchNumber printable price =>
    header 'C' ++ [bytesBe 6 ts, bytesBe 8 ref, bytesBe 4 shares.toUInt64, bytesBe 8 matchNumber,
      [if printable then 'Y'.toUInt8 else 'N'.toUInt8], priceBytes price]
  | .orderCancel ts ref shares => header 'X' ++ [bytesBe 6 ts, bytesBe 8 ref, bytesBe 4 shares.toUInt64]
  | .orderDelete ts ref => header 'D' ++ [bytesBe 6 ts, bytesBe 8 ref]
  | .orderReplace ts orig fresh shares price =>
    header 'U' ++ [bytesBe 6 ts, bytesBe 8 orig, bytesBe 8 fresh, bytesBe 4 shares.toUInt64, priceBytes price]
  | .tradeNonCross ts ref side shares sym price matchNumber =>
    header 'P' ++ [bytesBe 6 ts, bytesBe 8 ref, [sideByte side], bytesBe 4 shares.toUInt64, sym.data.toList,
      priceBytes price, bytesBe 8 matchNumber]
  | .stockTradingAction ts sym state =>
    header 'H' ++ [bytesBe 6 ts, sym.data.toList, [state], List.replicate 5 0]

/-- The message of a call. -/
def WriterCall.body (c : WriterCall) : List UInt8 := c.fields.flatten

/-- The type of the message. -/
def WriterCall.type : WriterCall → MsgType
  | .systemEvent .. => .systemEvent
  | .stockDirectory .. => .stockDirectory
  | .addOrder .. => .addOrder
  | .addOrderMpid .. => .addOrderMpid
  | .orderExecuted .. => .orderExecuted
  | .orderExecutedWithPrice .. => .orderExecutedWithPrice
  | .orderCancel .. => .orderCancel
  | .orderDelete .. => .orderDelete
  | .orderReplace .. => .orderReplace
  | .tradeNonCross .. => .tradeNonCross
  | .stockTradingAction .. => .stockTradingAction

theorem symbol_length (s : Symbol) : s.data.toList.length = 8 := Vector.length_toList

/-- A message is as long as its type says. -/
theorem body_length (c : WriterCall) : c.body.length = c.type.length := by
  cases c <;> simp [WriterCall.body, WriterCall.fields, WriterCall.type, header, priceBytes, bytesBe_length,
    MsgType.length]

theorem body_head (c : WriterCall) : c.body.head? = some c.type.code.toUInt8 := by
  cases c <;> rfl

theorem messageLength_code (t : MsgType) : messageLength t.code.toUInt8 = t.length := by
  cases t <;> decide

theorem body_rawWellFormed (c : WriterCall) : RawWellFormed c.body :=
  ⟨_, body_head c, by rw [messageLength_code]; exact messageLength_pos _, by rw [body_length, messageLength_code]⟩

theorem length_lt (t : MsgType) : t.length < 2 ^ 16 := by
  cases t <;> decide

theorem body_wellFormed (c : WriterCall) : WellFormed c.body where
  nonempty e := by
    have hh := body_head c
    rw [e] at hh
    cases hh
  fits := by
    rw [body_length]
    exact length_lt _
  length type ht _ := by
    obtain rfl := Option.some.inj ((body_head c).symm.trans ht)
    rw [body_length, messageLength_code]

theorem body_complete (calls : List WriterCall) : ∀ msg ∈ calls.map WriterCall.body, Complete msg := by
  intro msg hm
  obtain ⟨c, -, rfl⟩ := List.mem_map.mp hm
  exact (body_rawWellFormed c).complete

/-! ## Calls -/

namespace Writer

variable (w : Writer) (len : Nat) (bs : List UInt8)

/-- A writer that has written `bs` of a message of `len` bytes. -/
def writing : Writer where
  buf := w.buf ++ (len / 2 ^ 8).toUInt8 :: (len % 2 ^ 8).toUInt8 :: bs
  count := w.count
  bodyStart := w.buf.length + 2
  msgLen := len

theorem writing_append (cs : List UInt8) :
    ({ w.writing len bs with buf := (w.writing len bs).buf ++ cs } : Writer) = w.writing len (bs ++ cs) := by
  rw [writing, writing, List.append_assoc]
  rfl

theorem put8_writing (v : UInt8) : (w.writing len bs).put8 v = w.writing len (bs ++ [v]) :=
  w.writing_append len bs [v]

theorem put16_writing (v : UInt16) : (w.writing len bs).put16 v = w.writing len (bs ++ bytesBe 2 v.toUInt64) :=
  w.writing_append len bs _

theorem put32_writing (v : UInt32) : (w.writing len bs).put32 v = w.writing len (bs ++ bytesBe 4 v.toUInt64) :=
  w.writing_append len bs _

theorem put48_writing (v : UInt64) : (w.writing len bs).put48 v = w.writing len (bs ++ bytesBe 6 v) :=
  w.writing_append len bs _

theorem put64_writing (v : UInt64) : (w.writing len bs).put64 v = w.writing len (bs ++ bytesBe 8 v) :=
  w.writing_append len bs _

theorem putSymbol_writing (s : Symbol) : (w.writing len bs).putSymbol s = w.writing len (bs ++ s.data.toList) :=
  w.writing_append len bs _

theorem putPrice_writing (p : Price) : (w.writing len bs).putPrice p = w.writing len (bs ++ priceBytes p) :=
  w.writing_append len bs _

theorem pad_writing (n : Nat) :
    (w.writing len bs).pad n = w.writing len (bs ++ List.replicate (n - bs.length) 0) := by
  have hl : (w.writing len bs).buf.length - (w.writing len bs).bodyStart = bs.length := by
    simp only [writing, List.length_append, List.length_cons]
    omega
  rw [pad, hl]
  exact w.writing_append len bs _

theorem start_eq (type : Char) :
    w.start type len = w.writing len (header type).flatten := by
  have hhi := shift_toUInt8 len
  have hlo := and_toUInt8 len
  have hstart : ({ buf := w.buf ++ [((len >>> 8) &&& 0xFF).toUInt8, (len &&& 0xFF).toUInt8], count := w.count
                   bodyStart := (w.buf ++ [((len >>> 8) &&& 0xFF).toUInt8, (len &&& 0xFF).toUInt8]).length
                   msgLen := len } : Writer) = w.writing len [] := by
    rw [writing, hhi, hlo, List.length_append]
    rfl
  rw [start]
  dsimp only
  rw [hstart, put8_writing, put16_writing, put16_writing]
  rfl

/-- The end of a message that has all its bytes. -/
theorem finish_writing (h : bs.length = len) :
    (w.writing len bs).finish =
      { buf := w.buf ++ frame bs, count := w.count + 1, bodyStart := w.buf.length + 2, msgLen := len } := by
  rw [finish, pad_writing, h]
  dsimp only [writing]
  rw [Nat.sub_self, List.replicate_zero, List.append_nil, frame, h]

theorem put8s_writing (f : Nat → UInt8) : ∀ (is : List Nat) (bs : List UInt8),
    is.foldl (fun w i => w.put8 (f i)) (w.writing len bs) = w.writing len (bs ++ is.map f)
  | [], bs => by rw [List.foldl_nil, List.map_nil, List.append_nil]
  | i :: is, bs => by
    rw [List.foldl_cons, put8_writing, put8s_writing f is, List.append_assoc, List.map_cons, List.singleton_append]

/-- The end of the message of a call. -/
theorem finish_body {c : WriterCall} (hlen : c.type.length = len) (h : bs = c.body) :
    (w.writing len bs).finish =
      { buf := w.buf ++ frame c.body, count := w.count + 1, bodyStart := w.buf.length + 2
        msgLen := c.type.length } := by
  rw [h, hlen]
  exact w.finish_writing _ _ ((body_length c).trans hlen)

/-- A call appends a frame. -/
theorem call_eq (c : WriterCall) : w.call c =
    { buf := w.buf ++ frame c.body, count := w.count + 1, bodyStart := w.buf.length + 2
      msgLen := c.type.length } := by
  cases c <;>
    simp only [call, systemEvent, stockDirectory, addOrder, addOrderMpid, orderExecuted, orderExecutedWithPrice,
      orderCancel, orderDelete, orderReplace, tradeNonCross, stockTradingAction, start_eq, put8_writing,
      put32_writing, put48_writing, put64_writing, putSymbol_writing, putPrice_writing, pad_writing,
      put8s_writing] <;>
    refine w.finish_body _ _ rfl ?_ <;>
    simp [WriterCall.body, WriterCall.fields, header, bytesBe_length]

end Writer

/-! ## What a message reads -/

/-- What a timestamp field keeps. -/
def timestampField (ts : UInt64) : UInt64 := (ts.toNat % 2 ^ 48).toUInt64

/-- What a price field keeps. -/
def priceField (p : Price) : Price := Int64.ofInt (p.toInt % 2 ^ 32)

theorem toInt_emod (p : Price) : p.toInt % 2 ^ 32 = (p.toUInt64.toNat % 2 ^ 32 : Nat) := by
  have h : p.toInt = p.toBitVec.toInt := rfl
  have h' : p.toUInt64.toNat = p.toBitVec.toNat := rfl
  rw [h, h', BitVec.toInt_eq_toNat_cond]
  split <;> omega

theorem priceField_eq (p : Price) : p.toUInt64.toUInt32.toUInt64.toInt64 = priceField p := by
  have hlt : p.toUInt64.toNat % 2 ^ 32 < 2 ^ 32 := Nat.mod_lt _ (by decide)
  refine Int64.toInt.inj ?_
  rw [priceField, toInt_emod, Int64.toInt_ofInt_of_le (by omega) (by omega)]
  show BitVec.toInt p.toUInt64.toUInt32.toUInt64.toBitVec = _
  rw [BitVec.toInt_eq_toNat_of_lt]
  · show ((p.toUInt64.toUInt32.toUInt64.toNat : Nat) : Int) = _
    rw [UInt32.toNat_toUInt64, UInt64.toNat_toUInt32]
  · show 2 * p.toUInt64.toUInt32.toUInt64.toNat < 2 ^ 64
    rw [UInt32.toNat_toUInt64, UInt64.toNat_toUInt32]
    omega

section Fields

variable {fs : List (List UInt8)} {k i : Nat}

theorem flatten_at {f : List UInt8} (h : fs[k]? = some f) :
    fs.flatten = (fs.take k).flatten ++ f ++ (fs.drop (k + 1)).flatten := by
  obtain ⟨hk, rfl⟩ := List.getElem?_eq_some_iff.mp h
  conv_lhs => rw [← List.take_append_drop k fs, List.drop_eq_getElem_cons hk, List.flatten_append, List.flatten_cons,
    ← List.append_assoc]

theorem be_field {n : Nat} {v : UInt64} (hn : n ≤ 8) (h : fs[k]? = some (bytesBe n v))
    (hi : (fs.take k).flatten.length = i) :
    ∃ w, be n fs.flatten i = some w ∧ w.toNat = v.toNat % 2 ^ (8 * n) := by
  rw [flatten_at h, ← hi]
  exact be_bytesBe _ _ v hn

theorem byte_field {b : UInt8} (h : fs[k]? = some [b]) (hi : (fs.take k).flatten.length = i) :
    fs.flatten[i]? = some b := by
  rw [flatten_at h, ← hi]
  simp

theorem be48_field {ts : UInt64} (h : fs[k]? = some (bytesBe 6 ts)) (hi : (fs.take k).flatten.length = i) :
    be48 fs.flatten i = some (timestampField ts) := by
  obtain ⟨w, hw, hv⟩ := be_field (by decide) h hi
  have hlt : ts.toNat % 2 ^ 48 < 2 ^ 64 := by omega
  rw [be48, hw, timestampField]
  exact congrArg some (UInt64.toNat_inj.mp (hv.trans (UInt64.toNat_ofNat_of_lt' hlt).symm))

theorem be64_field {v : UInt64} (h : fs[k]? = some (bytesBe 8 v)) (hi : (fs.take k).flatten.length = i) :
    be64 fs.flatten i = some v := by
  obtain ⟨w, hw, hv⟩ := be_field (by decide) h hi
  rw [Nat.mod_eq_of_lt v.toNat_lt] at hv
  rw [be64, hw, UInt64.toNat_inj.mp hv]

theorem be32_field {v : UInt32} (h : fs[k]? = some (bytesBe 4 v.toUInt64)) (hi : (fs.take k).flatten.length = i) :
    be32 fs.flatten i = some v := by
  obtain ⟨w, hw, hv⟩ := be_field (by decide) h hi
  rw [be32, hw, Option.map_some]
  refine congrArg some (UInt32.toNat_inj.mp ?_)
  rw [UInt64.toNat_toUInt32, hv, UInt32.toNat_toUInt64, Nat.mod_mod, Nat.mod_eq_of_lt v.toNat_lt]

theorem bePrice_field {p : Price} (h : fs[k]? = some (priceBytes p)) (hi : (fs.take k).flatten.length = i) :
    bePrice fs.flatten i = some (priceField p) := by
  rw [bePrice, be32_field h hi, Option.map_some, priceField_eq]

theorem symbol_field {s : Symbol} (h : fs[k]? = some s.data.toList) (hi : (fs.take k).flatten.length = i) :
    Symbol.fromWire fs.flatten i = some s := by
  have hb : ∀ j (hj : j < 8), fs.flatten[i + j]? = some s.data[j] := by
    intro j hj
    rw [flatten_at h, ← hi, List.append_assoc, List.getElem?_append_right (Nat.le_add_right _ _),
      Nat.add_sub_cancel_left,
      List.getElem?_append_left (by rwa [symbol_length])]
    simp
  have h0 := hb 0 (by decide)
  rw [Nat.add_zero] at h0
  rw [Symbol.fromWire, h0, hb 1 (by decide), hb 2 (by decide), hb 3 (by decide), hb 4 (by decide),
    hb 5 (by decide), hb 6 (by decide), hb 7 (by decide)]
  simp only [Option.bind_eq_bind, Option.bind_some]
  congr 1
  cases s with
  | mk data =>
    congr 1
    ext j hj
    interval_cases j <;> rfl

end Fields
theorem sideByte_eq (s : Side) : (if sideByte s = 'B'.toUInt8 then Side.bid else .ask) = s := by
  cases s <;> decide

theorem printable_eq (b : Bool) : decide ((if b then 'Y'.toUInt8 else 'N'.toUInt8) = 'Y'.toUInt8) = b := by
  cases b <;> decide

theorem addOrder_decodes {fs : List (List UInt8)} {ts : UInt64} {ref : OrderId} {side : Side} {shares : Qty}
    {sym : Symbol}
    {price : Price} {type : Char} (post : List (List UInt8)) (h : fs = header type ++ [bytesBe 6 ts, bytesBe 8 ref, [sideByte side],
      bytesBe 4 shares.toUInt64, sym.data.toList, priceBytes price] ++ post) :
    decodeAddOrder fs.flatten = some {
      timestamp := timestampField ts, reference := ref, side, shares, symbol := sym, price := priceField price } := by
  subst h
  rw [decodeAddOrder, be48_field (k := 3) (by rfl) (by rfl), be64_field (k := 4) (by rfl) (by rfl),
    byte_field (k := 5) (by rfl) (by rfl), be32_field (k := 6) (by rfl) (by rfl), symbol_field (k := 7) (by rfl) (by rfl),
    bePrice_field (k := 8) (by rfl) (by simp [header, bytesBe_length])]
  simp only [Option.bind_eq_bind, Option.bind_some, sideByte_eq]

/-- What the decoder of its type makes of the message of a call. -/
def WriterCall.Decodes (msg : List UInt8) : WriterCall → Prop
  | .systemEvent ts code => decodeSystemEvent msg = some { timestamp := timestampField ts, code }
  | .stockDirectory ts symbol marketCategory =>
    decodeStockDirectory msg = some { timestamp := timestampField ts, symbol, marketCategory }
  | .addOrder ts reference side shares symbol price | .addOrderMpid ts reference side shares symbol price _ =>
    decodeAddOrder msg = some { timestamp := timestampField ts, reference, side, shares, symbol, price := priceField price }
  | .orderExecuted ts reference shares matchNumber =>
    decodeOrderExecuted msg = some { timestamp := timestampField ts, reference, shares, matchNumber }
  | .orderExecutedWithPrice ts reference shares matchNumber printable price =>
    decodeOrderExecuted msg = some {
      timestamp := timestampField ts, reference, shares, matchNumber, hasPrice := true, printable
      price := priceField price }
  | .orderCancel ts reference shares =>
    decodeOrderCancel msg = some { timestamp := timestampField ts, reference, shares }
  | .orderDelete ts reference => decodeOrderDelete msg = some { timestamp := timestampField ts, reference }
  | .orderReplace ts originalReference newReference shares price =>
    decodeOrderReplace msg = some {
      timestamp := timestampField ts, originalReference, newReference, shares, price := priceField price }
  | .tradeNonCross .. | .stockTradingAction .. => True

theorem WriterCall.decodes (c : WriterCall) : c.Decodes c.body := by
  cases c with
  | systemEvent ts code =>
    show decodeSystemEvent (List.flatten _) = _
    rw [decodeSystemEvent, be48_field (k := 3) (by rfl) (by rfl), byte_field (k := 4) (by rfl) (by rfl)]
    rfl
  | stockDirectory ts sym category =>
    show decodeStockDirectory (List.flatten _) = _
    rw [decodeStockDirectory, be48_field (k := 3) (by rfl) (by rfl), symbol_field (k := 4) (by rfl) (by rfl),
      byte_field (k := 5) (by rfl) (by simp [WriterCall.fields, header, bytesBe_length])]
    rfl
  | addOrder ts ref side shares sym price => exact addOrder_decodes [] rfl
  | addOrderMpid ts ref side shares sym price mpid => exact addOrder_decodes [_] rfl
  | orderExecuted ts ref shares matchNumber =>
    show decodeOrderExecuted (List.flatten _) = _
    rw [decodeOrderExecuted, be48_field (k := 3) (by rfl) (by rfl), be64_field (k := 4) (by rfl) (by rfl),
      be32_field (k := 5) (by rfl) (by rfl),
      be64_field (k := 6) (by rfl) (by rfl), byte_field (k := 0) (by rfl) (by rfl)]
    rfl
  | orderExecutedWithPrice ts ref shares matchNumber printable price =>
    show decodeOrderExecuted (List.flatten _) = _
    rw [decodeOrderExecuted, be48_field (k := 3) (by rfl) (by rfl), be64_field (k := 4) (by rfl) (by rfl),
      be32_field (k := 5) (by rfl) (by rfl),
      be64_field (k := 6) (by rfl) (by rfl), byte_field (k := 0) (by rfl) (by rfl),
      byte_field (k := 7) (by rfl) (by rfl), bePrice_field (k := 8) (by rfl) (by rfl)]
    simp only [Option.bind_eq_bind, Option.bind_some, printable_eq]
    rfl
  | orderCancel ts ref shares =>
    show decodeOrderCancel (List.flatten _) = _
    rw [decodeOrderCancel, be48_field (k := 3) (by rfl) (by rfl), be64_field (k := 4) (by rfl) (by rfl),
      be32_field (k := 5) (by rfl) (by rfl)]
    rfl
  | orderDelete ts ref =>
    show decodeOrderDelete (List.flatten _) = _
    rw [decodeOrderDelete, be48_field (k := 3) (by rfl) (by rfl), be64_field (k := 4) (by rfl) (by rfl)]
    rfl
  | orderReplace ts orig fresh shares price =>
    show decodeOrderReplace (List.flatten _) = _
    rw [decodeOrderReplace, be48_field (k := 3) (by rfl) (by rfl), be64_field (k := 4) (by rfl) (by rfl),
      be64_field (k := 5) (by rfl) (by rfl),
      be32_field (k := 6) (by rfl) (by rfl), bePrice_field (k := 7) (by rfl) (by rfl)]
    rfl
  | tradeNonCross | stockTradingAction => trivial
/-- A delivered message is the one that the call wrote. -/
structure WriterCall.Delivers (c : WriterCall) (msg : List UInt8) : Prop where
  type : msg.head? = some c.type.code.toUInt8
  length : msg.length = c.type.length
  decodes : c.Decodes msg

theorem WriterCall.delivers (c : WriterCall) : c.Delivers c.body := ⟨body_head c, body_length c, c.decodes⟩

/-! ## Runs -/

/-- A run of calls appends a frame for each. -/
theorem Writer.calls_eq : ∀ (calls : List WriterCall) (w : Writer),
    (calls.foldl Writer.call w).bytes = w.bytes ++ (calls.map WriterCall.body).flatMap frame ∧
      (calls.foldl Writer.call w).messageCount = w.messageCount + calls.length
  | [], w => ⟨(List.append_nil _).symm, rfl⟩
  | c :: calls, w => by
    obtain ⟨hb, hc⟩ := Writer.calls_eq calls (w.call c)
    rw [List.foldl_cons]
    constructor
    · rw [hb, w.call_eq c, List.map_cons, List.flatMap_cons, ← List.append_assoc]
      rfl
    · rw [hc, w.call_eq c, List.length_cons]
      show w.count + 1 + _ = w.count + _
      omega

/-- What a reader of a run's file is given. -/
theorem Writer.calls_read (calls : List WriterCall) :
    ∃ r, forEachFramedMessage (calls.foldl Writer.call {}).bytes = some (calls.map WriterCall.body, r) ∧
      r.status = .ok ∧ r.messages = calls.length := by
  have hbytes : (calls.foldl Writer.call {}).bytes = (calls.map WriterCall.body).flatMap frame :=
    (Writer.calls_eq calls {}).1
  have hwf : ∀ msg ∈ calls.map WriterCall.body, WellFormed msg := by
    intro msg hm
    obtain ⟨c, -, rfl⟩ := List.mem_map.mp hm
    exact body_wellFormed c
  have hframed : Chops nextFramed ((calls.map WriterCall.body).flatMap frame ++ [])
    (calls.map WriterCall.body ++ []) [] {} := framed_frames.chops hwf (.stop rfl)
  rw [List.append_nil, List.append_nil] at hframed
  have hread := forEachFramedMessage_eq hframed
  rw [← hbytes] at hread
  exact ⟨_, hread, rfl, List.length_map ..⟩

/-- The messages of a run of calls are delivered in order, each with the fields
that its decoder reads, framed and with their lengths taken off. -/
theorem writer_round_trip (calls : List WriterCall) :
    ∃ w msgs r raw, calls.foldl Writer.call {} = w ∧ w.bytes = msgs.flatMap frame ∧
      forEachFramedMessage w.bytes = some (msgs, r) ∧ r.status = .ok ∧ r.messages = w.messageCount ∧
      w.messageCount = calls.length ∧ List.Forall₂ WriterCall.Delivers calls msgs ∧
      forEachRawMessage msgs.flatten = some (msgs, raw) ∧ raw.status = .ok ∧ raw.messages = calls.length := by
  obtain ⟨hbytes, hcount⟩ := Writer.calls_eq calls {}
  have hcount : (calls.foldl Writer.call {}).messageCount = calls.length := hcount.trans (Nat.zero_add _)
  obtain ⟨r, hread, hstatus, hmessages⟩ := Writer.calls_read calls
  have hwf : ∀ msg ∈ calls.map WriterCall.body, RawWellFormed msg := by
    intro msg hm
    obtain ⟨c, -, rfl⟩ := List.mem_map.mp hm
    exact body_rawWellFormed c
  have hraw : Chops nextRaw ((calls.map WriterCall.body).flatMap id ++ []) (calls.map WriterCall.body ++ []) [] {} :=
    raw_frames.chops hwf (.stop rfl)
  rw [List.append_nil, List.append_nil, List.flatMap_id] at hraw
  refine ⟨_, calls.map WriterCall.body, r, _, rfl, hbytes, hread, hstatus, ?_, hcount, ?_, forEachRawMessage_eq hraw,
    rfl, ?_⟩
  · rw [hmessages, hcount]
  · exact List.forall₂_map_right_iff.mpr (List.forall₂_same.mpr fun c _ => c.delivers)
  · exact List.length_map ..

/-! ## The calls as messages -/

/-- What a replayer reads in the message of a call. -/
def WriterCall.said : WriterCall → Message
  | .systemEvent ts code => .systemEvent { timestamp := timestampField ts, code }
  | .addOrder ts reference side shares symbol price | .addOrderMpid ts reference side shares symbol price _ =>
    .add { timestamp := timestampField ts, reference, side, shares, symbol, price := priceField price }
  | .orderExecuted ts reference shares matchNumber =>
    .executed { timestamp := timestampField ts, reference, shares, matchNumber }
  | .orderExecutedWithPrice ts reference shares matchNumber printable price =>
    .executed {
      timestamp := timestampField ts, reference, shares, matchNumber, hasPrice := true, printable
      price := priceField price }
  | .orderCancel ts reference shares => .cancel { timestamp := timestampField ts, reference, shares }
  | .orderDelete ts reference => .delete { timestamp := timestampField ts, reference }
  | .orderReplace ts originalReference newReference shares price =>
    .replace {
      timestamp := timestampField ts, originalReference, newReference, shares, price := priceField price }
  | .tradeNonCross ts .. => .trade (timestampField ts)
  | .stockDirectory .. | .stockTradingAction .. => .administrative

theorem ofByte_of_code (t : MsgType) : MsgType.ofByte t.code.toUInt8 = some t := by
  cases t <;> decide

theorem decode_body (c : WriterCall) : decode c.body = some c.said := by
  have hd := c.decodes
  rw [decode, ← List.head?_eq_getElem?, body_head c, Option.bind_eq_bind, Option.bind_some, ofByte_of_code]
  cases c with
  | systemEvent => exact Option.map_eq_some_iff.mpr ⟨_, hd, rfl⟩
  | stockDirectory => rfl
  | addOrder => exact Option.map_eq_some_iff.mpr ⟨_, hd, rfl⟩
  | addOrderMpid => exact Option.map_eq_some_iff.mpr ⟨_, hd, rfl⟩
  | orderExecuted => exact Option.map_eq_some_iff.mpr ⟨_, hd, rfl⟩
  | orderExecutedWithPrice => exact Option.map_eq_some_iff.mpr ⟨_, hd, rfl⟩
  | orderCancel => exact Option.map_eq_some_iff.mpr ⟨_, hd, rfl⟩
  | orderDelete => exact Option.map_eq_some_iff.mpr ⟨_, hd, rfl⟩
  | orderReplace => exact Option.map_eq_some_iff.mpr ⟨_, hd, rfl⟩
  | tradeNonCross ts ref side shares sym price matchNumber =>
    have hts : be48 (List.flatten (WriterCall.tradeNonCross ts ref side shares sym price matchNumber).fields) 5 =
      some (timestampField ts) := be48_field (k := 3) rfl rfl
    exact Option.map_eq_some_iff.mpr ⟨_, hts, rfl⟩
  | stockTradingAction => rfl

/-- A price that fits its field. -/
theorem priceField_of_fits {p : Price} (h0 : 0 ≤ p.toInt) (h : p.toInt < 2 ^ 32) : priceField p = p := by
  rw [priceField, Int.emod_eq_of_lt h0 h]
  exact Int64.ofInt_toInt p

end Itch

end Pricetime
