import Pricetime.Proof.FeedIntegrity
import Pricetime.Proof.Rejection
import Pricetime.Proof.Responses

/-!
# Prices on the feed

The book takes any price of 64 bits, and the price field of a message keeps 32
of them. The message that shows an order has the price that the order rests at
if and only if that is one of them (`price_shown_iff`), in every state that a
run reaches, however many orders rest.

Without self-trade prevention, matching leaves what it has not filled
(`matchOrder_left`), so that an order is shown exactly when it rests.
-/

namespace Pricetime

open Wire (Request Response ReqKind RespKind)
open Itch (WriterCall priceField)

theorem Engine.filledQty_cons (x : Execution) (execs : List Execution) :
    Engine.filledQty (x :: execs) = x.qty + Engine.filledQty execs := by
  have start : ∀ (execs : List Execution) (filled : Qty),
      execs.foldl (fun filled x => filled + x.qty) filled = filled + Engine.filledQty execs := by
    intro execs
    induction execs with
    | nil => exact fun filled => (UInt32.add_zero filled).symm
    | cons x execs ih =>
      intro filled
      have hone : Engine.filledQty (x :: execs) = 0 + x.qty + Engine.filledQty execs := ih (0 + x.qty)
      rw [List.foldl_cons, ih, hone, UInt32.zero_add, UInt32.add_assoc]
  have hone : Engine.filledQty (x :: execs) = 0 + x.qty + Engine.filledQty execs := start execs (0 + x.qty)
  rw [hone, UInt32.zero_add]

theorem Engine.filledQty_append : ∀ xs ys : List Execution,
    Engine.filledQty (xs ++ ys) = Engine.filledQty xs + Engine.filledQty ys
  | [], ys => (UInt32.zero_add _).symm
  | x :: xs, ys => by
    rw [List.cons_append, filledQty_cons, filledQty_append xs ys, filledQty_cons, UInt32.add_assoc]

namespace OrderBook

open Engine (filledQty filledQty_cons filledQty_append)

variable {L M : Type} [Ladder L] [IdMap M] {b b' : OrderBook L M}

/-! ## The policy stays -/

omit [Ladder L] in
theorem removeOrder_stp {q : LevelPtr} {o : OrderPtr} (hb : b.removeOrder q o = some b') : b'.stp = b.stp := by
  obtain ⟨m, -, hb⟩ := Option.bind_eq_some_iff.mp hb
  cases hb
  rfl

omit [IdMap M] in
theorem dropIfEmpty_stp {s : Side} {q : LevelPtr} (hb : b.dropIfEmpty s q = some b') : b'.stp = b.stp := by
  rw [dropIfEmpty] at hb
  split at hb
  · obtain ⟨ladder, -, hb⟩ := Option.bind_eq_some_iff.mp hb
    cases hb
    rfl
  · cases hb
    rfl

omit [Ladder L] in
theorem fillResting_stp {q : LevelPtr} {o : OrderPtr} {fill : Qty} (hb : b.fillResting q o fill = some b') :
    b'.stp = b.stp := by
  rw [fillResting] at hb
  dsimp only at hb
  split at hb
  · have h := removeOrder_stp hb
    exact h
  · obtain rfl := Option.some.inj hb
    rfl

theorem rest_stp {id : OrderId} {side : Side} {price : Price} {qty : Qty} {actor : ParticipantId}
    (hb : b.rest id side price qty actor = some b') : b'.stp = b.stp := by
  obtain ⟨g, -, hb⟩ := Option.bind_eq_some_iff.mp hb
  obtain ⟨m, -, hb⟩ := Option.bind_eq_some_iff.mp hb
  cases hb
  rfl

theorem cancelOpen_stp {o : OrderPtr} (hb : b.cancelOpen o = some b') : b'.stp = b.stp := by
  obtain ⟨q, -, hb⟩ := Option.bind_eq_some_iff.mp hb
  obtain ⟨b₁, hb₁, hb⟩ := Option.bind_eq_some_iff.mp hb
  have h := removeOrder_stp hb₁
  exact (dropIfEmpty_stp hb).trans h

theorem cancel_stp {id : OrderId} {reply : Reply} (hb : b.cancel id = some (reply, b')) : b'.stp = b.stp := by
  obtain ⟨o, -, hb⟩ := Option.bind_eq_some_iff.mp hb
  cases o with
  | none =>
    cases hb
    rfl
  | some o =>
    obtain ⟨b₁, hb₁, hb⟩ := Option.bind_eq_some_iff.mp hb
    cases hb
    exact cancelOpen_stp hb₁

theorem consume_stp {id : OrderId} {qty : Qty} {isExecution : Bool} {reply : Reply}
    (hb : b.consume id qty isExecution = some (reply, b')) : b'.stp = b.stp := by
  obtain ⟨o, -, hb⟩ := Option.bind_eq_some_iff.mp hb
  cases o with
  | none =>
    cases hb
    rfl
  | some o =>
    by_cases hq : qty = 0
    · simp only [hq, if_true] at hb
      cases hb
      rfl
    simp only [if_neg hq] at hb
    obtain ⟨lvl, -, hb⟩ := Option.bind_eq_some_iff.mp hb
    by_cases htake : (if qty < (b.heap.order o).qty then qty else (b.heap.order o).qty) = (b.heap.order o).qty
    · rw [if_pos htake] at hb
      obtain ⟨b₁, hb₁, hb⟩ := Option.bind_eq_some_iff.mp hb
      obtain ⟨b₂, hb₂, hb⟩ := Option.bind_eq_some_iff.mp hb
      cases hb
      have h := removeOrder_stp hb₁
      exact (dropIfEmpty_stp hb₂).trans h
    · rw [if_neg htake] at hb
      cases hb
      rfl

/-! ## What matching leaves -/

omit [Ladder L] [IdMap M] in
theorem stpOn_none (h : b.stp = .none) (actor : ParticipantId) : b.stpOn actor = false := by
  simp [stpOn, h]

omit [Ladder L] in
theorem matchLevel_left (aggressor : OrderId) (actor : ParticipantId) (q : LevelPtr) :
    ∀ (fuel : Nat) {b : OrderBook L M} {qty : Qty} {r : OrderBook L M × Qty × Bool × List Execution},
      b.stp = .none → matchLevel aggressor actor q fuel b qty = some r →
      r.1.stp = .none ∧ r.2.2.1 = false ∧ r.2.1 + filledQty r.2.2.2 = qty
  | 0, _, _, _, _, hb => by cases hb
  | fuel + 1, b, qty, r, h, hb => by
    rw [matchLevel] at hb
    split at hb
    · cases hb
      exact ⟨h, rfl, UInt32.add_zero _⟩
    split at hb
    · cases hb
      exact ⟨h, rfl, UInt32.add_zero _⟩
    dsimp only at hb
    rw [if_neg fun e => by simp [stpOn_none h] at e] at hb
    obtain ⟨b₁, hb₁, hb⟩ := Option.bind_eq_some_iff.mp hb
    obtain ⟨r', hr', hb⟩ := Option.bind_eq_some_iff.mp hb
    cases hb
    obtain ⟨hstp, hkilled, hleft⟩ := matchLevel_left aggressor actor q fuel ((fillResting_stp hb₁).trans h) hr'
    refine ⟨hstp, hkilled, ?_⟩
    show r'.2.1 + filledQty (_ :: r'.2.2.2) = qty
    rw [filledQty_cons]
    grind

theorem matchLoop_left (aggressor : OrderId) (actor : ParticipantId) (side : Side) (price : Option Price) :
    ∀ (fuel : Nat) {b : OrderBook L M} {qty : Qty} {r : OrderBook L M × Qty × List Execution},
      b.stp = .none → matchLoop aggressor actor side price fuel b qty = some r →
      r.1.stp = .none ∧ r.2.1 + filledQty r.2.2 = qty
  | 0, _, _, _, _, hb => by cases hb
  | fuel + 1, b, qty, r, h, hb => by
    rw [matchLoop] at hb
    split at hb
    · cases hb
      exact ⟨h, UInt32.add_zero _⟩
    split at hb
    · cases hb
      exact ⟨h, UInt32.add_zero _⟩
    split at hb
    · obtain ⟨r₁, hr₁, hb⟩ := Option.bind_eq_some_iff.mp hb
      obtain ⟨b₂, hb₂, hb⟩ := Option.bind_eq_some_iff.mp hb
      obtain ⟨hstp, hkilled, hleft⟩ := matchLevel_left aggressor actor _ _ h hr₁
      dsimp only at hb
      rw [hkilled, if_neg Bool.false_ne_true] at hb
      obtain ⟨r₃, hr₃, hb⟩ := Option.bind_eq_some_iff.mp hb
      cases hb
      obtain ⟨hstp', hleft'⟩ := matchLoop_left aggressor actor side price fuel ((dropIfEmpty_stp hb₂).trans hstp) hr₃
      refine ⟨hstp', ?_⟩
      show r₃.2.1 + filledQty (r₁.2.2.2 ++ r₃.2.2) = qty
      rw [filledQty_append]
      grind
    · cases hb
      exact ⟨h, UInt32.add_zero _⟩

/-- Without a policy, matching leaves what it has not filled. -/
theorem matchOrder_left {aggressor : OrderId} {actor : ParticipantId} {side : Side} {price : Option Price} {qty : Qty}
    {r : OrderBook L M × Qty × List Execution} (h : b.stp = .none)
    (hb : b.matchOrder aggressor actor side price qty = some r) : r.1.stp = .none ∧ r.2.1 = qty - filledQty r.2.2 := by
  obtain ⟨hstp, hleft⟩ := matchLoop_left aggressor actor side price _ h hb
  exact ⟨hstp, by rw [← hleft, UInt32.add_sub_cancel]⟩

/-! ## Orders that come to rest -/

variable [LawfulLadder L] [LawfulIdMap M]

/-- The nodes are consistent, and no policy is set. -/
structure Plain (b : OrderBook L M) : Prop where
  inv : NodeInv b
  stp : b.stp = .none

/-- An accepted order rests with what is left of it, if that is something. -/
structure Entered (b' : OrderBook L M) (id : OrderId) (price : Price) (qty : Qty) (reply : Reply) : Prop where
  plain : Plain b'
  rests : reply.result = .ok → ∀ d, b'.orderOf id = some d → d.price = price ∧ qty - filledQty reply.execs > 0
  left : reply.result = .ok → qty - filledQty reply.execs > 0 → ∃ d, b'.orderOf id = some d ∧ d.price = price

theorem addLimitAs_entered (h : Plain b) {actor : ParticipantId} {id : OrderId} {side : Side} {price : Price}
    {qty : Qty} {reply : Reply} (hb : b.addLimitAs actor id side price qty = some (reply, b')) :
    Entered b' id price qty reply := by
  have hinv := (addLimitAs_answered h.inv hb).1.inv
  obtain ⟨r, hr, hok⟩ := validate_spec h.inv id price qty
  rw [addLimitAs, hr] at hb
  simp only [Option.bind_eq_bind, Option.bind_some] at hb
  split at hb
  · rename_i hne
    cases hb
    exact ⟨h, fun e => absurd e hne, fun e => absurd e hne⟩
  rename_i hv
  obtain ⟨h0, hq, hp, hl⟩ := hok.mp (Classical.not_not.mp hv)
  obtain ⟨m, hm, hb⟩ := Option.bind_eq_some_iff.mp hb
  have hc := h.inv.setCounters (b.counters.add qty)
  have hk := hc.trans (matchOrder_keeps hc.inv hm)
  obtain ⟨hstp, hleft⟩ := matchOrder_left (b := b.countAdded qty) h.stp hm
  split at hb
  · rename_i hpos
    obtain ⟨b₂, hb₂, hb⟩ := Option.bind_eq_some_iff.mp hb
    cases hb
    have hch := rest_changes hk.inv h0 (hk.lookup_none hl) hb₂
    have ho : b'.orderOf id = some ⟨id, price, m.2.1, side, actor⟩ := by
      rw [hch.orderOf, Function.update_self]
    refine ⟨⟨hinv, (rest_stp hb₂).trans hstp⟩, fun _ d hd => ?_, fun _ _ => ⟨_, ho, rfl⟩⟩
    cases ho.symm.trans hd
    exact ⟨rfl, hleft ▸ hpos⟩
  · rename_i hpos
    cases hb
    refine ⟨⟨hinv, hstp⟩, fun _ d hd => ?_, fun _ hpos' => absurd (hleft ▸ hpos') hpos⟩
    cases (orderOf_eq_none.mpr (hk.lookup_none hl)).symm.trans hd

theorem replace_entered (h : Plain b) {oldId newId : OrderId} {newPrice : Price} {newQty : Qty} {reply : Reply}
    (hb : b.replace oldId newId newPrice newQty = some (reply, b')) :
    Entered b' newId newPrice newQty reply := by
  rcases replace_enters h.inv hb with ⟨r, rfl, hne, rfl, -⟩ | ⟨o, b₁, -, hl, hb₁, hb⟩
  · exact ⟨h, fun e => absurd e hne, fun e => absurd e hne⟩
  · have hb₁' : Plain b₁ := ⟨(cancelOpen_forgets h.inv hl hb₁).keeps.inv, (cancelOpen_stp hb₁).trans h.stp⟩
    have he := addLimitAs_entered hb₁' hb
    exact ⟨he.plain, he.rests, he.left⟩

/-- An order rests at a price. -/
def RestsAt (b : OrderBook L M) (id : OrderId) (p : Price) : Prop :=
  ∃ o, b.findOrder id = some (some o) ∧ (b.heap.order o).price = p

omit [Ladder L] [LawfulLadder L] in
theorem NodeInv.restsAt_iff (h : NodeInv b) {id : OrderId} {p : Price} :
    b.RestsAt id p ↔ ∃ d, b.orderOf id = some d ∧ d.price = p := by
  simp only [RestsAt, findOrder, h.find_eq, orderOf, Option.some.injEq, Option.map_eq_some_iff]
  constructor
  · rintro ⟨o, ho, rfl⟩
    exact ⟨_, ⟨o, ho, rfl⟩, rfl⟩
  · rintro ⟨_, ⟨o, ho, rfl⟩, rfl⟩
    exact ⟨o, ho, rfl⟩

end OrderBook

namespace Engine

open OrderBook (Plain Entered)

/-- The order that a message shows, and its price. -/
def shown (m : MdMsg) : Option (OrderId × Price) :=
  match Itch.decode m.payload with
  | some (.add m) => some (m.reference, m.price)
  | some (.replace m) => some (m.newReference, m.price)
  | _ => none

/-- The id that a request enters an order under. -/
def enteredId (req : Request) : OrderId := if req.kind = ReqKind.enter then req.id else req.newId

theorem shown_message (c : WriterCall) : shown c.message =
    match c.said with
    | .add m => some (m.reference, m.price)
    | .replace m => some (m.newReference, m.price)
    | _ => none := by
  rw [shown, WriterCall.payload_message, Itch.decode_body]
  cases c <;> rfl

theorem shown_executed (ts : UInt64) : ∀ (n : UInt64) (execs : List Execution),
    (executedCalls ts n execs).filterMap (fun c => shown c.message) = []
  | _, [] => rfl
  | n, x :: execs => by
    rw [executedCalls, List.filterMap_cons_none, shown_executed ts (n + 1) execs]
    rw [shown_message]
    rfl

/-- What a request shows: the order, if it is accepted and something is left
of it. -/
theorem shown_calls {symbol : Symbol} {ts n : UInt64} {req : Request}
    (hkind : req.kind = ReqKind.enter ∨ req.kind = ReqKind.replace) {a : Ask} (ha : ask symbol ts req = some a)
    (reply : Reply) : (a.calls ts n reply).filterMap (fun c => shown c.message) =
      if reply.result = .ok ∧ remainder req reply > 0 then [(enteredId req, priceField req.price)] else [] := by
  have hshow : (if reply.result = .ok then a.shown reply else []).filterMap (fun c => shown c.message) =
      if reply.result = .ok ∧ remainder req reply > 0 then [(enteredId req, priceField req.price)] else [] := by
    by_cases hr : reply.result = .ok
    swap
    · rw [if_neg hr, if_neg fun h => hr h.1]
      rfl
    rw [if_pos hr]
    rcases hkind with hk | hk
    · rw [ask, if_pos hk] at ha
      cases ha
      by_cases hleft : remainder req reply > 0
      · rw [if_pos ⟨hr, hleft⟩, enteredId, if_pos hk]
        dsimp only
        rw [if_pos hleft, List.filterMap_cons_some (shown_message _)]
        rfl
      · rw [if_neg fun h => hleft h.2]
        dsimp only
        rw [if_neg hleft]
        rfl
    · have hne : req.kind ≠ ReqKind.enter := by rw [hk]; decide
      rw [ask, if_neg hne, if_neg (by rw [hk]; decide), if_neg (by rw [hk]; decide), if_pos hk] at ha
      cases ha
      by_cases hleft : remainder req reply > 0
      · rw [if_pos ⟨hr, hleft⟩, enteredId, if_neg hne]
        dsimp only
        rw [if_pos hleft, List.filterMap_cons_some (shown_message _)]
        rfl
      · rw [if_neg fun h => hleft h.2]
        dsimp only
        rw [if_neg hleft, List.filterMap_cons_none (shown_message _)]
        rfl
  rw [Ask.calls, List.filterMap_append, shown_executed, hshow, List.nil_append]

theorem shown_pushes {symbol : Symbol} {ts n : UInt64} {req : Request}
    (hkind : req.kind = ReqKind.enter ∨ req.kind = ReqKind.replace) {a : Ask} (ha : ask symbol ts req = some a)
    {port : UInt16} (hport : port ≠ 0) {reply : Reply} {msgs : List MdMsg}
    (hmsgs : msgs = if port = 0 then [] else (a.calls ts n reply).map WriterCall.message) :
    msgs.filterMap shown =
      if reply.result = .ok ∧ remainder req reply > 0 then [(enteredId req, priceField req.price)] else [] := by
  rw [hmsgs, if_neg hport, List.filterMap_map]
  exact shown_calls hkind ha reply

theorem priceField_eq_iff {p : Price} : priceField p = p ↔ 0 ≤ p.toInt ∧ p.toInt < 2 ^ 32 := by
  refine ⟨fun h => ?_, fun h => Itch.priceField_of_fits h.1 h.2⟩
  have hle : (0 : Int) ≤ p.toInt % 2 ^ 32 := Int.emod_nonneg _ (by decide)
  have hlt : p.toInt % 2 ^ 32 < 2 ^ 32 := Int.emod_lt_of_pos _ (by decide)
  have htoInt := congrArg Int64.toInt h
  rw [priceField, Int64.toInt_ofInt_of_le (by omega) (by omega)] at htoInt
  rw [← htoInt]
  exact ⟨hle, hlt⟩

/-! ## Runs -/

/-- The book after its answer to a request. -/
theorem plain_asked {symbol : Symbol} {ts : UInt64} {req : Request} {a : Ask} (ha : ask symbol ts req = some a)
    {b b' : OrderBook MapLadder OpenAddressIdMap} (h : Plain b) {reply : Reply} (hb : b.apply a.op = some (reply, b')) :
    Plain b' := by
  rw [ask] at ha
  split_ifs at ha
  · cases ha
    exact (OrderBook.addLimitAs_entered h hb).plain
  · cases ha
    exact ⟨(OrderBook.cancel_orders h.inv hb).1.inv, (OrderBook.cancel_stp hb).trans h.stp⟩
  · cases ha
    exact ⟨(OrderBook.consume_orders h.inv hb).1.inv, (OrderBook.consume_stp hb).trans h.stp⟩
  · cases ha
    exact (OrderBook.replace_entered h hb).plain

/-- What a step pushes, by the answer of the book. -/
theorem step_asks {e e' : Engine} {op : UInt64 × Request} {out : Pushes} (hs : e.step op = some (out, e')) :
    (ask e.symbol op.1 op.2 = none ∧ e'.book = e.book ∧ e'.mdPort = e.mdPort) ∨
    ∃ a reply, ask e.symbol op.1 op.2 = some a ∧ e.book.apply a.op = some (reply, e'.book) ∧ e'.mdPort = e.mdPort ∧
      out.responses = a.responses op.2 reply ∧
      out.messages = if e.mdPort = 0 then [] else (a.calls op.1 e.matchNumber reply).map WriterCall.message := by
  obtain ⟨e₁, he₁, hs⟩ := Option.bind_eq_some_iff.mp hs
  cases hs
  cases ha : ask e.symbol op.1 op.2 with
  | none =>
    cases he₁.symm.trans (handle_ignored (e := { e with qOut := [], qMd := [] }) ha)
    exact .inl ⟨rfl, rfl, rfl⟩
  | some a =>
    obtain ⟨reply, book, hb, hp⟩ := handle_answered (e := { e with qOut := [], qMd := [] }) ha he₁
    exact .inr ⟨a, reply, rfl, hp.book ▸ hb, hp.mdPort, hp.qOut, hp.qMd⟩

theorem new_plain {symbol : Symbol} {mdPort : UInt16} {e₀ : Engine} (h₀ : new symbol mdPort = some e₀) :
    Plain e₀.book ∧ e₀.mdPort = mdPort := by
  obtain ⟨e, he, -, hmd, ho⟩ := Orders.new symbol mdPort
  cases h₀.symm.trans he
  obtain ⟨a, ⟨T, Q, h⟩, -, hstp⟩ := ho.book
  exact ⟨⟨h.rep.inv, h.stp.symm.trans hstp⟩, hmd⟩

theorem plain_of_run {symbol : Symbol} {mdPort : UInt16} {e₀ e : Engine} (h₀ : new symbol mdPort = some e₀)
    (reqs : List (UInt64 × Request)) (hrun : Runs.run step e₀ reqs = some e) : Plain e.book ∧ e.mdPort = mdPort := by
  refine Runs.inv_of_run (I := fun e => Plain e.book ∧ e.mdPort = mdPort) (fun e op out e' ⟨h, hmd⟩ hs => ?_) reqs
    (new_plain h₀) hrun
  rcases step_asks hs with ⟨-, hbook, hmd'⟩ | ⟨a, reply, ha, hb, hmd', -⟩
  · exact ⟨hbook ▸ h, hmd'.trans hmd⟩
  · exact ⟨plain_asked ha h hb, hmd'.trans hmd⟩

/-- The message that shows an accepted order has the price that the order rests
at if and only if the price is one of 32 bits; and there is such a message for
each accepted order that rests. -/
theorem price_shown_iff {symbol : Symbol} {mdPort : UInt16} (hport : mdPort ≠ 0) {e₀ : Engine}
    (h₀ : new symbol mdPort = some e₀) (reqs : List (UInt64 × Request)) {e : Engine}
    (hrun : Runs.run step e₀ reqs = some e) {ts : UInt64} {req : Request}
    (hkind : req.kind = ReqKind.enter ∨ req.kind = ReqKind.replace) {out : Pushes} {e' : Engine}
    (hs : e.step (ts, req) = some (out, e')) :
    (∀ id p, (id, p) ∈ out.messages.filterMap shown →
      (e'.book.RestsAt id p ↔ 0 ≤ req.price.toInt ∧ req.price.toInt < 2 ^ 32)) ∧
    (out.responses.head?.map Response.kind = some RespKind.accepted → e'.book.Rests (enteredId req) →
      ∃ p, out.messages.filterMap shown = [(enteredId req, p)]) := by
  obtain ⟨h, hmd⟩ := plain_of_run h₀ reqs hrun
  rcases step_asks hs with ⟨hno, -⟩ | ⟨a, reply, ha, hb, -, hresps, hmsgs⟩
  · rw [ask_eq_none_iff] at hno
    exact absurd (hkind.elim .inl fun hk => .inr (.inr (.inr hk))) hno
  have hent : Entered e'.book (enteredId req) req.price req.qty reply := by
    rcases hkind with hk | hk
    · rw [ask, if_pos hk] at ha
      cases ha
      rw [enteredId, if_pos hk]
      exact OrderBook.addLimitAs_entered h hb
    · have hne : req.kind ≠ ReqKind.enter := by rw [hk]; decide
      rw [ask, if_neg hne, if_neg (by rw [hk]; decide), if_neg (by rw [hk]; decide), if_pos hk] at ha
      cases ha
      rw [enteredId, if_neg hne]
      exact OrderBook.replace_entered h hb
  rw [shown_pushes hkind ha (hmd ▸ hport) hmsgs]
  constructor
  · intro id p hp
    split at hp
    · rename_i hok
      obtain ⟨rfl, rfl⟩ := Prod.mk.inj (List.mem_singleton.mp hp)
      obtain ⟨d, hd, hprice⟩ := hent.left hok.1 hok.2
      rw [hent.plain.inv.restsAt_iff, ← priceField_eq_iff]
      constructor
      · rintro ⟨d', hd', e⟩
        cases hd.symm.trans hd'
        exact e.symm.trans hprice
      · intro e
        exact ⟨d, hd, hprice.trans e.symm⟩
    · cases hp
  · intro hacc hrests
    have hok : reply.result = .ok := by
      refine Classical.byContradiction fun hne => ?_
      rw [hresps, Ask.responses, List.head?_cons, Option.map_some, Ask.primary] at hacc
      dsimp only at hacc
      rw [if_neg hne] at hacc
      exact absurd hacc (by decide)
    obtain ⟨d, hd⟩ := Option.ne_none_iff_exists'.mp ((hent.plain.inv.rests_iff _).mp hrests)
    exact ⟨_, if_pos ⟨hok, (hent.rests hok d hd).2⟩⟩

theorem restsAt_unique {b : OrderBook MapLadder OpenAddressIdMap} {id : OrderId} {p p' : Price} (h : b.RestsAt id p)
    (h' : b.RestsAt id p') : p = p' := by
  obtain ⟨o, ho, rfl⟩ := h
  obtain ⟨o', ho', rfl⟩ := h'
  cases ho.symm.trans ho'
  rfl

/-- The first order of an engine, at any price. -/
theorem first_order (p : Price) : ∃ (e e' : Engine) (out : Pushes), new {} 1 = some e ∧
    e.step (0, { id := 1, qty := 5, price := p }) = some (out, e') ∧
    out.responses.head?.map Response.kind = some RespKind.accepted ∧
    out.messages.filterMap shown = [(1, priceField p)] ∧ e'.book.RestsAt 1 p := by
  obtain ⟨b, h₀, hsim⟩ := new_sim {} 1
  have ho : Orders { symbol := {}, mdPort := 1, book := b } [] := ⟨⟨{}, hsim, .empty, rfl⟩, nofun⟩
  obtain ⟨out, e', -, -, -, hs, -⟩ := ho.step (hsim.few_iff.mpr (by decide)) (0, { id := 1, qty := 5, price := p })
  refine ⟨_, e', out, h₀, hs, ?_⟩
  rcases step_asks hs with ⟨hno, -⟩ | ⟨a, reply, ha, hb, -, hresps, hmsgs⟩
  · cases hno
  have hshown := shown_pushes (.inl rfl) ha (show (1 : UInt16) ≠ 0 by decide) hmsgs
  cases ha
  obtain ⟨b', hb', -⟩ := hsim.addLimitAs (hsim.within_of_few (hsim.few_iff.mpr (by decide))) 0 1 .bid p 5
  have hreply : reply = { result := .ok } := (Prod.mk.inj (Option.some.inj (hb.symm.trans hb'))).1
  subst hreply
  have hleft : (5 : Qty) - filledQty [] > 0 := by decide
  refine ⟨by rw [hresps]; rfl, ?_, ?_⟩
  · exact hshown.trans (if_pos (And.intro rfl hleft))
  · have hent := OrderBook.addLimitAs_entered (new_plain h₀).1 hb
    obtain ⟨d, hd, hp⟩ := hent.left rfl hleft
    exact hent.plain.inv.restsAt_iff.mpr ⟨d, hd, hp⟩

/-- A price of 33 bits. -/
theorem price_corrupted : ∃ (e e' : Engine) (out : Pushes), new {} 1 = some e ∧
    e.step (0, { id := 1, qty := 5, price := 4294967296 }) = some (out, e') ∧
    out.responses.head?.map Response.kind = some RespKind.accepted ∧ out.messages.filterMap shown = [(1, 0)] ∧
    e'.book.RestsAt 1 4294967296 ∧ ¬ e'.book.RestsAt 1 0 := by
  obtain ⟨e, e', out, h₀, hs, hacc, hshown, hrests⟩ := first_order 4294967296
  exact ⟨e, e', out, h₀, hs, hacc, hshown, hrests, fun h => absurd (restsAt_unique hrests h) (by decide)⟩

/-- The first order of an engine, at ten. -/
theorem price_shown_iff_first : ∃ (e e' : Engine) (out : Pushes), new {} 1 = some e ∧
    e.step (0, { id := 1, qty := 5, price := 10 }) = some (out, e') ∧ (1, 10) ∈ out.messages.filterMap shown ∧
    e'.book.RestsAt 1 10 := by
  obtain ⟨e, e', out, h₀, hs, -, hshown, -⟩ := first_order 10
  have hmem : (1, 10) ∈ out.messages.filterMap shown := by
    rw [hshown]
    exact List.mem_singleton.mpr rfl
  obtain ⟨hiff, -⟩ := price_shown_iff (by decide) h₀ [] rfl (.inl rfl) hs
  exact ⟨e, e', out, h₀, hs, hmem, (hiff 1 10 hmem).mpr (by decide)⟩

end Engine

end Pricetime
