import Pricetime.Proof.EngineOrders

/-!
# Which requests are answered

A request of one of the four named kinds is answered by one response, and then
by two for each execution, whatever the state of the engine
(`answered_iff`). Nothing answers a request of another kind, which `decode`
lets through.
-/

namespace Pricetime

open Wire (Request Response ReqKind RespKind)

namespace Engine

/-- The kinds of request that have a name. -/
def Named (kind : ReqKind) : Prop :=
  kind = ReqKind.enter ∨ kind = ReqKind.cancel ∨ kind = ReqKind.reduce ∨ kind = ReqKind.replace

/-- The kinds of response that come first. -/
def Primary (kind : RespKind) : Prop :=
  kind = RespKind.accepted ∨ kind = RespKind.rejected ∨ kind = RespKind.canceled ∨ kind = RespKind.reduced

/-- What a request asks of the book. -/
def opOf (req : Request) : Option OrderBook.Op :=
  if req.kind = ReqKind.enter then some (.addLimitAs 0 req.id (.ofByte req.side) req.price req.qty)
  else if req.kind = ReqKind.cancel then some (.cancel req.id)
  else if req.kind = ReqKind.reduce then some (.reduceResting req.id req.qty)
  else if req.kind = ReqKind.replace then some (.replace req.id req.newId req.price req.qty)
  else none

/-- The responses to an execution: the aggressor's copy, then the resting
order's. -/
def executedPair (clientTs : UInt64) (x : Execution) : List Response :=
  [{ kind := RespKind.executed, qty := x.qty, price := x.price, id := x.aggressorId, peer := x.restingId, clientTs },
    { kind := RespKind.executed, qty := x.qty, price := x.price, id := x.restingId, peer := x.aggressorId, clientTs }]

/-- The engine has pushed, and no more, one primary response and then two for
each execution that the book reported. -/
def Answered (e : Engine) (req : Request) (e' : Engine) : Prop :=
  ∃ (primary : Response) (execs : List Execution), Primary primary.kind ∧ primary.clientTs = req.clientTs ∧
    e'.qOut = e.qOut ++ primary :: execs.flatMap (executedPair req.clientTs) ∧
    ∀ op, opOf req = some op → ∃ reply, e.book.apply op = some (reply, e'.book) ∧ reply.execs = execs

theorem ask_eq_none_iff {symbol : Symbol} {ts : UInt64} {req : Request} :
    ask symbol ts req = none ↔ ¬ Named req.kind := by
  rw [ask, Named]
  split_ifs with henter hcancel hreduce hreplace
  · exact iff_of_false (by simp) fun h => h (.inl henter)
  · exact iff_of_false (by simp) fun h => h (.inr (.inl hcancel))
  · exact iff_of_false (by simp) fun h => h (.inr (.inr (.inl hreduce)))
  · exact iff_of_false (by simp) fun h => h (.inr (.inr (.inr hreplace)))
  · exact iff_of_true rfl fun h => h.elim henter (Or.rec hcancel (Or.rec hreduce hreplace))

theorem opOf_eq (symbol : Symbol) (ts : UInt64) (req : Request) : opOf req = (ask symbol ts req).map Ask.op := by
  rw [ask, opOf]
  split_ifs <;> rfl

theorem ask_primary {symbol : Symbol} {ts : UInt64} {req : Request} {a : Ask} (ha : ask symbol ts req = some a)
    (reply : Reply) : Primary (a.primary req reply).kind := by
  rw [Ask.primary]
  dsimp only
  split
  · rw [ask] at ha
    split_ifs at ha
    · cases ha
      exact .inl rfl
    · cases ha
      exact .inr (.inr (.inl rfl))
    · cases ha
      exact .inr (.inr (.inr rfl))
    · cases ha
      exact .inl rfl
  · exact .inr (.inl rfl)

theorem decode_kind {bytes : List UInt8} {req : Request} (hd : Request.decode bytes = some (some req)) :
    bytes.head? = some req.kind := by
  obtain ⟨tag, -, hd⟩ := Option.bind_eq_some_iff.mp hd
  split at hd
  · cases hd
  obtain ⟨tag', -, hd⟩ := Option.bind_eq_some_iff.mp hd
  split at hd
  · cases hd
  obtain ⟨kind, hkind, hd⟩ := Option.bind_eq_some_iff.mp hd
  obtain ⟨side, -, hd⟩ := Option.bind_eq_some_iff.mp hd
  obtain ⟨qty, -, hd⟩ := Option.bind_eq_some_iff.mp hd
  obtain ⟨price, -, hd⟩ := Option.bind_eq_some_iff.mp hd
  obtain ⟨id, -, hd⟩ := Option.bind_eq_some_iff.mp hd
  obtain ⟨newId, -, hd⟩ := Option.bind_eq_some_iff.mp hd
  obtain ⟨clientTs, -, hd⟩ := Option.bind_eq_some_iff.mp hd
  cases hd
  rwa [List.head?_eq_getElem?]

theorem answered_iff_named {e e' : Engine} {ts : UInt64} {req : Request} (hh : e.handle ts req = some e') :
    Answered e req e' ↔ Named req.kind := by
  constructor
  · rintro ⟨primary, execs, -, -, hpushed, -⟩
    refine Classical.byContradiction fun hno => ?_
    have hask : ask e.symbol ts req = none := ask_eq_none_iff.mpr hno
    cases hh.symm.trans (handle_ignored hask)
    simpa using List.append_cancel_left ((List.append_nil e.qOut).trans hpushed)
  · intro hnamed
    obtain ⟨a, ha⟩ := Option.ne_none_iff_exists'.mp fun h => ask_eq_none_iff.mp h hnamed
    obtain ⟨reply, book, hb, hp⟩ := handle_answered ha hh
    refine ⟨a.primary req reply, reply.execs, ask_primary ha reply, rfl, hp.qOut, fun op hop => ?_⟩
    rw [opOf_eq e.symbol ts, ha] at hop
    cases hop
    exact ⟨reply, hp.book ▸ hb, rfl⟩

/-- Every engine that a run reaches handles every request. -/
theorem handles {symbol : Symbol} {mdPort : UInt16} {e₀ : Engine} (h₀ : new symbol mdPort = some e₀)
    (reqs : List (UInt64 × Request)) (hfew : Runs.Along step (fun e => e.book.Few) e₀ reqs) :
    ∃ e, Runs.run step e₀ reqs = some e ∧ ∀ ts req, ∃ e', e.handle ts req = some e' := by
  obtain ⟨e₁, he₁, -, -, ho⟩ := Orders.new symbol mdPort
  cases h₀.symm.trans he₁
  obtain ⟨e, he, ⟨os, ho⟩, hfew⟩ := Runs.run_inv (I := fun e => ∃ os, Orders e os) (A := fun _ => True)
    (fun e op ⟨os, ho⟩ hfew _ => by
      obtain ⟨out, e', -, -, os', hs, -, -, -, ho', -⟩ := ho.step hfew op
      exact ⟨out, e', hs, os', ho'⟩) reqs ⟨[], ho⟩ (fun _ _ => trivial) hfew
  refine ⟨e, he, fun ts req => ?_⟩
  obtain ⟨e', -, -, -, -, -, he', -⟩ := ho.handle hfew ts req
  exact ⟨e', he'⟩

/-- A message that `decode` accepts is answered, in whatever state the engine
handles it, if and only if its kind byte has a name; and it is handled in
every state that a run reaches. -/
theorem answered_iff {bytes : List UInt8} {req : Request} (hd : Request.decode bytes = some (some req)) :
    (∀ {e e' : Engine} {ts : UInt64}, e.handle ts req = some e' →
      (Answered e req e' ↔ ∃ kind ∈ bytes.head?, Named kind)) ∧
    ∀ {symbol : Symbol} {mdPort : UInt16} {e₀ : Engine}, new symbol mdPort = some e₀ →
      ∀ reqs, Runs.Along step (fun e => e.book.Few) e₀ reqs →
        ∃ e, Runs.run step e₀ reqs = some e ∧ ∀ ts, ∃ e', e.handle ts req = some e' := by
  refine ⟨fun hh => ?_, fun h₀ reqs hfew => ?_⟩
  · rw [answered_iff_named hh, decode_kind hd]
    simp
  · obtain ⟨e, he, hhandles⟩ := handles h₀ reqs hfew
    exact ⟨e, he, fun ts => hhandles ts req⟩

/-- A request that trades with the order of the one before it. -/
theorem answered_iff_trade : ∃ (e₀ e e' : Engine), Request.decode buyEight.encode = some (some buyEight) ∧
    new {} 1 = some e₀ ∧ Runs.run step e₀ [(2, sellFive)] = some e ∧ e.handle 3 buyEight = some e' ∧
    e'.qOut.map Response.kind = e.qOut.map Response.kind ++ [RespKind.accepted, RespKind.executed, RespKind.executed] ∧
    Answered e buyEight e' := by
  have hd : Request.decode buyEight.encode = some (some buyEight) := by decide
  obtain ⟨e₀, h₀, -, -, ho⟩ := Orders.new {} 1
  obtain ⟨hiff, hhandles⟩ := answered_iff hd
  obtain ⟨e, he, he'⟩ := hhandles h₀ [(2, sellFive)] (ho.along_few _ (by decide))
  obtain ⟨e', he'⟩ := he' 3
  have hview : ((Runs.run step (idle {} 1) [(2, sellFive)]).bind fun e => (e.handle 3 buyEight).map fun e' =>
      (e.qOut.map Response.kind, e'.qOut.map Response.kind)) = some ([RespKind.accepted],
        [RespKind.accepted, RespKind.accepted, RespKind.executed, RespKind.executed]) := by decide +kernel
  cases h₀.symm.trans (new_eq {} 1)
  rw [he, Option.bind_some, he', Option.map_some, Option.some.injEq, Prod.mk.injEq] at hview
  exact ⟨_, e, e', hd, h₀, he, he', by rw [hview.1, hview.2]; rfl, (hiff he').mpr ⟨_, rfl, .inl rfl⟩⟩

/-- A message of kind zero. -/
theorem unanswered : ∃ (bytes : List UInt8) (req : Request) (e e' : Engine), bytes.length = Wire.kMessageSize ∧
    Request.decode bytes = some (some req) ∧ new {} 1 = some e ∧ e.handle 0 req = some e' ∧ e'.qOut = e.qOut ∧
    ¬ Answered e req e' := by
  obtain ⟨e, h₀, -⟩ := Orders.new {} 1
  have hh : e.handle 0 { kind := 0 } = some e := handle_ignored rfl
  refine ⟨List.replicate 38 0 ++ [Wire.kMagic0, Wire.kMagic1], { kind := 0 }, e, e, by decide, by decide, h₀, hh, rfl,
    ?_⟩
  rw [answered_iff_named hh, Named]
  decide

end Engine

end Pricetime
