import Pricetime.Impl.FuzzItch
import Pricetime.Proof.BookInvariant
import Pricetime.Proof.ItchReader
import Pricetime.Proof.ReplayerRefines

/-!
# The fuzz target on any bytes

`fuzz_one` reads nothing outside of its input and finds every book it rebuilds
sound, on any bytes (`fuzzOne_sound`). A message that the readers hand over
can be decoded (`decodeMessage_some`). The check of a book looks for what
`BookSound` says, no less and no more (`bookStructurallySound_iff`), in spite
of its cycle guard, and so passes on every book in simulation with an abstract
one, as long as no more orders rest than the guard allows
(`structurallySound`).
-/

namespace Pricetime

open Spec (Resting totalQty WellFormed RawWellFormed)

namespace Fuzz

open Itch

/-! ## Decoding -/

/-- What the replayer can decode, this can. -/
theorem decodeMessage_some {msg : List UInt8} (h : ∃ m, decode msg = some m) : ∃ v, decodeMessage msg = some v := by
  obtain ⟨m, hm⟩ := h
  obtain ⟨type, ht, hm⟩ := Option.bind_eq_some_iff.mp hm
  rw [decodeMessage, ht]
  simp only [Option.bind_eq_bind, Option.bind_some]
  have of {α : Type} {x : Option α} {f : α → Message} {g : α → Option UInt64} (h : x.map f = some m)
      (hg : ∀ a, ∃ v, g a = some v) : ∃ v, x.bind g = some v := by
    obtain ⟨a, rfl, -⟩ := Option.map_eq_some_iff.mp h
    exact hg a
  cases hof : MsgType.ofByte type with
  | none => exact ⟨_, rfl⟩
  | some t =>
    rw [hof] at hm
    cases t with
    | addOrder | addOrderMpid | orderExecuted | orderExecutedWithPrice | orderCancel | orderDelete | orderReplace
    | systemEvent => exact of hm fun a => ⟨_, rfl⟩
    | _ => exact ⟨_, rfl⟩

theorem readStage_some {msgs : List (List UInt8)} {r : ReadResult} (hd : ∀ msg ∈ msgs, ∃ m, decode msg = some m)
    (sink : UInt64) : ∃ v, readStage (some (msgs, r)) sink = some v := by
  have fold : ∀ sink : UInt64, ∃ v,
      msgs.foldlM (fun sink msg => (decodeMessage msg).map (sink ^^^ ·)) sink = some v := by
    induction msgs with
    | nil => exact fun sink => ⟨sink, rfl⟩
    | cons msg msgs ih =>
      intro sink
      obtain ⟨v, hv⟩ := decodeMessage_some (hd msg List.mem_cons_self)
      rw [List.foldlM_cons, hv]
      exact ih (fun msg hm => hd msg (List.mem_cons_of_mem _ hm)) _
  obtain ⟨v, hv⟩ := fold sink
  refine ⟨v ^^^ (r.messages.toUInt64 ^^^ r.offset.toUInt64 ^^^ ReadStatus.code r.status), ?_⟩
  rw [readStage, Option.bind_eq_bind, Option.bind_some]
  dsimp only
  rw [hv]
  rfl

/-! ## The check of a book -/

/-- The queue `os` of a level is what the check takes it for. -/
structure QueueSound (h : Heap) (lvl : LevelPtr) (os : List OrderPtr) : Prop where
  nonempty : os ≠ []
  short : os.length ≤ 100001
  head : (h.level lvl).head = os.head?
  tail : (h.level lvl).tail = os.getLast?
  next : Links.Path (fun o => (h.order o).next) os none
  prev : Links.Path (fun o => (h.order o).prev) os.reverse none
  order : ∀ o ∈ os, (h.order o).level = some lvl ∧ (h.order o).qty ≠ 0 ∧ (h.order o).price = (h.level lvl).price
  count : (h.level lvl).orderCount = UInt32.ofNat os.length
  total : (h.level lvl).totalQty = totalQty (restings h os)

theorem QueueSound.count_toNat {h : Heap} {lvl : LevelPtr} {os : List OrderPtr} (hq : QueueSound h lvl os) :
    (h.level lvl).orderCount.toNat = os.length := by
  have hshort := hq.short
  rw [hq.count, UInt32.toNat_ofNat']
  omega

theorem ofNat_add_one (k : Nat) : UInt32.ofNat k + 1 = UInt32.ofNat (k + 1) := by
  rw [UInt32.ofNat_add]
  rfl

theorem guard_iff {k : Nat} (hk : k < 2 ^ 32) : UInt32.ofNat k > 100000 ↔ 100000 < k := by
  rw [gt_iff_lt, UInt32.lt_iff_toNat_lt, UInt32.toNat_ofNat', Nat.mod_eq_of_lt hk]
  rfl

/-- The scan of the rest `os` of a queue, after `k` nodes of which the last
is `p`. -/
theorem scanQueue_eq {h : Heap} {lvl : LevelPtr} : ∀ {os : List OrderPtr} {fuel k : Nat} {sum : UInt64}
    {p : Option OrderPtr}, Links.Path (fun o => (h.order o).next) os none →
    Links.Path (fun o => (h.order o).prev) os.reverse p →
    (∀ o ∈ os, (h.order o).level = some lvl ∧ (h.order o).qty ≠ 0 ∧ (h.order o).price = (h.level lvl).price) →
    k + os.length ≤ 100001 → os.length < fuel →
    scanQueue h lvl fuel os.head? ⟨true, sum, UInt32.ofNat k, p⟩ =
      some ⟨true, sum + totalQty (restings h os), UInt32.ofNat (k + os.length), os.getLast?.or p⟩
  | _, 0, _, _, _, _, _, _, _, hf => absurd hf (Nat.not_lt_zero _)
  | [], fuel + 1, k, sum, p, _, _, _, _, _ => by
    show some _ = some _
    simp [totalQty, restings]
  | o :: os, fuel + 1, k, sum, p, hnext, hprev, hat, hk, hf => by
    rw [List.reverse_cons, Links.path_append] at hprev
    have ho := hat o List.mem_cons_self
    have hp : (h.order o).prev = p := by simpa using hprev.2.1
    have hn : (h.order o).next = os.head? := by simpa using hnext.1
    rw [List.length_cons] at hk hf
    have hlast : (o :: os).getLast?.or p = os.getLast?.or (some o) := by
      rw [List.getLast?_cons]
      cases os.getLast? <;> rfl
    have hsum : totalQty (restings h (o :: os)) = (h.order o).qty.toUInt64 + totalQty (restings h os) := rfl
    rw [List.head?_cons, scanQueue]
    simp only [hp, ho, hn, ofNat_add_one, decide_true, Bool.and_true, ne_eq, not_false_eq_true]
    rw [hlast, hsum, List.length_cons, Nat.add_comm os.length, ← Nat.add_assoc, ← UInt64.add_assoc]
    by_cases hguard : UInt32.ofNat (k + 1) > 100000
    · -- the guard stops the loop where the queue ends
      rw [guard_iff (by omega)] at hguard
      obtain rfl : os = [] := List.length_eq_zero_iff.mp (by omega)
      rw [if_pos ((guard_iff (by omega)).mpr hguard)]
      simp [totalQty, restings]
    · rw [if_neg hguard]
      exact scanQueue_eq hnext.2 hprev.1 (fun x hx => hat x (List.mem_cons_of_mem _ hx)) (by omega) (by omega)

/-- A scan that sees no fault has seen a path of nodes, each of them linked
back to the one before. -/
theorem scanQueue_ok {h : Heap} {lvl : LevelPtr} : ∀ {fuel k : Nat} {ok : Bool} {sum : UInt64}
    {o? p : Option OrderPtr} {q : QueueScan}, k ≤ 100000 →
    scanQueue h lvl fuel o? ⟨ok, sum, UInt32.ofNat k, p⟩ = some q → q.ok = true → ok = true ∧ ∃ os n,
      Links.Path (fun o => (h.order o).next) os n ∧ os.head?.or n = o? ∧
      Links.Path (fun o => (h.order o).prev) os.reverse p ∧
      (∀ o ∈ os, (h.order o).level = some lvl ∧ (h.order o).qty ≠ 0 ∧ (h.order o).price = (h.level lvl).price) ∧
      k + os.length ≤ 100001 ∧ q = ⟨true, sum + totalQty (restings h os), UInt32.ofNat (k + os.length), os.getLast?.or p⟩
  | 0, _, _, _, _, _, _, _, hs, _ => by cases hs
  | fuel + 1, k, ok, sum, none, p, q, hk, hs, hok => by
    cases hs
    obtain rfl : ok = true := hok
    refine ⟨rfl, [], none, trivial, rfl, trivial, by simp, by simp; omega, ?_⟩
    simp [totalQty, restings]
  | fuel + 1, k, ok, sum, some o, p, q, hk, hs, hok => by
    rw [scanQueue] at hs
    dsimp only at hs
    rw [ofNat_add_one] at hs
    have hsum (os : List OrderPtr) : totalQty (restings h (o :: os)) = (h.order o).qty.toUInt64 + totalQty (restings h os) :=
      rfl
    by_cases hguard : UInt32.ofNat (k + 1) > 100000
    · rw [if_pos hguard] at hs
      cases hs
      simp only [Bool.and_eq_true, decide_eq_true_eq] at hok
      obtain ⟨⟨⟨⟨rfl, hp⟩, hl⟩, hq⟩, hprice⟩ := hok
      refine ⟨rfl, [o], (h.order o).next, ⟨rfl, trivial⟩, rfl, ⟨by simpa using hp, trivial⟩, ?_, ?_, ?_⟩
      · intro x hx
        rw [List.mem_singleton.mp hx]
        exact ⟨hl, hq, hprice⟩
      · rw [List.length_singleton]
        omega
      · rw [hsum]
        simp [hp, hl, hq, hprice, totalQty, restings]
    · rw [if_neg hguard] at hs
      rw [guard_iff (by omega)] at hguard
      obtain ⟨hok', os, n, hnext, hhead, hprev, hat, hlen, hq⟩ := scanQueue_ok (by omega) hs hok
      simp only [Bool.and_eq_true, decide_eq_true_eq] at hok'
      obtain ⟨⟨⟨⟨rfl, hp⟩, hl⟩, hqty⟩, hprice⟩ := hok'
      refine ⟨rfl, o :: os, n, ⟨hhead.symm, hnext⟩, rfl, ?_, ?_, ?_, ?_⟩
      · rw [List.reverse_cons, Links.path_append]
        exact ⟨hprev, by simpa using hp, trivial⟩
      · intro x hx
        rcases List.mem_cons.mp hx with rfl | hx
        · exact ⟨hl, hqty, hprice⟩
        · exact hat x hx
      · rw [List.length_cons]
        omega
      · rw [hq, hsum, List.length_cons, UInt64.add_assoc, Nat.add_comm os.length, Nat.add_assoc, List.getLast?_cons]
        cases os.getLast? <;> rfl

/-- The callback on a sound level that is worse than the one before. -/
theorem checkLevel_eq {h : Heap} {s : Side} {q : LevelPtr} {os : List OrderPtr} (hl : QueueSound h q os) {c : Nat}
    {previous : Option Price} (hprev : ordered s (h.level q).price previous = true) :
    checkLevel h s (⟨true, c⟩, previous) q = some (⟨true, c + os.length⟩, some (h.level q).price) := by
  have hne := hl.nonempty
  have hshort := hl.short
  have hscan : scanQueue h q 100002 (h.level q).head {} =
      some ⟨true, (h.level q).totalQty, (h.level q).orderCount, (h.level q).tail⟩ := by
    have hs := @scanQueue_eq _ _ _ 100002 0 0 _ hl.next hl.prev hl.order (by omega) (by omega)
    rwa [UInt64.zero_add, Nat.zero_add, Option.or_none, ← hl.head, ← hl.tail, ← hl.total, ← hl.count] at hs
  -- the ends of the queue
  have hfirst : (h.order (os.head hne)).prev = none := by
    have hp := hl.prev
    rw [← List.cons_head_tail hne, List.reverse_cons, Links.path_append] at hp
    simpa using hp.2.1
  have hlast : (h.order (os.getLast hne)).next = none := by
    have hn := hl.next
    rw [← List.dropLast_append_getLast hne, Links.path_append] at hn
    simpa using hn.2.1
  have hhead : (h.level q).head = some (os.head hne) := by
    rw [hl.head, List.head?_eq_some_head]
  have htail : (h.level q).tail = some (os.getLast hne) := by
    rw [hl.tail, List.getLast?_eq_some_getLast]
  have hcount : (h.level q).orderCount ≠ 0 := fun e => by
    have hn := hl.count_toNat
    rw [e] at hn
    exact hne (List.length_eq_zero_iff.mp hn.symm)
  simp only [checkLevel, hprev, hcount, hhead, htail, reduceCtorEq, or_self, if_false, Option.bind_eq_bind,
    Option.bind_some, hfirst, hlast, Bool.and_self, decide_true]
  rw [← hhead, hscan]
  simp only [Option.bind_some, htail, decide_true, Bool.and_self, hl.count_toNat]

/-- A level that the callback sees no fault in is sound. -/
theorem checkLevel_ok {h : Heap} {s : Side} {q : LevelPtr} {r r' : Check × Option Price}
    (hs : checkLevel h s r q = some r') (hok : r'.1.ok = true) : r.1.ok = true ∧
      ordered s (h.level q).price r.2 = true ∧ (∃ os, QueueSound h q os) ∧
      r'.1.countedOrders = r.1.countedOrders + (h.level q).orderCount.toNat ∧ r'.2 = some (h.level q).price := by
  simp only [checkLevel] at hs
  split at hs
  · cases hs
    cases hok
  rename_i hne
  rw [not_or, not_or] at hne
  obtain ⟨head, hhead, hs⟩ := Option.bind_eq_some_iff.mp hs
  obtain ⟨tail, htail, hs⟩ := Option.bind_eq_some_iff.mp hs
  obtain ⟨scan, hscan, hs⟩ := Option.bind_eq_some_iff.mp hs
  cases hs
  simp only [Bool.and_eq_true, decide_eq_true_eq] at hok
  obtain ⟨⟨⟨⟨⟨⟨⟨hr, hordered⟩, hfirst⟩, hlast⟩, hq⟩, hend⟩, hn⟩, hsum⟩ := hok
  obtain ⟨-, os, n, hnext, hheads, hprev, hat, hlen, rfl⟩ := scanQueue_ok (k := 0) (Nat.zero_le _) hscan hq
  dsimp only at hend hn hsum
  rw [Option.or_none] at hend
  rw [UInt64.zero_add] at hsum
  rw [Nat.zero_add] at hn hlen
  have hos : os ≠ [] := by
    rintro rfl
    rw [htail] at hend
    cases hend
  -- the last node has no successor, so the guard has cut nothing off
  have hstop : n = none := by
    rw [← List.dropLast_append_getLast hos, Links.path_append] at hnext
    rw [List.getLast?_eq_some_getLast hos, htail] at hend
    have hl := hnext.2.1
    rw [List.head?_nil, Option.none_or, Option.some.inj hend] at hl
    exact hl.symm.trans hlast
  subst hstop
  have hsound : QueueSound h q os :=
    ⟨hos, hlen, by rw [← hheads, Option.or_none], hend.symm, hnext, hprev, hat, hn.symm, hsum.symm⟩
  refine ⟨hr, hordered, ⟨os, hsound⟩, ?_, rfl⟩
  show _ + (UInt32.ofNat (0 + os.length)).toNat = _
  rw [Nat.zero_add, hn]

theorem ordered_iff {s : Side} {price : Price} {previous : Option Price} :
    ordered s price previous = true ↔ ∀ p ∈ previous, s.better p price = true := by
  cases previous with
  | none => simp [ordered]
  | some p =>
    simp only [Option.mem_some, forall_eq']
    cases s <;> exact Iff.rfl

/-- The levels from `qs` on. -/
theorem checkLevels_eq {h : Heap} {s : Side} {Q : LevelPtr → List OrderPtr} : ∀ {qs : List LevelPtr} {c : Nat}
    {previous : Option Price}, (∀ q ∈ qs, QueueSound h q (Q q)) → Worsening s (fun q => (h.level q).price) qs →
      (∀ p ∈ previous, ∀ q ∈ qs, s.better p (h.level q).price = true) →
      ∃ last, qs.foldlM (checkLevel h s) (⟨true, c⟩, previous) = some (⟨true, c + (qs.flatMap Q).length⟩, last)
  | [], c, previous, _, _, _ => ⟨previous, rfl⟩
  | q :: qs, c, previous, hqs, hworse, hprev => by
    obtain ⟨hfirst, hrest⟩ := List.pairwise_cons.mp hworse
    have hlevel := checkLevel_eq (hqs q List.mem_cons_self) (c := c)
      (ordered_iff.mpr fun p hp => hprev p hp q List.mem_cons_self)
    have hbelow : ∀ p ∈ some (h.level q).price, ∀ r ∈ qs, s.better p (h.level r).price = true := fun p hp r hr =>
      Option.mem_some.mp hp ▸ hfirst r hr
    obtain ⟨last, ih⟩ := checkLevels_eq (c := c + (Q q).length) (fun r hr => hqs r (List.mem_cons_of_mem _ hr)) hrest hbelow
    refine ⟨last, ?_⟩
    rw [List.foldlM_cons, hlevel, Option.bind_eq_bind, Option.bind_some, ih, List.flatMap_cons, List.length_append,
      Nat.add_assoc]

theorem checkLevels_ok {h : Heap} {s : Side} : ∀ {qs : List LevelPtr} {r r' : Check × Option Price},
    qs.foldlM (checkLevel h s) r = some r' → r'.1.ok = true → r.1.ok = true ∧
      Worsening s (fun q => (h.level q).price) qs ∧ (∀ p ∈ r.2, ∀ q ∈ qs, s.better p (h.level q).price = true) ∧
      (∀ q ∈ qs, ∃ os, QueueSound h q os) ∧
      r'.1.countedOrders = r.1.countedOrders + (qs.map fun q => (h.level q).orderCount.toNat).sum
  | [], r, r', hs, hok => by
    cases hs
    exact ⟨hok, List.Pairwise.nil, by simp, by simp, rfl⟩
  | q :: qs, r, r', hs, hok => by
    rw [List.foldlM_cons] at hs
    obtain ⟨r₁, hlevel, hs⟩ := Option.bind_eq_some_iff.mp hs
    obtain ⟨hok₁, hworse, hprev₁, hsound, hsum⟩ := checkLevels_ok hs hok
    obtain ⟨hok₀, hordered, hq, hcount, hlast⟩ := checkLevel_ok hlevel hok₁
    have hafter := hprev₁ _ hlast
    refine ⟨hok₀, List.pairwise_cons.mpr ⟨hafter, hworse⟩, fun p hp x hx => ?_, ?_, ?_⟩
    · have hfirst := ordered_iff.mp hordered p hp
      rcases List.mem_cons.mp hx with rfl | hx
      · exact hfirst
      · exact Side.better_trans hfirst (hafter x hx)
    · exact List.forall_mem_cons.mpr ⟨hq, hsound⟩
    · rw [hsum, hcount, List.map_cons, List.sum_cons, Nat.add_assoc]

section Book

variable {L M : Type} [Ladder L] [IdMap M]

/-- What the check looks for in a book: `T` are the levels of each side and
`Q` the queue of each. -/
structure BookSound (b : OrderBook L M) (T : Side → List LevelPtr) (Q : LevelPtr → List OrderPtr) : Prop where
  levels : ∀ s, Ladder.levels b.ladder b.heap.level s = some (T s)
  worsening : ∀ s, Worsening s (fun q => (b.heap.level q).price) (T s)
  queue : ∀ s, ∀ q ∈ T s, QueueSound b.heap q (Q q)
  count : ((T .bid ++ T .ask).flatMap Q).length = b.openOrders

variable {b : OrderBook L M} {T : Side → List LevelPtr} {Q : LevelPtr → List OrderPtr}

theorem BookSound.checks (h : BookSound b T Q) : bookStructurallySound b = some true := by
  have side (c : Nat) (s : Side) : checkSide b ⟨true, c⟩ s = some ⟨true, c + ((T s).flatMap Q).length⟩ := by
    obtain ⟨last, hfold⟩ := @checkLevels_eq _ _ _ _ c none (h.queue s) (h.worsening s) (by simp)
    rw [checkSide, h.levels, Option.bind_eq_bind, Option.bind_some, hfold]
    rfl
  have hlen := h.count
  rw [List.flatMap_append, List.length_append] at hlen
  simp only [bookStructurallySound, List.foldlM_cons, List.foldlM_nil, Option.bind_eq_bind, side, Option.bind_some,
    Option.pure_def, Nat.zero_add, hlen, decide_true, Bool.and_self]

omit [IdMap M] in
theorem checkSide_ok {c c' : Check} {s : Side} (hs : checkSide b c s = some c') (hok : c'.ok = true) :
    c.ok = true ∧ ∃ qs, Ladder.levels b.ladder b.heap.level s = some qs ∧
      Worsening s (fun q => (b.heap.level q).price) qs ∧ (∀ q ∈ qs, ∃ os, QueueSound b.heap q os) ∧
      c'.countedOrders = c.countedOrders + (qs.map fun q => (b.heap.level q).orderCount.toNat).sum := by
  obtain ⟨qs, hqs, hs⟩ := Option.bind_eq_some_iff.mp hs
  obtain ⟨⟨c₁, last⟩, hfold, hs⟩ := Option.bind_eq_some_iff.mp hs
  cases hs
  obtain ⟨hc, hworse, -, hsound, hsum⟩ := checkLevels_ok hfold hok
  exact ⟨hc, qs, hqs, hworse, hsound, hsum⟩

theorem exists_bookSound (hs : bookStructurallySound b = some true) : ∃ T Q, BookSound b T Q := by
  obtain ⟨c, hc, hs⟩ := Option.bind_eq_some_iff.mp hs
  obtain ⟨c₁, hbid, hc⟩ := Option.bind_eq_some_iff.mp hc
  obtain ⟨c₂, hask, hc⟩ := Option.bind_eq_some_iff.mp hc
  cases hc
  have hok := Option.some.inj hs
  rw [Bool.and_eq_true, decide_eq_true_eq] at hok
  obtain ⟨hok₁, asks, hasks, haskw, hasksound, hasksum⟩ := checkSide_ok hask hok.1
  obtain ⟨-, bids, hbids, hbidw, hbidsound, hbidsum⟩ := checkSide_ok hbid hok₁
  have hall : ∀ q ∈ bids ++ asks, ∃ os, QueueSound b.heap q os := fun q hq =>
    (List.mem_append.mp hq).elim (hbidsound q) (hasksound q)
  choose! Q hQ using hall
  refine ⟨fun s => Side.casesOn s bids asks, Q, fun s => ?_, fun s => ?_, fun s q hq => ?_, ?_⟩
  · cases s with
    | bid => exact hbids
    | ask => exact hasks
  · cases s with
    | bid => exact hbidw
    | ask => exact haskw
  · cases s with
    | bid => exact hQ q (List.mem_append_left _ hq)
    | ask => exact hQ q (List.mem_append_right _ hq)
  · have hlen : ((bids ++ asks).flatMap Q).length =
        ((bids ++ asks).map fun q => (b.heap.level q).orderCount.toNat).sum := by
      rw [List.length_flatMap]
      exact congrArg List.sum (List.map_congr_left fun q hq => (hQ q hq).count_toNat.symm)
    dsimp only
    rw [hlen, ← hok.2, hasksum, hbidsum, List.map_append, List.sum_append]
    exact (Nat.zero_add _).symm ▸ rfl

/-- No node is on two queues of a side, or twice on one. -/
theorem BookSound.nodup (h : BookSound b T Q) (s : Side) : ((T s).flatMap Q).Nodup := by
  refine List.nodup_flatMap.mpr ⟨fun q hq => (h.queue s q hq).next.nodup, ?_⟩
  refine List.Pairwise.imp_of_mem ?_ (h.worsening s).nodup
  intro q r hq hr hne o hoq hor
  have hlevel := ((h.queue s q hq).order o hoq).1.symm.trans ((h.queue s r hr).order o hor).1
  exact hne (Option.some.inj hlevel)

/-- The check passes on just the books whose levels are in order, and whose
queues are lists linked both ways, of at most 100001 orders, that together
hold as many orders as the id map. -/
theorem bookStructurallySound_iff (b : OrderBook L M) : bookStructurallySound b = some true ↔
    ∃ T Q, BookSound b T Q ∧ ∀ s, ((T s).flatMap Q).Nodup := by
  constructor
  · intro hs
    obtain ⟨T, Q, h⟩ := exists_bookSound hs
    exact ⟨T, Q, h, h.nodup⟩
  · rintro ⟨T, Q, h, -⟩
    exact h.checks

end Book

variable {L M : Type} [Ladder L] [LawfulLadder L] [IdMap M] [LawfulIdMap M] {accepts : Price → Bool}

open OrderBook (Sim Within) in
/-- The check passes on a book in simulation. -/
theorem structurallySound {b : OrderBook L M} {a : Spec.Book} (h : Sim accepts b a) (hwf : a.Wf)
    (hfew : b.openOrders ≤ 100000) : bookStructurallySound b = some true := by
  have hw : Within L a := h.within_of_few (show b.openOrders < 2 ^ 32 by omega)
  obtain ⟨T, Q, h⟩ := h
  refine BookSound.checks (T := T) (Q := Q) ⟨h.levels_eq hw, LawfulLadder.worsening h.rep.tracks, fun s q hq => ?_,
    h.nodes.2.2.symm⟩
  have hl := h.levelOk hw hwf hq
  have hlen := h.queue_length_le hq
  refine ⟨hl.nonempty, by omega, h.rep.head_eq q, hl.tail, hl.next, hl.prev, fun o ho => ?_, h.rep.count q,
    h.rep.total q⟩
  obtain ⟨hlevel, -, hprice, hqty⟩ := hl.order o ho
  refine ⟨hlevel, fun e => ?_, hprice⟩
  rw [e] at hqty
  exact absurd hqty (by decide)

/-! ## The books of the replayer -/

/-- What every operation keeps of a book, every message keeps of all books. -/
theorem dispatch_books {I : Spec.Book → Prop} (hI : ∀ b op, I b → I (b.apply accepts op).2) {a : Spec.Replayer}
    (h : ∀ s, I (a.books.book s)) (m : Message) : ∀ s, I ((a.dispatch accepts m).2.books.book s) := by
  have set : ∀ {m : Spec.MultiBook} {s : Symbol} {b : Spec.Book}, (∀ s, I (m.book s)) → I b →
      ∀ s', I ((m.setBook s b).book s') := fun hm hb s' =>
    Spec.MultiBook.forall_setBook (P := fun _ b => I b) hb (fun s' _ => hm s') s'
  have reduced : ∀ (timestamp : UInt64) (reference : OrderId) (shares : Qty) (isExecution : Bool) s,
      I ((a.onReduced timestamp reference shares isExecution).2.books.book s) := by
    intro timestamp reference shares isExecution
    rw [Spec.Replayer.onReduced_books]
    split
    · exact h
    rename_i symbol _
    have hc : I ((a.books.book symbol).consume reference shares isExecution).2 := by
      cases isExecution with
      | true => exact hI _ (.executeResting reference shares) (h symbol)
      | false => exact hI _ (.reduceResting reference shares) (h symbol)
    dsimp only
    split <;> exact set h hc
  cases m with
  | add m =>
    rw [Spec.Replayer.dispatch, Spec.Replayer.onAdd_books]
    have hsee : ∀ s, I ((a.books.see m.symbol).book s) := by rwa [Spec.MultiBook.see_book]
    have hset := set (s := m.symbol) hsee (hI _ (.insertPassive m.reference m.side m.price m.shares) (hsee m.symbol))
    split
    · dsimp only
      split
      · rw [Spec.MultiBook.noteOrder_book]
        exact hset
      · exact hset
    · exact h
  | executed m => exact reduced m.timestamp m.reference m.shares true
  | cancel m => exact reduced m.timestamp m.reference m.shares false
  | delete m =>
    rw [Spec.Replayer.dispatch, Spec.Replayer.onDelete_books]
    split
    · exact h
    · exact set h (hI _ (.cancel m.reference) (h _))
  | replace m =>
    rw [Spec.Replayer.dispatch, Spec.Replayer.onReplace_books]
    split
    · exact h
    rename_i symbol _
    split
    · exact h
    rename_i original _
    have hc := hI _ (.cancel m.originalReference) (h symbol)
    have hset := set (s := symbol) (set (s := symbol) h hc)
      (hI _ (.insertPassive m.newReference original.side m.price m.shares) hc)
    dsimp only
    split
    · rw [Spec.MultiBook.noteOrder_book]
      exact hset
    · exact hset
  | trade timestamp => exact h
  | systemEvent m => exact h
  | administrative => exact h

open Replayer (Refines)

/-- Messages that can be decoded, and fewer of them than the cycle guard
allows, leave books that pass the check. -/
theorem run_sound {r : Replayer L M} {a : Spec.Replayer} (h : Refines accepts r a) (ha : a.books = {})
    {msgs : List (List UInt8)} (hd : ∀ msg ∈ msgs, ∃ m, decode msg = some m) (hlen : msgs.length ≤ 100000) :
    ∃ r', Runs.run Replayer.apply r msgs = some r' ∧ ∀ e ∈ r'.books.books,
      bookStructurallySound e.2 = some true ∧ ∃ hash, e.2.stateHash = some hash := by
  let I (r : Replayer L M) : Prop := ∃ a, Refines accepts r a ∧ ∀ s, (a.books.book s).Wf
  have hstep : ∀ r msg, I r → r.books.openOrders < 100001 → (∃ m, decode msg = some m) →
      ∃ out r', r.apply msg = some (out, r') ∧ I r' ∧ r'.books.openOrders ≤ r.books.openOrders + 1 := by
    rintro r msg ⟨a, h, hwf⟩ hfew ⟨m, hm⟩
    obtain ⟨r', hr', h'⟩ := h.apply (show r.books.openOrders < 2 ^ 32 by omega) hm
    have hwf' := dispatch_books (a := a.setStats fun s =>
      { s with messages := s.messages + 1, bytes := s.bytes + msg.length.toUInt64 })
      (fun _ op hb => hb.apply accepts op) hwf m
    refine ⟨_, r', hr', ⟨_, h', hwf'⟩, ?_⟩
    obtain ⟨_, _, hle, -⟩ := (Spec.Replayer.apply_touch h.books.owner_mem m msg.length).total h.books.nodup
      h.books.unseen
    rw [h'.openOrders_eq, h.openOrders_eq]
    exact hle
  have hI : I r := ⟨a, h, fun s => by rw [ha]; exact Spec.Book.wf_empty⟩
  have hzero : r.books.openOrders = 0 := by
    rw [h.openOrders_eq, ha]
    rfl
  have halong : Runs.Along Replayer.apply (fun r => r.books.openOrders < 100001) r msgs := by
    refine Runs.along_le (I := I) (fun r msg out r' hi hlt hs => ?_) msgs hI (by omega)
    obtain ⟨m, hm, -⟩ := Option.bind_eq_some_iff.mp hs
    obtain ⟨out₁, r₁, hs₁, hi₁⟩ := hstep r msg hi hlt ⟨m, hm⟩
    cases hs.symm.trans hs₁
    exact hi₁
  obtain ⟨r', hr', ⟨a', h', hwf'⟩, hfew⟩ := Runs.run_inv (fun r msg hi hlt hm => by
    obtain ⟨out, r', hs, hi', -⟩ := hstep r msg hi hlt hm
    exact ⟨out, r', hs, hi'⟩) msgs hI hd halong
  refine ⟨r', hr', fun e he => ?_⟩
  obtain ⟨p, hp⟩ := List.mem_iff_getElem?.mp he
  have hsim := h'.books.book hp
  have hbook : e.2.openOrders ≤ 100000 := by
    have hle : e.2.openOrders ≤ r'.books.openOrders := List.le_sum_of_mem (List.mem_map.mpr ⟨e, he, rfl⟩)
    omega
  refine ⟨structurallySound hsim (hwf' _) hbook, _, hsim.stateHash_eq (hsim.within_of_few ?_)⟩
  show e.2.openOrders < 2 ^ 32
  omega

omit [Ladder L] [LawfulLadder L] [IdMap M] [LawfulIdMap M] in
theorem foldlM_apply [Ladder L] [IdMap M] : ∀ (msgs : List (List UInt8)) (r : Replayer L M),
    msgs.foldlM (fun r msg => (r.apply msg).map Prod.snd) r = Runs.run Replayer.apply r msgs
  | [], _ => rfl
  | msg :: msgs, r => by
    rw [List.foldlM_cons, Runs.run]
    cases hs : r.apply msg with
    | none => rfl
    | some x => exact foldlM_apply msgs x.2

omit [LawfulLadder L] [LawfulIdMap M] in
theorem checkBooks_eq : ∀ {es : List (Symbol × OrderBook L M)} (sink : UInt64), (∀ e ∈ es,
    bookStructurallySound e.2 = some true ∧ ∃ hash, e.2.stateHash = some hash) →
      ∃ v, es.foldlM checkBook (sink, true) = some (v, true)
  | [], sink, _ => ⟨sink, rfl⟩
  | e :: es, sink, h => by
    obtain ⟨hsound, hash, hhash⟩ := h e List.mem_cons_self
    obtain ⟨v, hv⟩ := checkBooks_eq (sink ^^^ hash) fun e he => h e (List.mem_cons_of_mem _ he)
    refine ⟨v, ?_⟩
    rw [List.foldlM_cons, checkBook, hsound, hhash]
    exact hv

/-- The fuzz target, on any bytes: nothing is read out of bounds, no step of a
book goes wrong, and every book is sound. -/
theorem fuzzOne_sound (data : List UInt8) : ∃ sink, fuzzOne data = some (sink, true) := by
  obtain ⟨msgs, rest, v, h⟩ := Framing.exists_chops framed_frames.shrinks data
  obtain ⟨raws, rest', v', h'⟩ := Framing.exists_chops raw_frames.shrinks data
  obtain ⟨hdata, hwf⟩ := framed_frames.eq h
  obtain ⟨-, hraw⟩ := raw_frames.eq h'
  have hd : ∀ msg ∈ msgs, ∃ m, decode msg = some m := fun msg hm => (hwf msg hm).readInside.decode
  obtain ⟨sink, hsink⟩ := readStage_some (r := v.stoppedAt msgs.length (data.length - rest.length)) hd 0
  obtain ⟨sink', hsink'⟩ := readStage_some (r := v'.stoppedAt raws.length (data.length - rest'.length))
    (fun msg hm => (hraw msg hm).complete.decode_some) sink
  rw [fuzzOne, forEachFramedMessage_eq h, forEachRawMessage_eq h', hsink, Option.bind_eq_bind, Option.bind_some,
    hsink', Option.bind_some]
  by_cases hsize : data.length ≤ kReplayByteLimit
  · rw [if_pos hsize]
    obtain ⟨r, hr, href⟩ := Replayer.new_refines (M := OpenAddressIdMap) MapLadder.vacant
    have hcount : msgs.length ≤ 1024 := by
      have hle : msgs.length ≤ (msgs.flatMap Spec.frame).length := by
        rw [List.length_flatMap, ← List.length_map (f := fun msg => (Spec.frame msg).length)]
        refine List.length_le_sum_of_one_le _ fun n hn => ?_
        obtain ⟨msg, -, rfl⟩ := List.mem_map.mp hn
        simp [Spec.frame]
      have hl := congrArg List.length hdata
      rw [List.length_append] at hl
      have : data.length ≤ 1024 := hsize
      omega
    obtain ⟨r', hr', hbooks⟩ := run_sound href rfl hd (by omega)
    obtain ⟨sink'', hsink''⟩ := checkBooks_eq sink' hbooks
    refine ⟨sink'', ?_⟩
    simp only [hr, foldlM_apply, hr', Option.bind_eq_bind, Option.bind_some]
    exact hsink''
  · rw [if_neg hsize]
    exact ⟨sink', rfl⟩

end Fuzz

end Pricetime
