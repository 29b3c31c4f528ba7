import Pricetime.Proof.RoutingIndex

/-!
# Replay with and without a symbol filter

`Tracks S u f`: the books `f` have the books that `u` has for the symbols in
`S`, and no others. A message that brings in no reference which rests already
takes a filtered and an unfiltered replay from one such pair to another
(`Filtered.apply`), however many orders rest.
-/

namespace Pricetime

open Itch (Message Replayer ReplayEvent Complete decode AddOrder OrderReplace OrderDelete)

namespace MultiBook

variable {L M : Type} [IdMap M]

/-- `f` has the books that `u` has for the symbols in `S`, and no others. -/
structure Tracks (S : List Symbol) (u f : MultiBook L M) : Prop where
  ladder : f.ladder = u.ladder
  nodup : u.symbols.Nodup
  nodup' : f.symbols.Nodup
  mem : ∀ s ∈ S, ∀ b, (s, b) ∈ f.books ↔ (s, b) ∈ u.books
  only : ∀ e ∈ f.books, e.1 ∈ S

namespace Tracks

variable {S : List Symbol} {u u' f : MultiBook L M} {p q : BookPtr} {s : Symbol} {b : OrderBook L M}

omit [IdMap M] in
/-- Only the books matter. -/
theorem congr (h : Tracks S u f) {f' : MultiBook L M} (hu : u'.books = u.books) (hul : u'.ladder = u.ladder)
    (hf : f'.books = f.books) (hfl : f'.ladder = f.ladder) : Tracks S u' f' := by
  refine ⟨hfl.trans (h.ladder.trans hul.symm), ?_, ?_, ?_, ?_⟩
  · rw [symbols, hu]
    exact h.nodup
  · rw [symbols, hf]
    exact h.nodup'
  · rw [hu, hf]
    exact h.mem
  · rw [hf]
    exact h.only

omit [IdMap M] in
/-- A change of a tracked book, in both. -/
theorem set (h : Tracks S u f) (hs : s ∈ S) (hp : u.books[p]? = some (s, b)) (hq : f.books[q]? = some (s, b))
    (b' : OrderBook L M) :
    Tracks S { u with books := u.books.set p (s, b') } { f with books := f.books.set q (s, b') } := by
  refine ⟨h.ladder, ?_, ?_, fun s' hs' c => ?_, fun e he => ?_⟩
  · rw [symbols, symbols_set hp]
    exact h.nodup
  · rw [symbols, symbols_set hq]
    exact h.nodup'
  · rw [mem_set h.nodup' hq, mem_set h.nodup hp, h.mem s' hs']
  · rcases List.mem_or_eq_of_mem_set he with he | rfl
    · exact h.only e he
    · exact hs

omit [IdMap M] in
/-- A change of a book that is not tracked. -/
theorem set_of_not_mem (h : Tracks S u f) (hs : s ∉ S) (hp : u.books[p]? = some (s, b)) (b' : OrderBook L M) :
    Tracks S { u with books := u.books.set p (s, b') } f := by
  refine ⟨h.ladder, ?_, h.nodup', fun s' hs' c => ?_, h.only⟩
  · rw [symbols, symbols_set hp]
    exact h.nodup
  · have hne : s' ≠ s := fun e => hs (e ▸ hs')
    rw [mem_set h.nodup hp, if_neg hne, h.mem s' hs']

/-- The book of a tracked symbol, in both. -/
theorem book (h : Tracks S u f) (hs : s ∈ S) (hu : u.book s = some (p, u')) :
    ∃ q f' b, f.book s = some (q, f') ∧ f'.owner = f.owner ∧ u'.books[p]? = some (s, b) ∧
      f'.books[q]? = some (s, b) ∧ Tracks S u' f' := by
  rcases book_cases hu with ⟨rfl, b, hp⟩ | ⟨hnew, b, hb, rfl, rfl⟩
  · have hmem := (h.mem s hs b).mpr (List.mem_of_getElem? hp)
    cases hf : f.books.findIdx? fun e => e.1 = s with
    | none => simpa using List.findIdx?_eq_none_iff.mp hf _ hmem
    | some q =>
      obtain ⟨hlt, he, -⟩ := List.findIdx?_eq_some_iff_getElem.mp hf
      have hq : f.books[q]? = some (s, f.books[q].2) := by
        rw [List.getElem?_eq_getElem hlt]
        exact congrArg some (Prod.ext (of_decide_eq_true he) rfl)
      rw [book_unique h.nodup' (List.mem_of_getElem? hq) hmem] at hq
      refine ⟨q, f, b, ?_, rfl, hp, hq, h⟩
      rw [MultiBook.book, hf]
  · have hnew' : s ∉ f.symbols := fun hm => by
      obtain ⟨⟨s', c⟩, hc, rfl⟩ := List.mem_map.mp hm
      exact hnew (symbols_mem ((h.mem _ hs c).mp hc))
    have hf : f.books.findIdx? (fun e => decide (e.1 = s)) = none := by
      rw [List.findIdx?_eq_none_iff]
      intro e he
      have hne : e.1 ≠ s := fun es => hnew' (es ▸ List.mem_map_of_mem he)
      simpa using hne
    refine ⟨f.books.length, { f with books := f.books ++ [(s, b)] }, b, ?_, rfl, List.getElem?_concat_length,
      List.getElem?_concat_length, h.ladder, ?_, ?_, fun s' hs' c => ?_, fun e he => ?_⟩
    · rw [MultiBook.book, hf, h.ladder, hb]
      rfl
    · exact nodup_append h.nodup hnew b
    · exact nodup_append h.nodup' hnew' b
    · simp only [List.mem_append, h.mem s' hs']
    · rcases List.mem_append.mp he with he | he
      · exact h.only e he
      · rwa [List.mem_singleton.mp he]

/-- The book of a symbol that is not tracked. -/
theorem book_of_not_mem (h : Tracks S u f) (hs : s ∉ S) (hu : u.book s = some (p, u')) :
    Tracks S u' f ∧ ∃ b, u'.books[p]? = some (s, b) := by
  rcases book_cases hu with ⟨rfl, b, hp⟩ | ⟨hnew, b, hb, rfl, rfl⟩
  · exact ⟨h, b, hp⟩
  · refine ⟨⟨h.ladder, nodup_append h.nodup hnew b, h.nodup', fun s' hs' c => ?_, h.only⟩, b,
      List.getElem?_concat_length⟩
    have hne : s' ≠ s := fun e => hs (e ▸ hs')
    rw [h.mem s' hs', List.mem_append, List.mem_singleton, Prod.mk.injEq]
    simp [hne]

omit [IdMap M] in
/-- A step on a tracked book, in both. -/
theorem onBook (h : Tracks S u f) (hs : s ∈ S) (hp : u.books[p]? = some (s, b)) (hq : f.books[q]? = some (s, b))
    {g : OrderBook L M → Option (Reply × OrderBook L M)} {reply : Reply} (hu : u.onBook p g = some (reply, u')) :
    ∃ b' f', f.onBook q g = some (reply, f') ∧ f'.owner = f.owner ∧ u'.books[p]? = some (s, b') ∧
      f'.books[q]? = some (s, b') ∧ Tracks S u' f' := by
  obtain ⟨b', hb', rfl⟩ := Sound.onBook_inv hp hu
  refine ⟨b', { f with books := f.books.set q (s, b') }, ?_, rfl,
    List.getElem?_set_self (List.getElem?_eq_some_iff.mp hp).1,
    List.getElem?_set_self (List.getElem?_eq_some_iff.mp hq).1, h.set hs hp hq b'⟩
  rw [MultiBook.onBook, hq]
  simp only [Option.bind_eq_bind, Option.bind_some, hb']

omit [IdMap M] in
theorem onBook_of_not_mem (h : Tracks S u f) (hs : s ∉ S) (hp : u.books[p]? = some (s, b))
    {g : OrderBook L M → Option (Reply × OrderBook L M)} {reply : Reply} (hu : u.onBook p g = some (reply, u')) :
    Tracks S u' f ∧ ∃ b', u'.books[p]? = some (s, b') := by
  obtain ⟨b', -, rfl⟩ := Sound.onBook_inv hp hu
  exact ⟨h.set_of_not_mem hs hp b', b', List.getElem?_set_self (List.getElem?_eq_some_iff.mp hp).1⟩

omit [IdMap M] in
theorem noteOrder_books {m m' : MultiBook L M} {id : OrderId} (h : m.noteOrder id p = some m') :
    m'.books = m.books ∧ m'.ladder = m.ladder := by
  obtain ⟨r, -, e⟩ := Option.bind_eq_some_iff.mp h
  cases e
  exact ⟨rfl, rfl⟩

omit [IdMap M] in
theorem forgetOrder_books {m m' : MultiBook L M} {id : OrderId} (h : m.forgetOrder id = some m') :
    m'.books = m.books ∧ m'.ladder = m.ladder := by
  obtain ⟨r, -, e⟩ := Option.bind_eq_some_iff.mp h
  cases e
  exact ⟨rfl, rfl⟩

omit [IdMap M] in
theorem noteOrder (h : Tracks S u f) (hok : OpenAddressMap.Ok hash f.owner) {id : OrderId} (h0 : id ≠ 0)
    (hu : u.noteOrder id p = some u') : ∃ f', f.noteOrder id q = some f' ∧ Tracks S u' f' := by
  obtain ⟨o, ho, -⟩ := OpenAddressMap.insert_spec hok h0 q
  obtain ⟨hb, hl⟩ := noteOrder_books hu
  exact ⟨{ f with owner := o }, by rw [MultiBook.noteOrder, ho]; rfl, h.congr hb hl rfl rfl⟩

omit [IdMap M] in
theorem forgetOrder (h : Tracks S u f) (hok : OpenAddressMap.Ok hash f.owner) {id : OrderId} (h0 : id ≠ 0)
    (hu : u.forgetOrder id = some u') :
    ∃ f', f.forgetOrder id = some f' ∧ f'.books = f.books ∧ OpenAddressMap.Ok hash f'.owner ∧ Tracks S u' f' := by
  obtain ⟨o, ho, hok', -⟩ := OpenAddressMap.erase_spec hok h0
  obtain ⟨hb, hl⟩ := forgetOrder_books hu
  exact ⟨{ f with owner := o }, by rw [MultiBook.forgetOrder, ho]; rfl, rfl, hok', h.congr hb hl rfl rfl⟩

/-- Where the two indexes have an id. -/
theorem route [Ladder L] [LawfulIdMap M] (h : Tracks S u f) (hu : u.Indexed) (hf : f.Indexed) (id : OrderId) :
    (u.ownerOf id = none ∧ f.ownerOf id = none) ∨
    ∃ p s b, u.ownerOf id = some p ∧ u.books[p]? = some (s, b) ∧ id ≠ 0 ∧
      ((s ∉ S ∧ f.ownerOf id = none) ∨ (s ∈ S ∧ ∃ q, f.ownerOf id = some q ∧ f.books[q]? = some (s, b))) := by
  -- what the filtered index knows, the other knows
  have back : ∀ q, f.ownerOf id = some q → ∃ p s b, s ∈ S ∧ u.ownerOf id = some p ∧ u.books[p]? = some (s, b) ∧
      f.books[q]? = some (s, b) := by
    intro q hq
    obtain ⟨s, b, hb, ho⟩ := orders_ne_none.mp ((hf.directs id q).mp hq)
    have hs : s ∈ S := h.only _ (List.mem_of_getElem? hb)
    obtain ⟨p, hp⟩ := List.mem_iff_getElem?.mp ((h.mem s hs b).mp (List.mem_of_getElem? hb))
    exact ⟨p, s, b, hs, (hu.directs id p).mpr (orders_ne_none.mpr ⟨s, b, hp, ho⟩), hp, hb⟩
  cases hown : u.ownerOf id with
  | none =>
    refine .inl ⟨rfl, ?_⟩
    by_contra hne
    obtain ⟨q, hq⟩ := Option.ne_none_iff_exists'.mp hne
    obtain ⟨p, s, b, -, hp, -⟩ := back q hq
    cases hown.symm.trans hp
  | some p =>
    obtain ⟨s, b, hb, ho⟩ := orders_ne_none.mp ((hu.directs id p).mp hown)
    have h0 : id ≠ 0 := fun e => by
      rw [e] at hown
      cases (OpenAddressMap.lookup_kEmpty u.owner).symm.trans hown
    refine .inr ⟨p, s, b, rfl, hb, h0, ?_⟩
    by_cases hs : s ∈ S
    · obtain ⟨q, hq⟩ := List.mem_iff_getElem?.mp ((h.mem s hs b).mpr (List.mem_of_getElem? hb))
      exact .inr ⟨hs, q, (hf.directs id q).mpr (orders_ne_none.mpr ⟨s, b, hq, ho⟩), hq⟩
    · refine .inl ⟨hs, ?_⟩
      by_contra hne
      obtain ⟨q, hq⟩ := Option.ne_none_iff_exists'.mp hne
      obtain ⟨p', s', b', hs', hp', hb', -⟩ := back q hq
      cases hown.symm.trans hp'
      cases hb.symm.trans hb'
      exact hs hs'

end Tracks

end MultiBook

namespace Itch.Replayer

variable {L M : Type} [Ladder L] [LawfulLadder L] [IdMap M] [LawfulIdMap M]

/-- A replay `u` without a filter, and the replay `f` of the same messages
with one. -/
structure Filtered (S : List Symbol) (u f : Replayer L M) : Prop where
  tracks : MultiBook.Tracks S u.books f.books
  indexed : u.books.Indexed
  indexed' : f.books.Indexed
  filter : u.filter = []
  filter' : f.filter = S.map Symbol.bits

omit [LawfulLadder L] [LawfulIdMap M] [Ladder L] [IdMap M] in
theorem tracked_iff {S : List Symbol} (hS : S ≠ []) {f : Replayer L M} (hf : f.filter = S.map Symbol.bits)
    (s : Symbol) : f.tracked s = true ↔ s ∈ S := by
  have hne : (S.map Symbol.bits).isEmpty = false := by simp [hS]
  rw [tracked, hf, hne, Bool.false_or, List.contains_iff_mem, List.mem_map]
  constructor
  · rintro ⟨t, ht, e⟩
    exact Symbol.bits_inj e ▸ ht
  · intro hs
    exact ⟨s, hs, rfl⟩

/-- What a message's steps leave of the relation: all but the indexes. -/
def Follows (S : List Symbol) (u' f f' : Replayer L M) : Prop :=
  MultiBook.Tracks S u'.books f'.books ∧ u'.filter = [] ∧ f'.filter = f.filter

theorem insert_ok {b b' : OrderBook L M} (h : OrderBook.NodeInv b) {id : OrderId} {side : Side} {price : Price}
    {qty : Qty} {reply : Reply} (hb : b.insertPassive id side price qty = some (reply, b'))
    (hok : reply.result = .ok) : id ≠ 0 ∧ qty ≠ 0 := by
  obtain ⟨-, hiff, -⟩ := OrderBook.insertPassive_orders h hb
  obtain ⟨h0, hq, -⟩ := hiff.mp hok
  exact ⟨h0, hq⟩

namespace Filtered

variable {S : List Symbol} {u u' f : Replayer L M} {out : List ReplayEvent}

omit [LawfulLadder L] in
theorem setStats (h : Filtered S u f) (g : ReplayStats → ReplayStats) : Filtered S (u.setStats g) (f.setStats g) :=
  ⟨h.tracks, h.indexed, h.indexed', h.filter, h.filter'⟩

theorem onAdd (h : Filtered S u f) (hS : S ≠ []) {a : AddOrder} (hu : u.onAdd a = some (out, u')) :
    ∃ out' f', f.onAdd a = some (out', f') ∧ Follows S u' f f' := by
  have hut : (u.setStats fun s => { s with lastTimestamp := a.timestamp }).tracked a.symbol = true := by
    rw [setStats_tracked, tracked, h.filter]
    rfl
  rw [Replayer.onAdd] at hu
  simp only [hut, Bool.not_true, Bool.false_eq_true, if_false] at hu
  obtain ⟨⟨p, u₁⟩, hu₁, hu⟩ := Option.bind_eq_some_iff.mp hu
  obtain ⟨⟨reply, u₂⟩, hu₂, hu⟩ := Option.bind_eq_some_iff.mp hu
  dsimp only at hu
  by_cases hs : a.symbol ∈ S
  · have hft : (f.setStats fun s => { s with lastTimestamp := a.timestamp }).tracked a.symbol = true :=
      (tracked_iff hS h.filter' a.symbol).mpr hs
    obtain ⟨q, f₁, b, hf₁, hown₁, hp, hq, h₁⟩ := h.tracks.book hs hu₁
    obtain ⟨b', f₂, hf₂, hown₂, hp', hq', h₂⟩ := h₁.onBook hs hp hq hu₂
    rw [Replayer.onAdd]
    simp only [hft, Bool.not_true, Bool.false_eq_true, if_false, Option.bind_eq_bind, setStats_books, hf₁,
      Option.bind_some, hf₂]
    split at hu
    · rename_i hok
      obtain ⟨u₃, hu₃, hu⟩ := Option.bind_eq_some_iff.mp hu
      cases hu
      have h0 : a.reference ≠ 0 := by
        obtain ⟨c, hc, -⟩ := MultiBook.Sound.onBook_inv hp hu₂
        exact (insert_ok ((h.indexed.sound.book hu₁).1.inv hp) hc hok).1
      have hown : OpenAddressMap.Ok hash f₂.owner := by
        rw [hown₂, hown₁]
        exact h.indexed'.sound.ok
      obtain ⟨f₃, hf₃, h₃⟩ := h₂.noteOrder hown h0 (q := q) hu₃
      simp only [hok, if_true, hf₃, Option.bind_some]
      exact ⟨_, _, rfl, h₃, h.filter, rfl⟩
    · rename_i hok
      cases hu
      rw [if_neg hok]
      exact ⟨_, _, rfl, h₂, h.filter, rfl⟩
  · have hft : (f.setStats fun s => { s with lastTimestamp := a.timestamp }).tracked a.symbol = false := by
      rw [Bool.eq_false_iff]
      exact fun ht => hs ((tracked_iff hS h.filter' a.symbol).mp ht)
    obtain ⟨h₁, b, hp⟩ := h.tracks.book_of_not_mem hs hu₁
    obtain ⟨h₂, -⟩ := h₁.onBook_of_not_mem hs hp hu₂
    rw [Replayer.onAdd]
    simp only [hft, Bool.not_false, if_true]
    refine ⟨_, _, rfl, ?_⟩
    split at hu
    · obtain ⟨u₃, hu₃, hu⟩ := Option.bind_eq_some_iff.mp hu
      cases hu
      obtain ⟨hb, hl⟩ := MultiBook.Tracks.noteOrder_books hu₃
      exact ⟨h₂.congr hb hl rfl rfl, h.filter, rfl⟩
    · cases hu
      exact ⟨h₂, h.filter, rfl⟩

omit [LawfulLadder L] in
theorem onReduced (h : Filtered S u f) {timestamp : UInt64} {reference : OrderId} {shares : Qty}
    {isExecution : Bool} (hu : u.onReduced timestamp reference shares isExecution = some (out, u')) :
    ∃ out' f', f.onReduced timestamp reference shares isExecution = some (out', f') ∧ Follows S u' f f' := by
  have hsound := h.indexed.sound
  rw [Replayer.onReduced] at hu ⊢
  simp only [Option.bind_eq_bind, setStats_books, hsound.bookForOrder_eq, h.indexed'.sound.bookForOrder_eq,
    Option.bind_some] at hu ⊢
  rcases h.tracks.route h.indexed h.indexed' reference with ⟨hou, hof⟩ | ⟨p, s, b, hou, hp, h0, hroute⟩
  · rw [hou] at hu
    rw [hof]
    cases hu
    exact ⟨_, _, rfl, h.tracks, h.filter, rfl⟩
  rw [hou] at hu
  obtain ⟨⟨reply, u₁⟩, hu₁, hu⟩ := Option.bind_eq_some_iff.mp hu
  dsimp only at hu
  rcases hroute with ⟨hs, hof⟩ | ⟨hs, q, hof, hq⟩
  · -- the filtered index never heard of the order
    rw [hof]
    refine ⟨_, _, rfl, ?_⟩
    obtain ⟨h₁, b', hp'⟩ := h.tracks.onBook_of_not_mem hs hp hu₁
    simp only [MultiBook.deref_eq hp', Option.bind_some] at hu
    obtain ⟨o, ho, hu⟩ := Option.bind_eq_some_iff.mp hu
    cases o with
    | none =>
      obtain ⟨u₂, hu₂, hu⟩ := Option.bind_eq_some_iff.mp hu
      cases hu
      obtain ⟨hb, hl⟩ := MultiBook.Tracks.forgetOrder_books hu₂
      exact ⟨h₁.congr hb hl rfl rfl, h.filter, rfl⟩
    | some o =>
      cases hu
      exact ⟨h₁, h.filter, rfl⟩
  · rw [hof]
    obtain ⟨b', f₁, hf₁, hown, hp', hq', h₁⟩ := h.tracks.onBook hs hp hq hu₁
    simp only [MultiBook.deref_eq hp', Option.bind_some] at hu
    obtain ⟨o, ho, hu⟩ := Option.bind_eq_some_iff.mp hu
    simp only [hf₁, MultiBook.deref_eq hq', Option.bind_some, ho]
    cases o with
    | none =>
      obtain ⟨u₂, hu₂, hu⟩ := Option.bind_eq_some_iff.mp hu
      cases hu
      obtain ⟨f₂, hf₂, -, -, h₂⟩ := h₁.forgetOrder (hown ▸ h.indexed'.sound.ok) h0 hu₂
      simp only [hf₂, Option.bind_some]
      exact ⟨_, _, rfl, h₂, h.filter, rfl⟩
    | some o =>
      cases hu
      exact ⟨_, _, rfl, h₁, h.filter, rfl⟩

omit [LawfulLadder L] in
theorem onDelete (h : Filtered S u f) {a : OrderDelete} (hu : u.onDelete a = some (out, u')) :
    ∃ out' f', f.onDelete a = some (out', f') ∧ Follows S u' f f' := by
  have hsound := h.indexed.sound
  rw [Replayer.onDelete] at hu ⊢
  simp only [Option.bind_eq_bind, setStats_books, hsound.bookForOrder_eq, h.indexed'.sound.bookForOrder_eq,
    Option.bind_some] at hu ⊢
  rcases h.tracks.route h.indexed h.indexed' a.reference with ⟨hou, hof⟩ | ⟨p, s, b, hou, hp, h0, hroute⟩
  · rw [hou] at hu
    rw [hof]
    cases hu
    exact ⟨_, _, rfl, h.tracks, h.filter, rfl⟩
  rw [hou] at hu
  obtain ⟨⟨reply, u₁⟩, hu₁, hu⟩ := Option.bind_eq_some_iff.mp hu
  obtain ⟨u₂, hu₂, hu⟩ := Option.bind_eq_some_iff.mp hu
  cases hu
  rcases hroute with ⟨hs, hof⟩ | ⟨hs, q, hof, hq⟩
  · rw [hof]
    obtain ⟨h₁, -⟩ := h.tracks.onBook_of_not_mem hs hp hu₁
    obtain ⟨hb, hl⟩ := MultiBook.Tracks.forgetOrder_books hu₂
    exact ⟨_, _, rfl, h₁.congr hb hl rfl rfl, h.filter, rfl⟩
  · rw [hof]
    obtain ⟨b', f₁, hf₁, hown, -, -, h₁⟩ := h.tracks.onBook hs hp hq hu₁
    obtain ⟨f₂, hf₂, -, -, h₂⟩ := h₁.forgetOrder (hown ▸ h.indexed'.sound.ok) h0 hu₂
    simp only [hf₁, hf₂, Option.bind_some]
    exact ⟨_, _, rfl, h₂, h.filter, rfl⟩

theorem onReplace (h : Filtered S u f) {a : OrderReplace} (hu : u.onReplace a = some (out, u')) :
    ∃ out' f', f.onReplace a = some (out', f') ∧ Follows S u' f f' := by
  have hsound := h.indexed.sound
  rw [Replayer.onReplace] at hu ⊢
  simp only [Option.bind_eq_bind, setStats_books, hsound.bookForOrder_eq, h.indexed'.sound.bookForOrder_eq,
    Option.bind_some] at hu ⊢
  rcases h.tracks.route h.indexed h.indexed' a.originalReference with ⟨hou, hof⟩ | ⟨p, s, b, hou, hp, h0, hroute⟩
  · rw [hou] at hu
    rw [hof]
    cases hu
    exact ⟨_, _, rfl, h.tracks, h.filter, rfl⟩
  simp only [hou, MultiBook.deref_eq hp, Option.bind_some] at hu
  obtain ⟨o, ho, hu⟩ := Option.bind_eq_some_iff.mp hu
  cases o with
  | none =>
    cases hu
    rcases hroute with ⟨hs, hof⟩ | ⟨hs, q, hof, hq⟩
    · rw [hof]
      exact ⟨_, _, rfl, h.tracks, h.filter, rfl⟩
    · simp only [hof, MultiBook.deref_eq hq, Option.bind_some, ho]
      exact ⟨_, _, rfl, h.tracks, h.filter, rfl⟩
  | some original =>
    obtain ⟨⟨reply, u₁⟩, hu₁, hu⟩ := Option.bind_eq_some_iff.mp hu
    obtain ⟨u₂, hu₂, hu⟩ := Option.bind_eq_some_iff.mp hu
    obtain ⟨⟨reply₃, u₃⟩, hu₃, hu⟩ := Option.bind_eq_some_iff.mp hu
    obtain ⟨hbooks, hladder⟩ := MultiBook.Tracks.forgetOrder_books hu₂
    dsimp only at hu
    rcases hroute with ⟨hs, hof⟩ | ⟨hs, q, hof, hq⟩
    · -- the order's symbol is not tracked, and nor is the new order's
      rw [hof]
      refine ⟨_, _, rfl, ?_⟩
      obtain ⟨h₁, b₁, hp₁⟩ := h.tracks.onBook_of_not_mem hs hp hu₁
      have h₂ : MultiBook.Tracks S u₂ f.books := h₁.congr hbooks hladder rfl rfl
      obtain ⟨h₃, -⟩ := h₂.onBook_of_not_mem hs (hbooks ▸ hp₁) hu₃
      split at hu
      · obtain ⟨u₄, hu₄, hu⟩ := Option.bind_eq_some_iff.mp hu
        cases hu
        obtain ⟨hb, hl⟩ := MultiBook.Tracks.noteOrder_books hu₄
        exact ⟨h₃.congr hb hl rfl rfl, h.filter, rfl⟩
      · cases hu
        exact ⟨h₃, h.filter, rfl⟩
    · obtain ⟨b₁, f₁, hf₁, hown₁, hp₁, hq₁, h₁⟩ := h.tracks.onBook hs hp hq hu₁
      obtain ⟨f₂, hf₂, hfbooks, hok₂, h₂⟩ := h₁.forgetOrder (hown₁ ▸ h.indexed'.sound.ok) h0 hu₂
      have hp₂ := hbooks ▸ hp₁
      obtain ⟨b₃, f₃, hf₃, hown₃, hp₃, hq₃, h₃⟩ := h₂.onBook hs hp₂ (hfbooks ▸ hq₁) hu₃
      simp only [hof, MultiBook.deref_eq hq, Option.bind_some, ho, hf₁, hf₂, hf₃]
      split at hu
      · rename_i hok
        obtain ⟨u₄, hu₄, hu⟩ := Option.bind_eq_some_iff.mp hu
        cases hu
        have hnew : a.newReference ≠ 0 := by
          obtain ⟨c, hc, hset⟩ := MultiBook.Sound.onBook_inv hp hu₁
          obtain ⟨c₃, hc₃, -⟩ := MultiBook.Sound.onBook_inv hp₂ hu₃
          subst hset
          obtain ⟨-, hch⟩ := OrderBook.cancel_orders (hsound.inv hp) hc
          have hat : b₁ = c := by
            have hself := List.getElem?_set_self (a := (s, c)) (List.getElem?_eq_some_iff.mp hp).1
            exact congrArg Prod.snd (Option.some.inj (hp₁.symm.trans hself))
          exact (insert_ok (hat ▸ hch.inv) hc₃ hok).1
        obtain ⟨f₄, hf₄, h₄⟩ := h₃.noteOrder (hown₃ ▸ hok₂) hnew (q := q) hu₄
        simp only [hok, if_true, hf₄, Option.bind_some]
        exact ⟨_, _, rfl, h₄, h.filter, rfl⟩
      · rename_i hok
        cases hu
        rw [if_neg hok]
        exact ⟨_, _, rfl, h₃, h.filter, rfl⟩

theorem dispatch (h : Filtered S u f) (hS : S ≠ []) {m : Message} (hu : u.dispatch m = some (out, u')) :
    ∃ out' f', f.dispatch m = some (out', f') ∧ Follows S u' f f' := by
  cases m with
  | add m => exact h.onAdd hS hu
  | executed m => exact h.onReduced hu
  | cancel m => exact h.onReduced hu
  | delete m => exact h.onDelete hu
  | replace m => exact h.onReplace hu
  | trade timestamp =>
    cases hu
    exact ⟨_, _, rfl, h.tracks, h.filter, rfl⟩
  | systemEvent m =>
    cases hu
    exact ⟨_, _, rfl, h.tracks, h.filter, rfl⟩
  | administrative =>
    cases hu
    exact ⟨_, _, rfl, h.tracks, h.filter, rfl⟩

theorem apply (h : Filtered S u f) (hS : S ≠ []) {msg : List UInt8} (hfresh : Fresh u msg)
    (hu : u.apply msg = some (out, u')) : ∃ out' f', f.apply msg = some (out', f') ∧ Filtered S u' f' := by
  obtain ⟨m, hm, hd⟩ := Option.bind_eq_some_iff.mp hu
  obtain ⟨out', f', hf, htracks, hfilter, hfilter'⟩ := (h.setStats _).dispatch hS hd
  have hf : f.apply msg = some (out', f') := by
    simp only [Replayer.apply, hm, Option.bind_eq_bind, Option.bind_some]
    exact hf
  -- what rests in a filtered book rests in the other's
  have hsub : ∀ id, f.books.Rests id → u.books.Rests id := by
    rintro id ⟨⟨s, b⟩, he, hr⟩
    exact ⟨(s, b), (h.tracks.mem s (h.tracks.only _ he) b).mp he, hr⟩
  exact ⟨out', f', hf, htracks, indexed_of_apply h.indexed (not_clash h.indexed (fun _ hr => hr) hfresh) hu,
    indexed_of_apply h.indexed' (not_clash h.indexed' hsub hfresh) hf, hfilter, hfilter'.trans h.filter'⟩

omit [LawfulLadder L] in
theorem find_eq (h : Filtered S u f) {s : Symbol} (hs : s ∈ S) : f.books.find s = u.books.find s := by
  refine Option.ext fun b => ?_
  rw [MultiBook.find_eq_some h.tracks.nodup', MultiBook.find_eq_some h.tracks.nodup, h.tracks.mem s hs]

omit [LawfulLadder L] in
theorem find_none (h : Filtered S u f) {s : Symbol} (hs : s ∉ S) : f.books.find s = none := by
  by_contra hne
  obtain ⟨b, hb⟩ := Option.ne_none_iff_exists'.mp hne
  exact hs (h.tracks.only _ ((MultiBook.find_eq_some h.tracks.nodup').mp hb))

end Filtered

omit [LawfulLadder L] in
theorem new_filtered {ladder : L} {r₀ : Replayer L M} (h₀ : new ladder = some r₀) (S : List Symbol) :
    Filtered S r₀ (r₀.trackOnly S) := by
  obtain ⟨hs, ha, hbooks⟩ := new_agrees h₀
  have hi := hs.agrees_iff.mp ha
  have hfilter : r₀.filter = [] := by
    rw [new] at h₀
    obtain ⟨books, -, e⟩ := Option.bind_eq_some_iff.mp h₀
    cases e
    rfl
  have hnodup : r₀.books.symbols.Nodup := by
    rw [MultiBook.symbols, hbooks]
    exact List.nodup_nil
  refine ⟨⟨rfl, hnodup, hnodup, fun _ _ _ => Iff.rfl, fun e he => ?_⟩, hi, hi, hfilter, rfl⟩
  rw [show (r₀.trackOnly S).books.books = [] from hbooks] at he
  cases he

/-- A replay that tracks the symbols `S` only holds the very books that a
replay of the same messages without a filter holds for them, and no others,
as long as the latter's messages bring in no reference that rests already. -/
theorem filter_transparent {ladder : L} (hv : Vacant ladder) {r₀ : Replayer L M} (h₀ : new ladder = some r₀)
    {S : List Symbol} (hS : S ≠ []) (msgs : List (List UInt8)) (hfresh : Runs.Steps apply Fresh r₀ msgs) :
    (∀ u, Runs.run apply r₀ msgs = some u → ∃ f, Runs.run apply (r₀.trackOnly S) msgs = some f ∧
      (∀ s ∈ S, f.books.find s = u.books.find s) ∧ ∀ s, s ∉ S → f.books.find s = none) ∧
    ((∀ msg ∈ msgs, Complete msg) → Runs.Along apply (fun r => r.books.Few) r₀ msgs →
      ∃ u, Runs.run apply r₀ msgs = some u) := by
  have h := new_filtered h₀ S
  refine ⟨fun u hu => ?_, fun hc hfew => ?_⟩
  · obtain ⟨f, hf, h⟩ := Runs.run_follow (fun _ _ _ _ _ h hq hs => h.apply hS hq hs) msgs h hfresh hu
    exact ⟨f, hf, fun s => h.find_eq, fun s => h.find_none⟩
  · rw [← trackOnly_nil h.filter] at hfew ⊢
    exact run_of_few hv h₀ [] msgs hc hfew

/-- Of two symbols one is tracked: two orders of it, one of which is executed
in part, and one of the other. -/
theorem filter_transparent_one : ∃ (calls : List WriterCall) (r₀ u f : Replayer MapLadder OpenAddressIdMap),
    calls = [.addOrder 0 1 .bid 100 {} 5, .addOrder 0 2 .ask 70 ⟨.replicate 8 'A'.toUInt8⟩ 5,
      .orderExecuted 0 1 30 7, .orderReplace 0 2 3 50 6, .orderReplace 0 1 2 50 6] ∧
    new {} = some r₀ ∧ Runs.run apply r₀ (calls.map WriterCall.body) = some u ∧
    Runs.run apply (r₀.trackOnly [{}]) (calls.map WriterCall.body) = some f ∧
    f.books.find {} = u.books.find {} ∧ f.books.find ⟨.replicate 8 'A'.toUInt8⟩ = none := by
  obtain ⟨r₀, hr₀, h⟩ := new_refines (M := OpenAddressIdMap) MapLadder.vacant
  have hc := body_complete [.addOrder 0 1 .bid 100 {} 5, .addOrder 0 2 .ask 70 ⟨.replicate 8 'A'.toUInt8⟩ 5,
    .orderExecuted 0 1 30 7, .orderReplace 0 2 3 50 6, .orderReplace 0 1 2 50 6]
  have hfew := h.along_few_of_empty rfl (List.map WriterCall.body
    [.addOrder 0 1 .bid 100 {} 5, .addOrder 0 2 .ask 70 ⟨.replicate 8 'A'.toUInt8⟩ 5,
      .orderExecuted 0 1 30 7, .orderReplace 0 2 3 50 6, .orderReplace 0 1 2 50 6]) (by decide)
  have hfeeds : Feeds (Ladder.validPrice ({} : MapLadder)) r₀ [] := ⟨⟨{}, h, Spec.Rel.empty⟩, h.filter⟩
  obtain ⟨hrun, hexists⟩ := filter_transparent MapLadder.vacant hr₀ (List.cons_ne_nil {} []) _
    (hfeeds.steps_fresh (fun _ => rfl) _ hc hfew (by decide))
  obtain ⟨u, hu⟩ := hexists hc hfew
  obtain ⟨f, hf, hsame, hnone⟩ := hrun u hu
  exact ⟨_, r₀, u, f, rfl, hr₀, hu, hf, hsame _ List.mem_cons_self, hnone _ (by decide)⟩

end Itch.Replayer

end Pricetime
