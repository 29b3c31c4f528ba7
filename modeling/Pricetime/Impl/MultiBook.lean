import Pricetime.Impl.Book
import Pricetime.Impl.Itch

/-!
# Books by symbol

Books are never moved and never freed, so that a `BookType*` is the position
of its book in the order of their creation. `books` is the map from symbols to
books, and `owner` the index from order ids to books.
-/

namespace Pricetime

abbrev BookPtr := Nat

structure MultiBook (L M : Type) where
  books : List (Symbol × OrderBook L M) := []
  owner : OpenAddressMap BookPtr
  /-- What `make_book_` makes the ladder of a new book from. -/
  ladder : L

namespace MultiBook

variable {L M : Type} [Ladder L] [IdMap M]

def new (ladder : L) : Option (MultiBook L M) := do
  let owner ← OpenAddressMap.new hash
  some { owner, ladder }

/-- The book of a symbol, created on first sight. -/
def book (m : MultiBook L M) (s : Symbol) : Option (BookPtr × MultiBook L M) :=
  match m.books.findIdx? fun e => e.1 = s with
  | some i => some (i, m)
  | none => do
    let b ← OrderBook.new m.ladder
    some (m.books.length, { m with books := m.books ++ [(s, b)] })

def find (m : MultiBook L M) (s : Symbol) : Option (OrderBook L M) :=
  (m.books.find? fun e => e.1 = s).map Prod.snd

def bookForOrder (m : MultiBook L M) (id : OrderId) : Option (Option BookPtr) :=
  OpenAddressMap.find hash m.owner id

def noteOrder (m : MultiBook L M) (id : OrderId) (b : BookPtr) : Option (MultiBook L M) := do
  let (_, owner) ← OpenAddressMap.insert hash m.owner id b
  some { m with owner }

def forgetOrder (m : MultiBook L M) (id : OrderId) : Option (MultiBook L M) := do
  let (_, owner) ← OpenAddressMap.erase hash m.owner id
  some { m with owner }

def trackedOrders (m : MultiBook L M) : Nat := m.owner.size

/-- The book at an address. -/
def deref (m : MultiBook L M) (p : BookPtr) : Option (OrderBook L M) := m.books[p]?.map Prod.snd

/-- A change of the book at an address. -/
def onBook (m : MultiBook L M) (p : BookPtr) (f : OrderBook L M → Option (Reply × OrderBook L M)) :
    Option (Reply × MultiBook L M) := do
  let (s, b) ← m.books[p]?
  let (reply, b) ← f b
  some (reply, { m with books := m.books.set p (s, b) })

end MultiBook

end Pricetime
