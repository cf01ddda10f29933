/-
A bounded memo of parsed queries.  What it answers is what parsing would: it keeps
trees of queries that parse, each under its query and the coding of its values, and
when it is full a new tree takes the place of another.
-/
import QueryBatch.Conversion

namespace QueryBatch

/-- What a tree is kept under. -/
structure Memo.Key where
  query : Text
  coding : ValueCoding
deriving DecidableEq, Repr

/-- Parsed queries, the latest first. -/
structure Memo where
  capacity : Nat
  entries : List (Memo.Key × Condition)
deriving Repr

namespace Memo

/-- The capacity of the memo that a process shares. -/
def sharedCapacity : Nat := 1024

/-- A memo without entries; it has room for one at least. -/
def empty (capacity : Nat) : Memo :=
  ⟨max capacity 1, []⟩

/-- The number of entries. -/
def size (m : Memo) : Nat :=
  m.entries.length

/-- The tree kept under a key. -/
def get? (m : Memo) (key : Key) : Option Condition :=
  m.entries.lookup key

/-- Whether a tree is kept under a key. -/
def contains (m : Memo) (key : Key) : Bool :=
  (m.get? key).isSome

/-- A memo of the same capacity without entries. -/
def clear (m : Memo) : Memo :=
  { m with entries := [] }

/-- The entries that stay when one is added under a key: all others, but one less
if there is no room.  The number of the entry that gives way is `victim`, counted
round. -/
def kept (m : Memo) (victim : Nat) (key : Key) : List (Key × Condition) :=
  if m.contains key then m.entries.filter fun entry => entry.1 != key
  else if m.capacity ≤ m.size then m.entries.eraseIdx (victim % m.size)
  else m.entries

/-- Keeps a tree under a key. -/
def insert (m : Memo) (victim : Nat) (key : Key) (tree : Condition) : Memo :=
  { m with entries := (key, tree) :: m.kept victim key }

/-- The reading of a query, kept if it is a tree. -/
def parse (m : Memo) (victim : Nat) (key : Key) : Except Error Condition × Memo :=
  match m.get? key with
  | some tree => (.ok tree, m)
  | none =>
      match Condition.parse key.coding key.query with
      | .error e => (.error e, m)
      | .ok tree => (.ok tree, m.insert victim key tree)

/-- The filter of a query, its tree kept. -/
def toFilter (m : Memo) (victim : Nat) (query : Text) :
    Except Error (Filter × List Text) × Memo :=
  let (parsed, m') := m.parse victim ⟨query, .plain⟩
  (Filter.ofParsed query parsed, m')

/-- The search condition of a query, its tree kept. -/
def toSearchCond (m : Memo) (victim : Nat) (target : SearchCond.Target) (query : Text) :
    Except Error SearchCond × Memo :=
  let (parsed, m') := m.parse victim ⟨query, .formEncoded⟩
  (SearchCond.ofParsed target query parsed, m')

end Memo

end QueryBatch
