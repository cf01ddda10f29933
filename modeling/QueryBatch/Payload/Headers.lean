/-
Header fields: names, each with its values.  Names that differ in letter case only
are the same; a name keeps its first spelling and its place.
-/
import QueryBatch.Text.Basic

namespace QueryBatch

/-- Header fields in the order of their first appearance. -/
structure Headers where
  entries : List (Text × List Text) := []
deriving DecidableEq, Repr

namespace Headers

/-- Adds a value to the first field of that name, or a new field at the end. -/
def appendTo (name value : Text) : List (Text × List Text) → List (Text × List Text)
  | [] => [(name, [value])]
  | (key, values) :: rest =>
      if Text.sameIgnoringCase key name then (key, values ++ [value]) :: rest
      else (key, values) :: appendTo name value rest

/-- Takes the first field of that name out. -/
def removeFrom (name : Text) :
    List (Text × List Text) → Option (List Text) × List (Text × List Text)
  | [] => (none, [])
  | (key, values) :: rest =>
      if Text.sameIgnoringCase key name then (some values, rest)
      else ((removeFrom name rest).1, (key, values) :: (removeFrom name rest).2)

/-- Adds a value under a name. -/
def append (h : Headers) (name value : Text) : Headers :=
  ⟨appendTo name value h.entries⟩

/-- The elements of a value: what stands between commas, trimmed. -/
def elements (value : Text) : List Text :=
  (Text.splitOn ',' value).map Text.trim

/-- Adds the elements of a value under a name. -/
def appendElements (h : Headers) (name value : Text) : Headers :=
  (elements value).foldl (fun h element => h.append name element) h

/-- The values that a name had, if any, and the fields without it. -/
def remove (h : Headers) (name : Text) : Option (List Text) × Headers :=
  ((removeFrom name h.entries).1, ⟨(removeFrom name h.entries).2⟩)

/-- Makes a value the only one of its name, whose field moves to the end. -/
def set (h : Headers) (name value : Text) : Headers :=
  (h.remove name).2.append name value

/-- The values of a name. -/
def get? (h : Headers) (name : Text) : Option (List Text) :=
  (h.entries.find? fun entry => Text.sameIgnoringCase entry.1 name).map Prod.snd

/-- The first value of a name. -/
def first? (h : Headers) (name : Text) : Option Text :=
  (h.get? name).bind List.head?

/-- Whether a name has values. -/
def contains (h : Headers) (name : Text) : Bool :=
  (h.get? name).isSome

/-- The number of names. -/
def size (h : Headers) : Nat :=
  h.entries.length

/-- Fields from names and values, added in order. -/
def ofList (fields : List (Text × Text)) : Headers :=
  fields.foldl (fun h field => h.append field.1 field.2) {}

end Headers

end QueryBatch
