import SplitRadix.Code.Bytes

/-!
# String tables

A string table holds names that end in a zero byte, after a zero byte of its own. A name that is the
end of another needs no room: it points into the other. To find such names, all are put in descending
order of their reversals, in which a name comes right after one that it ends.
-/

namespace SplitRadix.ObjectFile

/-- The order of byte strings, with larger bytes and longer strings first. -/
def descending : Bytes → Bytes → Bool
  | _, [] => true
  | [], _ :: _ => false
  | a :: as, b :: bs => b < a || (a == b && descending as bs)

/-- The order of names in a string table. -/
def nameBefore (a b : Bytes) : Bool := descending a.reverse b.reverse

/-- Put a name into its place among ordered names, unless it is there already. -/
def insertName (name : Bytes) : List Bytes → List Bytes
  | [] => [name]
  | first :: rest =>
    if name = first then first :: rest
    else if nameBefore name first then name :: first :: rest
    else first :: insertName name rest

/-- The distinct names in order. -/
def orderNames : List Bytes → List Bytes
  | [] => []
  | name :: rest => insertName name (orderNames rest)

/-- A table and the places of the names in it. -/
structure StringTable where
  bytes : Bytes
  places : List (Bytes × Nat)    -- latest first
  last : Bytes                   -- the name written last
  deriving DecidableEq, Repr

namespace StringTable

def empty : StringTable := ⟨[0], [], []⟩

/-- Add a name. If it ends the name written last, it is already there. -/
def add (t : StringTable) (name : Bytes) : StringTable :=
  if name.isSuffixOf t.last then
    { t with places := (name, t.bytes.length - name.length - 1) :: t.places }
  else
    { bytes := t.bytes ++ name ++ [0]
      places := (name, t.bytes.length) :: t.places
      last := name }

/-- The table of some names. -/
def ofNames (names : List Bytes) : StringTable :=
  (orderNames names).foldl add empty

/-- Where a name starts. -/
def place (t : StringTable) (name : Bytes) : Nat :=
  match t.places.find? fun entry => entry.1 == name with
  | some entry => entry.2
  | none => 0

end StringTable

end SplitRadix.ObjectFile
