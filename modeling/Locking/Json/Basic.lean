/-!
# JSON values

The values that settings, names and locks are read from and written to. Numbers are kept as far as
it matters here: an integer by its value, any other number by its spelling.

* `Json.record?`: a record is an object, read field by field, or an array of exactly its fields.
-/

namespace Locking

/-- A JSON value. -/
inductive Json where
  | null
  | bool (value : Bool)
  | int (value : Int)
  /-- A number that is not written as an integer. -/
  | real (spelling : String)
  | str (value : String)
  | arr (items : List Json)
  | obj (fields : List (String × Json))
  deriving Inhabited, Repr

namespace Json

/-- The text of a string. -/
def str? : Json → Option String
  | str value => some value
  | _ => none

/-- The value of a truth value. -/
def bool? : Json → Option Bool
  | bool value => some value
  | _ => none

/-- A list of strings. -/
def strings? : Json → Option (List String)
  | arr items => items.mapM str?
  | _ => none

/-- An integer that fits into 64 bits without a sign. -/
def word? : Json → Option UInt64
  | int value =>
    if 0 ≤ value ∧ value < (UInt64.size : Int) then some (UInt64.ofNat value.toNat) else none
  | _ => none

/-- The fields of a record, in order. In an object they are found by name, none of them may come
twice, other fields are ignored, and a field that is missing is `none`; an array holds exactly the
fields. -/
def record? (names : List String) : Json → Option (List (Option Json))
  | obj fields =>
    if ∀ name ∈ names, (fields.map Prod.fst).count name ≤ 1 then
      some (names.map fun name => List.lookup name fields)
    else none
  | arr items => if items.length = names.length then some (items.map some) else none
  | _ => none

/-- An optional field: missing or null is no value. -/
def optional? {α : Type} (read : Json → Option α) : Option Json → Option (Option α)
  | none | some null => some none
  | some value => (read value).map some

end Json

end Locking
