import Locking.Json.Basic
import Locking.Lock
import Locking.Settings

/-!
# JSON forms

The written form of modes, names, locks and settings, and what is read as one. More is read than is
written: a record may come as an array of its fields or carry further fields, and a mode may come as
an object that holds nothing under its code.

* `toJson`: the written form.
* `ofJson?`: what is read from a value, or `none` if it is not of that kind.
-/

namespace Locking

/-- A mode is written as its code. -/
def Mode.toJson (m : Mode) : Json := .str m.code

/-- A mode is read from its code, alone or as the only field of an object that holds null. -/
def Mode.ofJson? : Json → Option Mode
  | .str code => ofCode? code
  | .obj [(code, .null)] => ofCode? code
  | _ => none

/-- A resource is written as a record of its segments. -/
def Resource.toJson (r : Resource) : Json :=
  .obj [("segments", .arr (r.segments.map .str))]

/-- A resource is read from a record of its segments. -/
def Resource.ofJson? (value : Json) : Option Resource :=
  match value.record? ["segments"] with
  | some [some segments] => segments.strings?.map Resource.mk
  | _ => none

/-- A lock is written as a record of its resource, mode and owner. -/
def Lock.toJson (l : Lock) : Json :=
  .obj [("name", l.resource.toJson), ("lock_type", l.mode.toJson),
    ("transaction", .int l.owner.toNat)]

/-- A lock is read from a record of its resource, mode and owner. -/
def Lock.ofJson? (value : Json) : Option Lock :=
  match value.record? ["name", "lock_type", "transaction"] with
  | some [some resource, some mode, some owner] => do
    some ⟨← Resource.ofJson? resource, ← Mode.ofJson? mode, ← owner.word?⟩
  | _ => none

/-- Settings are written as a record of the choices that are made. -/
def Settings.toJson (s : Settings) : Json :=
  .obj (s.databaseName?.toList.map (fun name => ("database-context-name", .str name)) ++
    s.checkInvariants?.toList.map (fun check => ("check-invariants", .bool check)))

/-- Settings are read from a record of optional choices. -/
def Settings.ofJson? (value : Json) : Option Settings :=
  match value.record? ["database-context-name", "check-invariants"] with
  | some [name, check] => do
    some ⟨← Json.optional? Json.str? name, ← Json.optional? Json.bool? check⟩
  | _ => none

end Locking
