import Locking.Mode
import Locking.Resource

/-!
# Locks

A lock is a mode held, or asked for, by one transaction on one resource.
-/

namespace Locking

/-- The number that names a transaction. -/
abbrev TxnId := UInt64

/-- A lock of one transaction on one resource. -/
structure Lock where
  resource : Resource
  mode : Mode
  owner : TxnId
  deriving DecidableEq, Repr, Inhabited

namespace Lock

/-- The short text of a lock, such as `T1: S(db/t)`. -/
def text (l : Lock) : String :=
  "T" ++ toString l.owner ++ ": " ++ l.mode.code ++ "(" ++ l.resource.text ++ ")"

instance : ToString Lock := ⟨text⟩

end Lock

end Locking
