import Locking.Refusal

/-!
# Calls

What a transaction may ask of a manager.
-/

namespace Locking

/-- The kinds of call. -/
inductive Operation where
  | acquire
  | release
  | promote
  | exchange
  deriving DecidableEq, Repr

/-- The name under which an operation is reported and counted. -/
def Operation.label : Operation → String
  | acquire => "acquire"
  | release => "release"
  | promote => "promote"
  | exchange => "acquire_and_release"

/-- A call of a transaction. -/
inductive Call where
  /-- Takes a lock on a resource where the transaction holds none. -/
  | acquire (resource : Resource) (mode : Mode)
  /-- Gives up the lock on a resource. -/
  | release (resource : Resource)
  /-- Raises the mode of the lock on a resource. -/
  | promote (resource : Resource) (mode : Mode)
  /-- Takes a lock and gives up others, as one step. -/
  | exchange (resource : Resource) (mode : Mode) (releases : List Resource)
  deriving DecidableEq, Repr

namespace Call

/-- The kind of a call. -/
def operation : Call → Operation
  | acquire .. => .acquire
  | release .. => .release
  | promote .. => .promote
  | exchange .. => .exchange

/-- The resource that a call is about. -/
def resource : Call → Resource
  | acquire r _ | release r | promote r _ | exchange r _ _ => r

end Call

end Locking
