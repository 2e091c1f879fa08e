import Locking.Txn

/-!
# Requests

A request waits for a lock. When it is granted, the locks it gives up in exchange are released, and
then its transaction is woken.
-/

namespace Locking

/-- A lock that a transaction waits for, and the locks it gives up once it has it. -/
structure Request where
  txn : Txn
  lock : Lock
  releases : List Lock := []
  deriving DecidableEq, Repr, Inhabited

/-- A request in full. -/
def Log.request (q : Request) : String :=
  structured "LockRequest" [("transaction", toString q.txn.id), ("lock", lock q.lock),
    ("release", listed (q.releases.map lock))]

end Locking
