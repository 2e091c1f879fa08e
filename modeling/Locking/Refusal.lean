import Locking.Lock

/-!
# Refusals

A call that breaks the caller's side of the contract is refused, and nothing changes. Each refusal
names the transaction, the resource, and what was found there.
-/

namespace Locking

/-- Why a call is refused. -/
inductive Refusal where
  /-- The transaction already holds a lock on the resource. -/
  | duplicate (txn : TxnId) (resource : Resource) (held : Mode)
  /-- The transaction holds no lock on the resource. -/
  | notHeld (txn : TxnId) (resource : Resource)
  /-- The mode asked for may not follow the mode held. -/
  | invalid (txn : TxnId) (resource : Resource) (held requested : Mode)
  deriving DecidableEq, Repr

namespace Refusal

/-- The name under which a refusal is reported and counted. -/
def label : Refusal → String
  | duplicate .. => "DuplicateLockRequest"
  | notHeld .. => "NoLockHeld"
  | invalid .. => "InvalidLock"

/-- The text shown to the caller. -/
def message : Refusal → String
  | duplicate txn resource held =>
    "Transaction " ++ toString txn ++ " already holds " ++ held.code ++ " on " ++ resource.text
  | notHeld txn resource =>
    "Transaction " ++ toString txn ++ " holds no lock on " ++ resource.text
  | invalid txn resource held requested =>
    "Transaction " ++ toString txn ++ " cannot promote " ++ held.code ++ " to " ++
      requested.code ++ " on " ++ resource.text

end Refusal

end Locking
