import Locking.Log

/-!
# Faults

A fault means that the bookkeeping is broken, or that a transaction is about to wait twice. It is
never the answer to a caller's mistake, which is a refusal, and nothing runs after one.
-/

namespace Locking

/-- What is broken. -/
inductive Fault where
  /-- A transaction that waits already is about to wait again. -/
  | closedTwice (txn : TxnId)
  /-- A lock to be released is not granted. -/
  | notGranted (lock : Lock)
  /-- The index has nothing for the owner of a released lock. -/
  | ownerNotIndexed (owner : TxnId)
  /-- The index lacks the slot of a released lock. -/
  | releaseNotIndexed (slot : Nat) (lock : Lock)
  /-- The index lacks the slot of an updated lock. -/
  | updateNotIndexed (slot : Nat) (lock : Lock)
  /-- A resource has a holder without a lock where a new lock is to be granted. -/
  | grantRejected (lock : Lock)
  /-- A count is to go below zero. -/
  | countExhausted
  /-- The index keeps a transaction that holds nothing. -/
  | emptyIndex (owner : TxnId)
  /-- A lock in the index is not granted. -/
  | indexNotGranted (lock : Lock) (slot : Nat)
  /-- A resource has more locks than holders. -/
  | moreGrantsThanHolders (resource : Resource)
  /-- A granted lock is not in the index. -/
  | grantNotIndexed (lock : Lock) (resource : Resource)
  /-- Two transactions hold locks that exclude each other. -/
  | conflict (resource : Resource) (first second : Lock)
  /-- The counts differ from what is there. -/
  | countsDiverged (granted indexed grantedCount waiting waitingCount : Nat)
  deriving DecidableEq, Repr

namespace Fault

/-- The text of a fault. -/
def message : Fault → String
  | closedTwice txn => "Transaction " ++ toString txn ++ " prepared to block twice"
  | notGranted lock => "Cannot release " ++ lock.text ++ ": lock is not granted"
  | ownerNotIndexed owner => "Lock index has no locks for transaction " ++ toString owner
  | releaseNotIndexed slot lock =>
    "Lock index has no slot " ++ toString slot ++ " for released lock " ++ lock.text
  | updateNotIndexed slot lock =>
    "Lock index has no slot " ++ toString slot ++ " for updated lock " ++ lock.text
  | grantRejected lock => "Resource entry rejected new grant " ++ lock.text
  | countExhausted => "attempt to subtract with overflow"
  | emptyIndex owner => "Lock index keeps an empty entry for transaction " ++ toString owner
  | indexNotGranted lock slot =>
    "Lock index entry " ++ lock.text ++ " at slot " ++ toString slot ++ " is not granted"
  | moreGrantsThanHolders resource =>
    "Resource " ++ resource.text ++ " has more grants than holders"
  | grantNotIndexed lock resource =>
    "Granted lock " ++ lock.text ++ " on " ++ resource.text ++ " is not indexed"
  | conflict resource first second =>
    "Conflicting locks granted on " ++ resource.text ++ ": " ++ first.text ++ " and " ++
      second.text
  | countsDiverged granted indexed grantedCount waiting waitingCount =>
    "Lock counts diverged: granted=" ++ toString granted ++ " indexed=" ++ toString indexed ++
      " tracked=" ++ toString grantedCount ++ " waiting=" ++ toString waiting ++
      " tracked=" ++ toString waitingCount

/-- Every fault is logged, except that a count simply stops. -/
def record? (f : Fault) : Option Log.Record :=
  match f with
  | countExhausted => none
  | _ => some ⟨.error, f.message, [("fatal", "true")]⟩

end Fault

end Locking
