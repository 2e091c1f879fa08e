import Std.Data.ExtTreeMap
import Locking.Fault

/-!
# Transactions and their gates

A transaction that has to wait does so behind its gate. The gate is closed while the decision to
wait is taken, and the transaction arrives at it later; if it has been reopened in between, the
transaction does not stop at all.

* `Gates.close`: a gate may be closed only once, and closing it twice is a fault.
* `Gates.reopen`: lets the transaction through, whether it has arrived or not.
-/

namespace Locking

/-- A transaction object. Several objects may go by one id; the key tells them apart. -/
structure Txn where
  key : Nat
  id : TxnId
  deriving DecidableEq, Repr, Inhabited

/-- The gate of one transaction. -/
structure Gate where
  closed : Bool := false
  /-- How often it has been closed. -/
  timesClosed : Nat := 0
  /-- How often it has been reopened. -/
  timesReopened : Nat := 0
  deriving DecidableEq, Repr, Inhabited

namespace Gate

/-- The gate after it has been closed once more. -/
def close (g : Gate) : Gate := { g with closed := true, timesClosed := g.timesClosed + 1 }

/-- The gate after it has been reopened once more. -/
def reopen (g : Gate) : Gate := { g with closed := false, timesReopened := g.timesReopened + 1 }

end Gate

/-- The gates of all transactions, by key. One that is not there is open and was never used. -/
abbrev Gates := Std.ExtTreeMap Nat Gate

namespace Gates

/-- The gate of a transaction. -/
def gate (gs : Gates) (txn : Txn) : Gate := gs.getD txn.key {}

/-- The transaction is told to wait. -/
def isClosed (gs : Gates) (txn : Txn) : Bool := (gs.gate txn).closed

/-- Tells a transaction to wait. -/
def close (gs : Gates) (txn : Txn) : Except Fault Gates :=
  if gs.isClosed txn then .error (.closedTwice txn.id)
  else .ok (gs.insert txn.key (gs.gate txn).close)

/-- Lets a transaction through. -/
def reopen (gs : Gates) (txn : Txn) : Gates := gs.insert txn.key (gs.gate txn).reopen

theorem gate_reopen (gs : Gates) (txn other : Txn) :
    (gs.reopen txn).gate other =
      if txn.key = other.key then (gs.gate txn).reopen else gs.gate other := by
  simp [reopen, gate, Std.ExtTreeMap.getD_insert]

theorem close_eq_ok_iff {gs gs' : Gates} {txn : Txn} :
    gs.close txn = .ok gs' ↔
      gs.isClosed txn = false ∧ gs' = gs.insert txn.key (gs.gate txn).close := by
  unfold close
  cases h : gs.isClosed txn
  · simpa using eq_comm
  · simp

theorem close_eq_error_iff {gs : Gates} {txn : Txn} {f : Fault} :
    gs.close txn = .error f ↔ gs.isClosed txn ∧ f = .closedTwice txn.id := by
  unfold close
  cases h : gs.isClosed txn
  · simp
  · simpa using eq_comm

theorem gate_close {gs gs' : Gates} {txn : Txn} (h : gs.close txn = .ok gs') (other : Txn) :
    gs'.gate other = if txn.key = other.key then (gs.gate txn).close else gs.gate other := by
  rw [(close_eq_ok_iff.1 h).2]
  simp [gate, Std.ExtTreeMap.getD_insert]

end Gates

end Locking
