import Locking.Session.Run

/-!
# Drills

A drill takes one transaction through its gate alone, without any manager.
-/

namespace Locking.Session

/-- One move of a drill. -/
inductive Move where
  /-- Asks for the id. -/
  | id
  | close
  | arrive
  | reopen
  deriving DecidableEq, Repr

/-- What comes of a move. -/
inductive Outcome where
  | id (txn : TxnId)
  | done
  /-- The transaction would stop at its gate; the move is left out. -/
  | stops
  | failed (f : Fault)
  deriving DecidableEq, Repr

/-- What is seen after a move. -/
structure Sight where
  outcome : Outcome
  gate : Gate
  log : List Log.Record := []
  deriving DecidableEq, Repr

/-- The record of a transaction that passes its gate. -/
def passing (txn : Txn) : Log.Record :=
  ⟨.trace, "block", [("transaction", toString txn.id), ("already_unblocked", "true")]⟩

/-- Makes one move, and tells what is seen after it. -/
def Move.make (waiter : Waiter) (txn : Txn) (gs : Gates) : Move → Gates × Sight
  | id => (gs, ⟨.id txn.id, gs.gate txn, []⟩)
  | close =>
    match gs.close txn with
    | .ok gs' => (gs', ⟨.done, gs'.gate txn, []⟩)
    | .error f => (gs, ⟨.failed f, gs.gate txn, f.record?.toList⟩)
  | arrive =>
    match waiter with
    | .counting => (gs, ⟨.done, gs.gate txn, []⟩)
    | .stopping =>
      if gs.isClosed txn then (gs, ⟨.stops, gs.gate txn, []⟩)
      else (gs, ⟨.done, gs.gate txn, [passing txn]⟩)
  | reopen => (gs.reopen txn, ⟨.done, (gs.reopen txn).gate txn, []⟩)

/-- Makes the moves one after the other, up to the first fault. -/
def drill (waiter : Waiter) (txn : Txn) (gs : Gates) : List Move → List Sight
  | [] => []
  | m :: ms =>
    let (gs', sight) := m.make waiter txn gs
    match sight.outcome with
    | .failed _ => [sight]
    | _ => sight :: drill waiter txn gs' ms

end Locking.Session
