import Locking.Call

/-!
# Commands of a session

A session is a script of commands. It names resources and transactions by their place in the lists
that it sets out from, and modes by their codes.
-/

namespace Locking.Session

/-- A call whose resources and modes are still to be looked up. -/
inductive Draft where
  | acquire (name : Nat) (code : String)
  | release (name : Nat)
  | promote (name : Nat) (code : String)
  | exchange (name : Nat) (code : String) (releases : List Nat)
  deriving DecidableEq, Repr

/-- One command. -/
inductive Command where
  /-- A transaction calls the current manager. -/
  | call (txn : Nat) (draft : Draft)
  /-- The gate of a transaction is closed directly. -/
  | close (txn : Nat)
  /-- The gate of a transaction is reopened directly. -/
  | reopen (txn : Nat)
  /-- How often the gate of a transaction was closed and reopened. -/
  | counts (txn : Nat)
  /-- The mode in which a transaction holds a resource. -/
  | mode (id : TxnId) (name : Nat)
  /-- The locks on a resource. -/
  | locksOn (name : Nat)
  /-- The locks of a transaction. -/
  | locksOf (id : TxnId)
  /-- The locks of a transaction below a resource. -/
  | locksBelow (id : TxnId) (name : Nat)
  /-- The locks that are waited for on a resource. -/
  | waiting (name : Nat)
  /-- The number of requests that wait for a resource. -/
  | queueLength (name : Nat)
  /-- The hierarchy with a name, and its child. -/
  | hierarchy (name segment : String)
  /-- The hierarchy of the database, and its child. -/
  | database (segment : String)
  /-- The settings of the managers. -/
  | settings
  /-- Another manager becomes the current one. -/
  | manager (m : Nat)
  /-- The counts of the tally. -/
  | metrics
  /-- What the counts of the tally mean. -/
  | metricsHelp
  deriving DecidableEq, Repr

end Locking.Session
