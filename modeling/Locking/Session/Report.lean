import Locking.Event
import Locking.Hierarchy
import Locking.Settings
import Locking.Tally

/-!
# Reports of a session

What a session answers to each command.
-/

namespace Locking.Session

/-- What can be seen of a manager and the gates. -/
structure Snapshot where
  /-- The locks on each resource of the session. -/
  granted : List (List Lock)
  /-- The locks waited for on each resource of the session. -/
  waiting : List (List Lock)
  /-- The locks of each transaction id of the session, in ascending order. -/
  held : List (List Lock)
  /-- The transactions whose gates are closed. -/
  blocked : List Nat
  deriving DecidableEq, Repr

/-- The answer to a command. -/
inductive Answer where
  | done
  /-- The call was left out, because its transaction is told to wait. -/
  | skipped
  /-- The call stopped at the gate of its transaction. -/
  | suspended
  | refused (r : Refusal)
  | failed (f : Fault)
  /-- No mode has the code that was given. -/
  | noSuchMode
  /-- There is nothing to tell. -/
  | nothing
  | counts (closed reopened : Nat)
  | mode (m : Mode)
  | locks (ls : List Lock)
  | requested (ls : List Lock)
  | size (n : Nat)
  /-- A hierarchy and a child of it, with the places of the first hierarchies of the session that
  are the same and that have the same root. -/
  | hierarchy (h : Hierarchy) (child : Resource) (same? equal? : Option Nat)
  | settings (s : Settings)
  | metrics (families : List Tally.Family)
  | metricsHelp (families : List Tally.Family)

/-- The report on a command. -/
structure Report where
  answer : Answer
  /-- What happened at the gates, in order. -/
  notes : List Note := []
  /-- The suspended calls that go on, by transaction. -/
  resumed : List Nat := []
  log : List Log.Record := []
  /-- What can be seen after a command that may change something, unless it breaks off. -/
  snapshot? : Option Snapshot := none

end Locking.Session
