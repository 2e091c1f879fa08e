import Std.Data.ExtTreeMap
import Locking.Call

/-!
# The tally

Counts of what the managers did: calls, refusals and waits by name, wake-ups, and how many locks
are granted and requests wait in the manager that was called last.

* `Counter.count_bump`: counting one thing leaves the others alone.
* `Tally.families`: the counts by family, as they are reported.
-/

namespace Locking

open Std

/-- Counts by label. -/
abbrev Counter := ExtTreeMap String Nat

namespace Counter

/-- How often a label was counted. -/
def count (c : Counter) (label : String) : Nat := c.getD label 0

/-- Counts a label once more. -/
def bump (c : Counter) (label : String) : Counter := c.insert label (c.count label + 1)

theorem count_bump (c : Counter) (label other : String) :
    (c.bump label).count other = c.count other + if label = other then 1 else 0 := by
  by_cases h : label = other
  · subst h
    simp [bump, count]
  · simp [bump, count, ExtTreeMap.getD_insert, h]

end Counter

/-- What is counted over all managers. The counts are numbers of 64 bits, which may run out; that is
left out. -/
structure Tally where
  /-- Calls, by operation. -/
  requests : Counter := ∅
  /-- Refusals, by kind. -/
  errors : Counter := ∅
  /-- Calls that had to wait, by operation. -/
  blocked : Counter := ∅
  /-- Requests granted from a queue. -/
  wakeups : Nat := 0
  /-- Locks granted, when the last call was done. -/
  granted : Nat := 0
  /-- Requests that waited, when the last call was done. -/
  waiting : Nat := 0

namespace Tally

/-- Counts a call. -/
def request (c : Tally) (op : Operation) : Tally :=
  { c with requests := c.requests.bump op.label }

/-- Counts a refusal. -/
def refuse (c : Tally) (r : Refusal) : Tally := { c with errors := c.errors.bump r.label }

/-- Counts a call that has to wait. -/
def block (c : Tally) (op : Operation) : Tally :=
  { c with blocked := c.blocked.bump op.label }

/-- Counts the wake-ups of a call, and takes over the numbers of its manager. -/
def update (c : Tally) (wakeups granted waiting : Nat) : Tally :=
  { c with wakeups := c.wakeups + wakeups, granted, waiting }

/-- Whether a count only grows. -/
inductive Kind where
  | counter
  | gauge
  deriving DecidableEq, Repr

/-- The name of a kind of count. -/
def Kind.text : Kind → String
  | counter => "counter"
  | gauge => "gauge"

/-- A family of counts. Its counts are listed with their labels, and in a family without labels
the only count has none. -/
structure Family where
  name : String
  kind : Kind
  help : String
  counts : List (Option String × Nat)

/-- The counts of a family by label. -/
def labelled (c : Counter) : List (Option String × Nat) :=
  c.toList.map fun (label, n) => (some label, n)

/-- All families, in order of their names. -/
def families (c : Tally) : List Family :=
  [⟨"lock_manager_blocked_requests", .counter,
      "Number of requests that had to wait in a resource queue, grouped by operation",
      labelled c.blocked⟩,
    ⟨"lock_manager_errors", .counter,
      "Number of rejected lock manager operations, grouped by error", labelled c.errors⟩,
    ⟨"lock_manager_granted_locks", .gauge, "Number of locks currently granted",
      [(none, c.granted)]⟩,
    ⟨"lock_manager_requests", .counter,
      "Number of lock manager operations, grouped by operation", labelled c.requests⟩,
    ⟨"lock_manager_waiting_requests", .gauge,
      "Number of requests currently waiting in resource queues", [(none, c.waiting)]⟩,
    ⟨"lock_manager_wakeups", .counter, "Number of queued requests granted by a queue drain",
      [(none, c.wakeups)]⟩]

/-- The families that have anything to report. -/
def reported (c : Tally) : List Family := c.families.filter (!·.counts.isEmpty)

end Tally

end Locking
