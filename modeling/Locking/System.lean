import Locking.Plan
import Locking.Settings
import Locking.Table.Audit
import Locking.Tally

/-!
# Systems of managers

Several managers, each with a table of its own, share their transactions, their settings and one
tally. A call has two parts. The decision is taken in one piece: the call is refused, or carried
out, or its request is queued and the gate of its transaction closed. A transaction that has to wait
then arrives at its gate, and other calls may be decided before it does.

* `System.decide`: the decision on a call.
* `System.arrive`: the arrival at the gate.
* `System.call`: both, one directly after the other.
* `System.act`: one action of a run, in which the parts of different calls may alternate.
-/

namespace Locking

open Std

/-- The managers with all that they share. -/
structure System where
  settings : Settings := {}
  /-- The table of each manager; one that is not there is empty. -/
  tables : ExtTreeMap Nat Table := ∅
  gates : Gates := ∅
  tally : Tally := {}
  /-- The wake-ups of each manager that have not been counted, because the call broke off. -/
  uncounted : ExtTreeMap Nat Nat := ∅

/-- What becomes of a call. -/
inductive Verdict where
  /-- It is carried out. -/
  | done
  /-- Its transaction has to wait. -/
  | waits
  /-- It is refused, and nothing changes. -/
  | refused (r : Refusal)
  /-- It breaks off. -/
  | failed (f : Fault)
  deriving DecidableEq, Repr

/-- Where a call leads. -/
structure Decision where
  system : System
  events : List Event
  verdict : Verdict

namespace System

/-- The table of a manager. -/
def table (s : System) (m : Nat) : Table := s.tables.getD m {}

/-- Writes the table of a manager. -/
def setTable (s : System) (m : Nat) (t : Table) : System :=
  { s with tables := s.tables.insert m t }

/-- The wake-ups of a manager when a call is over: those of the call, and those of calls before it
that broke off. -/
def wakeups (s : System) (m : Nat) (es : List Event) : Nat :=
  s.uncounted.getD m 0 + (woken es).length

/-- Takes over the table that a call has led to: the wake-ups and the numbers of the table are
counted, and the table is audited if the settings say so. -/
def commit (s : System) (m : Nat) (t : Table) (es : List Event) (v : Verdict) : Decision :=
  let s' := { s.setTable m t with
    tally := s.tally.update (s.wakeups m es) t.grantedCount t.waitingCount
    uncounted := s.uncounted.erase m }
  match if s.settings.checkInvariants then t.audit else none with
  | none => ⟨s', es, v⟩
  | some f => ⟨s', es ++ [.fault f], .failed f⟩

/-- Carries out an agenda in the table of a manager. If it breaks off, its wake-ups are left to be
counted with those of the next call. -/
def perform (s : System) (m : Nat) (tasks : List Cascade.Task) : Decision :=
  let out := Cascade.run (s.table m) tasks
  let s' := { s with gates := s.gates.afterEvents out.events }
  match out.fault? with
  | none => s'.commit m out.table out.events .done
  | some f =>
    ⟨{ s'.setTable m out.table with
        uncounted := s.uncounted.insert m (s.wakeups m out.events) }, out.events, .failed f⟩

/-- Queues the request of a call and closes the gate of its transaction. -/
def park (s : System) (m : Nat) (op : Operation) (q : Request) (place : Place) (held : Mode) :
    Decision :=
  let t := (s.table m).enqueue q place
  match s.gates.close q.txn with
  | .ok gates =>
    { s with gates }.commit m t [.queued op q held, .gate (.closed q.txn)] .waits
  | .error f => ⟨s.setTable m t, [.queued op q held, .fault f], .failed f⟩

/-- The decision on a call of a transaction to a manager. -/
def decide (s : System) (m : Nat) (txn : Txn) (call : Call) : Decision :=
  let s' := { s with tally := s.tally.request call.operation }
  match (s.table m).plan txn call with
  | .error r => ⟨{ s' with tally := s'.tally.refuse r }, [], .refused r⟩
  | .ok (.go tasks) => s'.perform m tasks
  | .ok (.wait q place held) => s'.park m call.operation q place held

/-- A transaction that has to wait for its request arrives at its gate. It stops there unless the
gate has been reopened. -/
def arrive (s : System) (op : Operation) (txn : Txn) : Decision :=
  ⟨{ s with tally := s.tally.block op }, [.gate (.arrived txn)],
    if s.gates.isClosed txn then .waits else .done⟩

/-- A call, with the arrival at the gate directly after the decision. -/
def call (s : System) (m : Nat) (txn : Txn) (call : Call) : Decision :=
  let d := s.decide m txn call
  match d.verdict with
  | .waits =>
    let a := d.system.arrive call.operation txn
    { a with events := d.events ++ a.events }
  | _ => d

/-- The gate of a transaction is closed from outside. -/
def close (s : System) (txn : Txn) : Decision :=
  match s.gates.close txn with
  | .ok gates => ⟨{ s with gates }, [.gate (.closed txn)], .done⟩
  | .error f => ⟨s, [.fault f], .failed f⟩

/-- The gate of a transaction is reopened from outside. -/
def reopen (s : System) (txn : Txn) : Decision :=
  ⟨{ s with gates := s.gates.reopen txn }, [.gate (.reopened txn)], .done⟩

end System

/-- One action of a run. -/
inductive Action where
  /-- A manager decides on a call. -/
  | decide (m : Nat) (txn : Txn) (call : Call)
  /-- A transaction that has to wait arrives at its gate. -/
  | arrive (op : Operation) (txn : Txn)
  /-- A gate is closed from outside. -/
  | close (txn : Txn)
  /-- A gate is reopened from outside. -/
  | reopen (txn : Txn)
  deriving DecidableEq, Repr

/-- What an action does. -/
def System.act (s : System) : Action → Decision
  | .decide m txn call => s.decide m txn call
  | .arrive op txn => s.arrive op txn
  | .close txn => s.close txn
  | .reopen txn => s.reopen txn

end Locking
