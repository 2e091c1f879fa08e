import Std.Data.ExtTreeSet
import Locking.Session.Command
import Locking.Session.Report
import Locking.System

/-!
# Running a session

* `Setup.step`: carries out one command.
* `Setup.run`: carries out a script, up to the first fault.
-/

namespace Locking.Session

/-- How a transaction waits. -/
inductive Waiter where
  /-- It only keeps count, and its calls return at once. -/
  | counting
  /-- Its calls stop at its gate. -/
  | stopping
  deriving DecidableEq, Repr

/-- What a session sets out from. -/
structure Setup where
  names : Array Resource
  txns : Array (TxnId × Waiter)
  settings : Settings := {}
  /-- The tally is reported. -/
  metered : Bool := true
  /-- What can be seen is reported after every command that may change something. -/
  watched : Bool := true
  /-- Calls of a transaction that is told to wait are left out. -/
  skipsBlocked : Bool := false

/-- Where a session stands. -/
structure State where
  system : System
  /-- The current manager. -/
  manager : Nat := 0
  /-- The transactions whose calls are suspended. -/
  suspended : List Nat := []
  /-- The hierarchies handed out so far, with their managers. -/
  hierarchies : List (Nat × Hierarchy) := []

namespace Setup

/-- Where a session starts. -/
def start (u : Setup) : State := { system := { settings := u.settings } }

/-- A resource of the session. -/
def name (u : Setup) (n : Nat) : Resource := u.names.getD n default

/-- A transaction of the session. -/
def txn (u : Setup) (t : Nat) : Txn := ⟨t, (u.txns.getD t (0, .counting)).1⟩

/-- How a transaction of the session waits. -/
def waiter (u : Setup) (t : Nat) : Waiter := (u.txns.getD t (0, .counting)).2

/-- The ids of all transactions, in ascending order. -/
def ids (u : Setup) : List TxnId :=
  (Std.ExtTreeSet.ofList (u.txns.toList.map (·.1))).toList

/-- The transactions of the session that satisfy `p`, in order. -/
def filterTxns (u : Setup) (p : Txn → Bool) : List Nat :=
  (List.range u.txns.size).filter fun t => p (u.txn t)

/-- Looks up the resources and the mode of a call. -/
def call? (u : Setup) : Draft → Option Call
  | .acquire n code => (Mode.ofCode? code).map (.acquire (u.name n))
  | .release n => some (.release (u.name n))
  | .promote n code => (Mode.ofCode? code).map (.promote (u.name n))
  | .exchange n code ns =>
    (Mode.ofCode? code).map fun mode => .exchange (u.name n) mode (ns.map u.name)

/-- What can be seen now. -/
def snapshot (u : Setup) (s : State) : Snapshot :=
  let t := s.system.table s.manager
  { granted := u.names.toList.map t.locksOn
    waiting := u.names.toList.map t.waiting
    held := u.ids.map t.locksOf
    blocked := u.filterTxns s.system.gates.isClosed }

/-- Closes a command that may have changed something: suspended calls whose gates are open go on. -/
def settle (u : Setup) (s : State) (answer : Answer) (es : List Event) : State × Report :=
  let waits := fun t => s.system.gates.isClosed (u.txn t)
  let s' := { s with suspended := s.suspended.filter waits }
  (s', { answer
         notes := es.filterMap Event.note?
         resumed := (s.suspended.filter (!waits ·)).mergeSort
         log := es.filterMap Event.record?
         snapshot? := match answer with
           | .failed _ => none
           | _ => if u.watched then some (u.snapshot s') else none })

/-- The answer to what became of a call. Only some transactions stop while they wait. -/
def reply : Waiter → Verdict → Answer
  | _, .done | .counting, .waits => .done
  | .stopping, .waits => .suspended
  | _, .refused r => .refused r
  | _, .failed f => .failed f

/-- Takes over what became of a call of transaction `t`. -/
def accept (u : Setup) (s : State) (t : Nat) (d : Decision) : State × Report :=
  let answer := reply (u.waiter t) d.verdict
  u.settle { s with
    system := d.system
    suspended := if answer matches .suspended then t :: s.suspended else s.suspended }
    answer d.events

/-- A call that is left out while its transaction is told to wait; giving up a lock never is. -/
def skips (u : Setup) (s : State) (t : Nat) (draft : Draft) : Bool :=
  u.skipsBlocked && s.system.gates.isClosed (u.txn t) &&
    match draft with
    | .release _ => false
    | _ => true

/-- Hands out a hierarchy of the current manager. -/
def handOut (s : State) (h : Hierarchy) (segment : String) : State × Report :=
  ({ s with hierarchies := s.hierarchies ++ [(s.manager, h)] },
    { answer := .hierarchy h (h.child segment) (s.hierarchies.findIdx? (· == (s.manager, h)))
        (s.hierarchies.findIdx? (·.2 == h)) })

/-- Carries out one command. -/
def step (u : Setup) (s : State) (c : Command) : State × Report :=
  let t := s.system.table s.manager
  match c with
  | .call i draft =>
    if u.skips s i draft then (s, { answer := .skipped })
    else
      match u.call? draft with
      | none => u.settle s .noSuchMode []
      | some call => u.accept s i (s.system.call s.manager (u.txn i) call)
  | .close i => u.accept s i (s.system.close (u.txn i))
  | .reopen i => u.accept s i (s.system.reopen (u.txn i))
  | .counts i =>
    let g := s.system.gates.gate (u.txn i)
    (s, { answer := match u.waiter i with
          | .counting => .counts g.timesClosed g.timesReopened
          | .stopping => .nothing })
  | .mode id n => (s, { answer := .mode (t.mode id (u.name n)) })
  | .locksOn n => (s, { answer := .locks (t.locksOn (u.name n)) })
  | .locksOf id => (s, { answer := .locks (t.locksOf id) })
  | .locksBelow id n => (s, { answer := .locks (t.locksBelow id (u.name n)) })
  | .waiting n => (s, { answer := .requested (t.waiting (u.name n)) })
  | .queueLength n => (s, { answer := .size (t.queue (u.name n)).length })
  | .hierarchy name segment => handOut s (.named name) segment
  | .database segment => handOut s (.named s.system.settings.databaseName) segment
  | .settings => (s, { answer := .settings s.system.settings })
  | .manager m => ({ s with manager := m }, { answer := .done })
  | .metrics =>
    (s, { answer := if u.metered then .metrics s.system.tally.reported else .nothing })
  | .metricsHelp =>
    (s, { answer := if u.metered then .metricsHelp s.system.tally.reported else .nothing })

/-- Carries out a script. Nothing runs after a fault. -/
def run (u : Setup) (s : State) : List Command → List Report × Option State
  | [] => ([], some s)
  | c :: cs =>
    let (s', report) := u.step s c
    match report.answer with
    | .failed _ => ([report], none)
    | _ =>
      let (reports, last) := u.run s' cs
      (report :: reports, last)

end Setup

end Locking.Session
