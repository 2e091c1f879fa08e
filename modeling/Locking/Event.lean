import Locking.Call
import Locking.Request

/-!
# Events

What happens during a call, in order. Some events are logged, and some happen at the gate of a
transaction.

* `Event.record?`: the log record of an event.
* `Event.note?`: what the event does at a gate.
* `woken`: the requests whose transactions have been woken, in order.
-/

namespace Locking

/-- What happens at the gate of a transaction. -/
inductive Note where
  /-- The gate is closed. -/
  | closed (txn : Txn)
  /-- The transaction arrives at its gate. -/
  | arrived (txn : Txn)
  /-- The gate is reopened. -/
  | reopened (txn : Txn)
  deriving DecidableEq, Repr

/-- Something that happens during a call. -/
inductive Event where
  /-- A request has to wait; its transaction holds `held` on the resource. -/
  | queued (op : Operation) (q : Request) (held : Mode)
  /-- A waiting request is taken from its queue to be granted. -/
  | granting (q : Request)
  /-- A lock is granted in a new slot. -/
  | granted (lock : Lock)
  /-- A lock takes the place of the one that its owner held with mode `before`. -/
  | updated (lock : Lock) (before : Mode)
  /-- A lock is released. -/
  | released (lock : Lock)
  /-- A lock that was to be given up is no longer held. -/
  | gone (lock : Lock)
  /-- The transaction of a granted request is woken. -/
  | woken (q : Request)
  /-- Something happens at a gate for another reason. -/
  | gate (note : Note)
  /-- The call breaks off. -/
  | fault (f : Fault)
  deriving DecidableEq, Repr

namespace Event

/-- The fields of the record of a request that has to wait. -/
def queuedFields (q : Request) (held : Mode) : Operation → List (String × String)
  | .promote => [("from", held.code), ("to", q.lock.mode.code)]
  | .exchange =>
    [("lock_type", q.lock.mode.code), ("releasing", Log.listed (q.releases.map Log.lock))]
  | _ => [("lock_type", q.lock.mode.code)]

/-- Whose lock on what an event is about. -/
def subject (l : Lock) : List (String × String) :=
  [("transaction", toString l.owner), ("resource", l.resource.text)]

/-- The log record of an event, if it is logged. -/
def record? : Event → Option Log.Record
  | queued op q held =>
    some ⟨.debug, op.label ++ " blocked", subject q.lock ++ queuedFields q held op⟩
  | granting q => some ⟨.trace, "granting queued request", [("request", Log.request q)]⟩
  | granted l => some ⟨.debug, "lock granted", subject l ++ [("lock_type", l.mode.code)]⟩
  | updated l before =>
    some ⟨.debug, "lock updated", subject l ++ [("from", before.code), ("to", l.mode.code)]⟩
  | released l => some ⟨.debug, "lock released", subject l ++ [("lock_type", l.mode.code)]⟩
  | gone l => some ⟨.trace, "pending release no longer held", [("lock", l.text)]⟩
  | woken _ | gate _ => none
  | fault f => f.record?

/-- What an event does at a gate. -/
def note? : Event → Option Note
  | woken q => some (.reopened q.txn)
  | gate note => some note
  | _ => none

/-- The request of a wake-up. -/
def woken? : Event → Option Request
  | woken q => some q
  | _ => none

end Event

/-- The requests whose transactions have been woken, in order. -/
def woken (es : List Event) : List Request := es.filterMap Event.woken?

/-- The gates after the wake-ups among the events. -/
def Gates.afterEvents (gs : Gates) (es : List Event) : Gates :=
  (woken es).foldl (fun gs q => gs.reopen q.txn) gs

@[simp] theorem woken_nil : woken [] = [] := rfl

@[simp] theorem woken_append (es fs : List Event) : woken (es ++ fs) = woken es ++ woken fs :=
  List.filterMap_append

theorem Gates.afterEvents_append (gs : Gates) (es fs : List Event) :
    gs.afterEvents (es ++ fs) = (gs.afterEvents es).afterEvents fs := by
  simp [afterEvents]

end Locking
