import Locking.Entry
import Locking.Event

/-!
# The lock table

The table keeps every granted lock twice, in the entry of its resource and in the index of its
owner, under the same slot. Slots are handed out in order, so that both list the locks in order of
first grant. It is plain data: what holds of every table that calls produce is stated apart.

* `Table.put`: grants a lock, or changes the mode of the one that its owner holds there.
* `Table.take`: removes exactly the lock that is given.
* `Table.enqueue`, `Table.pop?`, `Table.prune`: the queue of a resource, and its entry.
-/

namespace Locking

open Std

/-- The granted locks and the waiting requests of one manager. Its slots and counts are numbers of 64
bits; that a call breaks off where they run out is left out. -/
structure Table where
  /-- The resources that are locked or waited for. -/
  entries : ExtTreeMap Resource Entry := ∅
  /-- The locks of each transaction, by slot. -/
  index : ExtTreeMap TxnId (ExtTreeMap Nat Lock) := ∅
  /-- The slot of the next new grant. -/
  nextSlot : Nat := 0
  /-- The number of granted locks. -/
  grantedCount : Nat := 0
  /-- The number of waiting requests. -/
  waitingCount : Nat := 0

namespace Table

/-- The entry of a resource; one that is not there is idle. -/
def entry (t : Table) (r : Resource) : Entry := t.entries.getD r {}

/-- The locks of a transaction, by slot. -/
def slots (t : Table) (txn : TxnId) : ExtTreeMap Nat Lock := t.index.getD txn ∅

/-! ## Queries -/

/-- The lock of a transaction on a resource. -/
def held? (t : Table) (txn : TxnId) (r : Resource) : Option Lock := (t.entry r).held? txn

/-- The mode in which a transaction holds a resource; `nl` if it does not. -/
def mode (t : Table) (txn : TxnId) (r : Resource) : Mode :=
  ((t.held? txn r).map Lock.mode).getD .nl

/-- The locks granted on a resource, in order of first grant. -/
def locksOn (t : Table) (r : Resource) : List Lock := (t.entry r).locks

/-- The locks of a transaction, in order of first grant. -/
def locksOf (t : Table) (txn : TxnId) : List Lock := (t.slots txn).toList.map (·.2)

/-- The locks of a transaction on resources below `r`. -/
def locksBelow (t : Table) (txn : TxnId) (r : Resource) : List Lock :=
  (t.locksOf txn).filter (·.resource.isBelow r)

/-- The requests that wait for a resource, the next one first. -/
def queue (t : Table) (r : Resource) : List Request := (t.entry r).queue

/-- The locks that are waited for on a resource, the next one first. -/
def waiting (t : Table) (r : Resource) : List Lock := (t.queue r).map Request.lock

/-! ## Changes -/

/-- Writes the entry of a resource. -/
def setEntry (t : Table) (r : Resource) (e : Entry) : Table :=
  { t with entries := t.entries.insert r e }

/-- Makes an entry for a resource that has none. -/
def touch (t : Table) (r : Resource) : Table := t.setEntry r (t.entry r)

/-- Writes the locks of a transaction; one that holds nothing is dropped. -/
def setSlots (t : Table) (txn : TxnId) (slots : ExtTreeMap Nat Lock) : Table :=
  { t with index := if slots.isEmpty then t.index.erase txn else t.index.insert txn slots }

/-- Grants a lock in a new slot, or changes the mode of the lock that its owner holds there, which
keeps its slot. That it agrees with the locks of others is checked before. -/
def put (t : Table) (lock : Lock) : Except Fault (Table × Event) :=
  match (t.entry lock.resource).retype? lock with
  | some (slot, e) =>
    match (t.slots lock.owner)[slot]? with
    | none => .error (.updateNotIndexed slot lock)
    | some before =>
      .ok ((t.setEntry lock.resource e).setSlots lock.owner ((t.slots lock.owner).insert slot lock),
        .updated lock before.mode)
  | none =>
    match (t.entry lock.resource).add? t.nextSlot lock with
    | none => .error (.grantRejected lock)
    | some e =>
      .ok ({ (t.setEntry lock.resource e).setSlots lock.owner
            ((t.slots lock.owner).insert t.nextSlot lock) with
          nextSlot := t.nextSlot + 1
          grantedCount := t.grantedCount + 1 }, .granted lock)

/-- Removes a lock that is granted exactly so. -/
def take (t : Table) (lock : Lock) : Except Fault Table :=
  match (t.entry lock.resource).remove? lock with
  | none => .error (.notGranted lock)
  | some (slot, e) =>
    match t.index[lock.owner]? with
    | none => .error (.ownerNotIndexed lock.owner)
    | some slots =>
      if slot ∉ slots then .error (.releaseNotIndexed slot lock)
      else if t.grantedCount = 0 then .error .countExhausted
      else
        .ok { (t.setEntry lock.resource e).setSlots lock.owner (slots.erase slot) with
          grantedCount := t.grantedCount - 1 }

/-- Adds a request to the queue of its resource. -/
def enqueue (t : Table) (q : Request) (place : Place) : Table :=
  { t.setEntry q.lock.resource ((t.entry q.lock.resource).push q place) with
    waitingCount := t.waitingCount + 1 }

/-- Takes the head of the queue of a resource, if it can be granted now. -/
def pop? (t : Table) (r : Resource) : Option (Except Fault (Request × Table)) :=
  match (t.entry r).pop? with
  | none => none
  | some (q, e) =>
    if t.waitingCount = 0 then some (.error .countExhausted)
    else some (.ok (q, { t.setEntry r e with waitingCount := t.waitingCount - 1 }))

/-- Drops the entry of a resource, if it is idle. -/
def prune (t : Table) (r : Resource) : Table :=
  if t.entries[r]?.any Entry.isIdle then { t with entries := t.entries.erase r } else t

end Table

end Locking
