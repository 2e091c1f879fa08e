import Locking.Map.Total
import Locking.Table.Basic

/-!
# The audit of a table

Checks the bookkeeping of a table: index and entries agree slot by slot, nobody holds two locks on
one resource, locks of different transactions agree, and the counts are right.

* `Table.audit`: the first thing found wrong, or `none`.
-/

namespace Locking

open Std Map

/-- The first two locks of different transactions that exclude each other. -/
def firstConflict? : List Lock → Option (Lock × Lock)
  | [] => none
  | a :: rest =>
    ((rest.find? fun b => a.owner != b.owner && !a.mode.compatible b.mode).map (a, ·)).or
      (firstConflict? rest)

/-- Nothing is found exactly if all locks of different transactions agree. -/
theorem firstConflict?_eq_none_iff {locks : List Lock} :
    firstConflict? locks = none ↔
      locks.Pairwise fun a b => a.owner ≠ b.owner → a.mode.compatible b.mode := by
  induction locks with
  | nil => simp [firstConflict?]
  | cons a rest ih => simp [firstConflict?, ih]

namespace Table

/-- The number of granted locks, counted in the entries. -/
def grantedTotal (t : Table) : Nat := total (fun e => e.granted.size) t.entries

/-- The number of granted locks, counted in the index. -/
def indexedTotal (t : Table) : Nat := total (fun slots => slots.size) t.index

/-- The number of waiting requests, counted in the queues. -/
def waitingTotal (t : Table) : Nat := total (fun e => e.queue.length) t.entries

/-- What is wrong with the locks that the index lists for one owner. -/
def auditSlots (t : Table) (owner : TxnId) (slots : ExtTreeMap Nat Lock) : Option Fault :=
  if slots.isEmpty then some (.emptyIndex owner)
  else slots.toList.findSome? fun (slot, lock) =>
    if (t.entry lock.resource).holders[owner]? = some slot ∧ lock.owner = owner then none
    else some (.indexNotGranted lock slot)

/-- What is wrong with the entry of one resource. -/
def auditEntry (t : Table) (r : Resource) (e : Entry) : Option Fault :=
  if e.granted.size ≠ e.holders.size then some (.moreGrantsThanHolders r)
  else
    (e.granted.toList.findSome? fun (slot, lock) =>
      if lock.resource = r ∧ (t.slots lock.owner)[slot]? = some lock then none
      else some (.grantNotIndexed lock r)).or
    ((firstConflict? e.locks).map fun (a, b) => .conflict r a b)

/-- What is wrong with the counts. -/
def auditCounts (t : Table) : Option Fault :=
  if t.grantedTotal = t.indexedTotal ∧ t.grantedTotal = t.grantedCount ∧
      t.waitingTotal = t.waitingCount then none
  else some (.countsDiverged t.grantedTotal t.indexedTotal t.grantedCount t.waitingTotal
    t.waitingCount)

/-- The first thing that is wrong with a table. -/
def audit (t : Table) : Option Fault :=
  ((t.index.toList.findSome? fun (owner, slots) => t.auditSlots owner slots).or
    (t.entries.toList.findSome? fun (r, e) => t.auditEntry r e)).or
  t.auditCounts

end Table

end Locking
