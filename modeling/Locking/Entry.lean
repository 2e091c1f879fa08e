import Std.Data.ExtTreeMap
import Locking.Request

/-!
# The entry of a resource

The locks granted on one resource, each in the slot of its first grant, and the requests that wait
for it.

* `Entry.admits`: a mode agrees with every lock of another transaction.
* `Entry.pop?`: only the head of the queue may be granted, so that it holds back all others.
-/

namespace Locking

open Std

/-- The end of a queue where a request is added. -/
inductive Place where
  | front
  | back
  deriving DecidableEq, Repr

/-- The granted locks and the queue of one resource. -/
structure Entry where
  /-- The granted locks, by slot. -/
  granted : ExtTreeMap Nat Lock := ∅
  /-- The slot of each holder. -/
  holders : ExtTreeMap TxnId Nat := ∅
  /-- The requests that wait, the next one first. -/
  queue : List Request := []

namespace Entry

/-- The granted locks, in order of first grant. -/
def locks (e : Entry) : List Lock := e.granted.toList.map (·.2)

/-- The mode agrees with every lock of a transaction other than `except`. -/
def admits (e : Entry) (mode : Mode) (except : TxnId) : Bool :=
  e.locks.all fun held => held.owner == except || mode.compatible held.mode

/-- The lock a transaction holds here. -/
def held? (e : Entry) (txn : TxnId) : Option Lock :=
  e.holders[txn]?.bind fun slot => e.granted[slot]?

/-- Changes the mode of the lock that the owner of `lock` holds here, in its slot. -/
def retype? (e : Entry) (lock : Lock) : Option (Nat × Entry) :=
  match e.holders[lock.owner]? with
  | none => none
  | some slot =>
    match e.granted[slot]? with
    | none => none
    | some held =>
      some (slot, { e with granted := e.granted.insert slot { held with mode := lock.mode } })

/-- Adds a lock in a new slot, for an owner that holds nothing here. -/
def add? (e : Entry) (slot : Nat) (lock : Lock) : Option Entry :=
  if lock.owner ∈ e.holders then none
  else some { e with
    granted := e.granted.insert slot lock
    holders := e.holders.insert lock.owner slot }

/-- Removes a lock, if exactly this lock is granted here. -/
def remove? (e : Entry) (lock : Lock) : Option (Nat × Entry) :=
  match e.holders[lock.owner]? with
  | none => none
  | some slot =>
    if e.granted[slot]? = some lock then
      some (slot, { e with
        granted := e.granted.erase slot
        holders := e.holders.erase lock.owner })
    else none

/-- Adds a request at one end of the queue. -/
def push (e : Entry) (q : Request) : Place → Entry
  | .front => { e with queue := q :: e.queue }
  | .back => { e with queue := e.queue ++ [q] }

/-- Takes the head of the queue, if it can be granted now. -/
def pop? (e : Entry) : Option (Request × Entry) :=
  match e.queue with
  | [] => none
  | q :: rest =>
    if e.admits q.lock.mode q.lock.owner then some (q, { e with queue := rest }) else none

/-- Nothing is granted and nobody waits. -/
def isIdle (e : Entry) : Bool := e.granted.isEmpty && e.queue.isEmpty

@[simp] theorem queue_push_front (e : Entry) (q : Request) :
    (e.push q .front).queue = q :: e.queue := rfl

@[simp] theorem queue_push_back (e : Entry) (q : Request) :
    (e.push q .back).queue = e.queue ++ [q] := rfl

theorem queue_retype {e e' : Entry} {lock : Lock} {slot : Nat}
    (h : e.retype? lock = some (slot, e')) : e'.queue = e.queue := by
  unfold retype? at h
  split at h
  · cases h
  · split at h
    · cases h
    · cases h
      rfl

theorem queue_add {e e' : Entry} {lock : Lock} {slot : Nat}
    (h : e.add? slot lock = some e') : e'.queue = e.queue := by
  unfold add? at h
  split at h
  · cases h
  · cases h
    rfl

theorem queue_remove {e e' : Entry} {lock : Lock} {slot : Nat}
    (h : e.remove? lock = some (slot, e')) : e'.queue = e.queue := by
  unfold remove? at h
  split at h
  · cases h
  · split at h
    · cases h
      rfl
    · cases h

theorem pop?_eq_some_iff {e e' : Entry} {q : Request} :
    e.pop? = some (q, e') ↔
      e.queue = q :: e'.queue ∧ e.admits q.lock.mode q.lock.owner ∧
        e' = { e with queue := e'.queue } := by
  unfold pop?
  constructor
  · intro h
    split at h
    · cases h
    · split at h
      · cases h
        simp_all
      · cases h
  · rintro ⟨hq, ha, he⟩
    rw [hq]
    simp only [ha, if_true]
    rw [← he]

end Entry

end Locking
