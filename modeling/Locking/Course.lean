import Locking.Plan

/-!
# The course of a call

A call is carried out step by step. Its table is handed on from one step to the next, and it is also
handed on with a refusal, as it stands then. So whatever a call changes before it is refused stays
changed.

* `Course`: steps that hand on a table and what has happened.
* `Course.acquire`, `Course.release`, `Course.promote`, `Course.exchange`: the four kinds of calls.
* `Call.course`: the course of any call, up to the gate of its transaction.
-/

namespace Locking

open Cascade

/-- Why a call ends early. -/
inductive Halt where
  | refused (r : Refusal)
  | broken (f : Fault)
  deriving DecidableEq, Repr

/-- What a call comes to that does not end early. -/
inductive Course.Result where
  /-- It has been carried out. -/
  | granted
  /-- Its request has been queued, and its transaction is to be told to wait. -/
  | queued
  deriving DecidableEq, Repr

/-- Where the course of a call stands: the table as it is, and what has happened. -/
structure Course.State where
  table : Table
  events : List Event := []

/-- Steps of a call, which hand on where it stands, also where it ends early. -/
abbrev Course := EStateM Halt Course.State

namespace Course

/-- The table as it is. -/
def table : Course Table := return (← get).table

/-- Refuses the call. -/
def refuse {A : Type} (r : Refusal) : Course A := throw (.refused r)

/-- Works off an agenda. -/
def work (tasks : List Task) : Course Unit := fun s =>
  let out := run s.table tasks
  match out.fault? with
  | none => .ok () ⟨out.table, s.events ++ out.events⟩
  | some f => .error (.broken f) ⟨out.table, s.events ++ out.events⟩

/-- Makes an entry for a resource that has none. -/
def touch (r : Resource) : Course Unit :=
  modify fun s => { s with table := s.table.touch r }

/-- Queues a request. -/
def enqueue (op : Operation) (q : Request) (place : Place) (held : Mode) : Course Unit :=
  modify fun s => ⟨s.table.enqueue q place, s.events ++ [.queued op q held]⟩

/-- Refuses no lock as what is asked for. -/
def demandMode (txn : Txn) (r : Resource) (mode : Mode) : Course Unit :=
  if mode = .nl then refuse (.invalid txn.id r .nl .nl) else pure ()

/-- Adds the locks to be given up to those found so far: what the transaction holds on each
resource, except on `kept`. -/
def gather (owner : TxnId) (kept : Resource) (found : List Lock) : List Resource → Course (List Lock)
  | [] => return found
  | r :: rs => do
    match (← table).held? owner r with
    | none => refuse (.notHeld owner r)
    | some lock => gather owner kept (if r = kept then found else found ++ [lock]) rs

/-- A plain acquisition. -/
def acquire (txn : Txn) (r : Resource) (mode : Mode) : Course Result := do
  demandMode txn r mode
  let held := (← table).mode txn.id r
  if held ≠ .nl then refuse (.duplicate txn.id r held)
  touch r
  let entry := (← table).entry r
  if !entry.queue.isEmpty || !entry.admits mode txn.id then
    enqueue .acquire ⟨txn, ⟨r, mode, txn.id⟩, []⟩ .back .nl
    return .queued
  work [.grant ⟨r, mode, txn.id⟩]
  return .granted

/-- Giving up a lock. -/
def release (txn : Txn) (r : Resource) : Course Result := do
  match (← table).held? txn.id r with
  | none => refuse (.notHeld txn.id r)
  | some lock =>
    work [.release lock]
    return .granted

/-- Raising the mode of a lock. -/
def promote (txn : Txn) (r : Resource) (mode : Mode) : Course Result := do
  let held := (← table).mode txn.id r
  if held = mode then refuse (.duplicate txn.id r held)
  if held = .nl then refuse (.notHeld txn.id r)
  if !mode.covers held then refuse (.invalid txn.id r held mode)
  touch r
  if !((← table).entry r).admits mode txn.id then
    enqueue .promote ⟨txn, ⟨r, mode, txn.id⟩, []⟩ .front held
    return .queued
  work [.grant ⟨r, mode, txn.id⟩]
  return .granted

/-- Taking a lock and giving up others. -/
def exchange (txn : Txn) (r : Resource) (mode : Mode) (releases : List Resource) :
    Course Result := do
  demandMode txn r mode
  let held := (← table).mode txn.id r
  if held ≠ .nl ∧ r ∉ releases then refuse (.duplicate txn.id r held)
  let locks ← gather txn.id r [] releases.eraseDups
  touch r
  if !((← table).entry r).admits mode txn.id then
    enqueue .exchange ⟨txn, ⟨r, mode, txn.id⟩, locks⟩ .front held
    return .queued
  work [.grant ⟨r, mode, txn.id⟩]
  locks.forM fun lock => work [.release lock]
  if held ≠ .nl then work [.drain r]
  return .granted

end Course

/-- The course of a call. -/
def Call.course (txn : Txn) : Call → Course Course.Result
  | acquire r mode => .acquire txn r mode
  | release r => .release txn r
  | promote r mode => .promote txn r mode
  | exchange r mode releases => .exchange txn r mode releases

end Locking
