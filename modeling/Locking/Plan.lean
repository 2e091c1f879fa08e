import Locking.Cascade

/-!
# Plans

Before anything changes, a call is judged against the table. It is refused, or its request has to
wait, or it goes ahead as an agenda. That the steps of a call come to its plan is proved of
`Call.course`.

* `Table.plan`: the judgement. A lock is asked for only in a real mode, only where the transaction
  holds none (unless it is exchanged), and only while it agrees with the locks of others; a plain
  acquisition also waits behind every request that is there before it.
-/

namespace Locking

/-- What a call comes to that is not refused. -/
inductive Plan where
  /-- The agenda that carries it out at once. -/
  | go (tasks : List Cascade.Task)
  /-- The request waits, at one end of the queue of its resource; its transaction holds `held`
  there. -/
  | wait (q : Request) (place : Place) (held : Mode)
  deriving DecidableEq, Repr

namespace Table

/-- The locks to be given up for a lock on `kept`: what the transaction holds on each resource,
where `kept` has to be held but is not given up. The first resource without a lock is refused. -/
def collect (t : Table) (txn : TxnId) (kept : Resource) :
    List Resource → Except Refusal (List Lock)
  | [] => .ok []
  | r :: rs =>
    match t.held? txn r with
    | none => .error (.notHeld txn r)
    | some lock =>
      (t.collect txn kept rs).map fun locks => if r = kept then locks else lock :: locks

/-- A plain acquisition. -/
def planAcquire (t : Table) (txn : Txn) (r : Resource) (mode : Mode) : Except Refusal Plan :=
  if mode = .nl then .error (.invalid txn.id r .nl .nl)
  else if t.mode txn.id r ≠ .nl then .error (.duplicate txn.id r (t.mode txn.id r))
  else if (t.queue r).isEmpty && (t.entry r).admits mode txn.id then
    .ok (.go [.grant ⟨r, mode, txn.id⟩])
  else .ok (.wait ⟨txn, ⟨r, mode, txn.id⟩, []⟩ .back .nl)

/-- Giving up a lock. -/
def planRelease (t : Table) (txn : Txn) (r : Resource) : Except Refusal Plan :=
  match t.held? txn.id r with
  | none => .error (.notHeld txn.id r)
  | some lock => .ok (.go [.release lock])

/-- Raising the mode of a lock, which goes before all requests that wait. -/
def planPromote (t : Table) (txn : Txn) (r : Resource) (mode : Mode) : Except Refusal Plan :=
  if t.mode txn.id r = mode then .error (.duplicate txn.id r mode)
  else if t.mode txn.id r = .nl then .error (.notHeld txn.id r)
  else if mode.covers (t.mode txn.id r) = false then
    .error (.invalid txn.id r (t.mode txn.id r) mode)
  else if (t.entry r).admits mode txn.id then .ok (.go [.grant ⟨r, mode, txn.id⟩])
  else .ok (.wait ⟨txn, ⟨r, mode, txn.id⟩, []⟩ .front (t.mode txn.id r))

/-- Taking a lock and giving up others, which goes before all requests that wait. A lock that takes
the place of another may be weaker than it, so the queue is looked at again. -/
def planExchange (t : Table) (txn : Txn) (r : Resource) (mode : Mode)
    (releases : List Resource) : Except Refusal Plan :=
  if mode = .nl then .error (.invalid txn.id r .nl .nl)
  else if t.mode txn.id r ≠ .nl ∧ r ∉ releases then
    .error (.duplicate txn.id r (t.mode txn.id r))
  else
    match t.collect txn.id r releases.eraseDups with
    | .error refusal => .error refusal
    | .ok locks =>
      if (t.entry r).admits mode txn.id then
        .ok (.go (.grant ⟨r, mode, txn.id⟩ :: locks.map .release ++
          if t.mode txn.id r = .nl then [] else [.drain r]))
      else .ok (.wait ⟨txn, ⟨r, mode, txn.id⟩, locks⟩ .front (t.mode txn.id r))

/-- What a call comes to. -/
def plan (t : Table) (txn : Txn) : Call → Except Refusal Plan
  | .acquire r mode => t.planAcquire txn r mode
  | .release r => t.planRelease txn r
  | .promote r mode => t.planPromote txn r mode
  | .exchange r mode releases => t.planExchange txn r mode releases

end Table

end Locking
