import Locking.Txn

/-!
# Threads at a gate

A thread that calls for a transaction waits at the gate of the transaction. It falls asleep there if
the gate is closed, and whoever reopens the gate wakes all that sleep. A thread that has woken looks at
the gate again: it goes on only through an open gate, also if it has woken of itself or if the gate has
been closed once more in the meantime.

* `Doorway`: the gate of one transaction, and the threads at it.
* `Doorway.move?`: one move, of the gate or of one thread.
* `Doorway.Leads`: where any number of moves may lead.
-/

namespace Locking

/-- Where a thread stands. -/
inductive Doorway.Stage where
  /-- Not at the gate; it may have gone through it. -/
  | away
  | asleep
  /-- It has woken and not looked at the gate yet. -/
  | awake
  deriving DecidableEq, Repr

/-- The gate of a transaction, and the threads at it. -/
structure Doorway where
  gate : Gate := {}
  stage : Nat → Doorway.Stage := fun _ => .away

namespace Doorway

/-- A move at a gate. Only one is made at a time. -/
inductive Move where
  | close
  /-- Reopens the gate and wakes all that sleep there. -/
  | reopen
  /-- A thread comes to the gate and looks at it. -/
  | arrive (i : Nat)
  /-- A thread wakes of itself. -/
  | stir (i : Nat)
  /-- A thread that has woken looks at the gate again. -/
  | look (i : Nat)
  deriving DecidableEq, Repr

/-- How a move turns the gate: `true` closes it, `false` reopens it. -/
def Move.turn? : Move → Option Bool
  | close => some true
  | reopen => some false
  | arrive _ | stir _ | look _ => none

/-- Moves a thread. -/
def put (d : Doorway) (i : Nat) (stage : Stage) : Doorway :=
  { d with stage := fun j => if i = j then stage else d.stage j }

/-- A thread looks at the gate: it falls asleep if the gate is closed, and goes on otherwise. -/
def look (d : Doorway) (i : Nat) : Doorway := d.put i (if d.gate.closed then .asleep else .away)

/-- Makes a move, if it can be made: a closed gate is not closed once more, a thread arrives only
once, only those that sleep wake, and only those that have woken look again. -/
def move? (d : Doorway) : Move → Option Doorway
  | .close => if d.gate.closed then none else some { d with gate := d.gate.close }
  | .reopen =>
    some ⟨d.gate.reopen, fun i => if d.stage i = .asleep then .awake else d.stage i⟩
  | .arrive i => if d.stage i = .away then some (d.look i) else none
  | .stir i => if d.stage i = .asleep then some (d.put i .awake) else none
  | .look i => if d.stage i = .awake then some (d.look i) else none

/-- Some moves lead from one state of a doorway to another, and turn its gate so. -/
inductive Leads : Doorway → List Bool → Doorway → Prop where
  | nil {d : Doorway} : Leads d [] d
  | cons {d d' d'' : Doorway} {move : Move} {turns : List Bool} (hm : d.move? move = some d')
    (hl : Leads d' turns d'') : Leads d (move.turn?.toList ++ turns) d''

end Doorway

end Locking
