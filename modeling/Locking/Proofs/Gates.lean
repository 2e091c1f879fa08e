import Locking.Proofs.Conservation

/-!
# How gates are turned

A gate is closed and reopened, and every turn is told by an event.

* `turns`: the turns of the gate of one transaction, in order.
* `Gates.Alternates`: a gate is never closed twice in a row, nor reopened twice in a row.
* `turns_run`: a cascade only reopens gates, once for every request that it grants.
* `System.gate_act`: where an action leaves a gate is told by the turns among its events.
-/

namespace Locking

/-- What events do at gates, in order. -/
def notes (es : List Event) : List Note := es.filterMap Event.note?

@[simp] theorem notes_append (es fs : List Event) : notes (es ++ fs) = notes es ++ notes fs :=
  List.filterMap_append

/-- How a note turns the gate of the transaction with a key: `true` closes it, `false` reopens it. -/
def Note.turn? (key : Nat) : Note → Option Bool
  | closed txn => if txn.key = key then some true else none
  | reopened txn => if txn.key = key then some false else none
  | arrived _ => none

/-- The turns of the gate of the transaction with a key, in order. -/
def turns (key : Nat) (es : List Event) : List Bool := (notes es).filterMap (Note.turn? key)

@[simp] theorem turns_nil (key : Nat) : turns key [] = [] := rfl

@[simp] theorem turns_append (key : Nat) (es fs : List Event) :
    turns key (es ++ fs) = turns key es ++ turns key fs := by
  simp [turns]

@[simp] theorem turns_closed (key : Nat) (txn : Txn) :
    turns key [.gate (.closed txn)] = if txn.key = key then [true] else [] := by
  by_cases h : txn.key = key <;> simp [turns, notes, Event.note?, Note.turn?, h]

@[simp] theorem turns_reopened (key : Nat) (txn : Txn) :
    turns key [.gate (.reopened txn)] = if txn.key = key then [false] else [] := by
  by_cases h : txn.key = key <;> simp [turns, notes, Event.note?, Note.turn?, h]

/-- Turns a gate. -/
def Gate.turn (g : Gate) : Bool → Gate
  | true => g.close
  | false => g.reopen

/-- A gate that is open, or closed, at first is closed only while it is open, and reopened only while
it is closed. -/
def Gates.Alternates : Bool → List Bool → Prop
  | _, [] => True
  | closed, turn :: turns => turn = !closed ∧ Alternates turn turns

/-! ## Cascades -/

theorem Cascade.Effect.note?_eq {t t' : Table} {task : Task} {es : List Event} {new : List Task}
    (he : Effect t task t' es new) :
    ∀ e ∈ es, e.note? = e.woken?.map (.reopened ·.txn) := by
  cases he with
  | grant hp =>
    rcases Table.event_of_put hp with rfl | ⟨before, rfl⟩
    · simp [Event.note?, Event.woken?]
    · simp [Event.note?, Event.woken?]
  | _ => simp [Event.note?, Event.woken?]

/-- All that a cascade does at gates is waking transactions. -/
theorem Cascade.notes_run (t : Table) (tasks : List Task) :
    notes (run t tasks).events = (woken (run t tasks).events).map (.reopened ·.txn) := by
  rw [notes, woken, List.map_filterMap]
  refine List.filterMap_congr fun e hm => ?_
  rcases of_mem_run_events Effect.note?_eq t tasks hm with h | ⟨f, -, rfl⟩
  · exact h
  · rfl

theorem turns_of_notes {es : List Event} (h : notes es = (woken es).map (.reopened ·.txn))
    (key : Nat) :
    turns key es = List.replicate (sumOf (Request.isFrom key) (woken es)) false := by
  rw [turns, h, List.filterMap_map]
  induction woken es with
  | nil => rfl
  | cons q qs ih =>
    rw [sumOf_cons, Request.isFrom, List.filterMap_cons]
    by_cases hk : q.txn.key = key
    · simp [Note.turn?, hk, ih, Nat.add_comm 1, List.replicate_succ]
    · simp [Note.turn?, hk, ih]

/-- **A cascade reopens a gate once for every request of its transaction that it grants**, and turns
it in no other way. -/
theorem turns_run (t : Table) (tasks : List Cascade.Task) (key : Nat) :
    turns key (Cascade.run t tasks).events = List.replicate
      (sumOf (Request.isFrom key) (woken (Cascade.run t tasks).events)) false :=
  turns_of_notes (Cascade.notes_run t tasks) key

theorem turns_of_run {t t' : Table} {tasks : List Cascade.Task} {es : List Event}
    {f : Option Fault} (hr : Cascade.run t tasks = ⟨t', es, f⟩) (key : Nat) :
    turns key es = List.replicate (sumOf (Request.isFrom key) (woken es)) false := by
  have hturns := turns_run t tasks key
  rwa [hr] at hturns

theorem Gates.gate_eq_of_key (gs : Gates) {txn other : Txn} (h : txn.key = other.key) :
    gs.gate txn = gs.gate other := by
  rw [gate, gate, h]

theorem Gates.isClosed_eq_of_key (gs : Gates) {txn other : Txn} (h : txn.key = other.key) :
    gs.isClosed txn = gs.isClosed other :=
  congrArg Gate.closed (gs.gate_eq_of_key h)

theorem Gates.gate_afterEvents (gs : Gates) (es : List Event) (txn : Txn) :
    (gs.afterEvents es).gate txn = (List.replicate
      (sumOf (Request.isFrom txn.key) (woken es)) false).foldl Gate.turn (gs.gate txn) := by
  unfold afterEvents
  induction woken es generalizing gs with
  | nil => rfl
  | cons q qs ih =>
    rw [List.foldl_cons, ih, gate_reopen, sumOf_cons, Request.isFrom]
    by_cases hk : q.txn.key = txn.key
    · simp [hk, gs.gate_eq_of_key hk, Nat.add_comm 1, List.replicate_succ, Gate.turn]
    · simp [hk]

/-! ## Actions -/

namespace System

variable {s : System} {m : Nat} {txn : Txn} {call : Call} {d : Decision}

/-- Closing an open gate turns it, and no other. -/
theorem gate_closed {gs : Gates} (hg : gs.isClosed txn = false) (other : Txn) :
    Gates.gate (gs.insert txn.key (gs.gate txn).close) other =
      (turns other.key [.gate (.closed txn)]).foldl Gate.turn (gs.gate other) := by
  rw [Gates.gate_close (Gates.close_eq_ok_iff.2 ⟨hg, rfl⟩), turns_closed]
  by_cases hk : txn.key = other.key
  · simp [hk, gs.gate_eq_of_key hk, Gate.turn]
  · simp [hk]

theorem Decided.gate (hd : Decided s m txn call d) (other : Txn) :
    d.system.gates.gate other =
      (turns other.key d.events).foldl Gate.turn (s.gates.gate other) := by
  cases hd with
  | refused hp => rfl
  | @done tasks t es hp hr => exact turns_of_run hr other.key ▸ s.gates.gate_afterEvents es other
  | @broken tasks t es f hp hr =>
    exact turns_of_run hr other.key ▸ s.gates.gate_afterEvents es other
  | waits hp ht hg => exact gate_closed hg other
  | shut hp ht hg => rfl

/-- **Where an action leaves a gate is told by its events.** -/
theorem gate_act (h : s.Sound) (a : Action) (txn : Txn) :
    (s.act a).system.gates.gate txn =
      (turns txn.key (s.act a).events).foldl Gate.turn (s.gates.gate txn) := by
  have ha := acted h a
  generalize s.act a = d at ha ⊢
  cases ha with
  | decided hd => exact hd.gate txn
  | arrived => rfl
  | closed hg => exact gate_closed hg txn
  | shut hg => rfl
  | @reopened other =>
    change (s.gates.reopen other).gate txn = _
    rw [Gates.gate_reopen, turns_reopened]
    by_cases hk : other.key = txn.key
    · simp [hk, s.gates.gate_eq_of_key hk, Gate.turn]
    · simp [hk]

end System

end Locking
