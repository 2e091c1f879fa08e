import Locking.Map.Weights
import Locking.Proofs.Run

/-!
# Requests are neither lost nor invented

A request comes to a queue only by the decision of a call, and leaves it only to be granted, and
whose request is granted is woken. All this is told by sums: any weight may be given to requests,
for instance one to those of one transaction (`Request.isFrom`), or to a single one
(`Request.isThis`).

* `Cascade.run_conserves`: what an agenda takes from the queues no longer waits, and is woken.
* `System.act_conserves`: what waits and what was taken is what waited and what came.
* `System.waitingFor`: how many requests of a transaction wait.
* `System.waitingFor_eq_zero_iff`, `System.waitingFor_eq_one_iff`: where they wait, if they are few.
-/

namespace Locking

open Std Map

/-- The request that is taken from its queue. -/
def Event.taken? : Event → Option Request
  | granting q => some q
  | _ => none

/-- The request that is added to a queue. -/
def Event.queued? : Event → Option Request
  | queued _ q _ => some q
  | _ => none

/-- The requests that have been taken from their queues, in order. -/
def taken (es : List Event) : List Request := es.filterMap Event.taken?

/-- The requests that have been added to queues, in order. -/
def joined (es : List Event) : List Request := es.filterMap Event.queued?

@[simp] theorem taken_nil : taken [] = [] := rfl

@[simp] theorem joined_nil : joined [] = [] := rfl

@[simp] theorem taken_append (es fs : List Event) : taken (es ++ fs) = taken es ++ taken fs :=
  List.filterMap_append

theorem mem_taken {q : Request} {es : List Event} : q ∈ taken es ↔ .granting q ∈ es := by
  rw [taken, List.mem_filterMap]
  constructor
  · rintro ⟨e, hm, he⟩
    cases e with
    | granting p =>
      cases he
      exact hm
    | _ => cases he
  · exact fun hm => ⟨_, hm, rfl⟩

/-- Counts a request if it is this one. -/
def Request.isThis (q p : Request) : Nat := if p = q then 1 else 0

theorem Request.sumOf_isThis_ne_zero_iff {q : Request} {qs : List Request} :
    sumOf (isThis q) qs ≠ 0 ↔ q ∈ qs := by
  constructor
  · intro h
    obtain ⟨p, hp, hne⟩ := exists_of_sumOf_ne_zero h
    obtain rfl : p = q := by simpa [isThis] using hne
    exact hp
  · intro h
    have hone : isThis q q = 1 := by simp [isThis]
    have := le_sumOf_of_mem (w := isThis q) h
    omega

/-- Counts a request if it is one of the transaction with this key. -/
def Request.isFrom (key : Nat) (q : Request) : Nat := if q.txn.key = key then 1 else 0

theorem Request.sumOf_isFrom (key : Nat) (qs : List Request) :
    sumOf (isFrom key) qs = (qs.filter (·.txn.key = key)).length := by
  induction qs with
  | nil => rfl
  | cons q qs ih =>
    rw [sumOf_cons, ih, isFrom, List.filter_cons]
    by_cases h : q.txn.key = key
    · simp [h, Nat.add_comm]
    · simp [h]

namespace Table

variable {t t' : Table} {w : Request → Nat}

/-- The requests of the transaction with a key that wait for a resource. -/
def requestsFrom (t : Table) (key : Nat) (r : Resource) : List Request :=
  (t.queue r).filter (·.txn.key = key)

theorem weigh_entries (w : Request → Nat) (t : Table) (r : Resource) :
    weigh (fun e => sumOf w e.queue) t.entries[r]? = sumOf w (t.queue r) := by
  rw [queue, entry, ExtTreeMap.getD_eq_getD_getElem?]
  cases t.entries[r]? with
  | none => rfl
  | some e => rfl

/-- What counts every request once gives how many there are. -/
theorem queuedSum_one (t : Table) : t.queuedSum (fun _ => 1) = t.waitingTotal := by
  simp only [queuedSum, waitingTotal, sumOf_one]

theorem queuedSum_eq_zero_iff : t.queuedSum w = 0 ↔ ∀ r, sumOf w (t.queue r) = 0 := by
  simp only [← weigh_entries]
  exact total_eq_zero_iff

theorem queuedSum_le_queuedSum {w' : Request → Nat} (h : ∀ r, ∀ q ∈ t.queue r, w q ≤ w' q) :
    t.queuedSum w ≤ t.queuedSum w' := by
  refine total_le_total fun r e he => List.sum_le_sum fun q hq => h r q ?_
  rw [queue, entry, ExtTreeMap.getD_eq_getD_getElem?, he]
  exact hq

theorem queuedSum_eq_one_iff :
    t.queuedSum w = 1 ↔
      ∃ r, sumOf w (t.queue r) = 1 ∧ ∀ u, r ≠ u → sumOf w (t.queue u) = 0 := by
  simp only [← weigh_entries]
  exact total_eq_one_iff

end Table

/-! ## Cascades -/

namespace Cascade

variable {t t' : Table} {task : Task} {tasks rest new : List Task} {es es' : List Event}
  {w : Request → Nat} {load : Nat}

/-- The request whose transaction a task wakes. -/
def Task.wakes? : Task → Option Request
  | wake q => some q
  | _ => none

theorem Task.wakes?_eq_some_iff {q : Request} : task.wakes? = some q ↔ task = .wake q := by
  cases task <;> simp [wakes?]

/-- The requests whose transactions are still to be woken. -/
def toWake (tasks : List Task) : List Request := tasks.filterMap Task.wakes?

@[simp] theorem toWake_nil : toWake [] = [] := rfl

@[simp] theorem toWake_append (xs ys : List Task) : toWake (xs ++ ys) = toWake xs ++ toWake ys :=
  List.filterMap_append

theorem toWake_giveUps (owner : TxnId) (locks : List Lock) :
    toWake (locks.map (.giveUp owner)) = [] := by
  simp [toWake, Task.wakes?]

theorem toWake_serve (r : Resource) (q : Request) : toWake (serve r q) = [q] := by
  change toWake ([.grant q.lock] ++ q.releases.map (Task.giveUp q.txn.id) ++
    [.wake q, .drain r]) = [q]
  rw [toWake_append, toWake_append, toWake_giveUps]
  rfl

/-- What was taken from the queues since `load` waited in them is woken, or still to be woken. -/
structure Balanced (w : Request → Nat) (load : Nat) (t : Table) (tasks : List Task)
    (es : List Event) : Prop where
  waiting : t.queuedSum w + sumOf w (taken es) = load
  awake : sumOf w (woken es) + sumOf w (toWake tasks) = sumOf w (taken es)

theorem Balanced.next (h : Balanced w load t (task :: rest) es)
    (hq : t'.queuedSum w + sumOf w (taken es') = t.queuedSum w)
    (ha : sumOf w (woken es') + sumOf w (toWake new) =
      sumOf w (taken es') + sumOf w (toWake [task])) :
    Balanced w load t' (new ++ rest) (es ++ es') := by
  have hwaiting := h.waiting
  have hawake := h.awake
  rw [show task :: rest = [task] ++ rest from rfl, toWake_append, sumOf_append] at hawake
  constructor
  · rw [taken_append, sumOf_append]
    omega
  · rw [woken_append, toWake_append, taken_append, sumOf_append, sumOf_append,
      sumOf_append]
    omega

/-- What a task takes from the queues no longer waits. -/
theorem Effect.queuedSum_eq (w : Request → Nat) (he : Effect t task t' es new) :
    t'.queuedSum w + sumOf w (taken es) = t.queuedSum w := by
  cases he with
  | grant hp =>
    rcases Table.event_of_put hp with rfl | ⟨before, rfl⟩
    · exact Table.queuedSum_put w hp
    · exact Table.queuedSum_put w hp
  | release ht => exact Table.queuedSum_take w ht
  | gone hh => rfl
  | giveUp hh => rfl
  | wake q => rfl
  | drained hp => rfl
  | serve hp => exact Table.queuedSum_pop? w hp
  | prune r => exact Table.queuedSum_prune w t r

theorem Balanced.step (h : Balanced w load t (task :: rest) es) (he : Effect t task t' es' new) :
    Balanced w load t' (new ++ rest) (es ++ es') := by
  refine h.next (he.queuedSum_eq w) ?_
  cases he with
  | grant hp => rcases Table.event_of_put hp with rfl | ⟨before, rfl⟩ <;> rfl
  | wake q => exact Nat.add_comm _ _
  | serve hp =>
    rw [toWake_serve]
    exact Nat.add_comm _ _
  | _ => rfl

/-- **What an agenda takes from the queues no longer waits, and is woken** once the agenda has been
worked off. -/
theorem run_conserves (w : Request → Nat) (hf : (run t tasks).fault? = none)
    (hw : toWake tasks = []) :
    (run t tasks).table.queuedSum w + sumOf w (taken (run t tasks).events) =
        t.queuedSum w ∧
      sumOf w (woken (run t tasks).events) = sumOf w (taken (run t tasks).events) := by
  have hstart : Balanced w (t.queuedSum w) t tasks [] := ⟨rfl, by rw [hw]; rfl⟩
  rcases run_invariant (P := Balanced w (t.queuedSum w)) [] Balanced.step hstart with
    ⟨-, h⟩ | ⟨f, -, -, -, hsome, -⟩
  · exact ⟨h.waiting, h.awake⟩
  · rw [hf] at hsome
    cases hsome

theorem Effect.queued?_eq_none (he : Effect t task t' es new) : ∀ e ∈ es, e.queued? = none := by
  cases he with
  | grant hp =>
    rcases Table.event_of_put hp with rfl | ⟨before, rfl⟩
    · simp [Event.queued?]
    · simp [Event.queued?]
  | _ => simp [Event.queued?]

/-- A cascade adds nothing to a queue. -/
theorem joined_run (t : Table) (tasks : List Task) : joined (run t tasks).events = [] := by
  refine List.filterMap_eq_nil_iff.2 fun e hm => ?_
  rcases of_mem_run_events Effect.queued?_eq_none t tasks hm with h | ⟨f, -, rfl⟩
  · exact h
  · rfl

/-- Nobody is woken by granting a lock, releasing others and draining a queue as such. -/
theorem toWake_exchange {lock : Lock} {locks : List Lock} {drains : List Task} {r : Resource}
    (hd : drains = [] ∨ drains = [.drain r]) :
    toWake (.grant lock :: locks.map .release ++ drains) = [] := by
  have hrelease : toWake (locks.map .release) = [] := by
    simp [toWake, Task.wakes?]
  have hdrain : toWake drains = [] := by
    rcases hd with rfl | rfl
    · rfl
    · rfl
  rw [List.cons_append, ← List.singleton_append, toWake_append, toWake_append, hrelease, hdrain]
  rfl

end Cascade

/-- The agenda of a call wakes nobody by itself. -/
theorem Table.Planned.toWake {t : Table} {txn : Txn} {call : Call} {tasks : List Cascade.Task}
    (hp : Planned t txn call (.go tasks)) : Cascade.toWake tasks = [] := by
  cases hp with
  | grant hcall ha hc => rfl
  | release hh => rfl
  | exchange ha hl hd => exact Cascade.toWake_exchange (hd.symm.imp And.left id)

/-! ## Systems -/

namespace System

variable {s : System} {m : Nat} {r : Resource} {q : Request} {a : Action} {w : Request → Nat}

/-- The sum of a weight over all requests that wait for any manager. -/
def queuedSum (w : Request → Nat) (s : System) : Nat := total (Table.queuedSum w) s.tables

theorem weigh_tables (w : Request → Nat) (s : System) (m : Nat) :
    weigh (Table.queuedSum w) s.tables[m]? = (s.table m).queuedSum w := by
  rw [table, ExtTreeMap.getD_eq_getD_getElem?]
  cases s.tables[m]? with
  | none => rfl
  | some t => rfl

/-- What waits for one manager is part of what waits. -/
theorem queuedSum_table_le (w : Request → Nat) (s : System) (m : Nat) :
    (s.table m).queuedSum w ≤ s.queuedSum w := by
  rw [← weigh_tables]
  exact weigh_le_total _ s.tables m

theorem queuedSum_setTable (w : Request → Nat) (s : System) (m : Nat) (t : Table) :
    (s.setTable m t).queuedSum w + (s.table m).queuedSum w = s.queuedSum w + t.queuedSum w := by
  rw [← weigh_tables]
  exact total_insert _ s.tables m t

theorem Decided.conserves {txn : Txn} {call : Call} {d : Decision} (h : s.Sound)
    (hd : Decided s m txn call d) (hf : d.verdict.fault? = none) (w : Request → Nat) :
    d.system.queuedSum w + sumOf w (taken d.events) =
        s.queuedSum w + sumOf w (joined d.events) ∧
      sumOf w (woken d.events) = sumOf w (taken d.events) := by
  cases hd with
  | refused hp => exact ⟨rfl, rfl⟩
  | @done tasks t es hp hr =>
    have hplan := Table.planned_of_plan (h m) hp
    obtain ⟨hq, hw⟩ := Cascade.run_conserves w (t := s.table m) (by rw [hr]) hplan.toWake
    have hj := Cascade.joined_run (s.table m) tasks
    rw [hr] at hq hw hj
    refine ⟨?_, hw⟩
    have hset := queuedSum_setTable w s m t
    change (s.setTable m t).queuedSum w + sumOf w (taken es) =
      s.queuedSum w + sumOf w (joined es)
    rw [hj, sumOf_nil]
    dsimp only at hq
    omega
  | broken hp hr => cases hf
  | @waits q place held t hp ht hg =>
    have hset := queuedSum_setTable w s m t
    have henq := Table.queuedSum_enqueue w (s.table m) q place
    refine ⟨?_, rfl⟩
    change (s.setTable m t).queuedSum w + 0 = s.queuedSum w + sumOf w [q]
    rw [ht] at henq
    rw [sumOf_cons, sumOf_nil]
    omega
  | shut hp ht hg => cases hf

/-- **What waits and what was taken is what waited and what came**, in every action that does not
break off, and all that was taken was woken. -/
theorem act_conserves (h : s.Sound) (hf : (s.act a).verdict.fault? = none) (w : Request → Nat) :
    (s.act a).system.queuedSum w + sumOf w (taken (s.act a).events) =
        s.queuedSum w + sumOf w (joined (s.act a).events) ∧
      sumOf w (woken (s.act a).events) = sumOf w (taken (s.act a).events) := by
  have ha := acted h a
  generalize s.act a = d at ha hf ⊢
  cases ha with
  | decided hd => exact hd.conserves h hf w
  | arrived => exact ⟨rfl, rfl⟩
  | closed hg => exact ⟨rfl, rfl⟩
  | shut hg => cases hf
  | reopened => exact ⟨rfl, rfl⟩

/-! ## Where few requests wait -/

theorem queuedSum_eq_zero_iff :
    s.queuedSum w = 0 ↔ ∀ m r, sumOf w ((s.table m).queue r) = 0 := by
  rw [queuedSum, total_eq_zero_iff]
  refine forall_congr' fun m => ?_
  rw [weigh_tables, Table.queuedSum_eq_zero_iff]

theorem queuedSum_eq_one_iff :
    s.queuedSum w = 1 ↔ ∃ m r, sumOf w ((s.table m).queue r) = 1 ∧
      ∀ n u, m ≠ n ∨ r ≠ u → sumOf w ((s.table n).queue u) = 0 := by
  rw [queuedSum, total_eq_one_iff]
  simp only [weigh_tables]
  constructor
  · rintro ⟨m, hm, hothers⟩
    obtain ⟨r, hr, hrest⟩ := Table.queuedSum_eq_one_iff.1 hm
    refine ⟨m, r, hr, fun n u hne => ?_⟩
    by_cases hn : m = n
    · subst hn
      exact hrest u (hne.resolve_left (not_not.2 rfl))
    · exact Table.queuedSum_eq_zero_iff.1 (hothers n hn) u
  · rintro ⟨m, r, hr, hothers⟩
    refine ⟨m, Table.queuedSum_eq_one_iff.2 ⟨r, hr, fun u hu => hothers m u (.inr hu)⟩, ?_⟩
    intro n hn
    exact Table.queuedSum_eq_zero_iff.2 fun u => hothers n u (.inl hn)

/-- The request waits. -/
def Waits (s : System) (q : Request) : Prop := ∃ m r, q ∈ (s.table m).queue r

theorem waits_iff : s.Waits q ↔ s.queuedSum (Request.isThis q) ≠ 0 := by
  rw [Ne, queuedSum_eq_zero_iff]
  push Not
  simp only [Request.sumOf_isThis_ne_zero_iff]
  rfl

/-- How many requests of the transaction with a key wait, for any manager. -/
def waitingFor (s : System) (key : Nat) : Nat := s.queuedSum (Request.isFrom key)

theorem waitingFor_eq_zero_iff {key : Nat} :
    s.waitingFor key = 0 ↔ ∀ m r, (s.table m).requestsFrom key r = [] := by
  rw [waitingFor, queuedSum_eq_zero_iff]
  simp only [Request.sumOf_isFrom, List.length_eq_zero_iff, Table.requestsFrom]

theorem waitingFor_eq_one_iff {key : Nat} :
    s.waitingFor key = 1 ↔ ∃ m r q, (s.table m).requestsFrom key r = [q] ∧
      ∀ n u, m ≠ n ∨ r ≠ u → (s.table n).requestsFrom key u = [] := by
  rw [waitingFor, queuedSum_eq_one_iff]
  simp only [Request.sumOf_isFrom, List.length_eq_zero_iff, List.length_eq_one_iff,
    exists_and_right, Table.requestsFrom]

end System

end Locking
