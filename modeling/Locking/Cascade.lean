import Locking.Table.Load

/-!
# Cascades

Releasing a lock may let waiting requests through, a granted request gives up locks of its own, and
those let further requests through. A cascade works this off from an agenda of tasks: the first
task is performed, and the tasks it gives rise to come before all others. So all that a granted
request entails is done before the next request of its queue is looked at.

* `Cascade.step`: what one task does, and which tasks it gives rise to.
* `Cascade.run`: an agenda is worked off to its end, or to the first fault.
* `Cascade.Effect`, `Cascade.Breaks`: all that a task can do, case by case, when it meets no fault
  and when it does.
* `Effect.potential`: every task lowers the potential of table and agenda, so a cascade ends,
  whatever the table.
* `Cascade.run_append`: a longer agenda is worked off part by part.
-/

namespace Locking

namespace Cascade

/-- A task on the agenda. -/
inductive Task where
  /-- Grants a lock that agrees with those of others. -/
  | grant (lock : Lock)
  /-- Releases exactly this lock. -/
  | release (lock : Lock)
  /-- Releases what the owner still holds where it held `lock`. -/
  | giveUp (owner : TxnId) (lock : Lock)
  /-- Wakes the transaction of a granted request. -/
  | wake (q : Request)
  /-- Grants requests from the front of a queue until one has to wait. -/
  | drain (r : Resource)
  /-- Drops the entry of a resource, if it is idle. -/
  | prune (r : Resource)
  deriving DecidableEq, Repr

/-- What one task does. -/
structure Step where
  table : Table
  events : List Event := []
  /-- The tasks it gives rise to, unless it meets a fault. -/
  next : Except Fault (List Task) := .ok []

/-- What a request entails once it has been taken from the queue of `r`. -/
def serve (r : Resource) (q : Request) : List Task :=
  .grant q.lock :: q.releases.map (.giveUp q.txn.id) ++ [.wake q, .drain r]

/-- Performs one task. -/
def step (t : Table) : Task → Step
  | .grant lock =>
    match t.put lock with
    | .error f => { table := t, next := .error f }
    | .ok (t', e) => { table := t', events := [e] }
  | .release lock =>
    match t.take lock with
    | .error f => { table := t, next := .error f }
    | .ok t' =>
      { table := t', events := [.released lock]
        next := .ok [.drain lock.resource, .prune lock.resource] }
  | .giveUp owner lock =>
    match t.held? owner lock.resource with
    | none => { table := t, events := [.gone lock] }
    | some held => { table := t, next := .ok [.release held] }
  | .wake q => { table := t, events := [.woken q] }
  | .drain r =>
    match t.pop? r with
    | none => { table := t }
    | some (.error f) => { table := t, next := .error f }
    | some (.ok (q, t')) => { table := t', events := [.granting q], next := .ok (serve r q) }
  | .prune r => { table := t.prune r }

/-! ## What a task can do -/

variable {t t' : Table} {task : Task} {new : List Task} {es : List Event} {f : Fault}

/-- What a task may do that meets no fault: the table it leads to, what happens, and the tasks it
gives rise to. -/
inductive Effect (t : Table) : Task → Table → List Event → List Task → Prop where
  | grant {lock : Lock} {t' : Table} {e : Event} (h : t.put lock = .ok (t', e)) :
    Effect t (.grant lock) t' [e] []
  | release {lock : Lock} {t' : Table} (h : t.take lock = .ok t') :
    Effect t (.release lock) t' [.released lock] [.drain lock.resource, .prune lock.resource]
  | gone {owner : TxnId} {lock : Lock} (h : t.held? owner lock.resource = none) :
    Effect t (.giveUp owner lock) t [.gone lock] []
  | giveUp {owner : TxnId} {lock held : Lock} (h : t.held? owner lock.resource = some held) :
    Effect t (.giveUp owner lock) t [] [.release held]
  | wake (q : Request) : Effect t (.wake q) t [.woken q] []
  | drained {r : Resource} (h : t.pop? r = none) : Effect t (.drain r) t [] []
  | serve {r : Resource} {q : Request} {t' : Table} (h : t.pop? r = some (.ok (q, t'))) :
    Effect t (.drain r) t' [.granting q] (serve r q)
  | prune (r : Resource) : Effect t (.prune r) (t.prune r) [] []

theorem effect_of_next (h : (step t task).next = .ok new) :
    Effect t task (step t task).table (step t task).events new := by
  cases task with
  | grant lock =>
    simp only [step] at h ⊢
    split at h
    · cases h
    · rename_i hp
      cases h
      exact .grant hp
  | release lock =>
    simp only [step] at h ⊢
    split at h
    · cases h
    · rename_i ht
      cases h
      exact .release ht
  | giveUp owner lock =>
    simp only [step] at h ⊢
    split at h
    · rename_i hh
      cases h
      exact .gone hh
    · rename_i hh
      cases h
      exact .giveUp hh
  | wake q =>
    cases h
    exact .wake q
  | drain r =>
    simp only [step] at h ⊢
    split at h
    · rename_i hp
      cases h
      exact .drained hp
    · cases h
    · rename_i hp
      cases h
      exact .serve hp
  | prune r =>
    cases h
    exact .prune r

/-- The faults that a task may meet. -/
inductive Breaks (t : Table) : Task → Fault → Prop where
  | grant {lock : Lock} {f : Fault} (h : t.put lock = .error f) : Breaks t (.grant lock) f
  | release {lock : Lock} {f : Fault} (h : t.take lock = .error f) : Breaks t (.release lock) f
  | drain {r : Resource} {f : Fault} (h : t.pop? r = some (.error f)) : Breaks t (.drain r) f

/-- A task that meets a fault leaves the table as it is. -/
theorem breaks_of_next (h : (step t task).next = .error f) :
    Breaks t task f ∧ (step t task).table = t ∧ (step t task).events = [] := by
  cases task with
  | grant lock =>
    simp only [step] at h ⊢
    split at h
    · rename_i hp
      cases h
      exact ⟨.grant hp, rfl, rfl⟩
    · cases h
  | release lock =>
    simp only [step] at h ⊢
    split at h
    · rename_i ht
      cases h
      exact ⟨.release ht, rfl, rfl⟩
    · cases h
  | giveUp owner lock =>
    simp only [step] at h
    split at h <;> cases h
  | wake q => cases h
  | drain r =>
    simp only [step] at h ⊢
    split at h
    · cases h
    · rename_i hp
      cases h
      exact ⟨.drain hp, rfl, rfl⟩
    · cases h
  | prune r => cases h

/-! ## Every cascade ends -/

/-- The work of a task, not counting the requests that it may let through. -/
def Task.work : Task → Nat
  | .grant _ | .wake _ | .drain _ | .prune _ => 1
  | .release _ => 3
  | .giveUp _ _ => 4

/-- The work of an agenda. -/
def work (tasks : List Task) : Nat := sumOf Task.work tasks

@[simp] theorem work_nil : work [] = 0 := rfl

@[simp] theorem work_cons (task : Task) (tasks : List Task) :
    work (task :: tasks) = task.work + work tasks := by
  simp [work]

@[simp] theorem work_append (xs ys : List Task) : work (xs ++ ys) = work xs + work ys := by
  simp [work]

theorem work_giveUp (owner : TxnId) (locks : List Lock) :
    work (locks.map (.giveUp owner)) = 4 * locks.length := by
  induction locks with
  | nil => rfl
  | cons l ls ih =>
    simp only [List.map_cons, work_cons, ih, Task.work, List.length_cons]
    omega

theorem work_serve (r : Resource) (q : Request) : work (serve r q) = q.work := by
  simp only [serve, List.cons_append, work_cons, work_append, work_giveUp, work_nil, Task.work,
    Request.work]
  omega

/-- **Every task lowers the potential**: what it adds to the agenda is less than the task and the
load it takes from the queues. -/
theorem Effect.potential (h : Effect t task t' es new) : t'.load + work new < t.load + task.work := by
  cases h with
  | grant hp => simp [Table.load_put hp, Task.work]
  | release ht => simp [Table.load_take ht, Task.work]
  | gone hh => simp [Task.work]
  | giveUp hh => simp [Task.work]
  | wake q => simp [Task.work]
  | drained hp => simp [Task.work]
  | serve hp =>
    have hload := Table.load_pop? hp
    rw [work_serve, Task.work]
    omega
  | prune r => simp [Table.load_prune, Task.work]

/-! ## Running an agenda -/

/-- Where an agenda leads. -/
structure Outcome where
  table : Table
  events : List Event
  /-- The fault at which it broke off. -/
  fault? : Option Fault := none

/-- Works off an agenda. A fault ends it, as the last event. -/
def run (t : Table) : List Task → Outcome
  | [] => ⟨t, [], none⟩
  | task :: rest =>
    match h : (step t task).next with
    | .error f => ⟨(step t task).table, (step t task).events ++ [.fault f], some f⟩
    | .ok new =>
      let out := run (step t task).table (new ++ rest)
      { out with events := (step t task).events ++ out.events }
termination_by tasks => t.load + work tasks
decreasing_by
  have := (effect_of_next h).potential
  simp only [work_append, work_cons]
  omega

@[simp] theorem run_nil (t : Table) : run t [] = ⟨t, [], none⟩ := by
  rw [run]

theorem run_cons_ok {t : Table} {task : Task} {rest new : List Task}
    (h : (step t task).next = .ok new) :
    run t (task :: rest) =
      { run (step t task).table (new ++ rest) with
        events := (step t task).events ++ (run (step t task).table (new ++ rest)).events } := by
  rw [run]
  split <;> simp_all

theorem run_cons_error {t : Table} {task : Task} {rest : List Task} {f : Fault}
    (h : (step t task).next = .error f) :
    run t (task :: rest) =
      ⟨(step t task).table, (step t task).events ++ [.fault f], some f⟩ := by
  rw [run]
  split <;> simp_all

/-- Goes on with another agenda, unless a fault has ended the first. -/
def Outcome.andThen (out : Outcome) (tasks : List Task) : Outcome :=
  match out.fault? with
  | some _ => out
  | none =>
    { run out.table tasks with events := out.events ++ (run out.table tasks).events }

/-- **A longer agenda is worked off part by part.** -/
theorem run_append (t : Table) (xs ys : List Task) :
    run t (xs ++ ys) = (run t xs).andThen ys := by
  fun_induction run t xs with
  | case1 t => simp [Outcome.andThen]
  | case2 t task rest f h => simp [run_cons_error h, Outcome.andThen]
  | case3 t task rest new h out ih =>
    rw [List.cons_append, run_cons_ok h, ← List.append_assoc, ih]
    simp only [Outcome.andThen, out]
    split <;> simp

end Cascade

end Locking
