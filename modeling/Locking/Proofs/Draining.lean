import Locking.Proofs.Asking
import Locking.Proofs.Cascade.Queues
import Locking.Proofs.Cascade.Recursion

/-!
# Drains come to an end

Nothing is assumed of the tables here: queues may wait for one another in cycles, and entries, index
and counts may contradict one another.

* `Cascade.grants_run`: a drain or a release grants what it takes from queues, and nothing else.
* `Cascade.Drainage`: what has become of the queues.
* `Cascade.recursion_ends`: every drain and every release comes to an end, the queues have lost just
  what was granted and woken, and a call wakes no more transactions than waited before it.
-/

namespace Locking

/-- The lock that is granted, in a new slot or in the place of another. -/
def Event.grant? : Event → Option Lock
  | granted lock => some lock
  | updated lock _ => some lock
  | _ => none

/-- The locks that have been granted, in order. -/
def grants (es : List Event) : List Lock := es.filterMap Event.grant?

@[simp] theorem grants_nil : grants [] = [] := rfl

@[simp] theorem grants_append (es fs : List Event) : grants (es ++ fs) = grants es ++ grants fs :=
  List.filterMap_append

namespace Cascade

variable {t t' : Table} {task : Task} {tasks rest new : List Task} {es es' : List Event}

/-! ## What is granted -/

/-- The lock that a task grants. -/
def Task.grants? : Task → Option Lock
  | grant lock => some lock
  | _ => none

/-- The locks that are still to be granted. -/
def toGrant (tasks : List Task) : List Lock := tasks.filterMap Task.grants?

theorem toGrant_append (xs ys : List Task) : toGrant (xs ++ ys) = toGrant xs ++ toGrant ys :=
  List.filterMap_append

theorem toGrant_tail_of_eq_nil (h : toGrant tasks = []) : toGrant tasks.tail = [] :=
  List.filterMap_eq_nil_iff.2 fun task hm =>
    List.filterMap_eq_nil_iff.1 h task (List.mem_of_mem_tail hm)

theorem toGrant_giveUps (owner : TxnId) (locks : List Lock) :
    toGrant (locks.map (.giveUp owner)) = [] := by
  simp [toGrant, Task.grants?]

theorem toGrant_serve_tail (r : Resource) (q : Request) : toGrant (serve r q).tail = [] := by
  change toGrant (q.releases.map (.giveUp q.txn.id) ++ [.wake q, .drain r]) = []
  rw [toGrant_append, toGrant_giveUps]
  rfl

/-- What a task grants was to be granted; what it takes from a queue is to be granted next. -/
theorem Effect.grants_eq (he : Effect t task t' es new) :
    grants es ++ toGrant new = toGrant [task] ++ (taken es).map Request.lock ∧
      toGrant new.tail = [] := by
  cases he with
  | grant hp => rcases Table.event_of_put hp with rfl | ⟨before, rfl⟩ <;> exact ⟨rfl, rfl⟩
  | @serve r q _ hp =>
    have htail := toGrant_serve_tail r q
    exact ⟨congrArg (q.lock :: ·) htail, htail⟩
  | _ => exact ⟨rfl, rfl⟩

/-- All that was taken from queues has been granted, and nothing else; a grant that is due is the
next task. -/
structure Granting (tasks : List Task) (es : List Event) : Prop where
  due : grants es ++ toGrant tasks = (taken es).map Request.lock
  next : toGrant tasks.tail = []

theorem Granting.step (h : Granting (task :: rest) es) (he : Effect t task t' es' new) :
    Granting (new ++ rest) (es ++ es') := by
  obtain ⟨hgrants, htail⟩ := he.grants_eq
  have hrest : toGrant rest = [] := h.next
  have hdue : grants es ++ toGrant [task] = (taken es).map Request.lock := by
    have hall : toGrant ([task] ++ rest) = toGrant [task] := by
      rw [toGrant_append, hrest, List.append_nil]
    exact hall ▸ h.due
  constructor
  · calc grants (es ++ es') ++ toGrant (new ++ rest)
        = grants es ++ (grants es' ++ toGrant new) := by
          rw [grants_append, toGrant_append, hrest, List.append_nil, List.append_assoc]
      _ = (grants es ++ toGrant [task]) ++ (taken es').map Request.lock := by
          rw [hgrants, List.append_assoc]
      _ = (taken (es ++ es')).map Request.lock := by
          rw [hdue, taken_append, List.map_append]
  · cases new with
    | nil => exact toGrant_tail_of_eq_nil hrest
    | cons first new =>
      change toGrant (new ++ rest) = []
      rw [toGrant_append, hrest, List.append_nil]
      exact htail

/-- **What is granted is what was taken from queues**, in the same order, where an agenda is worked
off that grants nothing by itself. -/
theorem grants_run (hg : toGrant tasks = []) (hf : (run t tasks).fault? = none) :
    grants (run t tasks).events = (taken (run t tasks).events).map Request.lock := by
  have hstart : Granting tasks [] := ⟨hg, toGrant_tail_of_eq_nil hg⟩
  have hend := (run_end (P := fun _ left es => Granting left es) Granting.step hstart hf).due
  exact (List.append_nil _).symm.trans hend

/-! ## How much is woken -/

/-- **An agenda wakes no more transactions than waited before it**, wherever it ends. -/
theorem woken_run_le (hw : toWake tasks = []) :
    (woken (run t tasks).events).length ≤ t.waitingTotal := by
  have hle : ∀ {u left es}, Balanced (fun _ => 1) (t.queuedSum fun _ => 1) u left es →
      (woken es).length ≤ t.waitingTotal := by
    intro u left es h
    have hwaiting := h.waiting
    have hawake := h.awake
    simp only [sumOf_one] at hwaiting hawake
    rw [Table.queuedSum_one t] at hwaiting
    omega
  have hstart : Balanced (fun _ => 1) (t.queuedSum fun _ => 1) t tasks [] :=
    ⟨rfl, by rw [hw]; rfl⟩
  rcases run_invariant (P := Balanced _ _) [] Balanced.step hstart with
    ⟨-, h⟩ | ⟨f, task, rest, es, -, he, h, -⟩
  · exact hle h
  · -- the fault itself wakes nobody
    rw [he, woken_append]
    exact (List.append_nil (woken es)).symm ▸ hle h

/-! ## Drains and releases -/

/-- **What has become of the queues of a table** where a drain or a release has come to its end. -/
structure Drainage (t : Table) (out : Outcome) : Prop where
  /-- Just the locks of the requests have been granted that were taken from the queues. -/
  granted : grants out.events = (taken out.events).map Request.lock
  /-- Just the transactions of these requests have been woken. -/
  awake : (woken out.events).Perm (taken out.events)
  /-- Every grant and every wake-up has taken one request from the queues. -/
  waiting : out.table.waitingTotal + (grants out.events).length = t.waitingTotal ∧
    out.table.waitingTotal + (woken out.events).length = t.waitingTotal
  /-- Nothing has been added to a queue. -/
  queues : ∀ r, out.table.queue r <:+ t.queue r

theorem drainage_run (hg : toGrant tasks = []) (hw : toWake tasks = [])
    (hf : (run t tasks).fault? = none) : Drainage t (run t tasks) := by
  have hgranted := grants_run hg hf
  have hwoken : (woken (run t tasks).events).Perm (taken (run t tasks).events) :=
    perm_of_sumOf fun w => (run_conserves w hf hw).2
  have hwaiting := (run_conserves (fun _ => 1) hf hw).1
  rw [sumOf_one, Table.queuedSum_one, Table.queuedSum_one] at hwaiting
  refine ⟨hgranted, hwoken, ⟨?_, ?_⟩, run_queue_suffix t tasks⟩
  · rw [hgranted, List.length_map]
    exact hwaiting
  · rw [hwoken.length_eq]
    exact hwaiting

/-- **A recursion comes to an end**, in one place only, where an agenda leads. -/
structure Ends (t : Table) (tasks : List Task) (leads : Outcome → Prop) : Prop where
  ends : leads (run t tasks)
  only : ∀ {out}, leads out → out = run t tasks
  /-- Unless it breaks off, this has become of the queues. -/
  drainage : (run t tasks).fault? = none → Drainage t (run t tasks)

end Cascade

/-! ## Calls -/

namespace Table

/-- The agenda of a call wakes nobody by itself, whatever the table. -/
theorem toWake_of_plan {t : Table} {txn : Txn} {call : Call} {tasks : List Cascade.Task}
    (hp : t.plan txn call = .ok (.go tasks)) : Cascade.toWake tasks = [] := by
  by_cases hcall : call.operation = .release
  · cases call with
    | release r => exact (planned_of_release hp).toWake
    | _ => cases hcall
  · cases asked_of_plan hcall hp with
    | now ha hq hd => exact Cascade.toWake_exchange hd

end Table

namespace System

variable (s : System) (m : Nat) (txn : Txn) (call : Call)

/-- What is committed wakes nobody any more. -/
theorem woken_commit (t : Table) (es : List Event) (v : Verdict) :
    woken (s.commit m t es v).events = woken es := by
  unfold commit
  dsimp only
  split
  · rfl
  · exact (woken_append es _).trans (List.append_nil _)

theorem woken_perform (tasks : List Cascade.Task) :
    woken (s.perform m tasks).events = woken (Cascade.run (s.table m) tasks).events := by
  unfold perform
  dsimp only
  split
  · exact woken_commit _ m _ _ _
  · rfl

theorem woken_park (op : Operation) (q : Request) (place : Place) (held : Mode) :
    woken (s.park m op q place held).events = [] := by
  unfold park
  dsimp only
  split
  · exact woken_commit _ m _ _ _
  · rfl

theorem woken_call : woken (s.call m txn call).events = woken (s.decide m txn call).events := by
  unfold System.call
  dsimp only
  split
  · exact (woken_append _ _).trans (List.append_nil _)
  · rfl

/-- **A call wakes no more transactions than waited before it**, in any system. -/
theorem woken_call_le :
    (woken (s.call m txn call).events).length ≤ (s.table m).waitingTotal := by
  rw [woken_call]
  unfold decide
  dsimp only
  split
  · exact Nat.zero_le _
  · rename_i tasks hp
    rw [woken_perform]
    exact Cascade.woken_run_le (Table.toWake_of_plan hp)
  · rw [woken_park]
    exact Nat.zero_le _

end System

namespace Cascade

/-- **Drains come to an end.** From every table, however its queues may wait for one another, every
drain and every release comes to an end, and so does giving up any locks. Unless it breaks off, the
queues have lost just the requests that were granted and woken, and nothing has been added to them.
So a call wakes no more transactions than waited before it. -/
theorem recursion_ends :
    (∀ t r, Ends t [.drain r] (Drains t r)) ∧
    (∀ t owner locks, Ends t (locks.map (.giveUp owner)) (GivesUp t owner locks)) ∧
    (∀ t lock, Ends t [.release lock] (Releases t lock)) ∧
    ∀ (s : System) (m : Nat) (txn : Txn) (call : Call),
      (woken (s.call m txn call).events).length ≤ (s.table m).waitingTotal := by
  refine ⟨fun t r => ?_, fun t owner locks => ?_, fun t lock => ?_, System.woken_call_le⟩
  · exact ⟨drains_run t r, Drains.eq_run, drainage_run rfl rfl⟩
  · exact ⟨givesUp_run t owner locks, GivesUp.eq_run,
      drainage_run (toGrant_giveUps owner locks) (toWake_giveUps owner locks)⟩
  · exact ⟨releases_run t lock, Releases.eq_run, drainage_run rfl rfl⟩

/-- Two queues wait for one another, and one of them is drained while it is being drained. -/
example :
    let a := Resource.root "a"
    let b := Resource.root "b"
    let t := (((run {} [.grant ⟨b, .x, 1⟩, .grant ⟨a, .is, 2⟩]).table.enqueue
      ⟨⟨1, 1⟩, ⟨a, .ix, 1⟩, [⟨b, .x, 1⟩]⟩ .back).enqueue
      ⟨⟨2, 2⟩, ⟨b, .x, 2⟩, [⟨a, .is, 2⟩]⟩ .back).enqueue ⟨⟨3, 3⟩, ⟨a, .ix, 3⟩, []⟩ .back
    let out := run t [.drain a]
    out.fault? = none ∧ (woken out.events).map (·.txn.id) = [3, 2, 1] := by
  decide +kernel

end Cascade

end Locking
