import Locking.Proofs.Cascade.Queues
import Locking.Proofs.Table.Owner

/-!
# What cascades do to the locks of one transaction

An agenda says what is still to be done to the locks of a transaction. A cascade does just that, and
it carries out the requests of the transaction that it takes from queues, as a whole.

* `Task.apply`, `outstanding`: what one task, and what an agenda, does to the locks of a
  transaction.
* `Request.carryOut`: what a granted request does to them.
* `Effect.outstanding_eq`: a task that serves no request of the transaction leaves on the agenda
  what it has not done itself.
* `Settled`: at most one request of the transaction waits, and it may come up only when nothing is
  left to be done for the transaction.
* `Due`: what has been done to the locks of a transaction, and what is left to do.
* `Settled.locksOf_run`, `Settled.woken_run`: where a cascade leaves them, and that at most one
  request of the transaction is carried out.
-/

namespace Locking

/-- The locks of a transaction once a request of it has been granted, and what it gives up has been
released. -/
def Request.carryOut (q : Request) (locks : List Lock) : List Lock :=
  without (regrant locks q.lock) (q.releases.map Lock.resource)

/-- Counts a request if it is one of a transaction with this id. -/
def Request.isOf (txn : TxnId) (q : Request) : Nat := if q.txn.id = txn then 1 else 0

theorem Request.sumOf_isOf (txn : TxnId) (qs : List Request) :
    sumOf (isOf txn) qs = (qs.filter (·.txn.id = txn)).length := by
  induction qs with
  | nil => rfl
  | cons q qs ih =>
    rw [sumOf_cons, ih, isOf, List.filter_cons]
    by_cases h : q.txn.id = txn
    · simp [h, Nat.add_comm]
    · simp [h]

namespace Cascade

variable {t t' : Table} {task : Task} {tasks rest new xs ys : List Task} {es es' : List Event}
  {txn : TxnId} {locks : List Lock}

/-- Whose locks a task changes by itself. -/
def Task.owner? : Task → Option TxnId
  | grant lock | release lock => some lock.owner
  | giveUp owner _ => some owner
  | wake _ | drain _ | prune _ => none

/-- What a task does to the locks of its owner. -/
def Task.apply (locks : List Lock) : Task → List Lock
  | grant lock => regrant locks lock
  | release lock | giveUp _ lock => without locks [lock.resource]
  | wake _ | drain _ | prune _ => locks

/-- What an agenda does to the locks of a transaction, apart from the requests that it serves. -/
def outstanding (txn : TxnId) (tasks : List Task) (locks : List Lock) : List Lock :=
  (tasks.filter (·.owner? = some txn)).foldl Task.apply locks

theorem outstanding_append (txn : TxnId) (xs ys : List Task) (locks : List Lock) :
    outstanding txn (xs ++ ys) locks = outstanding txn ys (outstanding txn xs locks) := by
  simp [outstanding]

theorem outstanding_of_owner (h : ∀ task ∈ tasks, task.owner? ≠ some txn) (locks : List Lock) :
    outstanding txn tasks locks = locks := by
  rw [outstanding, List.filter_eq_nil_iff.2 fun task hm => by simpa using h task hm]
  rfl

theorem outstanding_cons (txn : TxnId) (task : Task) (tasks : List Task) (locks : List Lock) :
    outstanding txn (task :: tasks) locks =
      outstanding txn tasks (if task.owner? = some txn then task.apply locks else locks) := by
  rw [outstanding, List.filter_cons]
  by_cases h : task.owner? = some txn
  · simp [h, outstanding]
  · simp [h, outstanding]

theorem outstanding_nil (txn : TxnId) (locks : List Lock) : outstanding txn [] locks = locks := rfl

/-- Locks that are released or given up one after the other are left out. -/
theorem outstanding_map {f : Lock → Task} (howner : ∀ lock ∈ locks, (f lock).owner? = some txn)
    (happly : ∀ lock ls, (f lock).apply ls = without ls [lock.resource]) (ls : List Lock) :
    outstanding txn (locks.map f) ls = without ls (locks.map Lock.resource) := by
  induction locks generalizing ls with
  | nil => simp [outstanding_nil]
  | cons lock locks ih =>
    rw [List.map_cons, outstanding_cons, if_pos (howner lock List.mem_cons_self), happly,
      ih fun l hl => howner l (List.mem_cons_of_mem _ hl), without_without]
    rfl

/-- What is done to serve a request is to carry it out. -/
theorem outstanding_serve {q : Request} (h : q.lock.owner = q.txn.id) (r : Resource)
    (ls : List Lock) : outstanding q.txn.id (serve r q) ls = q.carryOut ls := by
  have hgrant : (Task.grant q.lock).owner? = some q.txn.id := congrArg some h
  rw [serve, List.cons_append, outstanding_cons, if_pos hgrant, outstanding_append,
    outstanding_map (fun _ _ => rfl) (fun _ _ => rfl)]
  rfl

theorem owner?_of_mem_serve {q : Request} (h : q.lock.owner = q.txn.id) {r : Resource}
    (hm : task ∈ serve r q) (hne : q.txn.id ≠ txn) : task.owner? ≠ some txn := by
  simp only [serve, List.cons_append, List.mem_cons, List.mem_append, List.mem_map,
    List.not_mem_nil, or_false] at hm
  intro hc
  rcases hm with rfl | ⟨lock, -, rfl⟩ | rfl | rfl
  · exact hne (h ▸ Option.some.inj hc)
  · exact hne (Option.some.inj hc)
  · cases hc
  · cases hc

/-- **What a task has not done itself is left on the agenda**, unless it takes a request of the
transaction from a queue. -/
theorem Effect.outstanding_eq (h : t.Sound) (he : Effect t task t' es new)
    (hq : ∀ q ∈ taken es, q.txn.id ≠ txn) :
    outstanding txn new (t'.locksOf txn) = outstanding txn [task] (t.locksOf txn) := by
  cases he with
  | @grant lock _ e hp =>
    rw [outstanding_cons, outstanding_nil, outstanding_nil, h.locksOf_put hp]
    by_cases ho : lock.owner = txn <;> simp [Task.owner?, Task.apply, ho]
  | @release lock _ ht =>
    rw [outstanding_of_owner (by simp [Task.owner?]), outstanding_cons, outstanding_nil,
      h.locksOf_take ht]
    by_cases ho : lock.owner = txn <;> simp [Task.owner?, Task.apply, ho]
  | @gone owner lock hh =>
    rw [outstanding_cons, outstanding_nil, outstanding_nil]
    split
    · rename_i ho
      cases ho
      exact (without_of_not_mem fun hm => (h.mem_resources_iff.1 hm) hh).symm
    · rfl
  | @giveUp owner lock held hh =>
    obtain ⟨rfl, hres, -⟩ := h.of_held? hh
    simp [outstanding_cons, outstanding_nil, Task.owner?, Task.apply, hres]
  | wake q => rfl
  | drained hp => rfl
  | @serve r q _ hp =>
    have hne : q.txn.id ≠ txn := hq q (by simp [taken, Event.taken?])
    rw [outstanding_of_owner fun task hm =>
      owner?_of_mem_serve (h.of_pop? hp).1.owner hm hne, Table.locksOf_pop? hp]
    rfl
  | prune r =>
    rw [outstanding_nil, Table.locksOf_prune]
    rfl

/-- Behind its first task, nothing that a task leaves on the agenda is done for the transaction,
unless a request of the transaction has been taken from a queue. -/
theorem Effect.owner?_of_mem_tail (h : t.Sound) (he : Effect t task t' es new)
    (hq : ∀ q ∈ taken es, q.txn.id ≠ txn) : ∀ task ∈ new.tail, task.owner? ≠ some txn := by
  intro task hm
  cases he with
  | release ht =>
    rw [List.mem_singleton.1 hm]
    nofun
  | @serve r q _ hp =>
    have hne : q.txn.id ≠ txn := hq q (by simp [taken, Event.taken?])
    exact owner?_of_mem_serve (h.of_pop? hp).1.owner (List.mem_of_mem_tail hm) hne
  | _ => cases hm

/-- At most one request of the transaction waits. As long as it does, nothing is left to be done for
the transaction, except by the first task. -/
structure Settled (txn : TxnId) (t : Table) (tasks : List Task) : Prop where
  one : t.queuedSum (Request.isOf txn) ≤ 1
  idle : t.queuedSum (Request.isOf txn) ≠ 0 → ∀ task ∈ tasks.tail, task.owner? ≠ some txn

namespace Settled

theorem step (h : Settled txn t (task :: rest)) (hs : t.Sound) (he : Effect t task t' es new) :
    Settled txn t' (new ++ rest) := by
  have hsum := he.queuedSum_eq (Request.isOf txn)
  have hone := h.one
  refine ⟨by omega, fun hne task hm => ?_⟩
  -- a request still waits, so it has not just been taken
  have hq : ∀ q ∈ taken es, q.txn.id ≠ txn := by
    intro q hm hid
    have hpos := le_sumOf_of_mem (w := Request.isOf txn) hm
    rw [Request.isOf, if_pos hid] at hpos
    omega
  have hrest : ∀ task ∈ rest, task.owner? ≠ some txn := h.idle (by omega)
  cases new with
  | nil => exact hrest task (List.mem_of_mem_tail hm)
  | cons first new =>
    rcases List.mem_append.1 hm with hm | hm
    · exact he.owner?_of_mem_tail hs hq task hm
    · exact hrest task hm

/-- **A task does what was to be done, or it takes a request of the transaction** from a queue, and
then what is left to be done is to carry out this request. -/
theorem outstanding_step (h : Settled txn t (task :: rest)) (hs : t.Sound)
    (he : Effect t task t' es new) :
    outstanding txn (new ++ rest) (t'.locksOf txn) =
      ((taken es).filter (·.txn.id = txn)).foldl (fun ls q => q.carryOut ls)
        (outstanding txn (task :: rest) (t.locksOf txn)) := by
  have hsum := he.queuedSum_eq (Request.isOf txn)
  rw [outstanding_append, ← List.singleton_append, outstanding_append txn [task]]
  by_cases hq : ∀ q ∈ taken es, q.txn.id ≠ txn
  · rw [he.outstanding_eq hs hq, List.filter_eq_nil_iff.2 fun q hm => by simpa using hq q hm]
    rfl
  · push Not at hq
    obtain ⟨q, hm, rfl⟩ := hq
    have hpos := le_sumOf_of_mem (w := Request.isOf q.txn.id) hm
    rw [Request.isOf, if_pos rfl] at hpos
    -- the transaction waited, so no later task is done for it
    have hrest : ∀ task ∈ rest, task.owner? ≠ some q.txn.id := h.idle (by omega)
    rw [outstanding_of_owner hrest, outstanding_of_owner hrest]
    cases he with
    | @serve r p _ hp =>
      obtain rfl : q = p := by simpa [taken, Event.taken?] using hm
      rw [outstanding_serve (hs.of_pop? hp).1.owner, Table.locksOf_pop? hp]
      simp [outstanding_cons, outstanding_nil, taken, Event.taken?, Task.owner?]
    | grant hp => rcases Table.event_of_put hp with rfl | ⟨before, rfl⟩ <;> cases hm
    | _ => cases hm

end Settled

/-- What is left to be done leads the transaction to `locks`, and beyond that to what its requests
ask for that have been taken from queues. -/
structure Due (txn : TxnId) (locks : List Lock) (t : Table) (tasks : List Task) (es : List Event) :
    Prop extends Poised t tasks, Settled txn t tasks where
  due : outstanding txn tasks (t.locksOf txn) =
    ((taken es).filter (·.txn.id = txn)).foldl (fun ls q => q.carryOut ls) locks

theorem Due.step (h : Due txn locks t (task :: rest) es) (he : Effect t task t' es' new) :
    Due txn locks t' (new ++ rest) (es ++ es') where
  toPoised := h.toPoised.step he
  toSettled := h.toSettled.step h.sound he
  due := by
    rw [h.outstanding_step h.sound he, h.due, taken_append, List.filter_append, List.foldl_append]

/-- **Where a cascade leaves the locks of a transaction**: what was to be done has been done, and
then what its requests ask for that were taken from queues. -/
theorem Settled.locksOf_run (h : Settled txn t tasks) (hp : Poised t tasks)
    (hf : (run t tasks).fault? = none) :
    (run t tasks).table.locksOf txn =
      ((taken (run t tasks).events).filter (·.txn.id = txn)).foldl (fun ls q => q.carryOut ls)
        (outstanding txn tasks (t.locksOf txn)) := by
  have hstart : Due txn (outstanding txn tasks (t.locksOf txn)) t tasks [] := ⟨hp, h, rfl⟩
  exact (run_end Due.step hstart hf).due

/-- **A transaction is woken at most once**, and then a request of it that waited has been carried
out as a whole, after what was to be done. -/
theorem Settled.woken_run (h : Settled txn t tasks) (hp : Poised t tasks)
    (hf : (run t tasks).fault? = none) (hw : toWake tasks = []) :
    (woken (run t tasks).events).filter (·.txn.id = txn) = [] ∧
        (run t tasks).table.locksOf txn = outstanding txn tasks (t.locksOf txn) ∨
      ∃ q, (woken (run t tasks).events).filter (·.txn.id = txn) = [q] ∧
        q ∈ t.queue q.lock.resource ∧
        (run t tasks).table.locksOf txn = q.carryOut (outstanding txn tasks (t.locksOf txn)) := by
  have hperm : ((woken (run t tasks).events).filter (·.txn.id = txn)).Perm
      ((taken (run t tasks).events).filter (·.txn.id = txn)) :=
    (perm_of_sumOf fun w => (run_conserves w hf hw).2).filter _
  have hone : ((taken (run t tasks).events).filter (·.txn.id = txn)).length ≤ 1 := by
    have hsum := (run_conserves (Request.isOf txn) hf hw).1
    have hwaiting := h.one
    rw [Request.sumOf_isOf] at hsum
    omega
  rw [h.locksOf_run hp hf]
  generalize htaken : (taken (run t tasks).events).filter (·.txn.id = txn) = mine at hperm hone ⊢
  cases mine with
  | nil => exact .inl ⟨hperm.eq_nil, rfl⟩
  | cons q more =>
    rw [List.length_cons] at hone
    obtain rfl : more = [] := List.length_eq_zero_iff.1 (by omega)
    refine .inr ⟨q, List.perm_singleton.1 hperm, ?_, rfl⟩
    -- what was taken from a queue stood there before
    have hq : q ∈ (taken (run t tasks).events).filter (·.txn.id = txn) := by simp [htaken]
    rw [hp.queue_run q.lock.resource]
    refine List.mem_append_left _ (List.mem_filter.2 ⟨(List.mem_filter.1 hq).1, ?_⟩)
    simp

end Cascade

end Locking
