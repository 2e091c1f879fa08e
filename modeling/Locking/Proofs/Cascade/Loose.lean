import Locking.Proofs.Atomicity
import Locking.Proofs.Cascade.Succession
import Locking.Proofs.Cascade.Toward

/-!
# Releases in any order

Every release may set off a cascade, and cascades of different releases meet in the same queues.
Even so it makes no difference which lock is released first, as long as the owners of the locks do
not wait, nor in which order waiting requests give up locks: each order leads toward where the other
one ends, so that they end at the same.

* `Cascade.Loose`: an agenda that releases locks, for transactions that do not wait.
* `Loose.locksOf_run`: what becomes of the locks of each transaction.
* `Loose.toward`: where one such agenda ends, another one leads toward that releases the same locks.
* `Loose.akin_run`: so both lead to tables that no query tells apart, and wake the same
  transactions.
* `Cascade.Loosens`, `Loosens.akin_run`: the same of agendas that are loose once their first task is
  done, if they begin alike.
-/

namespace Locking

theorem eq_of_perm_of_length_le {A : Type} {xs ys : List A} (h : xs.Perm ys) (hl : ys.length ≤ 1) :
    xs = ys := by
  match ys with
  | [] => exact h.eq_nil
  | [y] => exact List.perm_singleton.1 h

/-! ## Requests on the same terms -/

section Terms

variable {q p : Request} {qs ps : List Request}

/-- Requests on the same terms are carried out alike. -/
theorem Request.carryOut_of_terms (h : q.terms = p.terms) (locks : List Lock) :
    q.carryOut locks = p.carryOut locks := by
  obtain ⟨-, hlock, hreleases⟩ := terms_eq_iff.1 h
  rw [carryOut, carryOut, hlock]
  exact without_congr fun _ _ => (hreleases.map Lock.resource).mem_iff

theorem foldl_carryOut_of_terms (h : qs.map Request.terms = ps.map Request.terms)
    (locks : List Lock) :
    qs.foldl (fun ls q => q.carryOut ls) locks = ps.foldl (fun ls q => q.carryOut ls) locks := by
  induction qs generalizing ps locks with
  | nil => rw [List.map_eq_nil_iff.1 h.symm]
  | cons q qs ih =>
    rw [List.map_cons, eq_comm, List.map_eq_cons_iff] at h
    obtain ⟨p, ps, rfl, hp, hps⟩ := h
    rw [List.foldl_cons, List.foldl_cons, ih hps.symm, Request.carryOut_of_terms hp.symm]

/-- Events take the same from queues, up to order, if they do so for every resource, as far as a
function of requests tells that also tells the resource. -/
theorem perm_map_of_takenFrom {B : Type} [DecidableEq B] (f : Request → B) (res : B → Resource)
    (hres : ∀ q, res (f q) = q.lock.resource) {es fs : List Event}
    (h : ∀ r, (takenFrom r es).map f = (takenFrom r fs).map f) :
    ((taken es).map f).Perm ((taken fs).map f) := by
  have hcount : ∀ (gs : List Event) (b : B),
      ((taken gs).map f).count b = ((takenFrom (res b) gs).map f).count b := by
    intro gs b
    have hpart : (takenFrom (res b) gs).map f =
        ((taken gs).map f).filter fun c => res c = res b := by
      simp only [takenFrom, List.filter_map, Function.comp_def, hres]
    rw [hpart, List.count_filter (by simp)]
  refine List.perm_iff_count.2 fun b => ?_
  rw [hcount, hcount, h]

end Terms

namespace Cascade

variable {t u : Table} {task : Task} {tasks xs ys : List Task} {r : Resource} {txn : TxnId}
  {q p : Request} {lock : Lock}

/-- Where a request is served on certain terms, there is nothing else to do than where another one
is on the same terms, but for the wake-up. -/
theorem mem_serve_of_terms (h : q.terms = p.terms) (hm : task ∈ serve r q) :
    task ∈ serve r p ∨ task = .wake q := by
  obtain ⟨htxn, hlock, hreleases⟩ := Request.terms_eq_iff.1 h
  rcases mem_serve_iff.1 hm with rfl | ⟨lock, hl, rfl⟩ | rfl | rfl
  · exact .inl (mem_serve_iff.2 (.inl (hlock ▸ rfl)))
  · exact .inl (mem_serve_iff.2 (.inr (.inl ⟨lock, hreleases.subset hl, by rw [htxn]⟩)))
  · exact .inr rfl
  · exact .inl (mem_serve_iff.2 (.inr (.inr (.inr rfl))))

/-! ## One agenda -/

/-- The task releases a lock, or it only looks at what is there. -/
def Task.Plain : Task → Prop
  | release _ | drain _ | prune _ => True
  | grant _ | giveUp _ _ | wake _ => False

/-- An agenda that releases locks which are held, for transactions that do not wait, and leaves no
queue that can be drained further. -/
structure Loose (t : Table) (tasks : List Task) : Prop
    extends Clear t tasks, Kept t tasks, Watched t tasks where
  plain : ∀ task ∈ tasks, task.Plain

/-- The resource on which a task releases a lock of a transaction. -/
def Task.released? (txn : TxnId) : Task → Option Resource
  | release lock => if lock.owner = txn then some lock.resource else none
  | grant _ | giveUp _ _ | wake _ | drain _ | prune _ => none

/-- Where an agenda releases locks of a transaction. -/
def releasedOf (txn : TxnId) (tasks : List Task) : List Resource :=
  tasks.filterMap (Task.released? txn)

theorem mem_releasedOf_iff :
    r ∈ releasedOf txn tasks ↔
      ∃ lock, .release lock ∈ tasks ∧ lock.owner = txn ∧ lock.resource = r := by
  rw [releasedOf, List.mem_filterMap]
  constructor
  · rintro ⟨task, hm, hr⟩
    cases task with
    | release lock =>
      rw [Task.released?, Option.ite_none_right_eq_some] at hr
      exact ⟨lock, hm, hr.1, Option.some.inj hr.2⟩
    | _ => cases hr
  · rintro ⟨lock, hm, ho, rfl⟩
    exact ⟨_, hm, if_pos ho⟩

/-- All that plain tasks do to locks is to release some. -/
theorem outstanding_of_plain (h : ∀ task ∈ tasks, task.Plain) (txn : TxnId) (ls : List Lock) :
    outstanding txn tasks ls = without ls (releasedOf txn tasks) := by
  induction tasks generalizing ls with
  | nil => exact (without_nil ls).symm
  | cons task tasks ih =>
    rw [outstanding_cons, ih fun a hm => h a (List.mem_cons_of_mem _ hm), releasedOf, releasedOf,
      List.filterMap_cons]
    cases task with
    | release lock =>
      by_cases ho : lock.owner = txn
      · simp [ho, Task.owner?, Task.apply, Task.released?, without_without]
      · simp [ho, Task.owner?, Task.released?]
    | drain r => rfl
    | prune r => rfl
    | _ => exact (h _ List.mem_cons_self).elim

theorem toWake_of_plain (h : ∀ task ∈ tasks, task.Plain) : toWake tasks = [] := by
  refine List.filterMap_eq_nil_iff.2 fun task hm => ?_
  cases task with
  | wake q => exact (h _ hm).elim
  | _ => rfl

theorem not_grant_of_plain (h : ∀ task ∈ tasks, task.Plain) (lock : Lock) : .grant lock ∉ tasks :=
  fun hm => h _ hm

namespace Loose

theorem fault?_run (h : Loose t tasks) : (run t tasks).fault? = none := h.toKept.run.1

theorem sound_run (h : Loose t tasks) : (run t tasks).table.Sound := h.toPoised.run

theorem quiet_run (h : Loose t tasks) : (run t tasks).table.Quiet := h.toWatched.run h.fault?_run

/-- Every request that leaves its queue is woken. -/
theorem conserves_run (h : Loose t tasks) (w : Request → Nat) :
    (run t tasks).table.queuedSum w + sumOf w (taken (run t tasks).events) = t.queuedSum w ∧
      sumOf w (woken (run t tasks).events) = sumOf w (taken (run t tasks).events) :=
  run_conserves w h.fault?_run (toWake_of_plain h.plain)

theorem woken_perm (h : Loose t tasks) :
    (woken (run t tasks).events).Perm (taken (run t tasks).events) :=
  perm_of_sumOf fun w => (h.conserves_run w).2

/-- At most one request of a transaction is granted, and none of an owner of the locks. -/
theorem length_takenOf_le (h : Loose t tasks) (txn : TxnId) :
    ((taken (run t tasks).events).filter (·.txn.id = txn)).length ≤
      t.queuedSum (Request.isOf txn) := by
  have hsum := (h.conserves_run (Request.isOf txn)).1
  rw [Request.sumOf_isOf] at hsum
  omega

theorem takenOf_eq (h : Loose t tasks) (hq : q ∈ taken (run t tasks).events) :
    (taken (run t tasks).events).filter (·.txn.id = q.txn.id) = [q] := by
  have hone := Nat.le_trans (h.length_takenOf_le q.txn.id) (h.one q.txn.id)
  have hmem : q ∈ (taken (run t tasks).events).filter (·.txn.id = q.txn.id) := by simp [hq]
  generalize (taken (run t tasks).events).filter (·.txn.id = q.txn.id) = mine at hone hmem ⊢
  match mine, hone, hmem with
  | [p], _, hmem => rw [List.mem_singleton.1 hmem]

/-- **What becomes of the locks of a transaction**: those of them that were to be released are, and
the request of it that is granted, if any, is carried out as a whole. -/
theorem locksOf_run (h : Loose t tasks) (txn : TxnId) :
    (run t tasks).table.locksOf txn =
      ((taken (run t tasks).events).filter (·.txn.id = txn)).foldl (fun ls q => q.carryOut ls)
        (without (t.locksOf txn) (releasedOf txn tasks)) := by
  rw [← outstanding_of_plain h.plain]
  exact (h.settled txn).locksOf_run h.toPoised h.fault?_run

/-- A lock that is held in the end has been held all the time, or it has been granted. -/
theorem mem_or_taken (h : Loose t tasks) (hm : lock ∈ (run t tasks).table.locksOf txn) :
    lock ∈ t.locksOf txn ∨ ∃ q ∈ taken (run t tasks).events, q.lock = lock := by
  rw [h.locksOf_run] at hm
  by_cases hq : ∃ q ∈ taken (run t tasks).events, q.txn.id = txn
  · obtain ⟨q, hq, rfl⟩ := hq
    rw [h.takenOf_eq hq] at hm
    rcases mem_regrant (List.mem_filter.1 hm).1 with rfl | hold
    · exact .inr ⟨q, hq, rfl⟩
    · exact .inl (List.mem_filter.1 hold).1
  · push Not at hq
    rw [List.filter_eq_nil_iff.2 fun q hm => by simpa using hq q hm] at hm
    exact .inl (List.mem_filter.1 hm).1

/-- What was to be released is not held in the end. -/
theorem done_of_mem (h : Loose t tasks) (hl : .release lock ∈ tasks) :
    (Task.release lock).DoneIn (run t tasks).table := by
  have hnone : (taken (run t tasks).events).filter (·.txn.id = lock.owner) = [] := by
    have hzero := h.idle _ hl lock.owner rfl
    have hlen := h.length_takenOf_le lock.owner
    exact List.length_eq_zero_iff.1 (by omega)
  have hlocks := h.locksOf_run lock.owner
  rw [hnone] at hlocks
  exact h.sound_run.held?_eq_none_of_without hlocks (mem_releasedOf_iff.2 ⟨lock, hl, rfl, rfl⟩)

/-- What has been granted stands where it was asked for, and what was given up is not held. -/
theorem done_of_taken (h : Loose t tasks) (hq : q ∈ taken (run t tasks).events)
    (howner : q.lock.owner = q.txn.id) : ∀ task ∈ serve r q, task.DoneIn (run t tasks).table := by
  have hlocks := h.locksOf_run q.txn.id
  rw [h.takenOf_eq hq] at hlocks
  intro task hm
  rcases mem_serve_iff.1 hm with rfl | ⟨lock, hl, rfl⟩ | rfl | rfl
  · intro held hheld
    obtain ⟨ho, hr, -⟩ := h.sound_run.of_held? hheld
    have hmem : held ∈ (run t tasks).table.locksOf q.txn.id :=
      h.sound_run.mem_locksOf_iff.2 ⟨ho.trans howner, by rw [hr, ← howner]; exact hheld⟩
    rw [hlocks] at hmem
    exact eq_of_mem_regrant (List.mem_filter.1 hmem).1 hr
  · exact h.sound_run.held?_eq_none_of_without hlocks (List.mem_map_of_mem hl)
  · trivial
  · trivial

/-! ## Two agendas that release the same locks -/

section Two

variable (h : Loose t xs) (h' : Loose u ys) (ha : t.Akin u)
  (hr : ∀ lock, .release lock ∈ xs ↔ .release lock ∈ ys)

include h h' ha hr

/-- **Where one agenda ends, the other one leads toward.** -/
theorem toward : Toward (run t xs).table u ys where
  toPoised := h'.toPoised
  done := by
    intro task hm
    cases task with
    | release lock => exact h.done_of_mem ((hr lock).2 hm)
    | drain r => trivial
    | prune r => trivial
    | _ => exact (h'.plain _ hm).elim
  due := by
    intro r
    have hterms := ha.terms r
    rw [h.toPoised.queue_run r, List.map_append, eq_comm, List.map_eq_append_iff] at hterms
    obtain ⟨due, kept, hqueue, hdue, hkept⟩ := hterms
    -- on the terms of each request that is due, one has been taken in the first cascade
    have htaken : ∀ q ∈ due, ∃ p ∈ takenFrom r (run t xs).events, p.terms = q.terms := by
      intro q hq
      have hm : q.terms ∈ due.map Request.terms := List.mem_map_of_mem hq
      rw [hdue] at hm
      exact List.mem_map.1 hm
    refine ⟨due, kept, hqueue, hkept, fun q hq task hm => ?_, fun lock hl => ?_⟩
    · obtain ⟨p, hp, hpq⟩ := htaken q hq
      have hproper : p.Proper r :=
        h.sound.proper (h.toPoised.queue_run r ▸ List.mem_append_left _ hp)
      rcases mem_serve_of_terms hpq.symm hm with hm | rfl
      · exact h.done_of_taken (List.mem_filter.1 hp).1 hproper.owner task hm
      · trivial
    · have hheld := h.sound_run.mem_locksOn_iff.1 hl
      obtain ⟨-, rfl, -⟩ := h.sound_run.of_held? hheld
      rcases h.mem_or_taken (h.sound_run.mem_locksOf_iff.2 ⟨rfl, hheld⟩) with hold | ⟨q, hq, rfl⟩
      · rw [← ha.locksOn]
        exact .inl (h.sound.mem_locksOn_iff.2 (h.sound.mem_locksOf_iff.1 hold).2)
      · refine .inr (.inl ?_)
        have hm : q ∈ takenFrom q.lock.resource (run t xs).events :=
          List.mem_filter.2 ⟨hq, by simp⟩
        have hlocks := congrArg (List.map Terms.lock) hdue
        rw [List.map_map, List.map_map] at hlocks
        exact hlocks.symm ▸ List.mem_map_of_mem (f := Terms.lock ∘ Request.terms) hm

/-- Each agenda leads toward where the other one ends, so requests wait on the same terms in the
end, and the same locks are held. -/
theorem same_run (r : Resource) :
    ((run t xs).table.queue r).map Request.terms = ((run u ys).table.queue r).map Request.terms ∧
      ∀ txn, (run t xs).table.held? txn r = (run u ys).table.held? txn r := by
  have hto := (h.toward h' ha hr).run h.sound_run h.quiet_run h'.fault?_run
  have hto' := (h'.toward h ha.symm fun lock => (hr lock).symm).run h'.sound_run h'.quiet_run
    h.fault?_run
  obtain ⟨hqueue, hmem⟩ := hto'.antisymm hto r
  exact ⟨hqueue, h.sound_run.held?_eq_of_locksOn h'.sound_run hmem⟩

/-- The locks on a resource come in the same order: in the one that was known beforehand. -/
theorem locksOn_eq (r : Resource) : (run t xs).table.locksOn r = (run u ys).table.locksOn r := by
  have hheld := (h.same_run h' ha hr r).2
  have howner : t.owners r = u.owners r := by rw [Table.owners, Table.owners, ha.locksOn]
  have hwaiting : (t.queue r).map (·.lock.owner) = (u.queue r).map (·.lock.owner) := by
    have hlocks := congrArg (List.map fun c : Terms => c.lock.owner) (ha.terms r)
    rwa [List.map_map, List.map_map] at hlocks
  have hsub := h.toClear.sublist_run h.fault?_run r
  have hsub' := h'.toClear.sublist_run h'.fault?_run r
  have hnodup := h.toClear.nodup_succession (not_grant_of_plain h.plain) r
  rw [succession, nextIn_of_not_grant (not_grant_of_plain h.plain)] at hsub hnodup
  rw [succession, nextIn_of_not_grant (not_grant_of_plain h'.plain), ← howner, ← hwaiting] at hsub'
  have howners : (run t xs).table.owners r = (run u ys).table.owners r := by
    refine eq_of_sublist hnodup hsub hsub' fun txn => ?_
    rw [h.sound_run.mem_owners_iff, h'.sound_run.mem_owners_iff, hheld]
  rw [h.sound_run.locksOn_eq_filterMap, h'.sound_run.locksOn_eq_filterMap, howners]
  exact List.filterMap_congr fun txn _ => hheld txn

/-- The same is taken from every queue. -/
theorem takenFrom_eq (r : Resource) :
    (takenFrom r (run t xs).events).map Request.terms =
      (takenFrom r (run u ys).events).map Request.terms := by
  have hterms := ha.terms r
  rw [h.toPoised.queue_run r, h'.toPoised.queue_run r, List.map_append, List.map_append,
    (h.same_run h' ha hr r).1] at hterms
  exact List.append_cancel_right hterms

theorem taken_perm : ((taken (run t xs).events).map Request.terms).Perm
    ((taken (run u ys).events).map Request.terms) :=
  perm_map_of_takenFrom Request.terms (·.lock.resource) (fun _ => rfl) (h.takenFrom_eq h' ha hr)

theorem locksOf_eq (txn : TxnId) :
    (run t xs).table.locksOf txn = (run u ys).table.locksOf txn := by
  have hmine : ((taken (run t xs).events).filter (·.txn.id = txn)).map Request.terms =
      ((taken (run u ys).events).filter (·.txn.id = txn)).map Request.terms := by
    refine eq_of_perm_of_length_le ?_ ?_
    · have hperm := (h.taken_perm h' ha hr).filter fun c => c.txn.id = txn
      rwa [List.filter_map, List.filter_map] at hperm
    · rw [List.length_map]
      exact Nat.le_trans (h'.length_takenOf_le txn) (h'.one txn)
  have hreleased : ∀ r, r ∈ releasedOf txn xs ↔ r ∈ releasedOf txn ys := fun r => by
    simp only [mem_releasedOf_iff, hr]
  rw [h.locksOf_run, h'.locksOf_run, foldl_carryOut_of_terms hmine, ha.locksOf,
    without_congr fun lock _ => hreleased lock.resource]

/-- **In whatever order locks are released, no query tells where it has led**, and requests on the
same terms have been woken, each as often. -/
theorem akin_run :
    (run t xs).table.Akin (run u ys).table ∧
      ((woken (run t xs).events).map Request.terms).Perm
        ((woken (run u ys).events).map Request.terms) := by
  refine ⟨⟨h.locksOn_eq h' ha hr, h.locksOf_eq h' ha hr, fun r => (h.same_run h' ha hr r).1⟩, ?_⟩
  exact (h.woken_perm.map _).trans ((h.taken_perm h' ha hr).trans (h'.woken_perm.map _).symm)

end Two

/-- What is left to be done once a first task has been done is loose, if it is done for nobody who
waits. -/
theorem of_effect {t' : Table} {rest new : List Task} {es : List Event}
    (hk : Kept t (task :: rest)) (hw : Watched t (task :: rest)) (he : Effect t task t' es new)
    (hone : ∀ txn, t.queuedSum (Request.isOf txn) ≤ 1)
    (hidle : ∀ a ∈ new ++ rest, ∀ txn, a.owner? = some txn →
      t.queuedSum (Request.isOf txn) = 0)
    (hplain : ∀ a ∈ new ++ rest, a.Plain) : Loose t' (new ++ rest) := by
  have hsum := fun txn => he.queuedSum_eq (Request.isOf txn)
  have hclear : Clear t' (new ++ rest) := by
    refine ⟨hk.toPoised.step he, fun txn => ?_, fun a hm txn ho => ?_⟩
    · have := hsum txn
      have := hone txn
      omega
    · have := hsum txn
      have := hidle a hm txn ho
      omega
  exact { hclear, hk.step he, hw.step he with plain := hplain }

end Loose

/-! ## Agendas that become loose -/

/-- An agenda that is loose once its first task has been done, which grants or releases a lock. -/
inductive Loosens (t : Table) : List Task → Prop where
  | grant {lock : Lock} {t' : Table} {e : Event} {rest : List Task}
    (hp : t.put lock = .ok (t', e)) (h : Loose t' rest) : Loosens t (.grant lock :: rest)
  | release {lock : Lock} {t' : Table} (ht : t.take lock = .ok t')
    (h : Loose t' [.drain lock.resource, .prune lock.resource]) : Loosens t [.release lock]

namespace Loosens

theorem fault?_run (h : Loosens t tasks) : (run t tasks).fault? = none := by
  cases h with
  | grant hp h =>
    rw [run_of_effect (.grant hp)]
    exact h.fault?_run
  | release ht h =>
    rw [run_of_effect (.release ht)]
    exact h.fault?_run

/-- **Two agendas that begin alike and release the same locks** lead to tables that no query tells
apart, and wake the same transactions. -/
theorem akin_run (h : Loosens t xs) (h' : Loosens u ys) (ht : t.Sound) (hu : u.Sound)
    (ha : t.Akin u) (hhead : xs.head? = ys.head?)
    (hr : ∀ lock, .release lock ∈ xs ↔ .release lock ∈ ys) :
    (run t xs).table.Akin (run u ys).table ∧
      ((woken (run t xs).events).map Request.terms).Perm
        ((woken (run u ys).events).map Request.terms) := by
  cases h with
  | @grant lock _ e rest hp h =>
    cases h' with
    | @grant _ _ e' rest' hp' h' =>
      cases hhead
      have hrest : ∀ lock, .release lock ∈ rest ↔ .release lock ∈ rest' := by simpa using hr
      obtain ⟨hakin, hwoken⟩ := h.akin_run h' (ha.put ht hu hp hp') hrest
      have hgrant : ∀ {v v' : Table} {ev : Event}, v.put lock = .ok (v', ev) → woken [ev] = [] := by
        intro v v' ev hput
        rcases Table.event_of_put hput with rfl | ⟨before, rfl⟩ <;> rfl
      rw [run_of_effect (.grant hp), run_of_effect (.grant hp')]
      refine ⟨hakin, ?_⟩
      rw [woken_append, woken_append, hgrant hp, hgrant hp']
      exact hwoken
    | release => cases hhead
  | release htake h =>
    cases h' with
    | grant => cases hhead
    | release htake' h' =>
      cases hhead
      rw [run_of_effect (.release htake), run_of_effect (.release htake')]
      exact h.akin_run h' (ha.take ht hu htake htake') fun _ => .rfl

end Loosens

end Cascade

end Locking
