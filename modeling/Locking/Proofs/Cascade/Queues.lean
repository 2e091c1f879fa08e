import Locking.Proofs.Cascade.Poised
import Locking.Proofs.Conservation

/-!
# How cascades work off queues

A cascade drains many queues, and the drains of one queue may be nested in one another. Even so each
queue only loses requests at its front, in order, and each of them is granted at once.

* `run_queue_suffix`: an agenda takes requests only from the fronts of queues, whatever the table.
* `takenFrom`: the requests that have been taken from the queue of one resource.
* `Poised.queue_run`: what was taken from a queue and what is left is the queue as it was before.
* `Poised.served_run`: what is taken from a queue is granted directly afterwards.
* `perm_of_sumOf`: requests that no weight tells apart are the same, each as often as the other.
-/

namespace Locking

/-- The requests that have been taken from the queue of a resource, in order. -/
def takenFrom (r : Resource) (es : List Event) : List Request :=
  (taken es).filter (·.lock.resource = r)

@[simp] theorem takenFrom_nil (r : Resource) : takenFrom r [] = [] := rfl

@[simp] theorem takenFrom_append (r : Resource) (es fs : List Event) :
    takenFrom r (es ++ fs) = takenFrom r es ++ takenFrom r fs := by
  simp [takenFrom]

theorem takenFrom_granting (r : Resource) (q : Request) :
    takenFrom r [.granting q] = if q.lock.resource = r then [q] else [] := by
  by_cases h : q.lock.resource = r <;> simp [takenFrom, taken, Event.taken?, h]

/-- The event grants this lock, in a new slot or in the place of another. -/
def Event.Grants (lock : Lock) (e : Event) : Prop :=
  e = .granted lock ∨ ∃ before, e = .updated lock before

/-- Every request that is taken from a queue is granted directly afterwards. -/
def Served (es : List Event) : Prop :=
  ∀ before q after, es = before ++ .granting q :: after →
    ∃ e rest, after = e :: rest ∧ e.Grants q.lock

theorem served_of_taken_eq_nil {es : List Event} (h : taken es = []) : Served es := by
  rintro before q after rfl
  simp [taken, Event.taken?] at h

/-- Two lists of requests are the same up to order if no weight tells them apart. -/
theorem perm_of_sumOf {qs ps : List Request}
    (h : ∀ w : Request → Nat, sumOf w qs = sumOf w ps) : qs.Perm ps := by
  have hcount : ∀ (q : Request) (rs : List Request), rs.count q = sumOf (Request.isThis q) rs := by
    intro q rs
    induction rs with
    | nil => rfl
    | cons p rs ih =>
      rw [List.count_cons, sumOf_cons, ih, Request.isThis, Nat.add_comm]
      simp
  refine List.perm_iff_count.2 fun q => ?_
  rw [hcount, hcount, h]

namespace Cascade

variable {t t' : Table} {task : Task} {tasks rest new : List Task} {es es' : List Event}

theorem Effect.queue_suffix (he : Effect t task t' es new) (r : Resource) :
    t'.queue r <:+ t.queue r := by
  cases he with
  | grant hp => exact Table.queue_put hp r ▸ List.suffix_rfl
  | release ht => exact Table.queue_take ht r ▸ List.suffix_rfl
  | @serve s q _ hp =>
    obtain ⟨hqueue, hother⟩ := Table.queue_pop? hp
    by_cases hs : s = r
    · exact hs ▸ hqueue ▸ List.suffix_cons q _
    · exact hother r hs ▸ List.suffix_rfl
  | prune s => exact t.queue_prune s r ▸ List.suffix_rfl
  | _ => exact List.suffix_rfl

/-- **An agenda only takes requests from the fronts of queues**, wherever it ends. -/
theorem run_queue_suffix (t : Table) (tasks : List Task) (r : Resource) :
    (run t tasks).table.queue r <:+ t.queue r :=
  run_keeps (P := fun u => u.queue r <:+ t.queue r) (fun hu he => (he.queue_suffix r).trans hu)
    List.suffix_rfl tasks

/-- What one task takes from the front of a queue. -/
theorem Effect.queue_eq (h : t.Sound) (he : Effect t task t' es new) (r : Resource) :
    t.queue r = takenFrom r es ++ t'.queue r := by
  cases he with
  | grant hp =>
    rw [Table.queue_put hp]
    rcases Table.event_of_put hp with rfl | ⟨before, rfl⟩
    · rfl
    · rfl
  | release ht =>
    rw [Table.queue_take ht]
    rfl
  | gone hh => rfl
  | giveUp hh => rfl
  | wake q => rfl
  | drained hp => rfl
  | @serve s q _ hp =>
    obtain ⟨hqueue, hother⟩ := Table.queue_pop? hp
    rw [takenFrom_granting, (h.of_pop? hp).1.resource]
    split
    · rename_i hs
      exact hs ▸ hqueue
    · rename_i hs
      exact (hother r hs).symm
  | prune s =>
    rw [t.queue_prune]
    rfl

/-- **What is taken from a queue and what is left** is the queue as it was before, wherever the
agenda ends. -/
theorem Poised.queue_run (h : Poised t tasks) (r : Resource) :
    t.queue r =
      takenFrom r (Cascade.run t tasks).events ++ (Cascade.run t tasks).table.queue r := by
  have hstep : ∀ {u task rest es u' es' new},
      (Poised u (task :: rest) ∧ t.queue r = takenFrom r es ++ u.queue r) →
      Effect u task u' es' new →
      Poised u' (new ++ rest) ∧ t.queue r = takenFrom r (es ++ es') ++ u'.queue r := by
    rintro u task rest es u' es' new ⟨hu, hq⟩ he
    refine ⟨hu.step he, ?_⟩
    rw [hq, he.queue_eq hu.sound r, takenFrom_append, List.append_assoc]
  rcases run_invariant (P := fun u left es => Poised u left ∧
      t.queue r = takenFrom r es ++ u.queue r) [] hstep ⟨h, rfl⟩ with
    ⟨-, -, hq⟩ | ⟨f, task, rest, es, -, he, ⟨-, hq⟩, -⟩
  · exact hq
  · -- the fault itself takes nothing
    rw [he, takenFrom_append]
    exact (List.append_nil (takenFrom r es)).symm ▸ hq

/-- Every request that was taken has been granted, or its grant comes next. -/
def Serving (left : List Task) (es : List Event) : Prop :=
  ∀ before q after, es = before ++ .granting q :: after →
    (after = [] ∧ left.head? = some (.grant q.lock)) ∨
      ∃ e rest, after = e :: rest ∧ e.Grants q.lock

theorem Effect.events_eq (he : Effect t task t' es new) : es = [] ∨ ∃ e, es = [e] := by
  cases he <;> simp

theorem Serving.step (h : Serving (task :: rest) es) (he : Effect t task t' es' new) :
    Serving (new ++ rest) (es ++ es') := by
  intro before q after hsplit
  rcases he.events_eq with hnone | ⟨e, hone⟩
  · -- a grant that was due would have been told of
    rw [hnone, List.append_nil] at hsplit
    rcases h before q after hsplit with ⟨-, hhead⟩ | hdone
    · cases hhead
      cases he
      cases hnone
    · exact .inr hdone
  · rcases after.eq_nil_or_concat' with rfl | ⟨init, last, rfl⟩
    · -- the request has just been taken
      rw [hone] at hsplit
      obtain ⟨-, hlast⟩ := List.append_inj' hsplit rfl
      cases hlast
      cases he with
      | serve hp =>
        cases hone
        exact .inl ⟨rfl, rfl⟩
      | grant hp =>
        rcases Table.event_of_put hp with rfl | ⟨mode, rfl⟩
        · cases hone
        · cases hone
      | _ => cases hone
    · rw [hone, ← List.cons_append, ← List.append_assoc] at hsplit
      obtain ⟨hbefore, hlast⟩ := List.append_inj' hsplit rfl
      cases hlast
      rcases h before q init hbefore with ⟨rfl, hhead⟩ | ⟨e', rest', rfl, hg⟩
      · -- the grant that was due
        cases hhead
        cases he with
        | grant hp =>
          cases hone
          exact .inr ⟨e, [], rfl, Table.event_of_put hp⟩
      · exact .inr ⟨e', rest' ++ [e], rfl, hg⟩

/-- **What is taken from a queue is granted directly afterwards** where an agenda is worked off. -/
theorem served_run (hf : (run t tasks).fault? = none) : Served (run t tasks).events := by
  have h : Serving [] _ := run_end (P := fun _ left es => Serving left es) Serving.step
    (show Serving tasks [] by simp [Serving]) hf
  intro before q after hsplit
  exact (h before q after hsplit).resolve_left fun hc => nomatch hc.2

end Cascade

end Locking
