import Locking.Proofs.Cascade.Watched
import Locking.Proofs.Table.Akin

/-!
# Where cascades lead

Whatever a cascade does in between, it does not go past a quiet table that it leads toward: a
request that still waits there is held back by a lock, and this lock is held back to then. So two
tables that cascades lead to, each toward the other, are the same as far as anybody can tell. In
which order a request gives up locks makes no difference, so only its terms need to be the same.

* `Task.DoneIn`: a table is past a task.
* `Cascade.Toward`: a table is ahead of where an agenda stands. The requests that no longer wait
  there are past, and every lock granted there is granted already, or asked for by one of them.
* `Toward.step`: every task leads from such an agenda to such an agenda, if nothing can be drained
  in the table ahead.
* `Toward.antisymm`: in tables that are ahead of each other requests wait on the same terms, and the
  same locks are granted.
-/

namespace Locking.Cascade

variable {f t t' : Table} {task : Task} {tasks rest new : List Task} {es : List Event}

/-- The table is past the task: what the task grants is not held there in another mode, and what it
releases is not held there. -/
def Task.DoneIn (f : Table) : Task → Prop
  | grant lock => ∀ held, f.held? lock.owner lock.resource = some held → held = lock
  | release lock => f.held? lock.owner lock.resource = none
  | giveUp owner lock => f.held? owner lock.resource = none
  | wake _ | drain _ | prune _ => True

/-- The table `f` is ahead of where the agenda stands. -/
structure Toward (f t : Table) (tasks : List Task) : Prop extends Poised t tasks where
  done : ∀ task ∈ tasks, task.DoneIn f
  /-- Before the requests that still wait there stand requests that are past there, and every lock
  granted there is granted already, or asked for by one of them, or granted next. -/
  due : ∀ r, ∃ due kept, t.queue r = due ++ kept ∧
    kept.map Request.terms = (f.queue r).map Request.terms ∧
    (∀ q ∈ due, ∀ task ∈ serve r q, task.DoneIn f) ∧
    ∀ lock ∈ f.locksOn r, lock ∈ t.locksOn r ∨ lock ∈ due.map Request.lock ∨
      tasks.head? = some (.grant lock)

/-- Whether anything can be taken from a queue is told by the terms of the requests. -/
theorem pop?_ne_none_of_terms {r : Resource} {q : Request} {qs : List Request}
    (hq : (q :: qs).map Request.terms = (f.queue r).map Request.terms)
    (ha : (f.entry r).admits q.lock.mode q.lock.owner) : f.pop? r ≠ none := by
  rw [List.map_cons, eq_comm, List.map_eq_cons_iff] at hq
  obtain ⟨p, ps, hp, hterms, -⟩ := hq
  have hlock : p.lock = q.lock := congrArg Terms.lock hterms
  intro hnone
  exact Table.pop?_eq_none_iff.1 hnone p ps hp (hlock ▸ ha)

namespace Toward

/-- Where the first task has been done, which took no request from a queue and took no lock away
that is granted ahead. -/
theorem next (h : Toward f t (task :: rest)) (he : Effect t task t' es new)
    (hnew : ∀ task ∈ new, task.DoneIn f) (hqueue : ∀ r, t'.queue r = t.queue r)
    (hlocks : ∀ r, ∀ lock ∈ f.locksOn r,
      lock ∈ t.locksOn r ∨ task = .grant lock → lock ∈ t'.locksOn r) :
    Toward f t' (new ++ rest) where
  toPoised := h.toPoised.step he
  done := fun task hm => (List.mem_append.1 hm).elim (hnew task) fun hm =>
    h.done task (List.mem_cons_of_mem _ hm)
  due := fun r => by
    obtain ⟨due, kept, hq, hkept, hdue, hgranted⟩ := h.due r
    refine ⟨due, kept, (hqueue r).trans hq, hkept, hdue, fun lock hl => ?_⟩
    rcases hgranted lock hl with hm | hm | hhead
    · exact .inl (hlocks r lock hl (.inl hm))
    · exact .inr (.inl hm)
    · exact .inl (hlocks r lock hl (.inr (Option.some.inj hhead)))

/-- A request that still waits in a quiet table is not taken from its queue on the way there. -/
theorem due_of_pop? (h : Toward f t tasks) (hf : f.Quiet) {r : Resource} {q : Request}
    (hp : t.pop? r = some (.ok (q, t'))) (hhead : ∀ lock, tasks.head? ≠ some (.grant lock)) :
    ∃ due kept, t'.queue r = due ++ kept ∧
      kept.map Request.terms = (f.queue r).map Request.terms ∧
      (∀ p ∈ q :: due, ∀ task ∈ serve r p, task.DoneIn f) ∧
      ∀ lock ∈ f.locksOn r, lock ∈ t.locksOn r ∨ lock ∈ (q :: due).map Request.lock := by
  obtain ⟨due, kept, hq, hkept, hdue, hgranted⟩ := h.due r
  have hold : ∀ lock ∈ f.locksOn r, lock ∈ t.locksOn r ∨ lock ∈ due.map Request.lock :=
    fun lock hl => (hgranted lock hl).imp_right fun hc => hc.resolve_right (hhead lock)
  obtain ⟨hqueue, -⟩ := Table.queue_pop? hp
  cases due with
  | nil =>
    -- it would be at the head of its queue ahead, where a lock holds it back that is granted by now
    exfalso
    obtain ⟨rest, -, ha, -⟩ := Table.pop?_eq_ok_iff.1 hp
    obtain rfl : kept = q :: t'.queue r := hq.symm.trans hqueue
    refine pop?_ne_none_of_terms hkept ?_ (hf r)
    rw [Table.admits_iff] at ha ⊢
    exact fun lock hl => ha lock ((hold lock hl).resolve_right (by simp))
  | cons p due =>
    rw [hqueue, List.cons_append, List.cons.injEq] at hq
    obtain ⟨rfl, hq⟩ := hq
    exact ⟨due, kept, hq, hkept, hdue, hold⟩

/-- **Every task leads on toward a quiet table**, and not past it. -/
theorem step (h : Toward f t (task :: rest)) (hs : f.Sound) (hf : f.Quiet)
    (he : Effect t task t' es new) : Toward f t' (new ++ rest) := by
  have hdone := h.done task List.mem_cons_self
  cases he with
  | @grant lock _ e hp =>
    obtain ⟨hs', hheld⟩ := h.sound.of_put (h.head rfl) hp
    refine h.next (.grant hp) (by simp) (Table.queue_put hp) fun r l hl hor => ?_
    rw [hs.mem_locksOn_iff] at hl
    rw [hs'.mem_locksOn_iff, hheld]
    split
    · rename_i hc
      -- the owner of the lock holds nothing else ahead
      obtain ⟨ho, rfl⟩ := hc
      rw [hdone l (ho ▸ hl)]
    · rename_i hc
      rcases hor with hm | heq
      · exact h.sound.mem_locksOn_iff.1 hm
      · cases heq
        exact absurd ⟨rfl, (hs.of_held? hl).2.1⟩ hc
  | @release lock _ ht =>
    obtain ⟨-, hs', hheld⟩ := h.sound.of_take ht
    refine h.next (.release ht) (by simp [Task.DoneIn]) (Table.queue_take ht) fun r l hl hor => ?_
    have hm := h.sound.mem_locksOn_iff.1 (hor.resolve_right nofun)
    rw [hs.mem_locksOn_iff] at hl
    rw [hs'.mem_locksOn_iff, hheld, if_neg]
    · exact hm
    · rintro ⟨ho, rfl⟩
      have hnone : f.held? lock.owner lock.resource = none := hdone
      rw [ho, hl] at hnone
      cases hnone
  | gone hh => exact h.next (.gone hh) (by simp) (fun _ => rfl) fun _ _ _ hor =>
      hor.resolve_right nofun
  | @giveUp owner lock held hh =>
    obtain ⟨rfl, hres, -⟩ := h.sound.of_held? hh
    refine h.next (.giveUp hh) (fun task hm => ?_) (fun _ => rfl) fun _ _ _ hor =>
      hor.resolve_right nofun
    rw [List.mem_singleton.1 hm, Task.DoneIn, hres]
    exact hdone
  | wake q => exact h.next (.wake q) (by simp) (fun _ => rfl) fun _ _ _ hor =>
      hor.resolve_right nofun
  | drained hp => exact h.next (.drained hp) (by simp) (fun _ => rfl) fun _ _ _ hor =>
      hor.resolve_right nofun
  | @serve r q _ hp =>
    obtain ⟨due, kept, hq, hkept, hdue, hgranted⟩ := h.due_of_pop? hf hp (by simp)
    refine ⟨h.toPoised.step (.serve hp), fun task hm => ?_, fun s => ?_⟩
    · rcases List.mem_append.1 hm with hm | hm
      · exact hdue q List.mem_cons_self task hm
      · exact h.done task (List.mem_cons_of_mem _ hm)
    · by_cases hr : r = s
      · subst hr
        refine ⟨due, kept, hq, hkept, fun p hp => hdue p (List.mem_cons_of_mem _ hp),
          fun lock hl => ?_⟩
        rw [(Table.granted_pop? hp r).1]
        rcases hgranted lock hl with hm | hm
        · exact .inl hm
        · rcases List.mem_cons.1 hm with rfl | hm
          · exact .inr (.inr rfl)
          · exact .inr (.inl hm)
      · obtain ⟨due, kept, hq, hkept, hdue, hgranted⟩ := h.due s
        rw [(Table.queue_pop? hp).2 s hr, (Table.granted_pop? hp s).1]
        exact ⟨due, kept, hq, hkept, hdue, fun lock hl => (hgranted lock hl).imp_right fun hc =>
          .inl (hc.resolve_right (by simp))⟩
  | prune r =>
    refine h.next (.prune r) (by simp) (t.queue_prune r) fun s l _ hor => ?_
    rw [t.locksOn_prune]
    exact hor.resolve_right nofun

/-- **A cascade that is worked off has not gone past** a quiet table that it led toward. -/
theorem run (h : Toward f t tasks) (hs : f.Sound) (hf : f.Quiet)
    (hfault : (Cascade.run t tasks).fault? = none) : Toward f (Cascade.run t tasks).table [] :=
  run_end (P := fun t left _ => Toward f t left) (fun h he => h.step hs hf he) h hfault

/-- **In tables that are ahead of each other** requests wait on the same terms, and the same locks
are granted. -/
theorem antisymm (h : Toward f t []) (h' : Toward t f []) (r : Resource) :
    (t.queue r).map Request.terms = (f.queue r).map Request.terms ∧
      ∀ lock, lock ∈ t.locksOn r ↔ lock ∈ f.locksOn r := by
  obtain ⟨due, kept, hq, hkept, -, hgranted⟩ := h.due r
  obtain ⟨due', kept', hq', hkept', -, hgranted'⟩ := h'.due r
  have hlen := congrArg List.length hq
  have hlen' := congrArg List.length hq'
  have hsame := congrArg List.length hkept
  have hsame' := congrArg List.length hkept'
  rw [List.length_append] at hlen hlen'
  rw [List.length_map, List.length_map] at hsame hsame'
  obtain rfl : due = [] := List.length_eq_zero_iff.1 (by omega)
  obtain rfl : due' = [] := List.length_eq_zero_iff.1 (by omega)
  refine ⟨hq ▸ hkept, fun lock => ⟨fun hl => ?_, fun hl => ?_⟩⟩
  · exact (hgranted' lock hl).resolve_right (by simp)
  · exact (hgranted lock hl).resolve_right (by simp)

end Toward

end Locking.Cascade
