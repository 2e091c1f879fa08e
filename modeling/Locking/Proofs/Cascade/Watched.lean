import Locking.Proofs.Cascade.Poised

/-!
# Watched agendas

In the middle of a cascade a request at the head of its queue may well be ready to be granted. Then
a task that drains this queue is still on the agenda, so no such request is left at the end.

* `Table.Quiet`: no request at the head of a queue can be granted.
* `Cascade.Watched`: every queue that can be drained further has a task on the agenda that does so.
* `Watched.step`: every task leads from such an agenda to such an agenda.
* `Watched.run`: an agenda that is worked off leaves a quiet table.
-/

namespace Locking

variable {t t' : Table} {r : Resource}

/-- No request at the head of a queue can be granted. -/
def Table.Quiet (t : Table) : Prop := ∀ r, t.pop? r = none

/-- Whether a queue can be drained depends on the queue and on the locks granted there. -/
theorem Table.pop?_eq_none_of_locksOn (hp : t.pop? r = none) (hq : t'.queue r = t.queue r)
    (hl : ∀ lock ∈ t.locksOn r, lock ∈ t'.locksOn r) : t'.pop? r = none := by
  rw [pop?_eq_none_iff] at hp ⊢
  intro q rest hhead
  rw [hq] at hhead
  refine mt (fun ha => ?_) (hp q rest hhead)
  rw [admits_iff] at ha ⊢
  exact fun lock hm => ha lock (hl lock hm)

/-- A lock that covers the one it replaces lets no request through that had to wait before. -/
theorem Table.Sound.pop?_eq_none_of_covers (h : t.Sound) (h' : t'.Sound) {lock : Lock}
    (hp : t.pop? r = none) (hq : t'.queue r = t.queue r)
    (hheld : ∀ txn s, t'.held? txn s =
      if lock.owner = txn ∧ lock.resource = s then some lock else t.held? txn s)
    (hc : ∀ held, t.held? lock.owner lock.resource = some held → lock.mode.covers held.mode) :
    t'.pop? r = none := by
  rw [pop?_eq_none_iff] at hp ⊢
  intro q rest hhead
  rw [hq] at hhead
  refine mt (fun ha => ?_) (hp q rest hhead)
  rw [admits_iff] at ha ⊢
  intro held hm hne
  rw [h.mem_locksOn_iff] at hm
  by_cases hown : lock.owner = held.owner ∧ lock.resource = r
  · -- what replaces this lock agrees with the request, so this lock did as well
    have hnew := hheld held.owner r
    rw [if_pos hown] at hnew
    have hm' : lock ∈ t'.locksOn r := h'.mem_locksOn_iff.2 (hown.1 ▸ hnew)
    have hcov := hc held (by rw [hown.1, hown.2]; exact hm)
    rw [Mode.compatible_comm]
    refine Mode.compatible_of_covers hcov ?_
    rw [Mode.compatible_comm]
    exact ha lock hm' (hown.1 ▸ hne)
  · have hold := hheld held.owner r
    rw [if_neg hown, hm] at hold
    exact ha held (h'.mem_locksOn_iff.2 hold) hne

namespace Cascade

variable {task : Task} {tasks rest new : List Task} {es : List Event}

/-- Every queue that can be drained further has its task. The first task may grant a weaker lock for
a stronger one only if the queue of its resource is drained later. -/
structure Watched (t : Table) (tasks : List Task) : Prop extends Poised t tasks where
  drained : ∀ {r : Resource}, t.pop? r ≠ none → .drain r ∈ tasks
  covers : ∀ {lock held : Lock}, tasks.head? = some (.grant lock) →
    t.held? lock.owner lock.resource = some held →
    lock.mode.covers held.mode ∨ .drain lock.resource ∈ tasks

namespace Watched

/-- A table in which nothing can be drained is watched by every agenda that grants nothing weaker
than what is held. -/
theorem of_quiet (h : Poised t tasks) (hq : t.Quiet)
    (hc : ∀ {lock held : Lock}, tasks.head? = some (.grant lock) →
      t.held? lock.owner lock.resource = some held →
      lock.mode.covers held.mode ∨ .drain lock.resource ∈ tasks) : Watched t tasks where
  toPoised := h
  drained := fun hp => absurd (hq _) hp
  covers := hc

/-- Where the first task has been done, what remains need only watch the queues. -/
theorem next (h : Watched t (task :: rest)) (he : Effect t task t' es new)
    (hn : ∀ lock, .grant lock ∉ new)
    (hd : ∀ {r : Resource}, t'.pop? r ≠ none → .drain r ∈ new ++ rest) :
    Watched t' (new ++ rest) where
  toPoised := h.step he
  drained := hd
  covers := fun hh => by
    rcases List.mem_append.1 (List.mem_of_mem_head? hh) with hm | hm
    · exact absurd hm (hn _)
    · exact absurd hm h.tail

/-- A task other than a drain of `r` leaves the drain of `r` on the agenda. -/
theorem mem_rest (h : Watched t (task :: rest)) (hp : t.pop? r ≠ none) (hne : task ≠ .drain r) :
    .drain r ∈ rest :=
  (List.mem_cons.1 (h.drained hp)).resolve_left (Ne.symm hne)

/-- **Every task leads from a watched agenda to a watched agenda.** -/
theorem step (h : Watched t (task :: rest)) (he : Effect t task t' es new) :
    Watched t' (new ++ rest) := by
  cases he with
  | @grant lock _ e hp =>
    refine h.next (.grant hp) (by simp) fun {r} hr => ?_
    obtain ⟨hs', hheld⟩ := h.sound.of_put (h.head rfl) hp
    by_contra hn
    have hnone : t.pop? r = none := by
      by_contra hc
      exact hn (h.mem_rest hc (by simp))
    by_cases hres : lock.resource = r
    · refine hr (h.sound.pop?_eq_none_of_covers hs' hnone (Table.queue_put hp r) hheld ?_)
      intro held hh
      rcases h.covers rfl hh with hc | hd
      · exact hc
      · refine absurd ?_ hn
        simpa [hres] using hd
    · refine hr (Table.pop?_eq_none_of_locksOn hnone (Table.queue_put hp r) fun l hl => ?_)
      rw [hs'.mem_locksOn_iff, hheld, if_neg fun hc => hres hc.2]
      exact h.sound.mem_locksOn_iff.1 hl
  | @release lock _ ht =>
    refine h.next (.release ht) (by simp) fun {r} hr => ?_
    obtain ⟨-, hs', hheld⟩ := h.sound.of_take ht
    by_cases hres : lock.resource = r
    · simp [hres]
    · refine List.mem_append_right _ (h.mem_rest (fun hnone => hr ?_) (by simp))
      refine Table.pop?_eq_none_of_locksOn hnone (Table.queue_take ht r) fun l hl => ?_
      rw [hs'.mem_locksOn_iff, hheld, if_neg fun hc => hres hc.2]
      exact h.sound.mem_locksOn_iff.1 hl
  | gone hh => exact h.next (.gone hh) (by simp) fun hr => h.mem_rest hr (by simp)
  | giveUp hh =>
    exact h.next (.giveUp hh) (by simp) fun hr => List.mem_append_right _ (h.mem_rest hr (by simp))
  | wake q => exact h.next (.wake q) (by simp) fun hr => h.mem_rest hr (by simp)
  | @drained r hp =>
    refine h.next (.drained hp) (by simp) fun {s} hs => h.mem_rest hs ?_
    rintro ⟨⟩
    exact hs hp
  | @serve r q _ hp =>
    obtain ⟨hproper, -⟩ := h.sound.of_pop? hp
    have hdrain : .drain r ∈ serve r q ++ rest := by simp [serve]
    refine ⟨h.toPoised.step (.serve hp), fun {s} hs => ?_, ?_⟩
    · by_cases hres : r = s
      · exact hres ▸ hdrain
      · refine List.mem_append_right _ (h.mem_rest (fun hnone => hs ?_) ?_)
        · refine Table.pop?_eq_none_of_locksOn hnone ((Table.queue_pop? hp).2 s hres) fun l hl => ?_
          rwa [(Table.granted_pop? hp s).1]
        · rintro ⟨⟩
          exact hres rfl
    · rintro lock held ⟨⟩ -
      exact .inr (hproper.resource ▸ hdrain)
  | prune r =>
    refine h.next (.prune r) (by simp) fun {s} hs => h.mem_rest (fun hnone => hs ?_) (by simp)
    refine Table.pop?_eq_none_of_locksOn hnone (t.queue_prune r s) fun l hl => ?_
    rwa [t.locksOn_prune]

/-- **An agenda that is worked off leaves a quiet table.** -/
theorem run (h : Watched t tasks) (hf : (Cascade.run t tasks).fault? = none) :
    (Cascade.run t tasks).table.Quiet := by
  have hw : Watched _ [] := run_end (P := fun t tasks _ => Watched t tasks) step h hf
  intro r
  by_contra hp
  cases hw.drained hp

end Watched

end Cascade

end Locking
