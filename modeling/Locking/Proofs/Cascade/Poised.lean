import Locking.Proofs.Cascade.Invariant
import Locking.Proofs.Table.Changes

/-!
# Poised agendas

A lock is granted without looking at the locks of others. That is right as long as the grant is the
next task to be done, and what it asks for was looked at directly before.

* `Cascade.Poised`: the table is sound, and only the first task may grant a lock, one that agrees
  with those of others.
* `Poised.step`: every task leads from such an agenda to such an agenda, so every cascade keeps its
  table sound (`Poised.run`).
* `Poised.fault`: a task can meet a fault only if it releases a lock that is not held.
-/

namespace Locking.Cascade

variable {t t' : Table} {task : Task} {tasks rest new : List Task} {es : List Event} {f : Fault}

/-- Only the first task may grant a lock, and that lock agrees with those of others. -/
structure Poised (t : Table) (tasks : List Task) : Prop where
  sound : t.Sound
  head : ∀ {lock : Lock}, tasks.head? = some (.grant lock) → t.Admits lock
  tail : ∀ {lock : Lock}, .grant lock ∉ tasks.tail

namespace Poised

theorem of_not_grant (h : t.Sound) (hn : ∀ lock, .grant lock ∉ tasks) : Poised t tasks where
  sound := h
  head := fun hh => absurd (List.mem_of_mem_head? hh) (hn _)
  tail := fun hm => hn _ (List.mem_of_mem_tail hm)

/-- Where the first task has been done, tasks that grant nothing may come first. -/
theorem next (h : Poised t (task :: rest)) (hs : t'.Sound) (hn : ∀ lock, .grant lock ∉ new) :
    Poised t' (new ++ rest) := by
  refine of_not_grant hs fun lock hm => ?_
  rcases List.mem_append.1 hm with hm | hm
  · exact hn lock hm
  · exact h.tail hm

theorem not_grant_mem_serve_tail (r : Resource) (q : Request) (lock : Lock) :
    .grant lock ∉ (serve r q).tail := by
  simp [serve]

/-- **Every task leads from a poised agenda to a poised agenda.** -/
theorem step (h : Poised t (task :: rest)) (he : Effect t task t' es new) :
    Poised t' (new ++ rest) := by
  cases he with
  | grant hp => exact h.next (h.sound.of_put (h.head rfl) hp).1 (by simp)
  | release ht => exact h.next (h.sound.of_take ht).2.1 (by simp)
  | gone => exact h.next h.sound (by simp)
  | giveUp => exact h.next h.sound (by simp)
  | wake => exact h.next h.sound (by simp)
  | drained => exact h.next h.sound (by simp)
  | @serve r q _ hp =>
    -- the grant comes first, and the request was taken because its lock agrees
    constructor
    · exact h.sound.pop? hp
    · rintro lock ⟨⟩
      exact (h.sound.of_pop? hp).2
    · intro lock hm
      rcases List.mem_append.1 hm with hm | hm
      · exact not_grant_mem_serve_tail r q lock hm
      · exact h.tail hm
  | prune r => exact h.next (h.sound.prune r) (by simp)

/-- A task can meet a fault only if it releases a lock that is not held. -/
theorem fault (h : Poised t (task :: rest)) (hb : Breaks t task f) :
    ∃ lock, task = .release lock ∧ t.held? lock.owner lock.resource ≠ some lock ∧
      f = .notGranted lock := by
  cases hb with
  | @grant lock f hp =>
    obtain ⟨_, _, hp', -⟩ := h.sound.put (h.head rfl)
    rw [hp] at hp'
    cases hp'
  | @release lock f ht =>
    by_cases hh : t.held? lock.owner lock.resource = some lock
    · obtain ⟨_, ht', -⟩ := h.sound.take hh
      rw [ht] at ht'
      cases ht'
    · rw [h.sound.take_of_not_held hh] at ht
      cases ht
      exact ⟨lock, rfl, hh, rfl⟩
  | drain hp => exact absurd hp h.sound.pop?_ne_error

/-- **A cascade keeps its table sound**, wherever it ends. -/
theorem run (h : Poised t tasks) : (Cascade.run t tasks).table.Sound := by
  obtain ⟨left, hl⟩ := run_table (P := Poised) (fun hp he => hp.step he) h
  exact hl.sound

end Poised

end Locking.Cascade
