import Locking.Proofs.Cascade.Queues
import Locking.Proofs.Table.Agreement

/-!
# Cascades within a scope

A cascade may wander from queue to queue, but only where the requests in them lead. Where these stay
within a scope, so does the cascade: it does the same in every table that agrees on the scope, and
nothing that is seen outside of it.

* `Request.Within`, `Task.Within`: requests and tasks that stay within a scope.
* `Cascade.Confined`: an agenda that does, with all requests that it may come upon.
* `Confined.run_agrees`: two tables that agree on the scope are led to tables that agree on it, and
  the same happens in both.
* `Confined.run_outside`: what is not in the scope stays as it is, and nobody there is woken.
-/

namespace Locking

variable {σ τ : Scope}

/-- A request that stays within a scope, also in what it gives up. -/
structure Request.Within (σ : Scope) (q : Request) : Prop where
  resource : σ.resources q.lock.resource
  id : σ.ids q.txn.id
  key : σ.keys q.txn.key
  releases : ∀ lock ∈ q.releases, σ.resources lock.resource

namespace Cascade

variable {t t' u u' : Table} {task : Task} {tasks rest new : List Task} {es : List Event}

/-- A task that stays within a scope. -/
def Task.Within (σ : Scope) : Task → Prop
  | grant lock | release lock => σ.resources lock.resource ∧ σ.ids lock.owner
  | giveUp owner lock => σ.resources lock.resource ∧ σ.ids owner
  | wake q => σ.keys q.txn.key
  | drain r | prune r => σ.resources r

/-- An agenda that stays within a scope, with all requests that it may come upon. -/
structure Confined (σ : Scope) (t : Table) (tasks : List Task) : Prop extends Poised t tasks where
  tasks : ∀ task ∈ tasks, task.Within σ
  queues : ∀ {r : Resource}, σ.resources r → ∀ q ∈ t.queue r, q.Within σ

namespace Confined

/-- **Every task of a confined agenda gives rise to tasks within the scope only.** -/
theorem step (h : Confined σ t (task :: rest)) (he : Effect t task t' es new) :
    Confined σ t' (new ++ rest) where
  toPoised := h.toPoised.step he
  queues := fun {r} hr q hq => h.queues hr q (he.queue_eq h.sound r ▸ List.mem_append_right _ hq)
  tasks := fun a hm => by
    have hhead := h.tasks task List.mem_cons_self
    rcases List.mem_append.1 hm with hm | hm
    · cases he with
      | release ht =>
        rcases List.mem_pair.1 hm with rfl | rfl
        · exact hhead.1
        · exact hhead.1
      | giveUp hh =>
        obtain ⟨ho, hr, -⟩ := h.sound.of_held? hh
        rw [List.mem_singleton.1 hm]
        exact ⟨hr ▸ hhead.1, ho ▸ hhead.2⟩
      | @serve r q _ hp =>
        have hq : q.Within σ := h.queues hhead q ((Table.queue_pop? hp).1 ▸ List.mem_cons_self)
        rcases List.mem_append.1 hm with hm | hm
        · rcases List.mem_cons.1 hm with rfl | hm
          · exact ⟨hq.resource, (h.sound.of_pop? hp).1.owner ▸ hq.id⟩
          · obtain ⟨lock, hl, rfl⟩ := List.mem_map.1 hm
            exact ⟨hq.releases lock hl, hq.id⟩
        · rcases List.mem_pair.1 hm with rfl | rfl
          · exact hq.key
          · exact hhead
      | _ => cases hm
    · exact h.tasks a (List.mem_cons_of_mem task hm)

/-! ## Two tables -/

/-- **A task has the same effect in a table that agrees on the scope.** -/
theorem effect_agrees (h : Confined σ t (task :: rest)) (hu : u.Sound) (ha : t.AgreesOn σ u)
    (he : Effect t task t' es new) : ∃ u', Effect u task u' es new ∧ t'.AgreesOn σ u' := by
  have hwithin := h.tasks task List.mem_cons_self
  cases he with
  | @grant lock _ e hp =>
    obtain ⟨u', e', hp', -⟩ := hu.put (ha.admits_lock hwithin.1 (h.head rfl))
    have hsame : e = e' := by
      rw [h.sound.event_put hp, hu.event_put hp', ha.held? h.sound hu hwithin.1]
    exact ⟨u', hsame ▸ .grant hp', ha.put h.sound hu hp hp'⟩
  | @release lock _ ht =>
    have hheld := (h.sound.of_take ht).1
    rw [ha.held? h.sound hu hwithin.1] at hheld
    obtain ⟨u', ht', -⟩ := hu.take hheld
    exact ⟨u', .release ht', ha.take h.sound hu ht ht'⟩
  | gone hh =>
    rw [ha.held? h.sound hu hwithin.1] at hh
    exact ⟨u, .gone hh, ha⟩
  | giveUp hh =>
    rw [ha.held? h.sound hu hwithin.1] at hh
    exact ⟨u, .giveUp hh, ha⟩
  | wake q => exact ⟨u, .wake q, ha⟩
  | @drained r hp =>
    have hp' : u.pop? r = none := by
      rw [Table.pop?_eq_none_iff] at hp ⊢
      intro q rest hqueue
      rw [← ha.admits hwithin]
      exact hp q rest ((ha.queue hwithin).trans hqueue)
    exact ⟨u, .drained hp', ha⟩
  | serve hp =>
    obtain ⟨u', hp'⟩ := ha.exists_pop? hu hwithin hp
    exact ⟨u', .serve hp', ha.pop? hp hp'⟩
  | prune r => exact ⟨u.prune r, .prune r, ha.prune r⟩

/-- **What happens within a scope is the same in every table that agrees on it**, and leads to a table
that still agrees. -/
theorem run_agrees (h : Confined σ t tasks) (hu : Poised u tasks) (ha : t.AgreesOn σ u)
    (hf : (run t tasks).fault? = none) :
    (run u tasks).fault? = none ∧ (run u tasks).events = (run t tasks).events ∧
      (run t tasks).table.AgreesOn σ (run u tasks).table := by
  fun_induction run t tasks generalizing u with
  | case1 t => exact ⟨by simp, by simp, by simpa using ha⟩
  | case2 t task rest f hnext => cases hf
  | case3 t task rest new hnext out =>
    rename_i ih
    have he := effect_of_next hnext
    obtain ⟨u', he', ha'⟩ := h.effect_agrees hu.sound ha he
    obtain ⟨hfault, hevents, hagrees⟩ := ih (h.step he) (hu.step he') ha' hf
    rw [run_of_effect he']
    exact ⟨hfault, congrArg ((Cascade.step t task).events ++ ·) hevents, hagrees⟩

/-! ## What is not in the scope -/

/-- A task changes nothing in another scope, and wakes only transactions of its own. -/
theorem effect_outside (h : Confined σ t (task :: rest)) (hd : σ.Apart τ)
    (he : Effect t task t' es new) :
    t'.AgreesOn τ t ∧ ∀ q ∈ woken es, σ.keys q.txn.key := by
  have hwithin := h.tasks task List.mem_cons_self
  cases he with
  | grant hp =>
    refine ⟨h.sound.agrees_of_put hp (hd.resources hwithin.1) (hd.ids hwithin.2), ?_⟩
    rcases Table.event_of_put hp with rfl | ⟨before, rfl⟩ <;> simp [woken, Event.woken?]
  | release ht =>
    exact ⟨h.sound.agrees_of_take ht (hd.resources hwithin.1) (hd.ids hwithin.2),
      by simp [woken, Event.woken?]⟩
  | serve hp =>
    exact ⟨Table.agrees_of_pop? hp (hd.resources hwithin), by simp [woken, Event.woken?]⟩
  | prune r => exact ⟨t.agrees_of_prune r, by simp⟩
  | wake q =>
    refine ⟨.refl τ t, fun p hp => ?_⟩
    rw [List.mem_singleton.1 hp]
    exact hwithin
  | gone hh => exact ⟨.refl τ t, by simp [woken, Event.woken?]⟩
  | _ => exact ⟨.refl τ t, by simp⟩

/-- **A confined cascade changes nothing outside of its scope**, and wakes nobody there. -/
theorem run_outside (h : Confined σ t tasks) (hd : σ.Apart τ)
    (hf : (run t tasks).fault? = none) :
    (run t tasks).table.AgreesOn τ t ∧ ∀ q ∈ woken (run t tasks).events, σ.keys q.txn.key := by
  have hstep : ∀ {u task rest es u' es' new},
      (Confined σ u (task :: rest) ∧ u.AgreesOn τ t ∧ ∀ q ∈ woken es, σ.keys q.txn.key) →
      Effect u task u' es' new →
      Confined σ u' (new ++ rest) ∧ u'.AgreesOn τ t ∧
        ∀ q ∈ woken (es ++ es'), σ.keys q.txn.key := by
    rintro u task rest es u' es' new ⟨hc, ha, hw⟩ he
    obtain ⟨hagrees, hwoken⟩ := hc.effect_outside hd he
    refine ⟨hc.step he, hagrees.trans ha, fun q hm => ?_⟩
    rw [woken_append] at hm
    exact (List.mem_append.1 hm).elim (hw q) (hwoken q)
  exact (run_end (P := fun u left es => Confined σ u left ∧ u.AgreesOn τ t ∧
    ∀ q ∈ woken es, σ.keys q.txn.key) hstep ⟨h, .refl τ t, by simp⟩ hf).2

end Confined

end Cascade

end Locking
