import Locking.Proofs.Cascade.Loose

/-!
# Releases one after the other

Locks are released one after the other, each with the cascade that it sets off. In which order makes
no difference, as long as the owners of the locks do not wait.

* `Table.Alike`: no query tells two tables apart, and the very same requests wait in them.
* `Table.releaseAll`, `Table.Releasable`: locks are released one after the other, and which locks
  may be released in any order.
* `Releasable.loose`: their releases are an agenda on which the order makes no difference.
* `Releasable.perm_all`: all orders lead to tables that are alike, and wake the same transactions.
-/

namespace Locking

open Cascade

/-- No query tells two tables apart. The slots of locks may be others. -/
structure Table.Alike (t u : Table) : Prop where
  locksOn : ∀ r, t.locksOn r = u.locksOn r
  locksOf : ∀ txn, t.locksOf txn = u.locksOf txn
  locksBelow : ∀ txn r, t.locksBelow txn r = u.locksBelow txn r
  mode : ∀ txn r, t.mode txn r = u.mode txn r
  queue : ∀ r, t.queue r = u.queue r
  waiting : ∀ r, t.waiting r = u.waiting r

namespace Table

variable {t u : Table} {locks others : List Lock}

/-- Tables that no query tells apart are alike, if the same requests wait in them. -/
theorem Akin.alike (h : t.Akin u) (ht : t.Sound) (hu : u.Sound)
    (hqueue : ∀ r, t.queue r = u.queue r) : t.Alike u where
  locksOn := h.locksOn
  locksOf := h.locksOf
  locksBelow := h.locksBelow
  mode := h.mode ht hu
  queue := hqueue
  waiting := h.waiting

/-- Locks are released one after the other, each with the cascade that it sets off. -/
def releaseAll (t : Table) (locks : List Lock) : Outcome := run t (locks.map .release)

/-- Locks that may be released in any order: they are held, and none of their owners waits. -/
structure Releasable (t : Table) (locks : List Lock) : Prop extends Sound t where
  held : ∀ lock ∈ locks, t.held? lock.owner lock.resource = some lock
  nodup : locks.Nodup
  idle : ∀ lock ∈ locks, t.queuedSum (Request.isOf lock.owner) = 0
  one : ∀ txn, t.queuedSum (Request.isOf txn) ≤ 1

namespace Releasable

theorem perm (h : t.Releasable locks) (hp : others.Perm locks) : t.Releasable others where
  toSound := h.toSound
  held := fun lock hm => h.held lock (hp.subset hm)
  nodup := hp.nodup_iff.2 h.nodup
  idle := fun lock hm => h.idle lock (hp.subset hm)
  one := h.one

theorem clear (h : t.Releasable locks) : Clear t (locks.map .release) where
  toPoised := .of_not_grant h.toSound (by simp)
  one := h.one
  idle := by
    intro task hm txn ho
    obtain ⟨lock, hl, rfl⟩ := List.mem_map.1 hm
    cases ho
    exact h.idle lock hl

theorem kept (h : t.Releasable locks) : Kept t (locks.map .release) where
  toPoised := h.clear.toPoised
  held := fun {lock} hm => by
    obtain ⟨l, hl, he⟩ := List.mem_map.1 hm
    cases he
    exact h.held lock hl
  apart := by
    refine List.pairwise_map.2 (h.nodup.imp_of_mem fun {a b} ha hb hne lock hlock hc => hne ?_)
    cases hlock
    -- what one transaction holds on one resource is one lock
    have hheld := h.held a ha
    rw [hc.1, hc.2, h.held b hb] at hheld
    exact (Option.some.inj hheld).symm
  free := fun {lock} hm _ _ hq => by
    obtain ⟨l, hl, he⟩ := List.mem_map.1 (List.mem_of_mem_tail hm)
    cases he
    exact ne_of_queuedSum_eq_zero (h.idle lock hl) hq

theorem fault?_all (h : t.Releasable locks) : (t.releaseAll locks).fault? = none := h.kept.run.1

/-- **In which order these locks are released makes no difference.** -/
theorem loose (h : t.Releasable locks) (hq : t.Quiet) : Loose t (locks.map .release) :=
  { h.clear, h.kept, Watched.of_quiet h.clear.toPoised hq (by simp) with
    plain := by
      intro task hm
      obtain ⟨lock, -, rfl⟩ := List.mem_map.1 hm
      trivial }

/-- **In whatever order locks are released, no query tells where it has led**, and the same requests
have been woken, each as often. -/
theorem perm_all (h : t.Releasable locks) (hq : t.Quiet) (hp : others.Perm locks) :
    (t.releaseAll others).table.Alike (t.releaseAll locks).table ∧
      (woken (t.releaseAll others).events).Perm (woken (t.releaseAll locks).events) := by
  have hl : Loose t (locks.map .release) := h.loose hq
  have hl' : Loose t (others.map .release) := (h.perm hp).loose hq
  obtain ⟨hakin, -⟩ := hl'.akin_run hl (.refl t) fun lock => (hp.map Task.release).mem_iff
  -- what is left of a queue is as long in both, so it is the same, and so is what was taken
  have hsplit : ∀ r, _ := fun r =>
    List.append_inj' ((hl'.toPoised.queue_run r).symm.trans (hl.toPoised.queue_run r))
      (hakin.length_queue r)
  refine ⟨hakin.alike hl'.sound_run hl.sound_run fun r => (hsplit r).2, ?_⟩
  have htaken : (taken (t.releaseAll others).events).Perm (taken (t.releaseAll locks).events) := by
    have hperm := perm_map_of_takenFrom id (·.lock.resource) (fun _ => rfl) fun r =>
      congrArg (List.map id) (hsplit r).1
    rwa [List.map_id, List.map_id] at hperm
  exact hl'.woken_perm.trans (htaken.trans hl.woken_perm.symm)

end Releasable

end Table

end Locking
