import Locking.Map.Total
import Locking.Table.Basic

/-!
# Sums over the waiting requests, and the load of a table

A weight of requests is summed up over all queues of a table. Granting, updating and releasing locks
leave such a sum alone; adding a request to a queue raises it, and taking one from a queue lowers
it, by the weight of that request.

* `queuedSum_put`, `queuedSum_take`, `queuedSum_prune`: the queues are not touched.
* `queuedSum_enqueue`, `queuedSum_pop?`: one request comes, or goes.
* `Table.load`: how much work the queues can still give rise to; only `load_pop?` lowers it.
-/

namespace Locking

open Std Map

/-- The work that a waiting request brings: its lock, each lock it gives up, its wake-up, and the
rest of its queue. -/
def Request.work (q : Request) : Nat := 4 * q.releases.length + 3

/-- The work of all requests that wait in an entry. -/
def Entry.load (e : Entry) : Nat := sumOf Request.work e.queue

namespace Table

/-- The sum of a weight over all requests that wait. -/
def queuedSum (w : Request → Nat) (t : Table) : Nat :=
  total (fun e => sumOf w e.queue) t.entries

/-- The work of all requests that wait. -/
def load (t : Table) : Nat := total Entry.load t.entries

/-- Writing an entry exchanges the weight of what stood there, if an idle entry weighs nothing. -/
theorem total_setEntry {w : Entry → Nat} (h0 : w {} = 0) (t : Table) (r : Resource) (e : Entry) :
    total w (t.setEntry r e).entries + w (t.entry r) = total w t.entries + w e := by
  have hw : weigh w t.entries[r]? = w (t.entry r) := by
    rw [entry, ExtTreeMap.getD_eq_getD_getElem?]
    cases t.entries[r]? with
    | none => exact h0.symm
    | some e => rfl
  rw [← hw]
  exact total_insert w t.entries r e

/-- Dropping an idle entry takes nothing away, if an entry without locks and requests weighs
nothing. -/
theorem total_prune {w : Entry → Nat} (hw : ∀ e : Entry, e.granted = ∅ → e.queue = [] → w e = 0)
    (t : Table) (r : Resource) : total w (t.prune r).entries = total w t.entries := by
  unfold prune
  split
  · rename_i hi
    have he : weigh w t.entries[r]? = 0 := by
      cases hc : t.entries[r]? with
      | none => rfl
      | some e =>
        simp only [hc, Option.any_some, Entry.isIdle, Bool.and_eq_true,
          ExtTreeMap.isEmpty_iff, List.isEmpty_iff] at hi
        exact hw e hi.1 hi.2
    have := total_erase w t.entries r
    dsimp only
    omega
  · rfl

variable (w : Request → Nat) {t t' : Table}

theorem queuedSum_setEntry (t : Table) (r : Resource) (e : Entry) :
    (t.setEntry r e).queuedSum w + sumOf w (t.entry r).queue =
      t.queuedSum w + sumOf w e.queue :=
  total_setEntry (w := fun e => sumOf w e.queue) rfl t r e

theorem queuedSum_setEntry_of_queue {r : Resource} {e : Entry}
    (h : e.queue = (t.entry r).queue) : (t.setEntry r e).queuedSum w = t.queuedSum w := by
  have := t.queuedSum_setEntry w r e
  rw [h] at this
  omega

theorem queuedSum_put {lock : Lock} {ev : Event} (h : t.put lock = .ok (t', ev)) :
    t'.queuedSum w = t.queuedSum w := by
  unfold put at h
  split at h
  · rename_i hr
    split at h
    · cases h
    · cases h
      exact queuedSum_setEntry_of_queue w (Entry.queue_retype hr)
  · split at h
    · cases h
    · rename_i ha
      cases h
      exact queuedSum_setEntry_of_queue w (Entry.queue_add ha)

theorem queuedSum_take {lock : Lock} (h : t.take lock = .ok t') :
    t'.queuedSum w = t.queuedSum w := by
  unfold take at h
  split at h
  · cases h
  · rename_i hr
    split at h
    · cases h
    · split at h
      · cases h
      · split at h
        · cases h
        · cases h
          exact queuedSum_setEntry_of_queue w (Entry.queue_remove hr)

theorem queuedSum_pop? {r : Resource} {q : Request} (h : t.pop? r = some (.ok (q, t'))) :
    t'.queuedSum w + w q = t.queuedSum w := by
  unfold pop? at h
  split at h
  · cases h
  · rename_i q' e he
    split at h
    · cases h
    · cases h
      have hs := t.queuedSum_setEntry w r e
      rw [(Entry.pop?_eq_some_iff.1 he).1, sumOf_cons] at hs
      change (t.setEntry r e).queuedSum w + w q = t.queuedSum w
      omega

theorem queuedSum_enqueue (t : Table) (q : Request) (place : Place) :
    (t.enqueue q place).queuedSum w = t.queuedSum w + w q := by
  have hs := t.queuedSum_setEntry w q.lock.resource ((t.entry q.lock.resource).push q place)
  have hp : sumOf w ((t.entry q.lock.resource).push q place).queue =
      sumOf w (t.entry q.lock.resource).queue + w q := by
    cases place with
    | front => simp [Nat.add_comm]
    | back => simp
  change (t.setEntry q.lock.resource _).queuedSum w = _
  omega

theorem queuedSum_prune (t : Table) (r : Resource) : (t.prune r).queuedSum w = t.queuedSum w :=
  total_prune (fun e _ hq => by simp [hq]) t r

theorem load_put {lock : Lock} {ev : Event} (h : t.put lock = .ok (t', ev)) :
    t'.load = t.load :=
  queuedSum_put Request.work h

theorem load_take {lock : Lock} (h : t.take lock = .ok t') : t'.load = t.load :=
  queuedSum_take Request.work h

theorem load_pop? {r : Resource} {q : Request} (h : t.pop? r = some (.ok (q, t'))) :
    t'.load + q.work = t.load :=
  queuedSum_pop? Request.work h

theorem load_prune (t : Table) (r : Resource) : (t.prune r).load = t.load :=
  queuedSum_prune Request.work t r

end Table

end Locking
