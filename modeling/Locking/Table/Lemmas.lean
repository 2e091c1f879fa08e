import Locking.Table.Basic

/-!
# What a change of a table leaves alone

The entry of a resource and the slots of a transaction after each change.

* `entry_setEntry`, `slots_setSlots`: a write is read back, and nothing else changes.
* `queue_put`, `queue_take`: granting and releasing leave the queues alone.
* `queue_enqueue`, `queue_pop?`: a request is added to one queue, or taken from it.
* `locksOn_prune`, `queue_prune`: dropping an idle entry cannot be seen.
* `put_touch`, `enqueue_touch`: making an entry beforehand makes no difference.
-/

namespace Locking.Table

open Std

@[simp] theorem entry_setEntry (t : Table) (r s : Resource) (e : Entry) :
    (t.setEntry r e).entry s = if r = s then e else t.entry s := by
  simp [setEntry, entry, ExtTreeMap.getD_insert]

@[simp] theorem slots_setEntry (t : Table) (r : Resource) (e : Entry) (txn : TxnId) :
    (t.setEntry r e).slots txn = t.slots txn := rfl

@[simp] theorem entry_setSlots (t : Table) (txn : TxnId) (slots : ExtTreeMap Nat Lock)
    (r : Resource) : (t.setSlots txn slots).entry r = t.entry r := rfl

@[simp] theorem slots_setSlots (t : Table) (txn other : TxnId) (slots : ExtTreeMap Nat Lock) :
    (t.setSlots txn slots).slots other = if txn = other then slots else t.slots other := by
  unfold setSlots Table.slots
  cases h : slots.isEmpty with
  | true =>
    have : slots = ∅ := ExtTreeMap.isEmpty_iff.1 h
    simp [this, ExtTreeMap.getD_erase]
  | false => simp [ExtTreeMap.getD_insert]

theorem setEntry_setEntry (t : Table) (r : Resource) (e e' : Entry) :
    (t.setEntry r e).setEntry r e' = t.setEntry r e' := by
  have he : (t.entries.insert r e).insert r e' = t.entries.insert r e' := by
    refine ExtTreeMap.ext_getElem? fun s => ?_
    simp only [ExtTreeMap.getElem?_insert]
    split <;> rfl
  simp only [setEntry, he]

@[simp] theorem entry_touch (t : Table) (r s : Resource) : (t.touch r).entry s = t.entry s := by
  rw [touch, entry_setEntry]
  split
  · rename_i h
    rw [h]
  · rfl

@[simp] theorem setEntry_touch (t : Table) (r : Resource) (e : Entry) :
    (t.touch r).setEntry r e = t.setEntry r e :=
  t.setEntry_setEntry r _ e

/-- Where a lock is granted, an entry is made in any case. -/
theorem put_touch (t : Table) (lock : Lock) : (t.touch lock.resource).put lock = t.put lock := by
  have hslots : (t.touch lock.resource).slots lock.owner = t.slots lock.owner := rfl
  have hnext : (t.touch lock.resource).nextSlot = t.nextSlot := rfl
  have hcount : (t.touch lock.resource).grantedCount = t.grantedCount := rfl
  simp only [put, entry_touch, setEntry_touch, hslots, hnext, hcount]

/-- Where a request is queued, an entry is made in any case. -/
theorem enqueue_touch (t : Table) (q : Request) (place : Place) :
    (t.touch q.lock.resource).enqueue q place = t.enqueue q place := by
  have hcount : (t.touch q.lock.resource).waitingCount = t.waitingCount := rfl
  simp only [enqueue, entry_touch, setEntry_touch, hcount]

theorem queue_enqueue (t : Table) (q : Request) (place : Place) (r : Resource) :
    (t.enqueue q place).queue r =
      if q.lock.resource = r then ((t.entry r).push q place).queue else t.queue r := by
  unfold enqueue queue
  change ((t.setEntry _ _).entry r).queue = _
  rw [entry_setEntry]
  split
  · rename_i h
    rw [h]
  · rfl

/-- What waits after a request has been added waited before, or is this request. -/
theorem eq_or_mem_of_mem_enqueue {t : Table} {q p : Request} {place : Place} {r : Resource}
    (h : p ∈ (t.enqueue q place).queue r) : p = q ∨ p ∈ t.queue r := by
  rw [queue_enqueue] at h
  split at h
  · rename_i hr
    subst hr
    cases place with
    | front => exact List.mem_cons.1 h
    | back => exact (List.mem_append.1 h).symm.imp_left List.mem_singleton.1
  · exact .inr h

theorem locksOn_enqueue (t : Table) (q : Request) (place : Place) (r : Resource) :
    (t.enqueue q place).locksOn r = t.locksOn r := by
  unfold enqueue locksOn
  change ((t.setEntry _ _).entry r).locks = _
  rw [entry_setEntry]
  split
  · rename_i h
    rw [← h]
    cases place <;> rfl
  · rfl

/-- Dropping an idle entry replaces it by a new one, which is idle as well. -/
theorem entry_prune (t : Table) (r s : Resource) :
    (t.prune r).entry s = if r = s ∧ t.entries[r]?.any Entry.isIdle then {} else t.entry s := by
  unfold prune
  split
  · rename_i h
    by_cases hs : r = s <;> simp_all [entry, ExtTreeMap.getD_erase]
  · rename_i h
    rw [if_neg fun hc => h hc.2]

/-- An entry that is there and idle has neither locks nor requests. -/
theorem idle_of_any {t : Table} {r : Resource} (h : t.entries[r]?.any Entry.isIdle) :
    (t.entry r).granted = ∅ ∧ (t.entry r).queue = [] := by
  rw [entry, ExtTreeMap.getD_eq_getD_getElem?]
  cases he : t.entries[r]? with
  | none => simp [he] at h
  | some e => simpa [he, Entry.isIdle] using h

theorem locksOn_prune (t : Table) (r s : Resource) : (t.prune r).locksOn s = t.locksOn s := by
  unfold locksOn
  rw [entry_prune]
  split
  · rename_i h
    rw [← h.1, Entry.locks, Entry.locks, (idle_of_any h.2).1]
  · rfl

theorem queue_prune (t : Table) (r s : Resource) : (t.prune r).queue s = t.queue s := by
  unfold queue
  rw [entry_prune]
  split
  · rename_i h
    rw [← h.1, (idle_of_any h.2).2]
  · rfl

variable {t t' : Table} {r : Resource} {lock : Lock}

theorem queue_setEntry_of_queue {e : Entry} (h : e.queue = (t.entry r).queue) (s : Resource) :
    (t.setEntry r e).queue s = t.queue s := by
  unfold queue
  rw [entry_setEntry]
  split
  · rename_i hs
    rw [h, hs]
  · rfl

theorem event_of_put {ev : Event} (hp : t.put lock = .ok (t', ev)) :
    ev = .granted lock ∨ ∃ before, ev = .updated lock before := by
  unfold put at hp
  split at hp
  · split at hp
    · cases hp
    · cases hp
      exact .inr ⟨_, rfl⟩
  · split at hp
    · cases hp
    · cases hp
      exact .inl rfl

theorem queue_put {ev : Event} (hp : t.put lock = .ok (t', ev)) (s : Resource) :
    t'.queue s = t.queue s := by
  unfold put at hp
  split at hp
  · rename_i hr
    split at hp
    · cases hp
    · cases hp
      exact queue_setEntry_of_queue (Entry.queue_retype hr) s
  · split at hp
    · cases hp
    · rename_i ha
      cases hp
      exact queue_setEntry_of_queue (Entry.queue_add ha) s

theorem queue_take (ht : t.take lock = .ok t') (s : Resource) : t'.queue s = t.queue s := by
  unfold take at ht
  split at ht
  · cases ht
  · rename_i hr
    split at ht
    · cases ht
    · split at ht
      · cases ht
      · split at ht
        · cases ht
        · cases ht
          exact queue_setEntry_of_queue (Entry.queue_remove hr) s

/-- Adding a request takes no lock from anybody. -/
theorem held?_enqueue (t : Table) (q : Request) (place : Place) (txn : TxnId) (r : Resource) :
    (t.enqueue q place).held? txn r = t.held? txn r := by
  unfold enqueue held?
  change ((t.setEntry _ _).entry r).held? txn = _
  rw [entry_setEntry]
  split
  · rename_i h
    rw [← h]
    cases place <;> rfl
  · rfl

/-- The head of a queue stays if it does not agree with the locks of others. -/
theorem pop?_eq_none_iff :
    t.pop? r = none ↔
      ∀ q rest, t.queue r = q :: rest → ¬ (t.entry r).admits q.lock.mode q.lock.owner := by
  unfold pop? Entry.pop?
  cases hq : (t.entry r).queue with
  | nil => simp [queue, hq]
  | cons q rest =>
    by_cases ha : (t.entry r).admits q.lock.mode q.lock.owner
    · by_cases h0 : t.waitingCount = 0 <;> simp [queue, hq, ha, h0]
    · simp [queue, hq, ha]

theorem pop?_eq_ok_iff {q : Request} :
    t.pop? r = some (.ok (q, t')) ↔ ∃ rest, t.queue r = q :: rest ∧
      (t.entry r).admits q.lock.mode q.lock.owner ∧ t.waitingCount ≠ 0 ∧
        t' = { t.setEntry r { t.entry r with queue := rest } with
          waitingCount := t.waitingCount - 1 } := by
  unfold pop?
  constructor
  · intro hp
    split at hp
    · cases hp
    · rename_i q' e he
      obtain ⟨hq, ha, hee⟩ := Entry.pop?_eq_some_iff.1 he
      split at hp
      · cases hp
      · rename_i h0
        cases hp
        exact ⟨e.queue, hq, ha, h0, by rw [← hee]⟩
  · rintro ⟨rest, hq, ha, h0, rfl⟩
    have he : (t.entry r).pop? = some (q, { t.entry r with queue := rest }) :=
      Entry.pop?_eq_some_iff.2 ⟨hq, ha, rfl⟩
    simp only [he, h0, if_false]

theorem queue_pop? {q : Request} (hp : t.pop? r = some (.ok (q, t'))) :
    t.queue r = q :: t'.queue r ∧ ∀ s, r ≠ s → t'.queue s = t.queue s := by
  obtain ⟨rest, hq, -, -, rfl⟩ := pop?_eq_ok_iff.1 hp
  have hentry : ∀ s, ({ t.setEntry r { t.entry r with queue := rest } with
      waitingCount := t.waitingCount - 1 } : Table).entry s =
        if r = s then { t.entry r with queue := rest } else t.entry s :=
    fun s => t.entry_setEntry r s _
  refine ⟨?_, fun s hs => ?_⟩
  · rw [hq]
    unfold queue
    rw [hentry, if_pos rfl]
  · unfold queue
    rw [hentry, if_neg hs]

/-- Taking a request from its queue leaves the granted locks alone. -/
theorem granted_pop? {q : Request} (hp : t.pop? r = some (.ok (q, t'))) (s : Resource) :
    t'.locksOn s = t.locksOn s ∧ ∀ txn, t'.held? txn s = t.held? txn s := by
  obtain ⟨rest, hq, -, -, rfl⟩ := pop?_eq_ok_iff.1 hp
  have hentry : ({ t.setEntry r { t.entry r with queue := rest } with
      waitingCount := t.waitingCount - 1 } : Table).entry s =
        if r = s then { t.entry r with queue := rest } else t.entry s :=
    t.entry_setEntry r s _
  unfold locksOn held?
  rw [hentry]
  split
  · rename_i hs
    rw [← hs]
    exact ⟨rfl, fun txn => rfl⟩
  · exact ⟨rfl, fun txn => rfl⟩

end Locking.Table
