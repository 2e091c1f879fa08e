import Locking.Proofs.Entry
import Locking.Table.Audit
import Locking.Table.Lemmas
import Locking.Table.Load

/-!
# Sound tables

A table is coherent if every entry is, the index lists the same locks under the same slots, and the
counts are right. It is sound if moreover every lock and every request is a real one, requests wait
where they belong, and slots from `nextSlot` on are free.

* `Table.Coherent`, `Table.Sound`: the properties.
* `Sound.of_held?`, `Sound.mem_locksOn_iff`: what is held, and by whom, is told by `held?` alone.
* `Sound.write`: an entry and the slots of an owner may be written together.
-/

namespace Locking

open Std Map

/-- A request that may wait for `r`: it asks for a real lock on `r`, for its own transaction. -/
structure Request.Proper (q : Request) (r : Resource) : Prop where
  resource : q.lock.resource = r
  owner : q.lock.owner = q.txn.id
  real : q.lock.mode ≠ .nl

namespace Table

/-- Entries, index and counts of a table agree. -/
structure Coherent (t : Table) : Prop where
  entry : ∀ r, (t.entry r).Coherent r
  /-- The index lists the granted locks, by owner, under their slots. -/
  slots : ∀ {txn : TxnId} {slot : Nat} {lock : Lock}, (t.slots txn)[slot]? = some lock ↔
    lock.owner = txn ∧ (t.entry lock.resource).granted[slot]? = some lock
  index : ∀ txn : TxnId, t.index[txn]? ≠ some ∅
  granted : t.grantedTotal = t.grantedCount
  indexed : t.indexedTotal = t.grantedCount
  waiting : t.waitingTotal = t.waitingCount

/-- What holds of every table that calls produce. -/
structure Sound (t : Table) : Prop extends Coherent t where
  fresh : ∀ (r : Resource) {slot : Nat}, t.nextSlot ≤ slot → (t.entry r).granted[slot]? = none
  real : ∀ {r : Resource} {slot : Nat} {lock : Lock}, (t.entry r).granted[slot]? = some lock →
    lock.mode ≠ .nl
  proper : ∀ {r : Resource} {q : Request}, q ∈ t.queue r → q.Proper r

/-- A lock agrees with the locks of others on its resource, and has a mode. -/
structure Admits (t : Table) (lock : Lock) : Prop where
  real : lock.mode ≠ .nl
  agrees : ∀ held ∈ t.locksOn lock.resource, held.owner ≠ lock.owner →
    lock.mode.compatible held.mode

theorem sound_empty : Sound {} where
  entry := Entry.coherent_idle
  slots := by simp [Table.slots, Table.entry]
  index := by simp
  granted := rfl
  indexed := rfl
  waiting := rfl
  fresh := by simp [Table.entry]
  real := by simp [Table.entry]
  proper := by simp [queue, Table.entry]

variable {t t' : Table} {r s : Resource} {lock : Lock} {txn : TxnId}

theorem admits_iff {mode : Mode} {except : TxnId} :
    (t.entry r).admits mode except ↔
      ∀ held ∈ t.locksOn r, held.owner ≠ except → mode.compatible held.mode :=
  Entry.admits_iff

theorem mode_of_held? (hh : t.held? txn r = some lock) : t.mode txn r = lock.mode := by
  simp [mode, hh]

/-! ## What a sound table tells -/

namespace Sound

theorem held?_eq_some_iff (h : t.Sound) :
    t.held? txn r = some lock ↔
      lock.owner = txn ∧ ∃ slot : Nat, (t.entry r).granted[slot]? = some lock :=
  (h.entry r).held?_eq_some_iff

/-- The lock that a transaction holds on a resource is its own, on this resource, and real. -/
theorem of_held? (h : t.Sound) (hh : t.held? txn r = some lock) :
    lock.owner = txn ∧ lock.resource = r ∧ lock.mode ≠ .nl := by
  obtain ⟨ho, slot, hs⟩ := h.held?_eq_some_iff.1 hh
  exact ⟨ho, (h.entry r).resource hs, h.real hs⟩

theorem slot_lt (h : t.Sound) {slot : Nat} (hs : (t.entry r).granted[slot]? = some lock) :
    slot < t.nextSlot := by
  by_contra hn
  have hf := h.fresh r (Nat.le_of_not_lt hn)
  rw [hs] at hf
  cases hf

theorem mem_locksOn_iff (h : t.Sound) : lock ∈ t.locksOn r ↔ t.held? lock.owner r = some lock :=
  (h.entry r).mem_locks_iff

/-- No lock is granted without a mode, so a transaction without a mode holds nothing. -/
theorem mode_eq_nl_iff (h : t.Sound) : t.mode txn r = .nl ↔ t.held? txn r = none := by
  unfold mode
  cases hh : t.held? txn r with
  | none => simp
  | some lock => simpa using (h.of_held? hh).2.2

/-! ## Writing an entry together with the slots of an owner -/

theorem grantedTotal_setEntry (t : Table) (r : Resource) (e : Entry) :
    (t.setEntry r e).grantedTotal + (t.entry r).granted.size = t.grantedTotal + e.granted.size :=
  total_setEntry (w := fun e => e.granted.size) rfl t r e

theorem indexedTotal_setSlots (t : Table) (txn : TxnId) (slots : ExtTreeMap Nat Lock) :
    (t.setSlots txn slots).indexedTotal + (t.slots txn).size = t.indexedTotal + slots.size := by
  have hw : weigh (fun slots => slots.size) t.index[txn]? = (t.slots txn).size := by
    rw [Table.slots, ExtTreeMap.getD_eq_getD_getElem?]
    cases t.index[txn]? <;> rfl
  rw [← hw]
  unfold setSlots indexedTotal
  dsimp only
  split
  · rename_i he
    rw [ExtTreeMap.isEmpty_iff.1 he]
    exact total_erase _ t.index txn
  · exact total_insert _ t.index txn slots

/-- An owner without locks is not indexed, whosever slots are written. -/
theorem index_setSlots (h : ∀ txn : TxnId, t.index[txn]? ≠ some ∅) (owner : TxnId)
    (slots : ExtTreeMap Nat Lock) (txn : TxnId) :
    (t.setSlots owner slots).index[txn]? ≠ some ∅ := by
  unfold setSlots
  dsimp only
  split
  · rw [ExtTreeMap.getElem?_erase]
    split
    · simp
    · exact h txn
  · rename_i hne
    rw [ExtTreeMap.getElem?_insert]
    split
    · intro hc
      exact hne (ExtTreeMap.isEmpty_iff.2 (Option.some.inj hc))
    · exact h txn

/-- **An entry and the slots of an owner are written together.** The table stays sound if the new
entry is coherent, only the locks of this owner change in it, the new slots list exactly the locks
of the owner, and the count is adjusted. -/
theorem write (h : t.Sound) {e : Entry} {owner : TxnId} {slots : ExtTreeMap Nat Lock}
    {nextSlot grantedCount : Nat} (he : e.Coherent r) (hq : e.queue = (t.entry r).queue)
    (hothers : ∀ {slot : Nat} {l : Lock}, l.owner ≠ owner →
      (e.granted[slot]? = some l ↔ (t.entry r).granted[slot]? = some l))
    (hslots : ∀ {slot : Nat} {l : Lock}, slots[slot]? = some l ↔ l.owner = owner ∧
      (if r = l.resource then e else t.entry l.resource).granted[slot]? = some l)
    (hgranted : grantedCount + (t.entry r).granted.size = t.grantedCount + e.granted.size)
    (hindexed : grantedCount + (t.slots owner).size = t.grantedCount + slots.size)
    (hnext : t.nextSlot ≤ nextSlot)
    (hfresh : ∀ {slot : Nat}, nextSlot ≤ slot → e.granted[slot]? = none)
    (hreal : ∀ {slot : Nat} {l : Lock}, e.granted[slot]? = some l → l.mode ≠ .nl) :
    ({ (t.setEntry r e).setSlots owner slots with nextSlot, grantedCount } : Table).Sound := by
  have hentry : ∀ s, ({ (t.setEntry r e).setSlots owner slots with
      nextSlot, grantedCount } : Table).entry s = if r = s then e else t.entry s :=
    fun s => t.entry_setEntry r s e
  have hof : ∀ txn, ({ (t.setEntry r e).setSlots owner slots with
      nextSlot, grantedCount } : Table).slots txn = if owner = txn then slots else t.slots txn :=
    fun txn => (t.setEntry r e).slots_setSlots owner txn slots
  constructor
  · constructor
    · intro s
      rw [hentry]
      split
      · rename_i hs
        exact hs ▸ he
      · exact h.entry s
    · -- the slots of other owners tell what they did before, in this entry and in all others
      intro txn slot l
      rw [hof, hentry]
      split
      · rename_i ho
        rw [hslots, ho]
      · rename_i ho
        rw [h.slots]
        refine and_congr_right fun hl => ?_
        split
        · rename_i hr
          rw [← hr, hothers (by rw [hl]; exact Ne.symm ho)]
        · rfl
    · exact index_setSlots (t := t.setEntry r e) h.index owner slots
    · -- the totals change by as much as the one entry and the slots of the one owner
      have := grantedTotal_setEntry t r e
      have := h.granted
      change (t.setEntry r e).grantedTotal = grantedCount
      omega
    · have := indexedTotal_setSlots (t.setEntry r e) owner slots
      have := h.indexed
      rw [slots_setEntry] at *
      change ((t.setEntry r e).setSlots owner slots).indexedTotal = grantedCount
      have hi : (t.setEntry r e).indexedTotal = t.indexedTotal := rfl
      omega
    · have := total_setEntry (w := fun e => e.queue.length) rfl t r e
      have hw := h.waiting
      change total (fun e => e.queue.length) (t.setEntry r e).entries = t.waitingCount
      unfold waitingTotal at hw
      rw [hq] at this
      omega
  · intro s slot hn
    change nextSlot ≤ slot at hn
    rw [hentry]
    split
    · exact hfresh hn
    · exact h.fresh s (by omega)
  · intro s slot l hl
    rw [hentry] at hl
    split at hl
    · exact hreal hl
    · exact h.real hl
  · intro s q hm
    unfold queue at hm
    rw [hentry] at hm
    split at hm
    · rename_i hs
      rw [hq, hs] at hm
      exact h.proper hm
    · exact h.proper hm

/-- Where only one entry is written, and only for one owner, only what this owner holds there
changes. -/
theorem held?_write {e : Entry} {owner : TxnId} {now : Option Lock}
    (hentry : ∀ s, t'.entry s = if r = s then e else t.entry s)
    (he : ∀ txn, e.held? txn = if owner = txn then now else (t.entry r).held? txn)
    (txn : TxnId) (s : Resource) :
    t'.held? txn s = if owner = txn ∧ r = s then now else t.held? txn s := by
  unfold held?
  rw [hentry]
  by_cases hs : r = s
  · simp [hs, he]
  · simp [hs]

end Sound

end Table

end Locking
