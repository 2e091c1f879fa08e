import Locking.Proofs.Table.Sound

/-!
# Changes of sound tables

Every change keeps a table sound, if a lock that is granted agrees with those of others. Together
with the equations for `held?` and `queue` this is all that is used of the changes later on.

* `Sound.write_slot`, `Sound.of_same_locks`: what one slot and what the queues must be like for the
  table to stay sound.
* `Sound.put`, `Sound.take`: a lock is granted, or released; only what its owner holds on its
  resource changes.
* `Sound.enqueue`, `Sound.pop?`, `Sound.prune`: queues change, and no lock does.
* `Sound.of_put`, `Sound.of_take`, `Sound.of_pop?`: what is known once a change has gone through.
-/

namespace Locking.Table

open Std Map

variable {t t' : Table} {r : Resource} {lock : Lock}

namespace Sound

/-- **One slot is written**, or freed, in the entry of a resource and in the index of an owner. Where
both tell the same of this slot, before and after, the table stays sound. -/
theorem write_slot (h : t.Sound) {e : Entry} {owner : TxnId} {slots : ExtTreeMap Nat Lock}
    {slot nextSlot grantedCount : Nat} (now : Option Lock) (he : e.Coherent r)
    (hq : e.queue = (t.entry r).queue)
    (hentry : ∀ s, e.granted[s]? = if slot = s then now else (t.entry r).granted[s]?)
    (hindex : ∀ s, slots[s]? = if slot = s then now else (t.slots owner)[s]?)
    (hbefore : (t.slots owner)[slot]? = (t.entry r).granted[slot]?)
    (hnow : ∀ l, now = some l → l.owner = owner ∧ l.resource = r ∧ l.mode ≠ .nl)
    (hgranted : grantedCount + (t.entry r).granted.size = t.grantedCount + e.granted.size)
    (hindexed : grantedCount + (t.slots owner).size = t.grantedCount + slots.size)
    (hnext : t.nextSlot ≤ nextSlot) (hslot : slot < nextSlot) :
    ({ (t.setEntry r e).setSlots owner slots with nextSlot, grantedCount } : Table).Sound := by
  refine h.write he hq ?_ ?_ hgranted hindexed hnext ?_ ?_
  · intro s l hl
    rw [hentry]
    split
    · rename_i hs
      -- neither what stands in this slot now nor what stood there is of another owner
      subst hs
      refine iff_of_false (fun hc => hl (hnow l hc).1) fun hc => hl ?_
      exact (h.slots.1 (hbefore.trans hc)).1
    · rfl
  · intro s l
    rw [hindex]
    by_cases hs : slot = s
    · subst hs
      rw [if_pos rfl]
      constructor
      · intro hl
        obtain ⟨ho, hr, -⟩ := hnow l hl
        rw [if_pos hr.symm, hentry, if_pos rfl]
        exact ⟨ho, hl⟩
      · rintro ⟨ho, hl⟩
        split at hl
        · rwa [hentry, if_pos rfl] at hl
        · rename_i hr
          -- the slot of a lock on another resource is not the one that is written
          have hl' := hbefore.symm.trans (h.slots.2 ⟨ho, hl⟩)
          exact absurd ((h.entry r).resource hl').symm hr
    · rw [if_neg hs, h.slots]
      refine and_congr_right fun _ => ?_
      split
      · rename_i hr
        rw [hentry, if_neg hs, hr]
      · rfl
  · intro s hn
    rw [hentry, if_neg (by omega)]
    exact h.fresh r (Nat.le_trans hnext hn)
  · intro s l hl
    rw [hentry] at hl
    split at hl
    · exact (hnow l hl).2.2
    · exact h.real hl

/-! ## Granting a lock -/

theorem put_of_held? (h : t.Sound) {held : Lock}
    (hh : t.held? lock.owner lock.resource = some held) :
    ∃ slot : Nat, (t.entry lock.resource).granted[slot]? = some held ∧
      t.put lock = .ok ((t.setEntry lock.resource { t.entry lock.resource with
          granted := (t.entry lock.resource).granted.insert slot lock }).setSlots lock.owner
          ((t.slots lock.owner).insert slot lock), .updated lock held.mode) := by
  obtain ⟨slot, hs, hr⟩ := (h.entry lock.resource).retype?_of_held rfl hh
  obtain ⟨ho, hres, -⟩ := h.of_held? hh
  have hi : (t.slots lock.owner)[slot]? = some held :=
    h.slots.2 ⟨ho, by rw [hres]; exact hs⟩
  refine ⟨slot, hs, ?_⟩
  simp only [put, hr, hi]

theorem put_of_not_held (h : t.Sound) (hh : t.held? lock.owner lock.resource = none) :
    t.put lock = .ok ({ (t.setEntry lock.resource { t.entry lock.resource with
          granted := (t.entry lock.resource).granted.insert t.nextSlot lock
          holders := (t.entry lock.resource).holders.insert lock.owner t.nextSlot }).setSlots
        lock.owner ((t.slots lock.owner).insert t.nextSlot lock) with
      nextSlot := t.nextSlot + 1
      grantedCount := t.grantedCount + 1 }, .granted lock) := by
  have hr := (h.entry lock.resource).retype?_of_not_held hh
  have ha := (h.entry lock.resource).add?_of_not_held hh t.nextSlot
  simp only [put, hr, ha]

/-- **A lock that agrees with those of others is granted**, and only what its owner holds on its
resource changes. -/
theorem put (h : t.Sound) (ha : t.Admits lock) :
    ∃ t' ev, t.put lock = .ok (t', ev) ∧ t'.Sound ∧ ∀ txn s, t'.held? txn s =
      if lock.owner = txn ∧ lock.resource = s then some lock else t.held? txn s := by
  have hnow : ∀ l, some lock = some l →
      l.owner = lock.owner ∧ l.resource = lock.resource ∧ l.mode ≠ .nl := by
    rintro l ⟨⟩
    exact ⟨rfl, rfl, ha.real⟩
  cases hh : t.held? lock.owner lock.resource with
  | some held =>
    obtain ⟨slot, hs, hp⟩ := h.put_of_held? hh
    obtain ⟨ho, hres, -⟩ := h.of_held? hh
    have he := (h.entry lock.resource).retype hs ho rfl (Entry.admits_iff.2 ha.agrees)
    have hi : (t.slots lock.owner)[slot]? = some held := h.slots.2 ⟨ho, by rw [hres]; exact hs⟩
    have hown : ∀ l, (t.entry lock.resource).granted[slot]? = some l → l.owner = lock.owner := by
      intro l hl
      rw [hs] at hl
      cases hl
      exact ho
    refine ⟨_, _, hp, ?_, held?_write (t.entry_setEntry lock.resource · _)
      ((h.entry lock.resource).held?_insert he hown)⟩
    refine h.write_slot (some lock) he rfl ?_ ?_ (hi.trans hs.symm) hnow ?_ ?_ (Nat.le_refl _)
      (h.slot_lt hs)
    · simp [ExtTreeMap.getElem?_insert]
    · simp [ExtTreeMap.getElem?_insert]
    · rw [size_insert_of_some hs]
      rfl
    · rw [size_insert_of_some hi]
      rfl
  | none =>
    have hp := h.put_of_not_held hh
    have hs := h.fresh lock.resource (Nat.le_refl t.nextSlot)
    have he := (h.entry lock.resource).add hs ((h.entry lock.resource).held?_eq_none_iff.1 hh) rfl
      (Entry.admits_iff.2 ha.agrees)
    -- the next slot is free in every entry, so it is free in the index
    have hi : (t.slots lock.owner)[t.nextSlot]? = none := by
      rw [Option.eq_none_iff_forall_ne_some]
      intro l hl
      have := h.fresh l.resource (Nat.le_refl t.nextSlot)
      rw [(h.slots.1 hl).2] at this
      cases this
    have hfree : ∀ l, (t.entry lock.resource).granted[t.nextSlot]? = some l →
        l.owner = lock.owner := by simp [hs]
    refine ⟨_, _, hp, ?_, held?_write (t.entry_setEntry lock.resource · _)
      ((h.entry lock.resource).held?_insert he hfree)⟩
    refine h.write_slot (some lock) he rfl ?_ ?_ (hi.trans hs.symm) hnow ?_ ?_ (Nat.le_succ _)
      (Nat.lt_succ_self _)
    · simp [ExtTreeMap.getElem?_insert]
    · simp [ExtTreeMap.getElem?_insert]
    · rw [size_insert_of_none hs]
      omega
    · rw [size_insert_of_none hi]
      omega

theorem of_put (h : t.Sound) (ha : t.Admits lock) {ev : Event} (hp : t.put lock = .ok (t', ev)) :
    t'.Sound ∧ ∀ txn s, t'.held? txn s =
      if lock.owner = txn ∧ lock.resource = s then some lock else t.held? txn s := by
  obtain ⟨_, _, hp', hs, hheld⟩ := h.put ha
  cases hp.symm.trans hp'
  exact ⟨hs, hheld⟩

/-! ## Releasing a lock -/

theorem take_of_held? (h : t.Sound) (hh : t.held? lock.owner lock.resource = some lock) :
    ∃ slot : Nat, (t.entry lock.resource).granted[slot]? = some lock ∧ t.grantedCount ≠ 0 ∧
      t.take lock = .ok { (t.setEntry lock.resource { t.entry lock.resource with
          granted := (t.entry lock.resource).granted.erase slot
          holders := (t.entry lock.resource).holders.erase lock.owner }).setSlots lock.owner
            ((t.slots lock.owner).erase slot) with
        grantedCount := t.grantedCount - 1 } := by
  obtain ⟨slot, hs, hr⟩ := (h.entry lock.resource).remove?_of_held hh
  have hi : (t.slots lock.owner)[slot]? = some lock := h.slots.2 ⟨rfl, hs⟩
  have hindex : t.index[lock.owner]? = some (t.slots lock.owner) := by
    unfold Table.slots at hi ⊢
    rw [ExtTreeMap.getD_eq_getD_getElem?] at hi ⊢
    cases hc : t.index[lock.owner]? with
    | none => simp [hc] at hi
    | some slots => rfl
  have hmem : slot ∈ t.slots lock.owner := ExtTreeMap.mem_iff_isSome_getElem?.2 (by simp [hi])
  -- the count is right, and it counts at least this lock
  have hcount : t.grantedCount ≠ 0 := by
    have ht := total_eq (fun slots => slots.size) t.index lock.owner
    have hsize := size_erase_of_some hi
    have hindexed := h.indexed
    rw [hindex, weigh_some] at ht
    unfold indexedTotal at hindexed
    omega
  refine ⟨slot, hs, hcount, ?_⟩
  simp only [Table.take, hr, hindex, hmem, not_true_eq_false, if_false, hcount]

/-- **A lock that is held is released**, and only what its owner holds on its resource changes. -/
theorem take (h : t.Sound) (hh : t.held? lock.owner lock.resource = some lock) :
    ∃ t', t.take lock = .ok t' ∧ t'.Sound ∧ ∀ txn s, t'.held? txn s =
      if lock.owner = txn ∧ lock.resource = s then none else t.held? txn s := by
  obtain ⟨slot, hs, hcount, htake⟩ := h.take_of_held? hh
  have hi : (t.slots lock.owner)[slot]? = some lock := h.slots.2 ⟨rfl, hs⟩
  have he := (h.entry lock.resource).remove hs
  have hsize := size_erase_of_some hs
  have hsize' := size_erase_of_some hi
  refine ⟨_, htake, ?_, held?_write (t.entry_setEntry lock.resource · _)
    ((h.entry lock.resource).held?_remove hs)⟩
  refine h.write_slot none he rfl ?_ ?_ (hi.trans hs.symm) nofun ?_ ?_ (Nat.le_refl _)
    (h.slot_lt hs)
  · simp [ExtTreeMap.getElem?_erase]
  · simp [ExtTreeMap.getElem?_erase]
  · dsimp only
    omega
  · omega

/-- A lock that is not held exactly so cannot be released. -/
theorem take_of_not_held (h : t.Sound) (hh : t.held? lock.owner lock.resource ≠ some lock) :
    t.take lock = .error (.notGranted lock) := by
  simp only [Table.take, (h.entry lock.resource).remove?_of_not_held hh]

theorem of_take (h : t.Sound) (ht : t.take lock = .ok t') :
    t.held? lock.owner lock.resource = some lock ∧ t'.Sound ∧ ∀ txn s, t'.held? txn s =
      if lock.owner = txn ∧ lock.resource = s then none else t.held? txn s := by
  by_cases hh : t.held? lock.owner lock.resource = some lock
  · obtain ⟨_, ht', hs, hheld⟩ := h.take hh
    cases ht.symm.trans ht'
    exact ⟨hh, hs, hheld⟩
  · rw [h.take_of_not_held hh] at ht
    cases ht

/-! ## Queues -/

/-- **The same locks are granted under the same slots**, so only the queues are to be looked at. -/
theorem of_same_locks (h : t.Sound) (he : ∀ s, (t'.entry s).Coherent s)
    (hgranted : ∀ s, (t'.entry s).granted = (t.entry s).granted) (hindex : t'.index = t.index)
    (hnext : t'.nextSlot = t.nextSlot) (hcount : t'.grantedCount = t.grantedCount)
    (htotal : t'.grantedTotal = t.grantedTotal) (hwaiting : t'.waitingTotal = t'.waitingCount)
    (hproper : ∀ {s : Resource} {q : Request}, q ∈ t'.queue s → q.Proper s) : t'.Sound := by
  constructor
  · constructor
    · exact he
    · intro txn slot l
      rw [hgranted, Table.slots, hindex]
      exact h.slots
    · rw [hindex]
      exact h.index
    · rw [htotal, hcount]
      exact h.granted
    · unfold indexedTotal
      rw [hindex, hcount]
      exact h.indexed
    · exact hwaiting
  · intro s slot hn
    rw [hgranted]
    exact h.fresh s (hnext ▸ hn)
  · intro s slot l hl
    rw [hgranted] at hl
    exact h.real hl
  · exact hproper

/-- Only a queue is written, and the count of requests. -/
theorem requeue (h : t.Sound) {queue : List Request} {waitingCount : Nat}
    (hproper : ∀ q ∈ queue, q.Proper r)
    (hcount : waitingCount + (t.queue r).length = t.waitingCount + queue.length) :
    ({ t.setEntry r { t.entry r with queue } with waitingCount } : Table).Sound := by
  have hentry : ∀ s, ({ t.setEntry r { t.entry r with queue } with
      waitingCount } : Table).entry s = if r = s then { t.entry r with queue } else t.entry s :=
    fun s => t.entry_setEntry r s _
  refine h.of_same_locks (fun s => ?_) (fun s => ?_) rfl rfl rfl ?_ ?_ fun {s q} hm => ?_
  · rw [hentry]
    split
    · rename_i hs
      exact hs ▸ (h.entry r).requeue queue
    · exact h.entry s
  · rw [hentry]
    split
    · rename_i hs
      rw [← hs]
    · rfl
  · have hg : (t.setEntry r { t.entry r with queue }).grantedTotal + (t.entry r).granted.size =
        t.grantedTotal + (t.entry r).granted.size := grantedTotal_setEntry t r _
    exact Nat.add_right_cancel hg
  · have hw : (t.setEntry r { t.entry r with queue }).waitingTotal + (t.queue r).length =
        t.waitingTotal + queue.length :=
      total_setEntry (w := fun e => e.queue.length) rfl t r _
    have := h.waiting
    change (t.setEntry r { t.entry r with queue }).waitingTotal = waitingCount
    omega
  · unfold Table.queue at hm
    rw [hentry] at hm
    split at hm
    · rename_i hs
      exact hs ▸ hproper q hm
    · exact h.proper hm

theorem enqueue (h : t.Sound) {q : Request} (hq : q.Proper q.lock.resource) (place : Place) :
    (t.enqueue q place).Sound := by
  cases place with
  | front =>
    refine h.requeue (r := q.lock.resource) ?_ ?_
    · intro p hp
      rcases List.mem_cons.1 hp with rfl | hp
      · exact hq
      · exact h.proper hp
    · unfold queue
      simp only [List.length_cons]
      omega
  | back =>
    refine h.requeue (r := q.lock.resource) ?_ ?_
    · intro p hp
      rcases List.mem_append.1 hp with hp | hp
      · exact h.proper hp
      · rw [List.mem_singleton.1 hp]
        exact hq
    · unfold queue
      simp only [List.length_append, List.length_singleton]
      omega

theorem pop? (h : t.Sound) {q : Request} (hp : t.pop? r = some (.ok (q, t'))) : t'.Sound := by
  obtain ⟨rest, hq, -, hne, rfl⟩ := pop?_eq_ok_iff.1 hp
  refine h.requeue (fun p hm => h.proper (hq ▸ List.mem_cons_of_mem q hm)) ?_
  rw [hq, List.length_cons]
  omega

/-- The request that is taken asks for a lock that agrees with those of others. -/
theorem of_pop? (h : t.Sound) {q : Request} (hp : t.pop? r = some (.ok (q, t'))) :
    q.Proper r ∧ t'.Admits q.lock := by
  obtain ⟨rest, hq, ha, -, -⟩ := pop?_eq_ok_iff.1 hp
  have hproper : q.Proper r := h.proper (hq ▸ List.mem_cons_self)
  refine ⟨hproper, hproper.real, ?_⟩
  rw [hproper.resource, (granted_pop? hp r).1]
  exact admits_iff.1 ha

/-- There is always a request to be counted down for the one that is taken. -/
theorem pop?_ne_error (h : t.Sound) {f : Fault} : t.pop? r ≠ some (.error f) := by
  intro hp
  unfold Table.pop? at hp
  split at hp
  · cases hp
  · rename_i q e he
    split at hp
    · rename_i h0
      have hq := (Entry.pop?_eq_some_iff.1 he).1
      have ht := total_setEntry (w := fun e => e.queue.length) rfl t r {}
      have hw := h.waiting
      unfold waitingTotal at hw
      rw [hq, hw, h0] at ht
      simp at ht
    · cases hp

theorem prune (h : t.Sound) (r : Resource) : (t.prune r).Sound := by
  have hsame : (t.prune r).index = t.index ∧ (t.prune r).nextSlot = t.nextSlot ∧
      (t.prune r).grantedCount = t.grantedCount ∧
      (t.prune r).waitingCount = t.waitingCount := by
    unfold Table.prune
    split <;> exact ⟨rfl, rfl, rfl, rfl⟩
  obtain ⟨hindex, hnext, hcount, hwaiting⟩ := hsame
  refine h.of_same_locks (fun s => ?_) (fun s => ?_) hindex hnext hcount ?_ ?_ fun {s q} hm => ?_
  · rw [entry_prune]
    split
    · exact Entry.coherent_idle s
    · exact h.entry s
  · rw [entry_prune]
    split
    · rename_i hs
      rw [← hs.1, (idle_of_any hs.2).1]
    · rfl
  · exact total_prune (fun e hg _ => by simp [hg]) t r
  · rw [hwaiting, ← h.waiting]
    exact total_prune (fun e _ hq => by simp [hq]) t r
  · rw [queue_prune] at hm
    exact h.proper hm

/-- Dropping an idle entry takes no lock from anybody. -/
theorem held?_prune (h : t.Sound) (r : Resource) (txn : TxnId) (s : Resource) :
    (t.prune r).held? txn s = t.held? txn s := by
  refine Option.ext fun l => ?_
  rw [(h.prune r).held?_eq_some_iff, h.held?_eq_some_iff, ← Entry.mem_locks, ← Entry.mem_locks]
  exact and_congr_right fun _ => by rw [← locksOn, ← locksOn, locksOn_prune]

end Sound

end Locking.Table
