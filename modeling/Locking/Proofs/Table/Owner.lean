import Locking.Map.Listing
import Locking.Proofs.Table.Changes

/-!
# The locks of a transaction

The index lists the locks of a transaction in order of first grant. What is in the list is told by
`held?`, and where it stands by what was granted and released.

* `regrant`, `without`: a lock takes the place of the one on its resource, or comes last; locks are
  left out.
* `Sound.mem_locksOf_iff`, `Sound.pairwise_locksOf`: the list holds one lock for every resource that
  the transaction holds.
* `Sound.locksOf_put`, `Sound.locksOf_take`: granting a lock is `regrant` for its owner, and
  releasing it is `without`.
-/

namespace Locking

open Std

/-- The locks of a transaction once it has been granted another one: it takes the place of the lock
on its resource, or comes last. -/
def regrant (locks : List Lock) (lock : Lock) : List Lock :=
  if lock.resource ∈ locks.map Lock.resource then
    locks.map fun held => if held.resource = lock.resource then lock else held
  else locks ++ [lock]

/-- The locks that are left once those on some resources have been released. -/
def without (locks : List Lock) (rs : List Resource) : List Lock :=
  locks.filter (·.resource ∉ rs)

theorem mem_regrant {locks : List Lock} {lock held : Lock} (h : held ∈ regrant locks lock) :
    held = lock ∨ held ∈ locks := by
  unfold regrant at h
  split at h
  · obtain ⟨l, hl, rfl⟩ := List.mem_map.1 h
    split
    · exact .inl rfl
    · exact .inr hl
  · exact (List.mem_append.1 h).elim .inr fun hm => .inl (List.mem_singleton.1 hm)

theorem mem_regrant_self (locks : List Lock) (lock : Lock) : lock ∈ regrant locks lock := by
  unfold regrant
  split
  · rename_i hin
    obtain ⟨held, hm, hr⟩ := List.mem_map.1 hin
    exact List.mem_map.2 ⟨held, hm, if_pos hr⟩
  · exact List.mem_append_right _ List.mem_cons_self

/-- On the resource of a lock that has been granted stands this lock. -/
theorem eq_of_mem_regrant {locks : List Lock} {lock held : Lock} (h : held ∈ regrant locks lock)
    (hr : held.resource = lock.resource) : held = lock := by
  unfold regrant at h
  split at h
  · obtain ⟨l, -, hl⟩ := List.mem_map.1 h
    split at hl
    · exact hl.symm
    · rename_i hne
      exact absurd (hl ▸ hr) hne
  · rename_i hout
    rcases List.mem_append.1 h with hm | hm
    · exact absurd (List.mem_map.2 ⟨held, hm, hr⟩) hout
    · exact List.mem_singleton.1 hm

@[simp] theorem without_nil (locks : List Lock) : without locks [] = locks := by
  simp [without]

theorem without_without (locks : List Lock) (rs us : List Resource) :
    without (without locks rs) us = without locks (rs ++ us) := by
  simp only [without, List.filter_filter, List.mem_append, not_or, Bool.decide_and, Bool.and_comm]

/-- Releasing what is not there changes nothing. -/
theorem without_of_not_mem {locks : List Lock} {r : Resource}
    (h : r ∉ locks.map Lock.resource) : without locks [r] = locks := by
  refine List.filter_eq_self.2 fun lock hm => ?_
  have hne : lock.resource ≠ r := fun hr => h (List.mem_map.2 ⟨lock, hm, hr⟩)
  simpa using hne

theorem not_mem_without {locks : List Lock} {r : Resource} {rs : List Resource} (h : r ∈ rs) :
    r ∉ (without locks rs).map Lock.resource := by
  intro hm
  obtain ⟨lock, hl, rfl⟩ := List.mem_map.1 hm
  have hout := (List.mem_filter.1 hl).2
  simp only [decide_eq_true_eq] at hout
  exact hout h

namespace Table

variable {t t' : Table} {r : Resource} {lock : Lock} {txn : TxnId}

/-- The locks of a transaction are told by the index alone. -/
theorem locksOf_of_index (h : t'.index = t.index) (txn : TxnId) :
    t'.locksOf txn = t.locksOf txn := by
  unfold locksOf Table.slots
  rw [h]

theorem locksOf_enqueue (t : Table) (q : Request) (place : Place) (txn : TxnId) :
    (t.enqueue q place).locksOf txn = t.locksOf txn := rfl

theorem locksOf_pop? {q : Request} (hp : t.pop? r = some (.ok (q, t'))) (txn : TxnId) :
    t'.locksOf txn = t.locksOf txn := by
  obtain ⟨rest, -, -, -, rfl⟩ := pop?_eq_ok_iff.1 hp
  rfl

theorem locksOf_prune (t : Table) (r : Resource) (txn : TxnId) :
    (t.prune r).locksOf txn = t.locksOf txn := by
  unfold prune
  split <;> rfl

namespace Sound

/-- **The locks of a transaction are those that it holds.** -/
theorem mem_locksOf_iff (h : t.Sound) :
    lock ∈ t.locksOf txn ↔ lock.owner = txn ∧ t.held? txn lock.resource = some lock := by
  have hslots : lock ∈ t.locksOf txn ↔ ∃ slot : Nat, (t.slots txn)[slot]? = some lock := by
    simp [locksOf, ExtTreeMap.mem_toList_iff_getElem?_eq_some]
  rw [hslots, h.held?_eq_some_iff]
  simp only [h.slots, exists_and_left]
  exact ⟨fun hl => ⟨hl.1, hl⟩, And.right⟩

theorem mem_resources_iff (h : t.Sound) :
    r ∈ (t.locksOf txn).map Lock.resource ↔ t.held? txn r ≠ none := by
  rw [List.mem_map]
  constructor
  · rintro ⟨lock, hm, rfl⟩
    rw [(h.mem_locksOf_iff.1 hm).2]
    exact nofun
  · intro hne
    obtain ⟨lock, hh⟩ := Option.ne_none_iff_exists'.1 hne
    obtain ⟨ho, rfl, -⟩ := h.of_held? hh
    exact ⟨lock, h.mem_locksOf_iff.2 ⟨ho, hh⟩, rfl⟩

/-- Where locks have been released, their owner holds nothing. -/
theorem held?_eq_none_of_without (h : t.Sound) {locks : List Lock} {rs : List Resource}
    (hl : t.locksOf txn = without locks rs) (hr : r ∈ rs) : t.held? txn r = none := by
  by_contra hne
  rw [← Ne, ← h.mem_resources_iff, hl] at hne
  exact not_mem_without hr hne

/-- The slot of a lock is told by its owner and its resource. -/
theorem slots_unique (h : t.Sound) {slot slot' : Nat} {lock' : Lock}
    (hl : (t.slots txn)[slot]? = some lock) (hl' : (t.slots txn)[slot']? = some lock')
    (hr : lock.resource = lock'.resource) : slot = slot' := by
  obtain ⟨ho, hs⟩ := h.slots.1 hl
  obtain ⟨ho', hs'⟩ := h.slots.1 hl'
  rw [← hr] at hs'
  exact (h.entry lock.resource).slot_unique hs hs' (ho.trans ho'.symm)

/-- The locks of a transaction are on different resources. -/
theorem pairwise_locksOf (h : t.Sound) (txn : TxnId) :
    (t.locksOf txn).Pairwise fun a b => a.resource ≠ b.resource := by
  rw [locksOf, List.pairwise_map]
  refine (t.slots txn).distinct_keys_toList.imp_of_mem ?_
  rintro ⟨slot, a⟩ ⟨slot', b⟩ ha hb hne hr
  rw [ExtTreeMap.mem_toList_iff_getElem?_eq_some] at ha hb
  exact hne (by simp [h.slots_unique ha hb hr])

theorem nodup_locksOf (h : t.Sound) (txn : TxnId) : (t.locksOf txn).Nodup :=
  (h.pairwise_locksOf txn).imp fun hne he => hne (congrArg Lock.resource he)

theorem nodup_locksOn (h : t.Sound) (r : Resource) : (t.locksOn r).Nodup :=
  (h.entry r).pairwise_locks.imp fun hne he => hne.1 (congrArg Lock.owner he)

/-! ## Granting and releasing -/

/-- The locks of a transaction where the slots of one owner have been written. -/
theorem locksOf_of_setSlots (t : Table) (owner : TxnId) (slots : ExtTreeMap Nat Lock)
    (h : t'.index = (t.setSlots owner slots).index) (u : TxnId) :
    t'.locksOf u = if owner = u then slots.toList.map (·.2) else t.locksOf u := by
  rw [locksOf_of_index h, locksOf, slots_setSlots]
  split <;> rfl

/-- **Granting a lock** puts it in the place of the one that its owner holds on the resource, or
last, and leaves all other transactions alone. -/
theorem locksOf_put (h : t.Sound) {ev : Event} (hp : t.put lock = .ok (t', ev)) (u : TxnId) :
    t'.locksOf u = if lock.owner = u then regrant (t.locksOf u) lock else t.locksOf u := by
  cases hh : t.held? lock.owner lock.resource with
  | some held =>
    obtain ⟨slot, hs, hp'⟩ := h.put_of_held? hh
    obtain ⟨ho, hres, -⟩ := h.of_held? hh
    cases hp.symm.trans hp'
    refine (locksOf_of_setSlots t lock.owner ((t.slots lock.owner).insert slot lock) rfl u).trans ?_
    split
    · rename_i hu
      subst hu
      have hi : (t.slots lock.owner)[slot]? = some held := h.slots.2 ⟨ho, by rw [hres]; exact hs⟩
      have hin : lock.resource ∈ (t.locksOf lock.owner).map Lock.resource := by
        rw [h.mem_resources_iff, hh]
        exact nofun
      rw [regrant, if_pos hin, Map.toList_insert_of_some hi, locksOf, List.map_map, List.map_map]
      refine List.map_congr_left fun ⟨slot', l⟩ hm => ?_
      rw [ExtTreeMap.mem_toList_iff_getElem?_eq_some] at hm
      -- the slot that is written is the one of the lock on this resource
      by_cases hr : l.resource = lock.resource
      · obtain rfl := h.slots_unique hi hm (hres.trans hr.symm)
        simp [hr]
      · have hne : slot ≠ slot' := by
          rintro rfl
          rw [hi] at hm
          cases hm
          exact hr hres
        simp [hr, hne]
    · rfl
  | none =>
    have hp' := h.put_of_not_held hh
    cases hp.symm.trans hp'
    refine (locksOf_of_setSlots t lock.owner ((t.slots lock.owner).insert t.nextSlot lock) rfl
      u).trans ?_
    split
    · rename_i hu
      subst hu
      have hout : lock.resource ∉ (t.locksOf lock.owner).map Lock.resource := by
        rw [h.mem_resources_iff, hh]
        exact fun hne => hne rfl
      have hlast : ∀ slot l, (t.slots lock.owner)[slot]? = some l →
          compare slot t.nextSlot = .lt := fun slot l hl =>
        Nat.compare_eq_lt.2 (h.slot_lt (h.slots.1 hl).2)
      rw [regrant, if_neg hout, Map.toList_insert_of_last hlast, List.map_append]
      rfl
    · rfl

/-- **Releasing a lock** leaves it out of the list of its owner, and leaves all other transactions
alone. -/
theorem locksOf_take (h : t.Sound) (ht : t.take lock = .ok t') (u : TxnId) :
    t'.locksOf u =
      if lock.owner = u then without (t.locksOf u) [lock.resource] else t.locksOf u := by
  obtain ⟨hh, -, -⟩ := h.of_take ht
  obtain ⟨slot, hs, -, ht'⟩ := h.take_of_held? hh
  cases ht.symm.trans ht'
  refine (locksOf_of_setSlots t lock.owner ((t.slots lock.owner).erase slot) rfl u).trans ?_
  split
  · rename_i hu
    subst hu
    have hi : (t.slots lock.owner)[slot]? = some lock := h.slots.2 ⟨rfl, hs⟩
    rw [Map.toList_erase, without, locksOf, List.filter_map]
    refine congrArg _ (List.filter_congr fun ⟨slot', l⟩ hm => ?_)
    rw [ExtTreeMap.mem_toList_iff_getElem?_eq_some] at hm
    by_cases hr : l.resource = lock.resource
    · obtain rfl := h.slots_unique hi hm hr.symm
      simp [hr]
    · have hne : slot ≠ slot' := by
        rintro rfl
        rw [hi] at hm
        cases hm
        exact hr rfl
      simp [hr, hne]
  · rfl

end Sound

end Table

end Locking
