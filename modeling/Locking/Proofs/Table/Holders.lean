import Locking.Proofs.Table.Owner

/-!
# The locks on a resource

The entry of a resource lists its locks in order of first grant. A lock that is granted takes the
place of the one that its owner holds there, or comes last.

* `install`: the locks on a resource after another one has been granted.
* `Sound.locksOn_put`, `Sound.locksOn_take`: what granting and releasing a lock does to the list.
* `owners`: who holds a resource, in this order.
* `Sound.locksOn_eq_filterMap`: owners and what each of them holds tell the whole list.
-/

namespace Locking

open Std

/-- The locks on a resource once another one has been granted: it takes the place of the lock of its
owner, or comes last. -/
def install (locks : List Lock) (lock : Lock) : List Lock :=
  if lock.owner ∈ locks.map Lock.owner then
    locks.map fun held => if held.owner = lock.owner then lock else held
  else locks ++ [lock]

theorem owner_install (locks : List Lock) (lock : Lock) :
    (install locks lock).map Lock.owner =
      if lock.owner ∈ locks.map Lock.owner then locks.map Lock.owner
      else locks.map Lock.owner ++ [lock.owner] := by
  unfold install
  split
  · rw [List.map_map]
    refine List.map_congr_left fun held _ => ?_
    by_cases ho : held.owner = lock.owner <;> simp [ho]
  · rw [List.map_append]
    rfl

namespace Table

variable {t t' : Table} {r : Resource} {lock : Lock} {txn : TxnId}

/-- Who holds a resource, in order of first grant. -/
def owners (t : Table) (r : Resource) : List TxnId := (t.locksOn r).map Lock.owner

theorem locksOn_pop? {q : Request} (hp : t.pop? r = some (.ok (q, t'))) (s : Resource) :
    t'.locksOn s = t.locksOn s :=
  (granted_pop? hp s).1

/-- The locks on a resource where one entry has been written. -/
theorem locksOn_of_entry {e : Entry} (h : ∀ s, t'.entry s = if r = s then e else t.entry s)
    (s : Resource) : t'.locksOn s = if r = s then e.locks else t.locksOn s := by
  rw [locksOn, h]
  split <;> rfl

namespace Sound

theorem mem_owners_iff (h : t.Sound) : txn ∈ t.owners r ↔ t.held? txn r ≠ none := by
  rw [owners, List.mem_map]
  constructor
  · rintro ⟨lock, hm, rfl⟩
    rw [h.mem_locksOn_iff.1 hm]
    nofun
  · intro hne
    obtain ⟨lock, hh⟩ := Option.ne_none_iff_exists'.1 hne
    obtain ⟨rfl, -, -⟩ := h.of_held? hh
    exact ⟨lock, h.mem_locksOn_iff.2 hh, rfl⟩

theorem nodup_owners (h : t.Sound) (r : Resource) : (t.owners r).Nodup :=
  List.pairwise_map.2 ((h.entry r).pairwise_locks.imp And.left)

/-- Who holds a resource, and what each of them holds, tells the whole list. -/
theorem locksOn_eq_filterMap (h : t.Sound) (r : Resource) :
    t.locksOn r = (t.owners r).filterMap (t.held? · r) := by
  rw [owners, List.filterMap_map]
  have hall : ∀ lock ∈ t.locksOn r, ((t.held? · r) ∘ Lock.owner) lock = some lock :=
    fun lock hm => h.mem_locksOn_iff.1 hm
  rw [List.filterMap_congr hall]
  simp

/-- **Granting a lock** puts it in the place of the one that its owner holds on the resource, or
last, and leaves all other resources alone. -/
theorem locksOn_put (h : t.Sound) {ev : Event} (hp : t.put lock = .ok (t', ev)) (s : Resource) :
    t'.locksOn s = if lock.resource = s then install (t.locksOn s) lock else t.locksOn s := by
  have hin : lock.owner ∈ (t.locksOn lock.resource).map Lock.owner ↔
      t.held? lock.owner lock.resource ≠ none := h.mem_owners_iff
  cases hh : t.held? lock.owner lock.resource with
  | some held =>
    obtain ⟨slot, hs, hp'⟩ := h.put_of_held? hh
    obtain ⟨ho, -, -⟩ := h.of_held? hh
    cases hp.symm.trans hp'
    refine (locksOn_of_entry (t.entry_setEntry lock.resource · _) s).trans ?_
    split
    · rename_i hr
      subst hr
      have hmem : lock.owner ∈ (t.locksOn lock.resource).map Lock.owner := hin.2 (by simp [hh])
      rw [install, if_pos hmem, locksOn, Entry.locks, Entry.locks, Map.toList_insert_of_some hs,
        List.map_map, List.map_map]
      refine List.map_congr_left fun granted hm => ?_
      obtain ⟨slot', l⟩ := granted
      rw [ExtTreeMap.mem_toList_iff_getElem?_eq_some] at hm
      -- the slot that is written is the one of the lock of this owner
      by_cases hl : l.owner = lock.owner
      · obtain rfl := (h.entry lock.resource).slot_unique hs hm (ho.trans hl.symm)
        simp [hl]
      · have hne : slot ≠ slot' := by
          rintro rfl
          rw [hs] at hm
          cases hm
          exact hl ho
        simp [hl, hne]
    · rfl
  | none =>
    cases hp.symm.trans (h.put_of_not_held hh)
    refine (locksOn_of_entry (t.entry_setEntry lock.resource · _) s).trans ?_
    split
    · rename_i hr
      subst hr
      have hmem : lock.owner ∉ (t.locksOn lock.resource).map Lock.owner := by
        rw [hin, hh]
        exact fun hne => hne rfl
      have hlast : ∀ slot l, (t.entry lock.resource).granted[slot]? = some l →
          compare slot t.nextSlot = .lt := fun slot l hl => Nat.compare_eq_lt.2 (h.slot_lt hl)
      rw [install, if_neg hmem, locksOn, Entry.locks, Entry.locks, Map.toList_insert_of_last hlast,
        List.map_append]
      rfl
    · rfl

/-- **Releasing a lock** leaves it out of the list of its resource, and leaves all other resources
alone. -/
theorem locksOn_take (h : t.Sound) (ht : t.take lock = .ok t') (s : Resource) :
    t'.locksOn s =
      if lock.resource = s then (t.locksOn s).filter (·.owner ≠ lock.owner) else t.locksOn s := by
  obtain ⟨hh, -, -⟩ := h.of_take ht
  obtain ⟨slot, hs, -, ht'⟩ := h.take_of_held? hh
  cases ht.symm.trans ht'
  refine (locksOn_of_entry (t.entry_setEntry lock.resource · _) s).trans ?_
  split
  · rename_i hr
    subst hr
    rw [locksOn, Entry.locks, Entry.locks, Map.toList_erase, List.filter_map]
    refine congrArg _ (List.filter_congr fun granted hm => ?_)
    obtain ⟨slot', l⟩ := granted
    rw [ExtTreeMap.mem_toList_iff_getElem?_eq_some] at hm
    by_cases hl : l.owner = lock.owner
    · obtain rfl := (h.entry lock.resource).slot_unique hm hs hl
      simp [hl]
    · have hne : slot ≠ slot' := by
        rintro rfl
        rw [hs] at hm
        cases hm
        exact hl rfl
      simp [hl, hne]
  · rfl

/-- Who holds a resource after a lock has been granted. -/
theorem owners_put (h : t.Sound) {ev : Event} (hp : t.put lock = .ok (t', ev)) (s : Resource) :
    t'.owners s =
      if lock.resource = s then
        if lock.owner ∈ t.owners s then t.owners s else t.owners s ++ [lock.owner]
      else t.owners s := by
  rw [owners, h.locksOn_put hp]
  by_cases hr : lock.resource = s
  · rw [if_pos hr, if_pos hr, owner_install]
    rfl
  · rw [if_neg hr, if_neg hr, owners]

/-- Who holds a resource after a lock has been released. -/
theorem owners_take (h : t.Sound) (ht : t.take lock = .ok t') (s : Resource) :
    t'.owners s =
      if lock.resource = s then (t.owners s).filter (· ≠ lock.owner) else t.owners s := by
  rw [owners, h.locksOn_take ht]
  split
  · rw [owners, List.filter_map]
    rfl
  · rfl

end Sound

end Table

end Locking
