import Mathlib.Data.List.Nodup
import Locking.Entry
import Locking.Map.Total

/-!
# Coherent entries

An entry is coherent if its two maps tell the same story: every granted lock is on the resource of
the entry, the holders are exactly the owners of the granted locks, each with the slot of its lock,
and locks of different owners agree.

* `Entry.Coherent`: the property.
* `Entry.ownerships`: who owns a lock in which slot, as the granted locks tell.
* `Coherent.held?_eq_some_iff`: the lock held by an owner is the granted lock of that owner.
* `Coherent.pairwise_locks`: nobody owns two locks of an entry, and the locks of an entry agree.
* `Coherent.retype`, `Coherent.add`, `Coherent.remove`: every change keeps an entry coherent, if a
  lock that is granted agrees with those of others.
-/

namespace Locking.Entry

open Std

/-- The entry of `r` is coherent. -/
structure Coherent (e : Entry) (r : Resource) : Prop where
  resource : ∀ {slot : Nat} {lock : Lock}, e.granted[slot]? = some lock → lock.resource = r
  /-- A holder is the owner of the lock in its slot, and no owner is missing. -/
  holders : ∀ {txn : TxnId} {slot : Nat}, e.holders[txn]? = some slot ↔
    ∃ lock, e.granted[slot]? = some lock ∧ lock.owner = txn
  compatible : ∀ {slot slot' : Nat} {lock lock' : Lock}, e.granted[slot]? = some lock →
    e.granted[slot']? = some lock' → lock.owner ≠ lock'.owner → lock.mode.compatible lock'.mode

theorem mem_locks {e : Entry} {lock : Lock} :
    lock ∈ e.locks ↔ ∃ slot : Nat, e.granted[slot]? = some lock := by
  simp [locks, ExtTreeMap.mem_toList_iff_getElem?_eq_some]

theorem length_locks (e : Entry) : e.locks.length = e.granted.size := by
  rw [locks, List.length_map, ExtTreeMap.length_toList]

theorem locks_eq_nil_iff {e : Entry} : e.locks = [] ↔ e.granted = ∅ := by
  rw [locks, List.map_eq_nil_iff, ← List.isEmpty_iff, ExtTreeMap.isEmpty_toList,
    ExtTreeMap.isEmpty_iff]

theorem admits_iff {e : Entry} {mode : Mode} {except : TxnId} :
    e.admits mode except ↔
      ∀ lock ∈ e.locks, lock.owner ≠ except → mode.compatible lock.mode := by
  simp [admits, or_iff_not_imp_left]

theorem coherent_idle (r : Resource) : Coherent {} r := by
  constructor <;> simp

/-- The owner and the slot of every granted lock. -/
def ownerships (e : Entry) : List (TxnId × Nat) := e.granted.toList.map fun p => (p.2.owner, p.1)

theorem mem_ownerships {e : Entry} {txn : TxnId} {slot : Nat} :
    (txn, slot) ∈ e.ownerships ↔ ∃ lock, e.granted[slot]? = some lock ∧ lock.owner = txn := by
  rw [ownerships, List.mem_map]
  constructor
  · rintro ⟨⟨slot', lock⟩, hm, he⟩
    rw [ExtTreeMap.mem_toList_iff_getElem?_eq_some] at hm
    cases he
    exact ⟨lock, hm, rfl⟩
  · rintro ⟨lock, hl, rfl⟩
    exact ⟨(slot, lock), ExtTreeMap.mem_toList_iff_getElem?_eq_some.2 hl, rfl⟩

theorem length_ownerships (e : Entry) : e.ownerships.length = e.granted.size := by
  rw [ownerships, List.length_map, ExtTreeMap.length_toList]

theorem nodup_ownerships (e : Entry) : e.ownerships.Nodup := by
  refine List.Nodup.map_on ?_ (Map.nodup_toList _)
  rintro ⟨slot, a⟩ ha ⟨slot', b⟩ hb he
  rw [ExtTreeMap.mem_toList_iff_getElem?_eq_some] at ha hb
  obtain rfl : slot = slot' := congrArg Prod.snd he
  rw [ha] at hb
  cases hb
  rfl

variable {e : Entry} {r : Resource}

namespace Coherent

/-- The owner of a lock determines its slot. -/
theorem slot_unique (h : e.Coherent r) {slot slot' : Nat} {lock lock' : Lock}
    (hl : e.granted[slot]? = some lock) (hl' : e.granted[slot']? = some lock')
    (ho : lock.owner = lock'.owner) : slot = slot' := by
  have h1 : e.holders[lock.owner]? = some slot := h.holders.2 ⟨lock, hl, rfl⟩
  have h2 : e.holders[lock.owner]? = some slot' := h.holders.2 ⟨lock', hl', ho.symm⟩
  rw [h1] at h2
  exact Option.some.inj h2

/-- **The lock held by an owner is the granted lock of that owner.** -/
theorem held?_eq_some_iff (h : e.Coherent r) {txn : TxnId} {lock : Lock} :
    e.held? txn = some lock ↔ lock.owner = txn ∧ ∃ slot : Nat, e.granted[slot]? = some lock := by
  rw [held?, Option.bind_eq_some_iff]
  constructor
  · rintro ⟨slot, hs, hl⟩
    obtain ⟨lock', hl', ho⟩ := h.holders.1 hs
    rw [hl] at hl'
    cases hl'
    exact ⟨ho, slot, hl⟩
  · rintro ⟨ho, slot, hl⟩
    exact ⟨slot, h.holders.2 ⟨lock, hl, ho⟩, hl⟩

theorem held?_eq_none_iff (h : e.Coherent r) {txn : TxnId} :
    e.held? txn = none ↔ e.holders[txn]? = none := by
  rw [held?, Option.bind_eq_none_iff]
  constructor
  · intro hn
    cases hs : e.holders[txn]? with
    | none => rfl
    | some slot =>
      obtain ⟨lock, hl, -⟩ := h.holders.1 hs
      have := hn slot hs
      rw [hl] at this
      cases this
  · intro hs slot hc
    rw [hs] at hc
    cases hc

theorem mem_locks_iff (h : e.Coherent r) {lock : Lock} :
    lock ∈ e.locks ↔ e.held? lock.owner = some lock := by
  rw [mem_locks, h.held?_eq_some_iff]
  exact ⟨fun hl => ⟨rfl, hl⟩, fun hl => hl.2⟩

/-- **Nobody owns two locks of an entry, and its locks agree.** -/
theorem pairwise_locks (h : e.Coherent r) :
    e.locks.Pairwise fun a b => a.owner ≠ b.owner ∧ a.mode.compatible b.mode := by
  rw [locks, List.pairwise_map]
  refine e.granted.distinct_keys_toList.imp_of_mem ?_
  rintro ⟨slot, a⟩ ⟨slot', b⟩ ha hb hne
  rw [ExtTreeMap.mem_toList_iff_getElem?_eq_some] at ha hb
  have ho : a.owner ≠ b.owner := by
    intro ho
    exact hne (by simp [h.slot_unique ha hb ho])
  exact ⟨ho, h.compatible ha hb ho⟩

/-- A coherent entry has as many holders as locks. -/
theorem size_holders (h : e.Coherent r) : e.granted.size = e.holders.size := by
  have hp : e.ownerships.Perm e.holders.toList := by
    refine (List.perm_ext_iff_of_nodup (nodup_ownerships e) (Map.nodup_toList _)).2 ?_
    rintro ⟨txn, slot⟩
    rw [ExtTreeMap.mem_toList_iff_getElem?_eq_some, h.holders, mem_ownerships]
  rw [← length_ownerships, ← ExtTreeMap.length_toList]
  exact hp.length_eq

/-- Other requests make no difference. -/
theorem requeue (h : e.Coherent r) (queue : List Request) :
    ({ e with queue } : Entry).Coherent r :=
  ⟨h.resource, h.holders, h.compatible⟩

variable {slot : Nat} {lock : Lock}

/-- What is granted after a write is the lock written, or was granted before. -/
theorem getElem?_insert_cases {m : ExtTreeMap Nat Lock} {s : Nat} {l : Lock}
    (hl : (m.insert slot lock)[s]? = some l) : l = lock ∨ m[s]? = some l := by
  rw [ExtTreeMap.getElem?_insert] at hl
  split at hl
  · exact .inl (Option.some.inj hl).symm
  · exact .inr hl

/-- A lock that agrees with those of others may be written to any slot; the holders are left to be
looked at. -/
theorem insert (h : e.Coherent r) (hr : lock.resource = r) (ha : e.admits lock.mode lock.owner)
    {holders : ExtTreeMap TxnId Nat}
    (hh : ∀ {txn : TxnId} {s : Nat}, holders[txn]? = some s ↔
      ∃ l, (e.granted.insert slot lock)[s]? = some l ∧ l.owner = txn) :
    ({ e with granted := e.granted.insert slot lock, holders } : Entry).Coherent r := by
  rw [admits_iff] at ha
  refine ⟨?_, hh, ?_⟩
  · intro s l hl
    rcases getElem?_insert_cases hl with rfl | hl₀
    · exact hr
    · exact h.resource hl₀
  · -- each of two locks is the new one, or was there before
    intro s s' l l' hl hl' hne
    rcases getElem?_insert_cases hl with rfl | hl₀ <;>
      rcases getElem?_insert_cases hl' with rfl | hl₁
    · exact absurd rfl hne
    · exact ha l' (mem_locks.2 ⟨s', hl₁⟩) (Ne.symm hne)
    · rw [Mode.compatible_comm]
      exact ha l (mem_locks.2 ⟨s, hl₀⟩) hne
    · exact h.compatible hl₀ hl₁ hne

/-- A lock that agrees with those of others may take the place of one of the same owner. -/
theorem retype (h : e.Coherent r) {held : Lock} (hs : e.granted[slot]? = some held)
    (ho : held.owner = lock.owner) (hr : lock.resource = r)
    (ha : e.admits lock.mode lock.owner) :
    ({ e with granted := e.granted.insert slot lock } : Entry).Coherent r := by
  refine h.insert hr ha ?_
  intro txn s
  rw [h.holders, ExtTreeMap.getElem?_insert]
  by_cases hc : slot = s
  · subst hc
    simp [hs, ho]
  · simp [hc]

/-- A lock that agrees with those of others may be added for an owner without one. -/
theorem add (h : e.Coherent r) (hs : e.granted[slot]? = none)
    (ho : e.holders[lock.owner]? = none) (hr : lock.resource = r)
    (ha : e.admits lock.mode lock.owner) :
    ({ e with granted := e.granted.insert slot lock
              holders := e.holders.insert lock.owner slot } : Entry).Coherent r := by
  refine h.insert hr ha ?_
  intro txn s
  rw [ExtTreeMap.getElem?_insert, ExtTreeMap.getElem?_insert]
  by_cases hc : lock.owner = txn
  · subst hc
    -- no other slot has a lock of this owner, for there was no holder
    have hno : ¬ ∃ l, e.granted[s]? = some l ∧ l.owner = lock.owner := by
      rw [← h.holders, ho]
      simp
    by_cases hs' : slot = s
    · simp [hs']
    · simpa [hs'] using hno
  · by_cases hs' : slot = s
    · subst hs'
      have hno : e.holders[txn]? ≠ some slot := by
        rw [Ne, h.holders, hs]
        simp
      simp [hc, hno]
    · simp [hc, hs', h.holders]

/-- A lock may be removed together with its holder. -/
theorem remove (h : e.Coherent r) (hs : e.granted[slot]? = some lock) :
    ({ e with granted := e.granted.erase slot
              holders := e.holders.erase lock.owner } : Entry).Coherent r := by
  have hold : ∀ {s : Nat} {l : Lock}, (e.granted.erase slot)[s]? = some l →
      slot ≠ s ∧ e.granted[s]? = some l := by
    intro s l hl
    simpa [ExtTreeMap.getElem?_erase] using hl
  refine ⟨fun hl => h.resource (hold hl).2, ?_,
    fun hl hl' => h.compatible (hold hl).2 (hold hl').2⟩
  intro txn s
  rw [ExtTreeMap.getElem?_erase, ExtTreeMap.getElem?_erase]
  by_cases hc : lock.owner = txn
  · subst hc
    -- a lock that this owner had left would stand in the slot that was erased
    simp only [ReflCmp.compare_self, if_true, reduceCtorEq, false_iff]
    rintro ⟨l, hl, ho⟩
    split at hl
    · cases hl
    · rename_i hne
      exact hne (by simp [h.slot_unique hs hl ho.symm])
  · by_cases hs' : slot = s
    · subst hs'
      have hno : e.holders[txn]? ≠ some slot := by
        rw [Ne, h.holders, hs]
        simpa using hc
      simp [hc, hno]
    · simp [hc, hs', h.holders]

/-! ## What each change does to a coherent entry -/

/-- A change of mode takes the place of the lock that is held. -/
theorem retype?_of_held (h : e.Coherent r) (hr : lock.resource = r) {held : Lock}
    (hh : e.held? lock.owner = some held) :
    ∃ slot : Nat, e.granted[slot]? = some held ∧
      e.retype? lock = some (slot, { e with granted := e.granted.insert slot lock }) := by
  obtain ⟨ho, slot, hs⟩ := h.held?_eq_some_iff.1 hh
  have hl : ({ held with mode := lock.mode } : Lock) = lock := by
    have := h.resource hs
    cases lock
    simp_all
  refine ⟨slot, hs, ?_⟩
  simp only [retype?, h.holders.2 ⟨held, hs, ho⟩, hs, hl]

theorem retype?_of_not_held (h : e.Coherent r) (hh : e.held? lock.owner = none) :
    e.retype? lock = none := by
  simp only [retype?, h.held?_eq_none_iff.1 hh]

theorem add?_of_not_held (h : e.Coherent r) (hh : e.held? lock.owner = none) (slot : Nat) :
    e.add? slot lock = some { e with
      granted := e.granted.insert slot lock
      holders := e.holders.insert lock.owner slot } := by
  have hn := h.held?_eq_none_iff.1 hh
  rw [add?, if_neg]
  simp [ExtTreeMap.mem_iff_isSome_getElem?, hn]

theorem remove?_of_held (h : e.Coherent r) (hh : e.held? lock.owner = some lock) :
    ∃ slot : Nat, e.granted[slot]? = some lock ∧
      e.remove? lock = some (slot, { e with
        granted := e.granted.erase slot
        holders := e.holders.erase lock.owner }) := by
  obtain ⟨-, slot, hs⟩ := h.held?_eq_some_iff.1 hh
  refine ⟨slot, hs, ?_⟩
  simp only [remove?, h.holders.2 ⟨lock, hs, rfl⟩, hs, if_true]

/-- Only a lock that is held exactly so is removed. -/
theorem remove?_of_not_held (h : e.Coherent r) (hh : e.held? lock.owner ≠ some lock) :
    e.remove? lock = none := by
  unfold remove?
  split
  · rfl
  · rename_i slot hs
    split
    · rename_i hl
      exact absurd (h.held?_eq_some_iff.2 ⟨rfl, slot, hl⟩) hh
    · rfl

/-- After a lock has been written to a slot that was free or its owner's, its owner holds it, and
nobody else holds anything else. -/
theorem held?_insert (h : e.Coherent r) {holders : ExtTreeMap TxnId Nat}
    (h' : ({ e with granted := e.granted.insert slot lock, holders } : Entry).Coherent r)
    (hs : ∀ held, e.granted[slot]? = some held → held.owner = lock.owner) (txn : TxnId) :
    ({ e with granted := e.granted.insert slot lock, holders } : Entry).held? txn =
      if lock.owner = txn then some lock else e.held? txn := by
  split
  · rename_i ho
    exact h'.held?_eq_some_iff.2 ⟨ho, slot, by simp⟩
  · rename_i ho
    refine Option.ext fun l => ?_
    rw [h.held?_eq_some_iff, h'.held?_eq_some_iff]
    refine and_congr_right ?_
    rintro rfl
    constructor
    · rintro ⟨s, hl⟩
      rcases getElem?_insert_cases hl with rfl | hl₀
      · exact absurd rfl ho
      · exact ⟨s, hl₀⟩
    · rintro ⟨s, hl⟩
      refine ⟨s, ?_⟩
      -- the slot that is written held nothing of another owner
      have hne : slot ≠ s := by
        rintro rfl
        exact ho (hs l hl).symm
      simpa [ExtTreeMap.getElem?_insert, hne] using hl

/-- After a lock has been removed, its owner holds nothing. -/
theorem held?_remove (h : e.Coherent r) (hs : e.granted[slot]? = some lock) (txn : TxnId) :
    ({ e with granted := e.granted.erase slot
              holders := e.holders.erase lock.owner } : Entry).held? txn =
      if lock.owner = txn then none else e.held? txn := by
  have h' := h.remove hs
  split
  · rename_i ho
    rw [h'.held?_eq_none_iff]
    simp [ho]
  · rename_i ho
    refine Option.ext fun l => ?_
    rw [h.held?_eq_some_iff, h'.held?_eq_some_iff]
    refine and_congr_right ?_
    rintro rfl
    refine exists_congr fun s => ?_
    have hne : slot = s → e.granted[s]? ≠ some l := by
      rintro rfl hl
      rw [hs] at hl
      cases hl
      exact ho rfl
    by_cases hc : slot = s
    · simpa [ExtTreeMap.getElem?_erase, hc] using hne hc
    · simp [ExtTreeMap.getElem?_erase, hc]

end Coherent

end Locking.Entry
