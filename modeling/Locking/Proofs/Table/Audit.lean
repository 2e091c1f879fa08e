import Mathlib.Data.List.Perm.Subperm
import Locking.Map.Gather
import Locking.Proofs.Table.Sound

/-!
# The audit is exact

The audit looks at half of what makes a table coherent: that what is in the index is held, that what
is granted is in the index, and that there is as much of the one as of the other. It finds nothing
exactly in coherent tables, for lists of the same length that hold nothing twice are the same as soon
as one of them is part of the other.

* `Entry.holders_iff_of_size`: holders that are as many as the locks are just the owners of these.
* `Table.grants`, `Table.records`: the granted locks with their slots, by the entries and by the
  index.
* `Table.Examined`: what the audit looks at; `audit_eq_none_iff_examined`.
* `Examined.coherent`, `Coherent.examined`: it is all there is to be looked at.
* `Table.audit_exact`: the audit finds nothing if and only if everything is in order, in any table.
-/

namespace Locking

open Std Map

/-- **Holders that are as many as the granted locks** are just the owners of these, if every owner is
among them with its slot. -/
theorem Entry.holders_iff_of_size {e : Entry} (hsize : e.granted.size = e.holders.size)
    (h : ∀ {slot : Nat} {lock : Lock}, e.granted[slot]? = some lock →
      e.holders[lock.owner]? = some slot) {txn : TxnId} {slot : Nat} :
    e.holders[txn]? = some slot ↔ ∃ lock, e.granted[slot]? = some lock ∧ lock.owner = txn := by
  have hsub : e.ownerships ⊆ e.holders.toList := by
    rintro ⟨txn, slot⟩ hm
    obtain ⟨lock, hl, rfl⟩ := mem_ownerships.1 hm
    exact ExtTreeMap.mem_toList_iff_getElem?_eq_some.2 (h hl)
  have hlength : e.holders.toList.length ≤ e.ownerships.length := by
    refine Nat.le_of_eq ?_
    rw [ExtTreeMap.length_toList, length_ownerships, hsize]
  have hperm := (List.subperm_of_subset (nodup_ownerships e) hsub).perm_of_length_le hlength
  rw [← mem_ownerships, hperm.mem_iff, ExtTreeMap.mem_toList_iff_getElem?_eq_some]

namespace Table

variable {t : Table}

/-! ## What is there, and what is looked up -/

/-- What holds of an idle entry holds of all entries if it holds of those that are there. -/
theorem forall_entries_iff {P : Resource → Entry → Prop} (hidle : ∀ r, P r {}) :
    (∀ (r : Resource) e, t.entries[r]? = some e → P r e) ↔ ∀ r, P r (t.entry r) := by
  have hentry : ∀ r, t.entry r = t.entries[r]?.getD {} := fun r =>
    ExtTreeMap.getD_eq_getD_getElem?
  constructor
  · intro h r
    rw [hentry]
    cases he : t.entries[r]? with
    | none => exact hidle r
    | some e => exact h r e he
  · intro h r e he
    have := h r
    rwa [hentry, he] at this

/-- What holds of no slots holds of those of all transactions if it holds of those in the index. -/
theorem forall_index_iff {P : TxnId → ExtTreeMap Nat Lock → Prop} (hnone : ∀ txn, P txn ∅) :
    (∀ (txn : TxnId) slots, t.index[txn]? = some slots → P txn slots) ↔
      ∀ txn, P txn (t.slots txn) := by
  have hslots : ∀ txn, t.slots txn = t.index[txn]?.getD ∅ := fun txn =>
    ExtTreeMap.getD_eq_getD_getElem?
  constructor
  · intro h txn
    rw [hslots]
    cases hs : t.index[txn]? with
    | none => exact hnone txn
    | some slots => exact h txn slots hs
  · intro h txn slots hs
    have := h txn
    rwa [hslots, hs] at this

/-! ## The granted locks, listed twice -/

/-- The granted locks with their slots, as the entries tell. -/
def grants (t : Table) : List (Nat × Lock) := gather (fun e => e.granted.toList) t.entries

/-- The granted locks with their slots, as the index tells. -/
def records (t : Table) : List (Nat × Lock) := gather (fun slots => slots.toList) t.index

theorem length_grants (t : Table) : t.grants.length = t.grantedTotal := by
  simp only [grants, length_gather, grantedTotal, ExtTreeMap.length_toList]

theorem length_records (t : Table) : t.records.length = t.indexedTotal := by
  simp only [records, length_gather, indexedTotal, ExtTreeMap.length_toList]

theorem mem_grants {slot : Nat} {lock : Lock} :
    (slot, lock) ∈ t.grants ↔ ∃ r, (t.entry r).granted[slot]? = some lock := by
  rw [grants, mem_gather, ← not_iff_not]
  push Not
  simp only [ExtTreeMap.mem_toList_iff_getElem?_eq_some]
  exact forall_entries_iff (P := fun _ e => e.granted[slot]? ≠ some lock) (by simp)

theorem mem_records {slot : Nat} {lock : Lock} :
    (slot, lock) ∈ t.records ↔ ∃ txn, (t.slots txn)[slot]? = some lock := by
  rw [records, mem_gather, ← not_iff_not]
  push Not
  simp only [ExtTreeMap.mem_toList_iff_getElem?_eq_some]
  exact forall_index_iff (P := fun _ slots => slots[slot]? ≠ some lock) (by simp)

/-- Locks that are granted where they say are told apart by themselves. -/
theorem nodup_grants (h : ∀ {r : Resource} {slot : Nat} {lock : Lock},
    (t.entry r).granted[slot]? = some lock → lock.resource = r) : t.grants.Nodup := by
  refine nodup_gather (fun p => p.2.resource) (fun _ e _ => nodup_toList e.granted) ?_
  refine (forall_entries_iff (by simp)).2 fun r => ?_
  rintro ⟨slot, lock⟩ hm
  exact h (ExtTreeMap.mem_toList_iff_getElem?_eq_some.1 hm)

/-- Locks that are indexed for their owners are told apart by themselves. -/
theorem nodup_records (h : ∀ {txn : TxnId} {slot : Nat} {lock : Lock},
    (t.slots txn)[slot]? = some lock → lock.owner = txn) : t.records.Nodup := by
  refine nodup_gather (fun p => p.2.owner) (fun _ slots _ => nodup_toList slots) ?_
  refine (forall_index_iff (by simp)).2 fun txn => ?_
  rintro ⟨slot, lock⟩ hm
  exact h (ExtTreeMap.mem_toList_iff_getElem?_eq_some.1 hm)

/-! ## What the audit looks at -/

/-- What the audit looks at. -/
structure Examined (t : Table) : Prop where
  index : ∀ txn : TxnId, t.index[txn]? ≠ some ∅
  /-- What is in the index is held. -/
  slots : ∀ {txn : TxnId} {slot : Nat} {lock : Lock}, (t.slots txn)[slot]? = some lock →
    (t.entry lock.resource).holders[txn]? = some slot ∧ lock.owner = txn
  size : ∀ r, (t.entry r).granted.size = (t.entry r).holders.size
  /-- What is granted is in the index. -/
  granted : ∀ {r : Resource} {slot : Nat} {lock : Lock}, (t.entry r).granted[slot]? = some lock →
    lock.resource = r ∧ (t.slots lock.owner)[slot]? = some lock
  compatible : ∀ r,
    (t.entry r).locks.Pairwise fun a b => a.owner ≠ b.owner → a.mode.compatible b.mode
  counts : t.grantedTotal = t.indexedTotal ∧ t.grantedTotal = t.grantedCount ∧
    t.waitingTotal = t.waitingCount

theorem auditSlots_eq_none_iff {owner : TxnId} {slots : ExtTreeMap Nat Lock} :
    t.auditSlots owner slots = none ↔ slots ≠ ∅ ∧
      ∀ (slot : Nat) (lock : Lock), slots[slot]? = some lock →
      (t.entry lock.resource).holders[owner]? = some slot ∧ lock.owner = owner := by
  rw [auditSlots]
  cases hempty : slots.isEmpty with
  | true => simp [ExtTreeMap.isEmpty_iff.1 hempty]
  | false =>
    have hne : slots ≠ ∅ := ExtTreeMap.isEmpty_eq_false_iff.1 hempty
    simp only [hne, Bool.false_eq_true, if_false, List.findSome?_eq_none_iff, ne_eq,
      not_false_eq_true, true_and, ite_eq_left_iff, reduceCtorEq, imp_false, not_not, Prod.forall,
      ExtTreeMap.mem_toList_iff_getElem?_eq_some]

theorem auditEntry_eq_none_iff {r : Resource} {e : Entry} :
    t.auditEntry r e = none ↔ e.granted.size = e.holders.size ∧
      (∀ (slot : Nat) (lock : Lock), e.granted[slot]? = some lock →
        lock.resource = r ∧ (t.slots lock.owner)[slot]? = some lock) ∧
      e.locks.Pairwise fun a b => a.owner ≠ b.owner → a.mode.compatible b.mode := by
  rw [auditEntry]
  by_cases hsize : e.granted.size = e.holders.size
  · simp only [hsize, ne_eq, not_true_eq_false, if_false, Option.or_eq_none_iff,
      Option.map_eq_none_iff, firstConflict?_eq_none_iff, List.findSome?_eq_none_iff, true_and,
      ite_eq_left_iff, reduceCtorEq, imp_false, not_not, Prod.forall,
      ExtTreeMap.mem_toList_iff_getElem?_eq_some]
  · simp [hsize]

theorem auditCounts_eq_none_iff :
    t.auditCounts = none ↔ t.grantedTotal = t.indexedTotal ∧ t.grantedTotal = t.grantedCount ∧
      t.waitingTotal = t.waitingCount := by
  rw [auditCounts]
  simp only [ite_eq_left_iff, reduceCtorEq, imp_false, not_not]

/-- The audit finds nothing in the index. -/
theorem forall_auditSlots_iff :
    (∀ (txn : TxnId) slots, t.index[txn]? = some slots → t.auditSlots txn slots = none) ↔
      (∀ txn : TxnId, t.index[txn]? ≠ some ∅) ∧
        ∀ (txn : TxnId) (slot : Nat) (lock : Lock), (t.slots txn)[slot]? = some lock →
          (t.entry lock.resource).holders[txn]? = some slot ∧ lock.owner = txn := by
  rw [← forall_index_iff (P := fun txn slots => ∀ (slot : Nat) (lock : Lock),
    slots[slot]? = some lock →
      (t.entry lock.resource).holders[txn]? = some slot ∧ lock.owner = txn) (by simp)]
  simp only [auditSlots_eq_none_iff]
  constructor
  · intro h
    exact ⟨fun txn hs => (h txn ∅ hs).1 rfl, fun txn slots hs => (h txn slots hs).2⟩
  · rintro ⟨hindex, hheld⟩ txn slots hs
    refine ⟨?_, hheld txn slots hs⟩
    rintro rfl
    exact hindex txn hs

/-- The audit finds nothing in the entries. -/
theorem forall_auditEntry_iff :
    (∀ (r : Resource) e, t.entries[r]? = some e → t.auditEntry r e = none) ↔
      ∀ r, t.auditEntry r (t.entry r) = none :=
  forall_entries_iff fun _ => rfl

theorem audit_eq_none_iff_examined : t.audit = none ↔ t.Examined := by
  rw [audit, Option.or_eq_none_iff, Option.or_eq_none_iff, List.findSome?_eq_none_iff,
    List.findSome?_eq_none_iff, auditCounts_eq_none_iff]
  simp only [Prod.forall, ExtTreeMap.mem_toList_iff_getElem?_eq_some, forall_auditSlots_iff,
    forall_auditEntry_iff]
  simp only [auditEntry_eq_none_iff]
  constructor
  · rintro ⟨⟨⟨hindex, hslots⟩, hentries⟩, hcounts⟩
    exact ⟨hindex, hslots _ _ _, fun r => (hentries r).1, (hentries _).2.1 _ _,
      fun r => (hentries r).2.2, hcounts⟩
  · intro h
    exact ⟨⟨⟨h.index, fun _ _ _ => h.slots⟩, fun r =>
      ⟨h.size r, fun _ _ => h.granted, h.compatible r⟩⟩, h.counts⟩

/-! ## It is all there is to be looked at -/

/-- What is examined is indexed only as it is granted: there is no more in the index than in the
entries. -/
theorem Examined.perm (h : t.Examined) : t.grants.Perm t.records := by
  have hnodup : t.grants.Nodup := nodup_grants fun hl => (h.granted hl).1
  have hsub : t.grants ⊆ t.records := by
    rintro ⟨slot, lock⟩ hm
    obtain ⟨r, hl⟩ := mem_grants.1 hm
    exact mem_records.2 ⟨lock.owner, (h.granted hl).2⟩
  have hlength : t.records.length ≤ t.grants.length := by
    refine Nat.le_of_eq ?_
    rw [length_grants, length_records, h.counts.1]
  exact (List.subperm_of_subset hnodup hsub).perm_of_length_le hlength

/-- **What is examined is coherent.** -/
theorem Examined.coherent (h : t.Examined) : t.Coherent where
  entry r := by
    refine ⟨fun hl => (h.granted hl).1, Entry.holders_iff_of_size (h.size r) ?_, ?_⟩
    · -- what is granted is in the index, and so it is held
      intro slot lock hl
      obtain ⟨hr, hi⟩ := h.granted hl
      exact hr ▸ (h.slots hi).1
    · have hall := (h.compatible r).forall_of_forall_of_flip (fun _ _ hne => absurd rfl hne)
        ((h.compatible r).imp fun hc hne => ?_)
      · intro slot slot' lock lock' hl hl'
        exact hall (Entry.mem_locks.2 ⟨slot, hl⟩) (Entry.mem_locks.2 ⟨slot', hl'⟩)
      · exact (Mode.compatible_comm _ _).trans (hc hne.symm)
  slots {txn slot lock} := by
    constructor
    · intro hi
      obtain ⟨r, hl⟩ := mem_grants.1 (h.perm.mem_iff.2 (mem_records.2 ⟨txn, hi⟩))
      obtain rfl := (h.granted hl).1
      exact ⟨(h.slots hi).2, hl⟩
    · rintro ⟨rfl, hl⟩
      exact (h.granted hl).2
  index := h.index
  granted := h.counts.2.1
  indexed := h.counts.1.symm.trans h.counts.2.1
  waiting := h.counts.2.2

/-- Where entries and index tell the same, they tell as much. -/
theorem grantedTotal_eq_indexedTotal (hentry : ∀ r, (t.entry r).Coherent r)
    (hslots : ∀ {txn : TxnId} {slot : Nat} {lock : Lock}, (t.slots txn)[slot]? = some lock ↔
      lock.owner = txn ∧ (t.entry lock.resource).granted[slot]? = some lock) :
    t.grantedTotal = t.indexedTotal := by
  have hperm : t.grants.Perm t.records := by
    refine (List.perm_ext_iff_of_nodup (nodup_grants (hentry _).resource)
      (nodup_records fun hi => (hslots.1 hi).1)).2 ?_
    rintro ⟨slot, lock⟩
    rw [mem_grants, mem_records]
    constructor
    · rintro ⟨r, hl⟩
      obtain rfl := (hentry r).resource hl
      exact ⟨lock.owner, hslots.2 ⟨rfl, hl⟩⟩
    · rintro ⟨txn, hi⟩
      exact ⟨lock.resource, (hslots.1 hi).2⟩
  rw [← length_grants, ← length_records]
  exact hperm.length_eq

/-- **A coherent table stands up to examination.** -/
theorem Coherent.examined (h : t.Coherent) : t.Examined where
  index := h.index
  slots hi := by
    obtain ⟨ho, hl⟩ := h.slots.1 hi
    exact ⟨(h.entry _).holders.2 ⟨_, hl, ho⟩, ho⟩
  size r := (h.entry r).size_holders
  granted {r slot lock} hl := by
    obtain rfl := (h.entry r).resource hl
    exact ⟨rfl, h.slots.2 ⟨rfl, hl⟩⟩
  compatible r := (h.entry r).pairwise_locks.imp fun hp _ => hp.2
  counts := ⟨h.granted.trans h.indexed.symm, h.granted, h.waiting⟩

/-- The audit finds nothing wrong with a coherent table. -/
theorem Coherent.audit_eq_none (h : t.Coherent) : t.audit = none :=
  audit_eq_none_iff_examined.2 h.examined

/-- **The audit is exact**, whatever table it is given. It finds nothing if and only if no transaction
is in the index without a lock, the index lists just the locks that the entries have granted, under
their slots, every entry is coherent (its locks are on its resource, its holders are just their
owners, each with the slot of its only lock, and locks of different owners agree), and both counts
are right. -/
theorem audit_exact (t : Table) :
    t.audit = none ↔
      (∀ txn : TxnId, t.index[txn]? ≠ some ∅) ∧
      (∀ (txn : TxnId) (slot : Nat) (lock : Lock), (t.slots txn)[slot]? = some lock ↔
        lock.owner = txn ∧ (t.entry lock.resource).granted[slot]? = some lock) ∧
      (∀ (r : Resource) (e : Entry), t.entries[r]? = some e → e.Coherent r) ∧
      t.grantedTotal = t.grantedCount ∧ t.waitingTotal = t.waitingCount := by
  rw [audit_eq_none_iff_examined, forall_entries_iff Entry.coherent_idle]
  constructor
  · intro h
    have hc := h.coherent
    exact ⟨hc.index, fun _ _ _ => hc.slots, hc.entry, hc.granted, hc.waiting⟩
  · rintro ⟨hindex, hslots, hentry, hgranted, hwaiting⟩
    have hequal := grantedTotal_eq_indexedTotal hentry (hslots _ _ _)
    exact Coherent.examined ⟨hentry, hslots _ _ _, hindex, hgranted, hequal ▸ hgranted, hwaiting⟩

end Table

end Locking
