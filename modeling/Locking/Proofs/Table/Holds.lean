import Locking.Proofs.Table.Owner

/-!
# Holds

A lock is held from its first grant until it is released, whatever its mode becomes in between. Such
a hold is told apart from all others, also from those of other times, by the slot of its first grant.
A ledger lists all holds of a manager in order of first grant, as the events tell.

* `Hold`, `Ledger`, `Ledger.record`: what is written down of events.
* `Ledger.holds_after`: some events later a ledger lists what has not been released, in the old
  order, and then what has been granted anew.
* `Table.Booked`: the entries and the index of a table list their holds as a ledger does.
* `Booked.put`, `Booked.take`: they still do where a lock has been granted, or released, and that
  has been written down.
-/

namespace Locking

open Std

/-- Who holds what. -/
def Lock.key (lock : Lock) : TxnId × Resource := (lock.owner, lock.resource)

/-- A lock that is held, and the slot of its first grant. -/
structure Hold where
  slot : Nat
  owner : TxnId
  resource : Resource
  deriving DecidableEq, Repr

/-- Who holds what. -/
def Hold.key (h : Hold) : TxnId × Resource := (h.owner, h.resource)

/-- The hold of a lock that is granted in a slot. -/
def Lock.hold (lock : Lock) (slot : Nat) : Hold := ⟨slot, lock.owner, lock.resource⟩

@[simp] theorem Lock.key_hold (lock : Lock) (slot : Nat) : (lock.hold slot).key = lock.key := rfl

/-! ## What events tell -/

/-- The holds in order of first grant, and how many first grants there have been. -/
structure Ledger where
  grants : Nat := 0
  holds : List Hold := []
  deriving DecidableEq, Repr

namespace Ledger

/-- Writes down an event. A lock that takes the place of another one is no new hold. -/
def record (b : Ledger) : Event → Ledger
  | .granted lock => ⟨b.grants + 1, b.holds ++ [lock.hold b.grants]⟩
  | .released lock => { b with holds := b.holds.filter (·.key ≠ lock.key) }
  | _ => b

/-- The ledger after some events. -/
def after (b : Ledger) (es : List Event) : Ledger := es.foldl record b

@[simp] theorem after_nil (b : Ledger) : b.after [] = b := rfl

theorem after_cons (b : Ledger) (e : Event) (es : List Event) :
    b.after (e :: es) = (b.record e).after es := rfl

theorem after_append (b : Ledger) (es fs : List Event) :
    b.after (es ++ fs) = (b.after es).after fs := List.foldl_append

/-- The holds are listed in order of their slots, which have all been handed out, and nobody holds a
resource twice. -/
structure Ordered (b : Ledger) : Prop where
  ascending : b.holds.Pairwise fun h k => h.slot < k.slot
  used : ∀ h ∈ b.holds, h.slot < b.grants
  single : b.holds.Pairwise fun h k => h.key ≠ k.key

theorem ordered_empty : Ordered {} := ⟨.nil, by simp, .nil⟩

theorem Ordered.slot_inj {b : Ledger} (h : b.Ordered) {x y : Hold} (hx : x ∈ b.holds)
    (hy : y ∈ b.holds) (hs : x.slot = y.slot) : x = y := by
  have hnodup : (b.holds.map Hold.slot).Nodup :=
    List.pairwise_map.2 (h.ascending.imp Nat.ne_of_lt)
  exact List.inj_on_of_nodup_map hnodup hx hy hs

/-- A new hold comes last, if nobody holds its resource in the same name. -/
theorem Ordered.granted {b : Ledger} (h : b.Ordered) {lock : Lock}
    (hfree : ∀ x ∈ b.holds, x.key ≠ lock.key) : (b.record (.granted lock)).Ordered where
  ascending := by
    refine List.pairwise_append.2 ⟨h.ascending, List.pairwise_singleton _ _, fun x hx y hy => ?_⟩
    rw [List.mem_singleton.1 hy]
    exact h.used x hx
  used := by
    intro x hx
    change x.slot < b.grants + 1
    rcases List.mem_append.1 hx with hx | hx
    · exact Nat.lt_succ_of_lt (h.used x hx)
    · rw [List.mem_singleton.1 hx]
      exact Nat.lt_succ_self b.grants
  single := by
    refine List.pairwise_append.2 ⟨h.single, List.pairwise_singleton _ _, fun x hx y hy => ?_⟩
    rw [List.mem_singleton.1 hy]
    exact hfree x hx

theorem Ordered.released {b : Ledger} (h : b.Ordered) (lock : Lock) :
    (b.record (.released lock)).Ordered where
  ascending := h.ascending.filter _
  used := fun x hx => h.used x (List.mem_filter.1 hx).1
  single := h.single.filter _

end Ledger

/-- The holds that have been released, by owner and resource. -/
def releasedKeys (es : List Event) : List (TxnId × Resource) :=
  es.filterMap fun
    | .released lock => some lock.key
    | _ => none

/-- **What remains of a ledger and what is new**: some events later it lists what has not been
released in the meantime, in the old order, and then what has been granted anew, under new slots. -/
theorem Ledger.holds_after (b : Ledger) (es : List Event) :
    b.grants ≤ (b.after es).grants ∧
    ∃ fresh, (b.after es).holds = b.holds.filter (·.key ∉ releasedKeys es) ++ fresh ∧
      ∀ h ∈ fresh, b.grants ≤ h.slot ∧ ∃ lock, .granted lock ∈ es ∧ lock.key = h.key := by
  induction es generalizing b with
  | nil => exact ⟨Nat.le_refl _, [], by simp [releasedKeys], by simp⟩
  | cons e es ih =>
    obtain ⟨hgrants, fresh, hholds, hfresh⟩ := ih (b.record e)
    rw [after_cons]
    have hlater : ∀ h ∈ fresh, (b.record e).grants ≤ h.slot ∧
        ∃ lock, .granted lock ∈ e :: es ∧ lock.key = h.key := fun h hm =>
      ⟨(hfresh h hm).1, (hfresh h hm).2.imp fun _ hl => ⟨List.mem_cons_of_mem e hl.1, hl.2⟩⟩
    rw [hholds]
    cases e with
    | granted lock =>
      -- the new hold is listed behind the old ones, unless it has been released again
      refine ⟨Nat.le_of_succ_le hgrants, [lock.hold b.grants].filter (·.key ∉ releasedKeys es) ++
        fresh, ?_, fun h hm => ?_⟩
      · have hkeys : releasedKeys (.granted lock :: es) = releasedKeys es := rfl
        have hnew : (b.record (.granted lock)).holds = b.holds ++ [lock.hold b.grants] := rfl
        rw [hkeys, hnew, List.filter_append, List.append_assoc]
      · rcases List.mem_append.1 hm with hm | hm
        · rw [List.mem_singleton.1 (List.mem_filter.1 hm).1]
          exact ⟨Nat.le_refl _, lock, List.mem_cons_self, rfl⟩
        · exact ⟨Nat.le_of_succ_le (hlater h hm).1, (hlater h hm).2⟩
    | released lock =>
      refine ⟨hgrants, fresh, ?_, hlater⟩
      have hkeys : releasedKeys (.released lock :: es) = lock.key :: releasedKeys es := rfl
      rw [hkeys, record, List.filter_filter]
      congr 1
      refine List.filter_congr fun h _ => ?_
      simp [and_comm]
    | _ => exact ⟨hgrants, fresh, rfl, hlater⟩

/-! ## What tables list -/

/-- The locks that are listed by slot, as holds. -/
def holds (m : ExtTreeMap Nat Lock) : List Hold := m.toList.map fun p => p.2.hold p.1

section Listing

variable {m : ExtTreeMap Nat Lock} {slot : Nat} {held lock : Lock}

theorem mem_holds_iff {h : Hold} :
    h ∈ holds m ↔ ∃ lock, m[h.slot]? = some lock ∧ lock.key = h.key := by
  rw [holds, List.mem_map]
  constructor
  · rintro ⟨⟨slot, lock⟩, hm, rfl⟩
    exact ⟨lock, ExtTreeMap.mem_toList_iff_getElem?_eq_some.1 hm, rfl⟩
  · rintro ⟨lock, hl, hk⟩
    refine ⟨(h.slot, lock), ExtTreeMap.mem_toList_iff_getElem?_eq_some.2 hl, ?_⟩
    simp only [Lock.key, Hold.key, Prod.mk.injEq] at hk
    simp only [Lock.hold, hk]

/-- A lock that takes the place of another one of its owner on its resource is the same hold. -/
theorem holds_insert_of_some (h : m[slot]? = some held) (hk : held.key = lock.key) :
    holds (m.insert slot lock) = holds m := by
  rw [holds, Map.toList_insert_of_some h, List.map_map]
  refine List.map_congr_left fun ⟨s, l⟩ hm => ?_
  rw [ExtTreeMap.mem_toList_iff_getElem?_eq_some] at hm
  simp only [Lock.key, Prod.mk.injEq] at hk
  by_cases hs : slot = s
  · subst hs
    rw [h] at hm
    cases hm
    simp [Lock.hold, hk]
  · simp [hs]

theorem holds_insert_of_last (h : ∀ s l, m[s]? = some l → s < slot) :
    holds (m.insert slot lock) = holds m ++ [lock.hold slot] := by
  rw [holds, Map.toList_insert_of_last fun s l hl => Nat.compare_eq_lt.2 (h s l hl),
    List.map_append]
  rfl

/-- A lock that is erased is the only one with its owner and resource. -/
theorem holds_erase (h : m[slot]? = some lock)
    (hu : ∀ s l, m[s]? = some l → l.key = lock.key → slot = s) :
    holds (m.erase slot) = (holds m).filter (·.key ≠ lock.key) := by
  rw [holds, Map.toList_erase, holds, List.filter_map]
  refine congrArg _ (List.filter_congr fun ⟨s, l⟩ hm => ?_)
  rw [ExtTreeMap.mem_toList_iff_getElem?_eq_some] at hm
  by_cases hk : l.key = lock.key
  · obtain rfl := hu s l hm hk
    simp [hk]
  · have hne : slot ≠ s := by
      rintro rfl
      rw [h] at hm
      cases hm
      exact hk rfl
    simp [hk, hne]

end Listing

namespace Table

variable {t t' : Table} {b : Ledger} {r : Resource} {lock : Lock}

/-- The holds on a resource, as its entry lists them. -/
def holdsOn (t : Table) (r : Resource) : List Hold := holds (t.entry r).granted

/-- The holds of a transaction, as the index lists them. -/
def holdsOf (t : Table) (txn : TxnId) : List Hold := holds (t.slots txn)

/-- Holds on a resource are listed as its locks are. -/
theorem map_key_holdsOn (t : Table) (r : Resource) :
    (t.holdsOn r).map Hold.key = (t.locksOn r).map Lock.key := by
  rw [holdsOn, holds, locksOn, Entry.locks, List.map_map, List.map_map]
  rfl

theorem map_key_holdsOf (t : Table) (txn : TxnId) :
    (t.holdsOf txn).map Hold.key = (t.locksOf txn).map Lock.key := by
  rw [holdsOf, holds, locksOf, List.map_map, List.map_map]
  rfl

/-- **The table lists its holds as the ledger does**, those on every resource and those of every
transaction, and the next new hold will be given the next slot. -/
structure Booked (t : Table) (b : Ledger) : Prop extends Ledger.Ordered b where
  on : ∀ r, t.holdsOn r = b.holds.filter (·.resource = r)
  of : ∀ txn, t.holdsOf txn = b.holds.filter (·.owner = txn)
  next : t.nextSlot = b.grants

namespace Booked

theorem empty : Booked {} {} where
  toOrdered := Ledger.ordered_empty
  on := fun _ => rfl
  of := fun _ => rfl
  next := rfl

/-- Where the locks are the same under the same slots, the same ledger lists them. -/
theorem of_same_locks (h : Booked t b)
    (hgranted : ∀ s, (t'.entry s).granted = (t.entry s).granted) (hindex : t'.index = t.index)
    (hnext : t'.nextSlot = t.nextSlot) : Booked t' b where
  toOrdered := h.toOrdered
  on := fun r => by rw [holdsOn, hgranted]; exact h.on r
  of := fun txn => by rw [holdsOf, Table.slots, hindex]; exact h.of txn
  next := hnext.trans h.next

/-- A hold in the ledger is a lock that is granted. -/
theorem held?_of_mem (h : Booked t b) (hs : t.Sound) {x : Hold} (hx : x ∈ b.holds) :
    t.held? x.owner x.resource ≠ none := by
  have hon : x ∈ t.holdsOn x.resource := by
    rw [h.on]
    exact List.mem_filter.2 ⟨hx, by simp⟩
  obtain ⟨lock, hl, hk⟩ := mem_holds_iff.1 hon
  have hheld : t.held? x.owner x.resource = some lock :=
    hs.held?_eq_some_iff.2 ⟨congrArg Prod.fst hk, x.slot, hl⟩
  rw [hheld]
  nofun

/-- What is written to one entry and to the slots of one owner, as holds. -/
theorem write (h : Booked t b) {b' : Ledger} (hb : b'.Ordered) {e : Entry} {owner : TxnId}
    {slots : ExtTreeMap Nat Lock}
    (hentry : ∀ s, t'.entry s = if r = s then e else t.entry s)
    (hslots : ∀ txn, t'.slots txn = if owner = txn then slots else t.slots txn)
    (hr : holds e.granted = b'.holds.filter (·.resource = r))
    (ho : holds slots = b'.holds.filter (·.owner = owner))
    (hothers : ∀ s, r ≠ s → b'.holds.filter (·.resource = s) = b.holds.filter (·.resource = s))
    (hothers' : ∀ txn, owner ≠ txn →
      b'.holds.filter (·.owner = txn) = b.holds.filter (·.owner = txn))
    (hnext : t'.nextSlot = b'.grants) : Booked t' b' where
  toOrdered := hb
  on := fun s => by
    rw [holdsOn, hentry]
    split
    · rename_i hs
      exact hs ▸ hr
    · rename_i hs
      rw [hothers s hs]
      exact h.on s
  of := fun txn => by
    rw [holdsOf, hslots]
    split
    · rename_i hs
      exact hs ▸ ho
    · rename_i hs
      rw [hothers' txn hs]
      exact h.of txn
  next := hnext

theorem put (h : Booked t b) (hs : t.Sound) {ev : Event} (hp : t.put lock = .ok (t', ev)) :
    Booked t' (b.record ev) := by
  cases hh : t.held? lock.owner lock.resource with
  | some held =>
    obtain ⟨slot, hslot, hp'⟩ := hs.put_of_held? hh
    obtain ⟨ho, hres, -⟩ := hs.of_held? hh
    have hkey : held.key = lock.key := by rw [Lock.key, ho, hres, Lock.key]
    have hindex : (t.slots lock.owner)[slot]? = some held :=
      hs.slots.2 ⟨ho, by rw [hres]; exact hslot⟩
    cases hp.symm.trans hp'
    refine h.write h.toOrdered (t.entry_setEntry lock.resource · _)
      (fun txn => (t.setEntry lock.resource _).slots_setSlots lock.owner txn _) ?_ ?_
      (fun _ _ => rfl) (fun _ _ => rfl) h.next
    · exact (holds_insert_of_some hslot hkey).trans (h.on lock.resource)
    · exact (holds_insert_of_some hindex hkey).trans (h.of lock.owner)
  | none =>
    cases hp.symm.trans (hs.put_of_not_held hh)
    have hfree : ∀ x ∈ b.holds, x.key ≠ lock.key := by
      intro x hx hk
      refine h.held?_of_mem hs hx ?_
      rwa [show x.owner = lock.owner from congrArg Prod.fst hk,
        show x.resource = lock.resource from congrArg Prod.snd hk]
    have hnew : (b.record (.granted lock)).holds = b.holds ++ [lock.hold b.grants] := rfl
    refine h.write (h.granted hfree) (t.entry_setEntry lock.resource · _)
      (fun txn => (t.setEntry lock.resource _).slots_setSlots lock.owner txn _) ?_ ?_ ?_ ?_ ?_
    · rw [hnew, List.filter_append, ← h.on, ← h.next]
      refine (holds_insert_of_last fun s l hl => hs.slot_lt hl).trans ?_
      simp [Lock.hold, holdsOn]
    · rw [hnew, List.filter_append, ← h.of, ← h.next]
      refine (holds_insert_of_last fun s l hl => hs.slot_lt (hs.slots.1 hl).2).trans ?_
      simp [Lock.hold, holdsOf]
    · intro s hne
      rw [hnew, List.filter_append]
      simp [Lock.hold, hne]
    · intro txn hne
      rw [hnew, List.filter_append]
      simp [Lock.hold, hne]
    · exact congrArg (· + 1) h.next

theorem take (h : Booked t b) (hs : t.Sound) (ht : t.take lock = .ok t') :
    Booked t' (b.record (.released lock)) := by
  obtain ⟨slot, hslot, -, ht'⟩ := hs.take_of_held? (hs.of_take ht).1
  have hindex : (t.slots lock.owner)[slot]? = some lock := hs.slots.2 ⟨rfl, hslot⟩
  cases ht.symm.trans ht'
  have hleft : (b.record (.released lock)).holds = b.holds.filter (·.key ≠ lock.key) := rfl
  refine h.write (h.released lock) (t.entry_setEntry lock.resource · _)
    (fun txn => (t.setEntry lock.resource _).slots_setSlots lock.owner txn _) ?_ ?_ ?_ ?_ h.next
  · refine (holds_erase hslot fun s l hl hk => ?_).trans ?_
    · exact ((hs.entry lock.resource).slot_unique hl hslot (congrArg Prod.fst hk)).symm
    · rw [hleft, List.filter_comm, ← h.on, holdsOn]
  · refine (holds_erase hindex fun s l hl hk => ?_).trans ?_
    · exact hs.slots_unique hindex hl (congrArg Prod.snd hk).symm
    · rw [hleft, List.filter_comm, ← h.of, holdsOf]
  · intro s hne
    rw [hleft, List.filter_filter]
    refine List.filter_congr fun x _ => ?_
    by_cases hx : x.resource = s
    · have : x.key ≠ lock.key := fun hk => hne ((congrArg Prod.snd hk).symm.trans hx)
      simp [hx, this]
    · simp [hx]
  · intro txn hne
    rw [hleft, List.filter_filter]
    refine List.filter_congr fun x _ => ?_
    by_cases hx : x.owner = txn
    · have : x.key ≠ lock.key := fun hk => hne ((congrArg Prod.fst hk).symm.trans hx)
      simp [hx, this]
    · simp [hx]

theorem pop? (h : Booked t b) {q : Request} (hp : t.pop? r = some (.ok (q, t'))) :
    Booked t' b := by
  obtain ⟨rest, -, -, -, rfl⟩ := pop?_eq_ok_iff.1 hp
  have hentry := fun s => t.entry_setEntry r s { t.entry r with queue := rest }
  refine h.of_same_locks (fun s => ?_) rfl rfl
  change ((t.setEntry r { t.entry r with queue := rest }).entry s).granted = _
  rw [hentry]
  split
  · rename_i hs
    rw [← hs]
  · rfl

theorem prune (h : Booked t b) (r : Resource) : Booked (t.prune r) b := by
  have hsame : (t.prune r).index = t.index ∧ (t.prune r).nextSlot = t.nextSlot := by
    unfold Table.prune
    split <;> exact ⟨rfl, rfl⟩
  refine h.of_same_locks (fun s => ?_) hsame.1 hsame.2
  rw [entry_prune]
  split
  · rename_i hs
    rw [← hs.1, (idle_of_any hs.2).1]
  · rfl

theorem enqueue (h : Booked t b) (q : Request) (place : Place) : Booked (t.enqueue q place) b := by
  refine h.of_same_locks (fun s => ?_) rfl rfl
  change ((t.setEntry q.lock.resource _).entry s).granted = _
  rw [entry_setEntry]
  split
  · rename_i hs
    rw [← hs]
    cases place <;> rfl
  · rfl

end Booked

end Table

end Locking
