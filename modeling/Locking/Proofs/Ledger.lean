import Locking.Proofs.Accounts

/-!
# The order of first grants

All holds of a manager stand in one order, in which resources and transactions list theirs.

* `System.booked_run`: in every run, what happens tells which locks are held under which slots.
* `System.respects_run`: every decision respects the holds that there are before it.
* `System.acquisition_order`: what this comes to for resources, transactions and calls.
-/

namespace Locking

/-- The ledger of a list of events. -/
def ledger (es : List Event) : Ledger := Ledger.after {} es

namespace System

open Table

variable {s : System} {m : Nat} {txn : Txn} {call : Call} {d : Decision} {b : Ledger}
  {as bs : List Action}

theorem eventsAt_append (s : System) (m : Nat) (as bs : List Action) :
    s.eventsAt m (as ++ bs) = s.eventsAt m as ++ (s.after as).eventsAt m bs := by
  induction as generalizing s with
  | nil => rfl
  | cons a as ih =>
    rw [List.cons_append, eventsAt, eventsAt, ih, List.append_assoc]
    rfl

theorem booked_after (h : s.Sound) (hb : Booked (s.table m) b) (as : List Action) :
    Booked ((s.after as).table m) (b.after (s.eventsAt m as)) := by
  induction as generalizing s b with
  | nil => exact hb
  | cons a as ih =>
    rw [eventsAt, Ledger.after_append]
    refine ih (sound_act h a) ?_
    split
    · rename_i hm
      cases a with
      | decide n txn call =>
        cases hm
        exact ((decided h m txn call).accounts h hb).1
      | _ => cases hm
    · rename_i hm
      rw [table_act h hm]
      exact hb

/-- **In every run the tables list their holds as the ledgers do.** -/
theorem booked_run (settings : Settings) (as : List Action) (m : Nat) :
    Booked (((start settings).after as).table m) (ledger ((start settings).eventsAt m as)) :=
  booked_after (sound_start settings) Booked.empty as

/-- **Every decision of a run respects the holds of its manager.** -/
theorem respects_run (settings : Settings) (as : List Action) (m : Nat) (txn : Txn) (call : Call) :
    (((start settings).after as).decide m txn call).Respects m
      (ledger ((start settings).eventsAt m as)) txn.id call :=
  (decided (sound_run settings as) m txn call).respects (sound_run settings as)
    (booked_run settings as m) (enduring_apart.run settings as m)

/-- **Locks are listed in order of first grant**, in every run. The holds of a manager stand in one
strict order, the order of their slots, which are handed out to first grants one after the other;
the locks on every resource, and those of every transaction, are listed in this order. Whatever
happens between two points of a run, the holds that are not released in the meantime keep their
slots and their order, though their modes may change, and all that is granted anew comes after them.
No slot ever stands for two holds. A decision releases only what its call names, or a request that
is granted in it, other than what they ask for themselves. So whoever holds what it asks for keeps
the hold and its slot when the lock is granted, at once or out of a queue, and where it does not hold
it any more it is given a new one. -/
theorem acquisition_order (settings : Settings) (before between : List Action) (m : Nat) :
    let t := ((start settings).after (before ++ between)).table m
    let old := ledger ((start settings).eventsAt m before)
    let es := ((start settings).after before).eventsAt m between
    let new := ledger ((start settings).eventsAt m (before ++ between))
    new.holds.Pairwise (fun h k => h.slot < k.slot ∧ h.key ≠ k.key) ∧
    (∀ r, t.holdsOn r = new.holds.filter (·.resource = r) ∧
      (t.locksOn r).map Lock.key = (new.holds.filter (·.resource = r)).map Hold.key) ∧
    (∀ txn, t.holdsOf txn = new.holds.filter (·.owner = txn) ∧
      (t.locksOf txn).map Lock.key = (new.holds.filter (·.owner = txn)).map Hold.key) ∧
    (∃ fresh, new.holds = old.holds.filter (·.key ∉ releasedKeys es) ++ fresh ∧
      ∀ h ∈ fresh, (∀ k ∈ old.holds, k.slot < h.slot) ∧
        ∃ lock, .granted lock ∈ es ∧ lock.key = h.key) ∧
    (∀ h ∈ old.holds, ∀ k ∈ new.holds, h.slot = k.slot → h = k ∧ h.key ∉ releasedKeys es) ∧
    ∀ txn call,
      (((start settings).after before).decide m txn call).Respects m old txn.id call := by
  intro t old es new
  have hold : old.Ordered := (booked_run settings before m).toOrdered
  have hbook : Booked t new := booked_run settings (before ++ between) m
  have hnew : new = old.after es := by
    change ledger ((start settings).eventsAt m (before ++ between)) = _
    rw [eventsAt_append, ledger, Ledger.after_append]
    rfl
  obtain ⟨-, fresh, hholds, hfresh⟩ := old.holds_after es
  rw [← hnew] at hholds
  have hlater : ∀ h ∈ fresh, ∀ k ∈ old.holds, k.slot < h.slot := fun h hh k hk =>
    Nat.lt_of_lt_of_le (hold.used k hk) (hfresh h hh).1
  refine ⟨hbook.ascending.and hbook.single, fun r => ⟨hbook.on r, ?_⟩,
    fun txn => ⟨hbook.of txn, ?_⟩, ⟨fresh, hholds, fun h hh => ⟨hlater h hh, (hfresh h hh).2⟩⟩, ?_,
    respects_run settings before m⟩
  · rw [← hbook.on, map_key_holdsOn]
  · rw [← hbook.of, map_key_holdsOf]
  intro h hh k hk hslot
  rw [hholds] at hk
  rcases List.mem_append.1 hk with hk | hk
  · obtain ⟨hk, hkept⟩ := List.mem_filter.1 hk
    obtain rfl := hold.slot_inj hh hk hslot
    exact ⟨rfl, by simpa using hkept⟩
  · -- a new hold has a slot that no old one has
    exact absurd hslot (Nat.ne_of_lt (hlater k hk h hh))

/-- Transaction 1 waits to raise a lock that it still holds when its request is granted. Nobody names
this hold, so it stays in its slot. -/
example :
    let raising : List Action :=
      [.decide 0 ⟨0, 1⟩ (.acquire (.root "a") .s), .decide 0 ⟨0, 1⟩ (.acquire (.root "b") .s),
        .decide 0 ⟨1, 2⟩ (.acquire (.root "a") .s), .decide 0 ⟨0, 1⟩ (.promote (.root "a") .x)]
    let d := ((start {}).after raising).decide 0 ⟨1, 2⟩ (.release (.root "a"))
    .updated ⟨.root "a", .x, 1⟩ .s ∈ d.events ∧ ⟨0, 1, .root "a"⟩ ∈ (d.system.table 0).holdsOf 1 :=
  ⟨by decide +kernel,
    ((respects_run _ _ 0 ⟨1, 2⟩ (.release (.root "a"))).kept _ (by decide +kernel) (by decide)
      (by decide +kernel)).2⟩

end System

end Locking
