import Locking.Proofs.Cascade.Swept
import Locking.Proofs.Counting
import Locking.Proofs.Sessions
import Locking.Proofs.Wakeup

/-!
# No garbage is kept

* `Table.Planned.swept`, `Table.tidy_enqueue`: from a table without idle entries every call leads on
  to swept agendas and to tables without idle entries.
* `Table.Pruned`: a table keeps no more than it needs.
* `Table.Sound.pruned`: so it is if no entry is idle and nobody waits who could be granted a lock.
* `System.nothing_kept`: so it is in every run, and in every session.
-/

namespace Locking

open Std Map

namespace Table

variable {t : Table} {txn : Txn} {call : Call} {r : Resource}

theorem Planned.swept {tasks : List Cascade.Task} (h : t.Sound) (ht : t.Tidy)
    (hp : Planned t txn call (.go tasks)) : Cascade.Swept t tasks :=
  .of_tidy (hp.poised h) ht

theorem tidy_enqueue (ht : t.Tidy) (q : Request) (place : Place) : (t.enqueue q place).Tidy :=
  fun r hi => ht r (idle_enqueue hi)

/-- Something stands in every entry that is there. -/
theorem Tidy.not_isIdle (h : t.Tidy) {e : Entry} (he : t.entries[r]? = some e) :
    e.locks ≠ [] ∨ e.queue ≠ [] := by
  have hi : ¬ e.isIdle := fun hc => h r (by rw [Idle, he]; exact hc)
  rwa [Entry.isIdle, Bool.and_eq_true, ExtTreeMap.isEmpty_iff, ← Entry.locks_eq_nil_iff,
    List.isEmpty_iff, not_and_or] at hi

/-- Nobody waits where nothing is granted. -/
theorem Quiet.queue_eq_nil (h : t.Quiet) (hl : t.locksOn r = []) : t.queue r = [] := by
  cases hq : t.queue r with
  | nil => rfl
  | cons q rest =>
    refine absurd (admits_iff.2 fun lock hm => ?_) (pop?_eq_none_iff.1 (h r) q rest hq)
    rw [hl] at hm
    cases hm

/-- **A table keeps no more than it needs.** -/
structure Pruned (t : Table) : Prop where
  /-- In every entry a lock is granted, or a request waits. -/
  entries : ∀ r ∈ t.entries, t.locksOn r ≠ [] ∨ t.queue r ≠ []
  /-- Every transaction in the index holds a lock. -/
  index : ∀ txn ∈ t.index, t.locksOf txn ≠ []
  few : t.entries.size ≤ t.grantedTotal + t.waitingTotal
  /-- Once nothing is granted, nothing is kept. -/
  cleared : t.grantedTotal = 0 → t.entries = ∅ ∧ t.index = ∅

theorem Tidy.entries (h : t.Tidy) (hr : r ∈ t.entries) : t.locksOn r ≠ [] ∨ t.queue r ≠ [] := by
  have he := ExtTreeMap.getElem?_eq_some_getElem hr
  have hentry : t.entry r = t.entries[r] := by
    rw [entry, ExtTreeMap.getD_eq_getD_getElem?, he]
    rfl
  rw [locksOn, queue, hentry]
  exact h.not_isIdle he

/-- Every entry accounts for a lock or a request of its own. -/
theorem Tidy.size_le (h : t.Tidy) : t.entries.size ≤ t.grantedTotal + t.waitingTotal := by
  rw [grantedTotal, waitingTotal, ← total_add, ← total_one]
  refine total_le_total fun r e he => ?_
  rw [← Entry.length_locks]
  rcases h.not_isIdle he with hl | hq
  · exact Nat.le_add_right_of_le (List.length_pos_iff.2 hl)
  · exact Nat.le_add_left_of_le (List.length_pos_iff.2 hq)

/-- **A sound table is pruned** if no entry is idle and nobody waits who could be granted a lock. -/
theorem Sound.pruned (h : t.Sound) (ht : t.Tidy) (hq : t.Quiet) : t.Pruned := by
  have hindex : ∀ txn ∈ t.index, t.locksOf txn ≠ [] := by
    intro txn hm hn
    have hs := ExtTreeMap.getElem?_eq_some_getElem hm
    have hslots : t.slots txn = t.index[txn] := by
      rw [slots, ExtTreeMap.getD_eq_getD_getElem?, hs]
      rfl
    rw [locksOf, List.map_eq_nil_iff, ← List.isEmpty_iff, ExtTreeMap.isEmpty_toList,
      ExtTreeMap.isEmpty_iff, hslots] at hn
    exact h.index txn (hn ▸ hs)
  refine ⟨fun r => ht.entries, hindex, ht.size_le, fun h0 => ⟨?_, ?_⟩⟩
  · -- where nothing is granted nobody waits, so no entry is there
    refine ExtTreeMap.eq_empty_iff_forall_not_mem.2 fun r hr => ?_
    have hl : t.locksOn r = [] := by
      have hw := total_eq_zero_iff.1 h0 r
      rwa [weigh_granted, List.length_eq_zero_iff] at hw
    exact (ht.entries hr).elim (absurd hl) (absurd (hq.queue_eq_nil hl))
  · refine ExtTreeMap.eq_empty_iff_forall_not_mem.2 fun txn hm => hindex txn hm ?_
    have h0' : t.indexedTotal = 0 := h.indexed.trans (h.granted.symm.trans h0)
    have hw := total_eq_zero_iff.1 h0' txn
    rwa [weigh_slots, List.length_eq_zero_iff] at hw

end Table

namespace System

variable {as : List Action} {settings : Settings}

theorem lasting_tidy : Lasting Table.Tidy where
  empty := Table.tidy_empty
  go := fun h ht hp hf => ((Table.planned_of_plan h hp).swept h ht).run hf
  wait := fun _ ht _ => Table.tidy_enqueue ht _ _

theorem pruned_run (hu : (start settings).Unbroken as) (m : Nat) :
    (((start settings).after as).table m).Pruned :=
  (sound_run settings as m).pruned (lasting_tidy.run hu m) (quiet_run hu m)

/-- **No garbage is kept.** In every run in which nothing breaks off, whatever was called and by whom,
every entry of every manager has a lock granted or a request waiting in it, and every transaction in
its index holds a lock. So there are never more entries than locks and requests together, and once
nothing is granted neither entries nor index are left. The same holds in every session, with all
queries and with calls that are refused, as long as it comes to its end. -/
theorem nothing_kept :
    (∀ (settings : Settings) (as : List Action), (start settings).Unbroken as →
      ∀ m, (((start settings).after as).table m).Pruned) ∧
    ∀ (u : Session.Setup) (cs : List Session.Command) (last : Session.State),
      (u.run u.start cs).2 = some last → ∀ m, (last.system.table m).Pruned := by
  refine ⟨fun settings as hu m => pruned_run hu m, fun u cs last h m => ?_⟩
  obtain ⟨as, hlast, hu⟩ := Session.Setup.run_eq_after h
  change (start u.settings).Unbroken as at hu
  rw [hlast]
  exact pruned_run hu m

/-- What transaction 1 gives up is granted to transaction 2, and what that one gives up for it to
transaction 3. Then both give up what they have. -/
def passedOn : List Action :=
  [.decide 0 ⟨0, 1⟩ (.acquire (.root "a") .x), .decide 0 ⟨1, 2⟩ (.acquire (.root "b") .x),
    .decide 0 ⟨1, 2⟩ (.exchange (.root "a") .s [.root "b"]),
    .decide 0 ⟨2, 3⟩ (.acquire (.root "b") .x), .decide 0 ⟨0, 1⟩ (.release (.root "a")),
    .decide 0 ⟨2, 3⟩ (.release (.root "b")), .decide 0 ⟨1, 2⟩ (.release (.root "a"))]

/-- One transaction takes a lock, asks who holds it, is refused it a second time and gives it up. -/
def asking : List Session.Command :=
  [.call 0 (.acquire 0 "X"), .locksOn 0, .call 0 (.acquire 0 "X"), .call 0 (.release 0),
    .queueLength 0]

theorem nothing_kept_passed_on :
    let before := ((start {}).after (passedOn.take 5)).table 0
    let t := ((start {}).after passedOn).table 0
    let u : Session.Setup := { names := #[.root "a"], txns := #[(1, .counting)] }
    (start {}).Unbroken passedOn ∧
      before.entries.size = 2 ∧ before.grantedTotal + before.waitingTotal = 2 ∧
      t.grantedTotal = 0 ∧ t.entries = ∅ ∧ t.index = ∅ ∧
      ∃ last, (u.run u.start asking).2 = some last ∧ (last.system.table 0).entries = ∅ := by
  intro before t u
  have hu : (start {}).Unbroken passedOn := by decide +kernel
  have h0 : t.grantedTotal = 0 := by decide +kernel
  obtain ⟨hentries, hindex⟩ := (nothing_kept.1 {} passedOn hu 0).cleared h0
  have hsession : (u.run u.start asking).2.map (fun last => (last.system.table 0).grantedTotal) =
      some 0 := by
    decide +kernel
  obtain ⟨last, hlast, hlast0⟩ := Option.map_eq_some_iff.1 hsession
  exact ⟨hu, by decide +kernel, by decide +kernel, h0, hentries, hindex, last, hlast,
    ((nothing_kept.2 u asking last hlast 0).cleared hlast0).1⟩

end System

end Locking
