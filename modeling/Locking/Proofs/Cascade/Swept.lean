import Locking.Proofs.Cascade.Poised

/-!
# Swept agendas

Entries come and go with what stands in them. A lock that is granted and a request that has to wait
bring the entry of their resource with them, but a lock that is released, or a request that is taken
from its queue, may leave an idle entry behind. Then the agenda goes on to fill it, or to drop it.

* `Table.Idle`, `Table.Tidy`: an entry that is there although nothing stands in it; there is none.
* `Table.idle_put`, `Table.idle_take`, `Table.idle_pop?`, `Table.idle_enqueue`, `Table.idle_prune`:
  which entries may be idle after a change.
* `Cascade.Swept`: every idle entry has a task on the agenda that drops it, or the first task grants
  a lock there.
* `Swept.step`: every task leads from such an agenda to such an agenda.
* `Swept.run`: an agenda that is worked off leaves no idle entry.
-/

namespace Locking

open Std

namespace Table

variable {t t' : Table} {r s : Resource} {lock : Lock} {q : Request}

/-- The entry of a resource is there, but nothing stands in it. -/
def Idle (t : Table) (r : Resource) : Prop := t.entries[r]?.any Entry.isIdle

/-- No entry is there in which nothing stands. -/
def Tidy (t : Table) : Prop := ∀ r, ¬ t.Idle r

theorem tidy_empty : Tidy {} := fun r => by simp [Idle]

theorem Idle.held? (h : t.Idle r) (txn : TxnId) : t.held? txn r = none := by
  simp [Table.held?, Entry.held?, (idle_of_any h).1]

/-- Where one entry is written, another one is idle only if it was. -/
theorem idle_of_insert {e : Entry} (ht : t'.entries = t.entries.insert r e) (h : t'.Idle s) :
    s = r ∨ t.Idle s := by
  by_cases hs : s = r
  · exact .inl hs
  · refine .inr ?_
    unfold Idle at h
    rw [ht, ExtTreeMap.getElem?_insert, if_neg fun hc => hs (LawfulEqCmp.eq_of_compare hc).symm] at h
    exact h

/-- A lock that is granted stands in its entry. -/
theorem idle_put (h : t.Sound) (ha : t.Admits lock) {ev : Event}
    (hp : t.put lock = .ok (t', ev)) (hs : t'.Idle s) : s ≠ lock.resource ∧ t.Idle s := by
  have hne : s ≠ lock.resource := by
    rintro rfl
    have hheld := (h.of_put ha hp).2 lock.owner lock.resource
    rw [if_pos ⟨rfl, rfl⟩, hs.held?] at hheld
    cases hheld
  refine ⟨hne, (?_ : s = lock.resource ∨ t.Idle s).resolve_left hne⟩
  unfold put at hp
  split at hp
  · split at hp
    · cases hp
    · cases hp
      exact idle_of_insert rfl hs
  · split at hp
    · cases hp
    · cases hp
      exact idle_of_insert rfl hs

/-- Only the entry of its resource may be idle because of a lock that is released. -/
theorem idle_take (ht : t.take lock = .ok t') (hs : t'.Idle s) : s = lock.resource ∨ t.Idle s := by
  unfold take at ht
  split at ht
  · cases ht
  · split at ht
    · cases ht
    · split at ht
      · cases ht
      · split at ht
        · cases ht
        · cases ht
          exact idle_of_insert rfl hs

/-- Only the entry of its queue may be idle because of a request that is taken. -/
theorem idle_pop? (hp : t.pop? r = some (.ok (q, t'))) (hs : t'.Idle s) : s = r ∨ t.Idle s := by
  obtain ⟨rest, -, -, -, rfl⟩ := pop?_eq_ok_iff.1 hp
  exact idle_of_insert rfl hs

/-- A request that has to wait stands in its entry. -/
theorem idle_enqueue {place : Place} (hs : (t.enqueue q place).Idle s) : t.Idle s := by
  refine (idle_of_insert (t := t) rfl hs).resolve_left ?_
  rintro rfl
  have hqueue : (t.enqueue q place).queue q.lock.resource = [] := (idle_of_any hs).2
  rw [queue_enqueue, if_pos rfl] at hqueue
  cases place with
  | front => cases hqueue
  | back => exact List.cons_ne_nil _ _ (List.append_eq_nil_iff.1 hqueue).2

/-- The entry that was to be dropped is not idle any more. -/
theorem idle_prune (hs : (t.prune r).Idle s) : s ≠ r ∧ t.Idle s := by
  unfold prune at hs
  split at hs
  · have hidle : (t.entries.erase r)[s]?.any Entry.isIdle := hs
    rw [ExtTreeMap.getElem?_erase] at hidle
    split at hidle
    · cases hidle
    · rename_i hc
      refine ⟨?_, hidle⟩
      rintro rfl
      exact hc ReflCmp.compare_self
  · rename_i hn
    refine ⟨?_, hs⟩
    rintro rfl
    exact hn hs

end Table

namespace Cascade

variable {t t' : Table} {task : Task} {tasks rest new : List Task} {es : List Event}

/-- Every idle entry has its task: it will be dropped, or the first task grants a lock there. -/
structure Swept (t : Table) (tasks : List Task) : Prop extends Poised t tasks where
  swept : ∀ {r : Resource}, t.Idle r →
    .prune r ∈ tasks ∨ ∃ lock, tasks.head? = some (.grant lock) ∧ lock.resource = r

namespace Swept

theorem of_tidy (h : Poised t tasks) (ht : t.Tidy) : Swept t tasks where
  toPoised := h
  swept := fun hi => absurd hi (ht _)

/-- An idle entry is dropped later, unless the first task drops it or grants a lock there. -/
theorem mem_rest (h : Swept t (task :: rest)) {r : Resource} (hi : t.Idle r)
    (hprune : task ≠ .prune r) (hgrant : ∀ lock, task = .grant lock → lock.resource ≠ r) :
    .prune r ∈ rest := by
  rcases h.swept hi with hm | ⟨lock, hhead, hr⟩
  · exact (List.mem_cons.1 hm).resolve_left (Ne.symm hprune)
  · exact absurd hr (hgrant lock (Option.some.inj hhead))

/-- **Every task leads from a swept agenda to a swept agenda.** -/
theorem step (h : Swept t (task :: rest)) (he : Effect t task t' es new) :
    Swept t' (new ++ rest) := by
  refine ⟨h.toPoised.step he, fun {s} hs => ?_⟩
  cases he with
  | @grant lock _ e hp =>
    obtain ⟨hne, hi⟩ := Table.idle_put h.sound (h.head rfl) hp hs
    refine .inl (h.mem_rest hi nofun ?_)
    rintro _ ⟨⟩
    exact hne.symm
  | @release lock _ ht =>
    left
    rcases Table.idle_take ht hs with rfl | hi
    · simp
    · exact List.mem_append_right _ (h.mem_rest hi nofun nofun)
  | gone hh => exact .inl (h.mem_rest hs nofun nofun)
  | giveUp hh => exact .inl (List.mem_append_right _ (h.mem_rest hs nofun nofun))
  | wake q => exact .inl (h.mem_rest hs nofun nofun)
  | drained hp => exact .inl (h.mem_rest hs nofun nofun)
  | @serve r q _ hp =>
    rcases Table.idle_pop? hp hs with rfl | hi
    · -- the lock of the request is granted next
      exact .inr ⟨q.lock, rfl, (h.sound.of_pop? hp).1.resource⟩
    · exact .inl (List.mem_append_right _ (h.mem_rest hi nofun nofun))
  | prune r =>
    obtain ⟨hne, hi⟩ := Table.idle_prune hs
    refine .inl (h.mem_rest hi ?_ nofun)
    rintro ⟨⟩
    exact hne rfl

/-- **An agenda that is worked off leaves no idle entry.** -/
theorem run (h : Swept t tasks) (hf : (Cascade.run t tasks).fault? = none) :
    (Cascade.run t tasks).table.Tidy := by
  have hw : Swept _ [] := run_end (P := fun t tasks _ => Swept t tasks) step h hf
  intro r hi
  rcases hw.swept hi with hm | ⟨lock, hhead, -⟩
  · cases hm
  · cases hhead

end Swept

end Cascade

end Locking
