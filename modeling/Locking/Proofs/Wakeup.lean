import Locking.Proofs.Cascade.Watched
import Locking.Proofs.Run

/-!
# No wake-up is lost

* `Planned.watched`, `Planned.quiet_enqueue`: from a quiet table every call leads on to watched
  agendas and quiet tables.
* `System.quiet_run`: every run in which nothing breaks off keeps all tables quiet.
* `System.head_conflicts`: what waits at the head of a queue waits for a lock of another transaction.
-/

namespace Locking

variable {t : Table} {txn : Txn} {call : Call}

namespace Table

theorem quiet_empty : Quiet {} := fun _ => pop?_eq_none_iff.2 nofun

/-- An agenda that grants a weaker lock for a stronger one drains the queue afterwards. -/
theorem Planned.watched {tasks : List Cascade.Task} (h : t.Sound) (hq : t.Quiet)
    (hp : Planned t txn call (.go tasks)) : Cascade.Watched t tasks := by
  refine .of_quiet (hp.poised h) hq ?_
  cases hp with
  | grant hcall ha hc =>
    rintro lock held ⟨⟩ hh
    exact .inl (hc held hh)
  | release hh => rintro lock held ⟨⟩
  | exchange ha hl hd =>
    rintro lock held ⟨⟩ hh
    rcases hd with rfl | ⟨-, hnone⟩
    · exact .inr (by simp)
    · rw [hnone] at hh
      cases hh

/-- A request that has to wait cannot be granted at once, and nor can those behind it. -/
theorem Planned.quiet_enqueue {q : Request} {place : Place} {held : Mode} (hq : t.Quiet)
    (hp : Planned t txn call (.wait q place held)) : (t.enqueue q place).Quiet := by
  intro s
  cases hp with
  | @waits _ r mode _ locks _ hcall hm hw =>
    by_cases hs : r = s
    · subst hs
      rw [pop?_eq_none_iff]
      intro p rest hhead ha
      have hold := pop?_eq_none_iff.1 (hq r)
      rw [queue_enqueue, if_pos rfl] at hhead
      rw [admits_iff, locksOn_enqueue, ← admits_iff] at ha
      cases place with
      | front =>
        -- the new request is at the head
        cases hhead
        rcases hw with ⟨⟨⟩, -⟩ | hw
        exact hw ha
      | back =>
        -- the old head stays, unless the queue was empty
        cases hqueue : t.queue r with
        | nil =>
          rw [Entry.queue_push_back, show (t.entry r).queue = [] from hqueue] at hhead
          cases hhead
          rcases hw with ⟨-, hne⟩ | hw
          · exact hne hqueue
          · exact hw ha
        | cons p' rest' =>
          rw [Entry.queue_push_back, show (t.entry r).queue = p' :: rest' from hqueue] at hhead
          cases hhead
          exact hold p rest' hqueue ha
    · refine pop?_eq_none_of_locksOn (hq s) ?_ fun lock hl => ?_
      · rw [queue_enqueue, if_neg hs]
      · rwa [locksOn_enqueue]

end Table

namespace System

variable {as : List Action} {settings : Settings}

/-- No manager has a request at the head of a queue that can be granted. -/
def Quiet (s : System) : Prop := ∀ m, (s.table m).Quiet

theorem lasting_quiet : Lasting Table.Quiet where
  empty := Table.quiet_empty
  go := fun h hq hp hf => ((Table.planned_of_plan h hp).watched h hq).run hf
  wait := fun h hq hp => (Table.planned_of_plan h hp).quiet_enqueue hq

theorem quiet_run (hu : (start settings).Unbroken as) : ((start settings).after as).Quiet :=
  lasting_quiet.run hu

/-- **No wake-up is lost.** In every run in which nothing breaks off, whatever was called and by
whom, the request at the head of a queue conflicts with a lock that another transaction is granted
there. So what could be granted is not left waiting, and nobody waits for a free resource. -/
theorem head_conflicts (hu : (start settings).Unbroken as) {m : Nat} {r : Resource} {q : Request}
    {rest : List Request} (hq : (((start settings).after as).table m).queue r = q :: rest) :
    ∃ lock ∈ (((start settings).after as).table m).locksOn r,
      lock.owner ≠ q.txn.id ∧ q.lock.mode.compatible lock.mode = false := by
  have hproper := (sound_run settings as m).proper (r := r) (hq ▸ List.mem_cons_self)
  have hn := Table.pop?_eq_none_iff.1 (quiet_run hu m r) q rest hq
  rw [Table.admits_iff] at hn
  push Not at hn
  obtain ⟨lock, hm, hne, hc⟩ := hn
  exact ⟨lock, hm, hproper.owner ▸ hne, Bool.not_eq_true _ ▸ hc⟩

/-- Transaction 1 is granted an exclusive lock, and transaction 2 waits for a shared one. -/
def contended : List Action :=
  [.decide 0 ⟨0, 1⟩ (.acquire (.root "a") .x), .decide 0 ⟨1, 2⟩ (.acquire (.root "a") .s)]

theorem head_conflicts_contended :
    (start {}).Unbroken contended ∧
      (((start {}).after contended).table 0).queue (.root "a") =
        [⟨⟨1, 2⟩, ⟨.root "a", .s, 2⟩, []⟩] ∧
      ∃ lock ∈ (((start {}).after contended).table 0).locksOn (.root "a"),
        lock.owner ≠ 2 ∧ Mode.s.compatible lock.mode = false :=
  have hu : (start {}).Unbroken contended := by decide +kernel
  have hq : (((start {}).after contended).table 0).queue (.root "a") =
      [⟨⟨1, 2⟩, ⟨.root "a", .s, 2⟩, []⟩] := by decide +kernel
  ⟨hu, hq, head_conflicts hu hq⟩

end System

end Locking
