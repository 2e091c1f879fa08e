import Locking.Proofs.Run
import Locking.Session.Run

/-!
# Sessions are runs

A session also answers queries, looks up names and modes, and may leave calls out. All the same the
system goes through a run, and a session that comes to its end goes through one in which nothing
breaks off.

* `Setup.step_eq_after`: one command is a run.
* `Setup.run_eq_after`: a session is a run.
-/

namespace Locking.Session.Setup

variable {u : Setup} {s last : State} {cs : List Command}

theorem fault?_of_reply {w : Waiter} {v : Verdict} (h : ∀ f, reply w v ≠ .failed f) :
    v.fault? = none := by
  cases v with
  | failed f => exact absurd rfl (h f)
  | _ => rfl

/-- A command whose outcome is taken over from a run is this run. -/
theorem accept_eq_after (t : Nat) {d : Decision} (as : List Action)
    (hd : d.system = s.system.after as) (hu : d.verdict.fault? = none ↔ s.system.Unbroken as) :
    ∃ as, (u.accept s t d).1.system = s.system.after as ∧
      ((∀ f, (u.accept s t d).2.answer ≠ .failed f) → s.system.Unbroken as) :=
  ⟨as, hd, fun h => hu.1 (fault?_of_reply h)⟩

/-- **A command is a run**, and if it does not fail nothing breaks off. -/
theorem step_eq_after (u : Setup) (s : State) (c : Command) :
    ∃ as, (u.step s c).1.system = s.system.after as ∧
      ((∀ f, (u.step s c).2.answer ≠ .failed f) → s.system.Unbroken as) := by
  cases c with
  | call i draft =>
    simp only [step]
    split
    · exact ⟨[], rfl, fun _ => trivial⟩
    · split
      · exact ⟨[], rfl, fun _ => trivial⟩
      · rename_i call _
        obtain ⟨as, -, hsystem, -, hu⟩ :=
          s.system.call_eq_run s.manager (u.txn i) call
        exact accept_eq_after i as hsystem hu
  | close i =>
    exact accept_eq_after i [.close (u.txn i)] rfl (and_iff_left trivial).symm
  | reopen i =>
    exact accept_eq_after i [.reopen (u.txn i)] rfl (and_iff_left trivial).symm
  | _ => exact ⟨[], rfl, fun _ => trivial⟩

/-- **A session is a run**, and if it comes to its end nothing breaks off. -/
theorem run_eq_after (h : (u.run s cs).2 = some last) :
    ∃ as, last.system = s.system.after as ∧ s.system.Unbroken as := by
  induction cs generalizing s with
  | nil =>
    cases h
    exact ⟨[], rfl, trivial⟩
  | cons c cs ih =>
    obtain ⟨as, hsystem, hu⟩ := step_eq_after u s c
    simp only [run] at h
    split at h
    · cases h
    · rename_i hanswer
      obtain ⟨bs, hlast, hrest⟩ := ih h
      refine ⟨as ++ bs, ?_, System.unbroken_append.2 ⟨hu hanswer, hsystem ▸ hrest⟩⟩
      rw [hlast, hsystem, System.after_append]

end Locking.Session.Setup
