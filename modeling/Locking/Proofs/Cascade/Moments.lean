import Locking.Proofs.Cascade.Invariant

/-!
# Moments of a cascade

Between the beginning of a cascade and its end the table goes through many states. Each of them is
there when one of the tasks comes up.

* `Moment`, `Cascade.moments`: the moments of a cascade, in order.
* `events_run`: what happens in a cascade happens at its moments, in this order.
* `of_mem_moments`: what every step preserves holds at every moment.
* `run_of_mem_moments`: from every moment the cascade goes on to where it ends.
-/

namespace Locking.Cascade

variable {t t' : Table} {task : Task} {tasks rest new : List Task} {es : List Event} {f : Fault}

/-- A task comes up on the agenda. -/
structure Moment where
  /-- The table before the task is performed. -/
  table : Table
  task : Task
  /-- The tasks that come after it, as far as they are known. -/
  rest : List Task

/-- What happens at a moment. -/
def Moment.events (now : Moment) : List Event := (step now.table now.task).events

/-- Where the agenda leads from a moment. -/
def Moment.outcome (now : Moment) : Outcome := run now.table (now.task :: now.rest)

/-- The moments of an agenda, up to the fault at which it breaks off. -/
def moments (t : Table) : List Task → List Moment
  | [] => []
  | task :: rest =>
    match h : (step t task).next with
    | .error _ => [⟨t, task, rest⟩]
    | .ok new =>
      have := (effect_of_next h).potential
      ⟨t, task, rest⟩ :: moments (step t task).table (new ++ rest)
termination_by tasks => t.load + work tasks
decreasing_by
  simp only [work_append, work_cons]
  omega

@[simp] theorem moments_nil (t : Table) : moments t [] = [] := by
  rw [moments]

theorem moments_of_effect (he : Effect t task t' es new) (rest : List Task) :
    moments t (task :: rest) = ⟨t, task, rest⟩ :: moments t' (new ++ rest) := by
  have hstep := step_of_effect he
  rw [moments]
  split
  · rename_i hn
    rw [hstep] at hn
    cases hn
  · rename_i hn
    rw [hstep] at hn
    cases hn
    change ⟨t, task, rest⟩ :: moments (step t task).table (new ++ rest) = _
    rw [hstep]

theorem moments_of_error (h : (step t task).next = .error f) (rest : List Task) :
    moments t (task :: rest) = [⟨t, task, rest⟩] := by
  rw [moments]
  split
  · rfl
  · rename_i hn
    rw [h] at hn
    cases hn

/-- **What happens in a cascade happens at its moments**, in this order, if it is worked off. -/
theorem events_run (hf : (run t tasks).fault? = none) :
    (run t tasks).events = (moments t tasks).flatMap Moment.events := by
  fun_induction run t tasks with
  | case1 t => simp
  | case2 t task rest f h => cases hf
  | case3 t task rest new h out =>
    rename_i ih
    rw [moments_of_effect (effect_of_next h), List.flatMap_cons, ← ih hf]
    rfl

/-- **What every step preserves holds at every moment.** The invariant may speak of the events so
far, `es` before the agenda. -/
theorem of_mem_moments {P : Table → List Task → List Event → Prop} (es : List Event)
    (hstep : ∀ {t task rest es t' es' new}, P t (task :: rest) es → Effect t task t' es' new →
      P t' (new ++ rest) (es ++ es'))
    (h : P t tasks es) {now : Moment} (hm : now ∈ moments t tasks) :
    ∃ es', P now.table (now.task :: now.rest) (es ++ es') := by
  fun_induction run t tasks generalizing es with
  | case1 t => simp at hm
  | case2 t task rest f hn =>
    rw [moments_of_error hn] at hm
    rw [List.mem_singleton.1 hm]
    exact ⟨[], by simpa using h⟩
  | case3 t task rest new hn out =>
    rename_i ih
    have he := effect_of_next hn
    rw [moments_of_effect he] at hm
    rcases List.mem_cons.1 hm with rfl | hm
    · exact ⟨[], by simpa using h⟩
    · obtain ⟨es', hp⟩ := ih _ (hstep h he) hm
      exact ⟨_, (List.append_assoc ..) ▸ hp⟩

/-- **From every moment the cascade goes on to where it ends.** -/
theorem run_of_mem_moments {now : Moment} (hm : now ∈ moments t tasks) :
    ∃ es, run t tasks = { now.outcome with events := es ++ now.outcome.events } := by
  refine of_mem_moments (P := fun u left es =>
    run t tasks = { run u left with events := es ++ (run u left).events }) [] ?_ rfl hm
  intro u task rest es u' es' new h he
  rw [h, run_of_effect he, List.append_assoc]

end Locking.Cascade
