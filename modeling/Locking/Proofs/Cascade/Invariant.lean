import Locking.Cascade
import Locking.Table.Lemmas

/-!
# Invariants of cascades

* `run_of_effect`, `run_of_breaks`: an agenda goes on from the effect of its first task, or breaks off
  there; `run_grant`, `run_served` and others for single kinds of task.
* `mem_serve_iff`: the tasks that a request gives rise to.
* `run_invariant`: what every step preserves holds where the agenda ends, be it worked off or broken
  off by a fault.
* `run_end`, `run_rest`: the same of an agenda that has been worked off, and of a first part of one.
* `run_table`, `run_keeps`: the same of the table with what is left of the agenda, and of the table
  alone.
* `run_completes`: the same of an agenda that meets no fault.
* `of_mem_run_events`: what holds of every event of every task holds of every event of an agenda.
-/

namespace Locking.Cascade

variable {t t' : Table} {task : Task} {tasks rest new xs ys : List Task}
  {es : List Event} {f : Fault} {owner : TxnId} {lock : Lock} {q : Request} {r : Resource}
  {out : Outcome}

/-- What a task does is told by its effect. -/
theorem step_of_effect (he : Effect t task t' es new) : step t task = ⟨t', es, .ok new⟩ := by
  cases he with
  | grant h => simp only [step, h]
  | release h => simp only [step, h]
  | gone h => simp only [step, h]
  | giveUp h => simp only [step, h]
  | wake q => rfl
  | drained h => simp only [step, h]
  | serve h => simp only [step, h]
  | prune r => rfl

/-- An agenda is worked off on from the effect of its first task. -/
theorem run_of_effect (he : Effect t task t' es new) (rest : List Task) :
    run t (task :: rest) =
      { run t' (new ++ rest) with events := es ++ (run t' (new ++ rest)).events } := by
  have hstep := step_of_effect he
  rw [run_cons_ok (congrArg Step.next hstep), hstep]

/-- An agenda breaks off where its first task meets a fault. -/
theorem run_of_breaks (hb : Breaks t task f) (rest : List Task) :
    run t (task :: rest) = ⟨t, [.fault f], some f⟩ := by
  have hstep : step t task = { table := t, next := .error f } := by
    cases hb with
    | grant h => simp only [step, h]
    | release h => simp only [step, h]
    | drain h => simp only [step, h]
  rw [run_cons_error (congrArg Step.next hstep), hstep]
  rfl

/-! ## Where an agenda goes first -/

theorem Outcome.andThen_of_fault (hf : out.fault? = some f) (ys : List Task) :
    out.andThen ys = out := by
  simp only [andThen, hf]

theorem Outcome.andThen_of_none (hf : out.fault? = none) (ys : List Task) :
    out.andThen ys =
      { run out.table ys with events := out.events ++ (run out.table ys).events } := by
  simp only [andThen, hf]

theorem Outcome.andThen_congr (h : out.fault? = none → run out.table xs = run out.table ys) :
    out.andThen xs = out.andThen ys := by
  cases hf : out.fault? with
  | none => rw [andThen_of_none hf, andThen_of_none hf, h hf]
  | some f => rw [andThen_of_fault hf, andThen_of_fault hf]

theorem run_cons (t : Table) (task : Task) (ys : List Task) :
    run t (task :: ys) = (run t [task]).andThen ys :=
  run_append t [task] ys

theorem run_grant {e : Event} (hp : t.put lock = .ok (t', e)) (ys : List Task) :
    run t (.grant lock :: ys) = { run t' ys with events := e :: (run t' ys).events } :=
  run_of_effect (.grant hp) ys

/-- What is still held is given up by releasing it. -/
theorem run_giveUp {held : Lock} (hh : t.held? owner lock.resource = some held) (ys : List Task) :
    run t (.giveUp owner lock :: ys) = run t (.release held :: ys) :=
  run_of_effect (.giveUp hh) ys

theorem run_wake (t : Table) (q : Request) (ys : List Task) :
    run t (.wake q :: ys) = { run t ys with events := .woken q :: (run t ys).events } :=
  run_of_effect (.wake q) ys

theorem run_drained (hp : t.pop? r = none) : run t [.drain r] = ⟨t, [], none⟩ := by
  rw [run_of_effect (.drained hp), List.append_nil, run_nil]
  rfl

theorem run_served (hp : t.pop? r = some (.ok (q, t'))) :
    run t [.drain r] =
      { run t' (serve r q) with events := .granting q :: (run t' (serve r q)).events } := by
  rw [run_of_effect (.serve hp), List.append_nil]
  rfl

/-- What a request entails once it has been taken from its queue. -/
theorem mem_serve_iff : task ∈ serve r q ↔
    task = .grant q.lock ∨ (∃ lock ∈ q.releases, .giveUp q.txn.id lock = task) ∨
      task = .wake q ∨ task = .drain r := by
  simp [serve]

/-- A task adds nothing to what waits. -/
theorem Effect.load_le (he : Effect t task t' es new) : t'.load ≤ t.load := by
  cases he with
  | grant hp => exact Nat.le_of_eq (Table.load_put hp)
  | release ht => exact Nat.le_of_eq (Table.load_take ht)
  | serve hp =>
    rw [← Table.load_pop? hp]
    exact Nat.le_add_right _ _
  | prune r => exact Nat.le_of_eq (t.load_prune r)
  | _ => exact Nat.le_refl _

/-! ## Invariants -/

/-- **What every step preserves holds at the end.** The agenda is worked off, or it breaks off at a
task that meets a fault. The invariant may speak of the events so far, `es` before the agenda. -/
theorem run_invariant {P : Table → List Task → List Event → Prop} (es : List Event)
    (hstep : ∀ {t task rest es t' es' new}, P t (task :: rest) es → Effect t task t' es' new →
      P t' (new ++ rest) (es ++ es'))
    (h : P t tasks es) :
    ((run t tasks).fault? = none ∧ P (run t tasks).table [] (es ++ (run t tasks).events)) ∨
      ∃ f task rest es', (run t tasks).fault? = some f ∧
        (run t tasks).events = es' ++ [.fault f] ∧
        P (run t tasks).table (task :: rest) (es ++ es') ∧ Breaks (run t tasks).table task f := by
  fun_induction run t tasks generalizing es with
  | case1 t => exact .inl ⟨rfl, by simpa using h⟩
  | case2 t task rest f hf =>
    -- the task does nothing, so the invariant still stands before it
    obtain ⟨hb, ht, he⟩ := breaks_of_next hf
    rw [ht, he]
    exact .inr ⟨f, task, rest, [], rfl, rfl, by simpa using h, hb⟩
  | case3 t task rest new hn out =>
    rename_i ih
    rcases ih _ (hstep h (effect_of_next hn)) with
      ⟨hnone, hp⟩ | ⟨f, task', rest', es', hsome, he, hp, hb⟩
    · exact .inl ⟨hnone, by simpa using hp⟩
    · exact .inr ⟨f, task', rest', (step t task).events ++ es', hsome, by simp [out, he],
        by simpa using hp, hb⟩

/-- What every step preserves holds where an agenda has been worked off. -/
theorem run_end {P : Table → List Task → List Event → Prop}
    (hstep : ∀ {t task rest es t' es' new}, P t (task :: rest) es → Effect t task t' es' new →
      P t' (new ++ rest) (es ++ es'))
    (h : P t tasks []) (hf : (run t tasks).fault? = none) :
    P (run t tasks).table [] (run t tasks).events := by
  rcases run_invariant [] hstep h with ⟨-, hend⟩ | ⟨f, -, -, -, hsome, -⟩
  · exact hend
  · rw [hf] at hsome
    cases hsome

/-- What every step preserves holds of the table at the end, wherever the agenda stands then. -/
theorem run_table {P : Table → List Task → Prop}
    (hstep : ∀ {t task rest t' es' new}, P t (task :: rest) → Effect t task t' es' new →
      P t' (new ++ rest))
    (h : P t tasks) : ∃ left, P (run t tasks).table left := by
  rcases run_invariant (P := fun t tasks _ => P t tasks) [] hstep h with
    ⟨-, hp⟩ | ⟨-, task, rest, -, -, -, hp, -⟩
  · exact ⟨[], hp⟩
  · exact ⟨task :: rest, hp⟩

/-- Where a first part of an agenda has been worked off, its invariant still holds of the rest. -/
theorem run_rest {I : Table → List Task → Prop}
    (hstep : ∀ {t task rest t' es new}, I t (task :: rest) → Effect t task t' es new →
      I t' (new ++ rest))
    (h : I t (xs ++ ys)) (hf : (run t xs).fault? = none) : I (run t xs).table ys := by
  refine run_end (P := fun u left _ => I u (left ++ ys)) (fun hi he => ?_) h hf
  rw [List.append_assoc]
  exact hstep hi he

/-- What every task preserves of the table holds of it at the end. -/
theorem run_keeps {P : Table → Prop}
    (hstep : ∀ {t task t' es new}, P t → Effect t task t' es new → P t') (h : P t)
    (tasks : List Task) : P (run t tasks).table := by
  have hrun : ∃ left : List Task, P (run t tasks).table :=
    run_table (P := fun u _ => P u) (fun hp he => hstep hp he) h
  obtain ⟨left, hp⟩ := hrun
  exact hp

/-- An agenda adds nothing to what waits, wherever it ends. -/
theorem load_run_le (t : Table) (tasks : List Task) : (run t tasks).table.load ≤ t.load :=
  run_keeps (P := fun u => u.load ≤ t.load) (fun h he => Nat.le_trans he.load_le h)
    (Nat.le_refl _) tasks

/-- **An agenda is worked off** if its invariant excludes every fault. -/
theorem run_completes {P : Table → List Task → List Event → Prop} (es : List Event)
    (hstep : ∀ {t task rest es t' es' new}, P t (task :: rest) es → Effect t task t' es' new →
      P t' (new ++ rest) (es ++ es'))
    (hok : ∀ {t task rest es f}, P t (task :: rest) es → ¬ Breaks t task f)
    (h : P t tasks es) :
    (run t tasks).fault? = none ∧ P (run t tasks).table [] (es ++ (run t tasks).events) := by
  rcases run_invariant es hstep h with hp | ⟨f, task, rest, es', -, -, hp, hb⟩
  · exact hp
  · exact absurd hb (hok hp)

/-- What holds of every event of every task holds of every event of an agenda, up to the fault at
which it breaks off. -/
theorem of_mem_run_events {P : Event → Prop}
    (hstep : ∀ {t task t' es new}, Effect t task t' es new → ∀ e ∈ es, P e) (t : Table)
    (tasks : List Task) {e : Event} (hm : e ∈ (run t tasks).events) :
    P e ∨ ∃ f, (run t tasks).fault? = some f ∧ e = .fault f := by
  have hall : ∀ {t task es t' es' new}, (∀ e ∈ es, P e) → Effect t task t' es' new →
      ∀ e ∈ es ++ es', P e := by
    intro t task es t' es' new h he e hm
    exact (List.mem_append.1 hm).elim (h e) (hstep he e)
  have hend := @run_invariant t tasks (fun _ _ es => ∀ e ∈ es, P e) [] (fun h he => hall h he)
    (by simp)
  rcases hend with
    ⟨-, h⟩ | ⟨f, task, rest, es', hf, he, h, -⟩
  · exact .inl (h e hm)
  · rw [he] at hm
    rcases List.mem_append.1 hm with hm | hm
    · exact .inl (h e hm)
    · exact .inr ⟨f, hf, List.mem_singleton.1 hm⟩

theorem Effect.not_fault (he : Effect t task t' es new) : ∀ e ∈ es, ∀ f, e ≠ .fault f := by
  cases he with
  | grant hp =>
    rcases Table.event_of_put hp with rfl | ⟨before, rfl⟩
    · simp
    · simp
  | _ => simp

/-- An agenda that is worked off tells of no fault. -/
theorem not_fault_mem_run (hf : (run t tasks).fault? = none) (f : Fault) :
    .fault f ∉ (run t tasks).events := by
  intro hm
  rcases of_mem_run_events Effect.not_fault t tasks hm with h | ⟨f', hsome, -⟩
  · exact h f rfl
  · rw [hf] at hsome
    cases hsome

end Locking.Cascade
