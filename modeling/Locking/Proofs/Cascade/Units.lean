import Locking.Proofs.Cascade.Queues
import Locking.Proofs.Detour

/-!
# Units

From the moment when a request is taken from its queue until its transaction is woken, all that
happens belongs to the request: it is one unit. The units of a cascade are nested in one another,
for what a request gives up may let others through.

* `Units`: events that consist of units, with what is known of each of them.
* `Units.split`: wherever a request is taken from its queue, its unit begins there.
* `Units.woken_eq`: where no unit of a resource is nested in another one, wake-ups come in the order
  in which requests leave the queue.
* `units_run`: what happens in a cascade consists of units.
-/

namespace Locking

/-- **Events that consist of units.** Of each unit something is known. -/
inductive Units (P : Request → List Event → Prop) : List Event → Prop where
  | nil : Units P []
  /-- Between units something happens that belongs to none. -/
  | between {e : Event} {es : List Event} (htaken : e.taken? = none) (hwoken : e.woken? = none)
    (h : Units P es) : Units P (e :: es)
  | unit {q : Request} {own es : List Event} (hp : P q own) (hown : Units P own) (h : Units P es) :
    Units P (.granting q :: (own ++ .woken q :: es))

namespace Units

variable {P : Request → List Event → Prop} {es fs earlier later : List Event} {q : Request}
  {r : Resource}

theorem between_append (htaken : ∀ e ∈ es, e.taken? = none) (hwoken : ∀ e ∈ es, e.woken? = none)
    (h : Units P fs) : Units P (es ++ fs) := by
  induction es with
  | nil => exact h
  | cons e es ih =>
    refine .between (htaken e List.mem_cons_self) (hwoken e List.mem_cons_self) (ih ?_ ?_)
    · exact fun e' hm => htaken e' (List.mem_cons_of_mem e hm)
    · exact fun e' hm => hwoken e' (List.mem_cons_of_mem e hm)

/-- **Wherever a request is taken from its queue, its unit begins there.** -/
theorem split (h : Units P es) (he : es = earlier ++ .granting q :: later) :
    ∃ own rest, later = own ++ .woken q :: rest ∧ P q own ∧ Units P own := by
  induction h generalizing earlier later with
  | nil => cases earlier <;> cases he
  | between htaken hwoken h ih =>
    cases earlier with
    | nil =>
      cases he
      cases htaken
    | cons e earlier =>
      rw [List.cons_append, List.cons.injEq] at he
      exact ih he.2
  | @unit p own es hp hown h ihown ih =>
    cases earlier with
    | nil =>
      cases he
      exact ⟨own, es, rfl, hp, hown⟩
    | cons e earlier =>
      rw [List.cons_append, List.cons.injEq] at he
      -- the request is taken within the unit, or behind it
      rcases List.append_eq_append_iff.1 he.2 with ⟨more, hearlier, hrest⟩ | ⟨more, hown', hrest⟩
      · cases more with
        | nil => cases hrest
        | cons e' more =>
          rw [List.cons_append, List.cons.injEq] at hrest
          exact ih hrest.2
      · cases more with
        | nil => cases hrest
        | cons e' more =>
          rw [List.cons_append, List.cons.injEq] at hrest
          obtain ⟨rfl, rfl⟩ := hrest
          obtain ⟨own', rest, rfl, hp', hunits⟩ := ihown hown'
          exact ⟨own', rest ++ .woken p :: es, by simp, hp', hunits⟩

/-- All requests that are taken within units are woken within them. -/
theorem perm (h : Units P es) : (woken es).Perm (taken es) := by
  induction h with
  | nil => exact .refl _
  | @between e es htaken hwoken h ih =>
    have hw : woken (e :: es) = woken es := List.filterMap_cons_none hwoken
    have ht : taken (e :: es) = taken es := List.filterMap_cons_none htaken
    rw [hw, ht]
    exact ih
  | @unit q own es hp hown h ihown ih =>
    have hw : woken (.granting q :: (own ++ .woken q :: es)) = woken own ++ q :: woken es := by
      rw [woken_granting, woken_append, woken_woken]
    have ht : taken (.granting q :: (own ++ .woken q :: es)) = q :: (taken own ++ taken es) := by
      change q :: taken (own ++ .woken q :: es) = _
      rw [taken_append]
      rfl
    rw [hw, ht]
    exact List.perm_middle.trans ((ihown.append ih).cons q)

/-- **Where no unit of a resource is nested in another one**, wake-ups come in the order in which
requests leave the queue. -/
theorem woken_eq (h : Units P es)
    (hapart : ∀ earlier q own rest, es = earlier ++ .granting q :: (own ++ .woken q :: rest) →
      P q own → q.lock.resource = r → takenFrom r own = []) :
    (woken es).filter (·.lock.resource = r) = takenFrom r es := by
  induction h with
  | nil => rfl
  | @between e es htaken hwoken h ih =>
    have hw : woken (e :: es) = woken es := List.filterMap_cons_none hwoken
    have ht : takenFrom r (e :: es) = takenFrom r es := by
      rw [takenFrom, show taken (e :: es) = taken es from List.filterMap_cons_none htaken]
      rfl
    rw [hw, ht]
    exact ih fun earlier q own rest he => hapart (e :: earlier) q own rest (congrArg (e :: ·) he)
  | @unit q own es hp hown h ihown ih =>
    have hw : woken (.granting q :: (own ++ .woken q :: es)) = woken own ++ q :: woken es := by
      rw [woken_granting, woken_append, woken_woken]
    have ht : takenFrom r (.granting q :: (own ++ .woken q :: es)) =
        takenFrom r [.granting q] ++ takenFrom r own ++ takenFrom r es := by
      change takenFrom r ([.granting q] ++ (own ++ ([.woken q] ++ es))) = _
      rw [takenFrom_append, takenFrom_append, takenFrom_append, List.append_assoc]
      rfl
    have hinner : (woken own).filter (·.lock.resource = r) = takenFrom r own :=
      ihown fun earlier p own' rest he =>
        hapart (.granting q :: earlier) p own' (rest ++ .woken q :: es) (by simp [he])
    have houter : (woken es).filter (·.lock.resource = r) = takenFrom r es :=
      ih fun earlier p own' rest he =>
        hapart (.granting q :: (own ++ .woken q :: earlier)) p own' rest (by simp [he])
    rw [hw, ht, List.filter_append, List.filter_cons, hinner, houter, takenFrom_granting]
    by_cases hr : q.lock.resource = r
    · rw [hapart [] q own es rfl hp hr]
      simp [hr]
    · simp [hr]

end Units

namespace Cascade

variable {t t' : Table} {task : Task} {tasks rest new xs ys : List Task} {es : List Event}
  {r : Resource} {q : Request}

/-- What is done for a request between its departure from its queue and the wake-up. -/
def unit (q : Request) : List Task := .grant q.lock :: q.releases.map (.giveUp q.txn.id)

theorem serve_eq (r : Resource) (q : Request) : serve r q = unit q ++ [.wake q, .drain r] := rfl

theorem toWake_unit (q : Request) : toWake (unit q) = [] := by
  have hserve := toWake_serve default q
  rw [serve_eq, toWake_append] at hserve
  exact (List.append_eq_singleton_iff.1 hserve).elim And.left fun h => nomatch h.2

/-- Tasks that take no request from a queue and wake nobody. -/
theorem Effect.between (he : Effect t task t' es new) (hserve : ∀ q, es ≠ [.granting q])
    (hwake : ∀ q, task ≠ .wake q) : (∀ e ∈ es, e.taken? = none) ∧ ∀ e ∈ es, e.woken? = none := by
  cases he with
  | grant hp =>
    rcases Table.event_of_put hp with rfl | ⟨before, rfl⟩
    · simp [Event.taken?, Event.woken?]
    · simp [Event.taken?, Event.woken?]
  | release ht => simp [Event.taken?, Event.woken?]
  | gone hh => simp [Event.taken?, Event.woken?]
  | wake q => exact absurd rfl (hwake q)
  | serve hp => exact absurd rfl (hserve _)
  | _ => simp

/-- What happens where a request is served: its unit, and then the rest of the agenda. -/
theorem run_serve (hf : (run t (serve r q ++ rest)).fault? = none) :
    let own := run t (unit q)
    own.fault? = none ∧ (run own.table (.drain r :: rest)).fault? = none ∧
      (run t (serve r q ++ rest)).events =
        own.events ++ .woken q :: (run own.table (.drain r :: rest)).events := by
  intro own
  have hsplit : serve r q ++ rest = unit q ++ (.wake q :: .drain r :: rest) := by
    rw [serve_eq, List.append_assoc]
    rfl
  rw [hsplit, run_append] at hf ⊢
  change (own.andThen _).fault? = none at hf
  cases hown : own.fault? with
  | some f =>
    rw [Outcome.andThen_of_fault hown, hown] at hf
    cases hf
  | none =>
    have hrest := Outcome.andThen_of_none hown (.wake q :: .drain r :: rest)
    rw [hrest, run_wake] at hf
    refine ⟨rfl, hf, ?_⟩
    change (own.andThen _).events = _
    rw [hrest, run_wake]

/-- **What happens in a cascade consists of units**, if it is worked off. What is known of a unit may
rest on an invariant of the agenda. -/
theorem units_run {I : Table → List Task → Prop} {P : Request → List Event → Prop}
    (hstep : ∀ {t task rest t' es new}, I t (task :: rest) → Effect t task t' es new →
      I t' (new ++ rest))
    (hpart : ∀ {t xs ys}, I t (xs ++ ys) → I t xs)
    (hunit : ∀ {t r q t' rest}, I t (.drain r :: rest) → t.pop? r = some (.ok (q, t')) →
      (run t' (unit q)).fault? = none → P q (run t' (unit q)).events)
    (h : I t tasks) (hw : toWake tasks = []) (hf : (run t tasks).fault? = none) :
    Units P (run t tasks).events := by
  induction hn : t.load + work tasks using Nat.strongRecOn generalizing t tasks with
  | ind n ih =>
  cases tasks with
  | nil => simpa using Units.nil
  | cons task rest =>
  cases hnext : (step t task).next with
  | error f =>
    rw [run_cons_error hnext] at hf
    cases hf
  | ok new =>
    have he := effect_of_next hnext
    have hrun : run t (task :: rest) = _ := run_cons_ok hnext
    generalize (step t task).table = t', (step t task).events = es at he hrun
    have hlower := he.potential
    rw [hrun] at hf ⊢
    rw [work_cons] at hn
    -- a task that serves no request happens outside of units, and wakes nobody
    have houtside : toWake new = [] → (∀ q, es ≠ [.granting q]) →
        Units P (es ++ (run t' (new ++ rest)).events) := by
      intro hnew hserve
      have hrest : toWake ([task] ++ rest) = [] := hw
      rw [toWake_append, List.append_eq_nil_iff] at hrest
      have hwake : ∀ q, task ≠ .wake q := by
        rintro q rfl
        cases hrest.1
      obtain ⟨htaken, hwoken⟩ := he.between hserve hwake
      refine .between_append htaken hwoken (ih _ ?_ (hstep h he) ?_ hf rfl)
      · rw [work_append]
        omega
      · rw [toWake_append, hnew, hrest.2]
        rfl
    cases he with
    | grant hp =>
      refine houtside rfl fun q hq => ?_
      rcases Table.event_of_put hp with rfl | ⟨before, rfl⟩ <;> cases hq
    | @serve r q _ hp =>
      obtain ⟨hown, hrest, hevents⟩ := run_serve hf
      have hall : I t' (unit q ++ (.wake q :: .drain r :: rest)) := by
        have hnext := hstep h (.serve hp)
        rwa [serve_eq, List.append_assoc] at hnext
      have hbehind : I (run t' (unit q)).table (.drain r :: rest) :=
        hstep (run_rest hstep hall hown) (.wake q)
      have hload := load_run_le t' (unit q)
      rw [serve_eq, work_append, work_cons, work_cons, work_nil] at hlower
      have hpos : 0 < (Task.wake q).work := Nat.one_pos
      have hwake : toWake (.drain r :: rest) = [] := hw
      rw [hevents]
      refine .unit (hunit h hp hown) (ih _ ?_ (hpart hall) (toWake_unit q) hown rfl)
        (ih _ ?_ hbehind hwake hrest rfl)
      · omega
      · rw [work_cons]
        omega
    | _ => exact houtside rfl (by simp)

end Cascade

end Locking
