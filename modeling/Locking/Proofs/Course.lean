import Locking.Course
import Locking.Proofs.Run

/-!
# Calls are judged before anything changes

* `Course.carryOut`: what a call comes to, carried out.
* `Course.run_gather`: the locks to be given up are found without a change.
* `Call.course_eq`: the course of a call carries out what the call comes to. An entry that is made on
  the way would have been made in any case.
* `Call.course_eq_refused_iff`: a course that is refused hands on all as it was.
* `System.decide_follows`: a decision is where the course of its call has led, and what becomes of
  the gate of its transaction then.
-/

namespace Locking

open Cascade

/-- A lock that can be granted is granted as if no entry had been made. -/
theorem Table.run_touch {t : Table} {lock : Lock} (h : t.Sound) (ha : t.Admits lock)
    (rest : List Task) :
    run (t.touch lock.resource) (.grant lock :: rest) = run t (.grant lock :: rest) := by
  obtain ⟨t', e, hp, -⟩ := h.put ha
  have hp' : (t.touch lock.resource).put lock = .ok (t', e) := (t.put_touch lock).trans hp
  rw [run_grant hp, run_grant hp']

namespace Course

variable {s : State} {txn : Txn} {r : Resource} {mode held : Mode} {lock : Lock}

/-! ## Single steps -/

@[simp] theorem run_table : table.run s = .ok s.table s := rfl

@[simp] theorem run_refuse {A : Type} (e : Refusal) :
    (refuse e : Course A).run s = .error (.refused e) s := rfl

@[simp] theorem run_touch : (touch r).run s = .ok () { s with table := s.table.touch r } := rfl

@[simp] theorem run_enqueue {op : Operation} {q : Request} {place : Place} :
    (enqueue op q place held).run s =
      .ok () ⟨s.table.enqueue q place, s.events ++ [.queued op q held]⟩ := rfl

theorem run_work (s : State) (tasks : List Task) :
    (work tasks).run s =
      match (Cascade.run s.table tasks).fault? with
      | none => .ok () ⟨(Cascade.run s.table tasks).table,
          s.events ++ (Cascade.run s.table tasks).events⟩
      | some f => .error (.broken f) ⟨(Cascade.run s.table tasks).table,
          s.events ++ (Cascade.run s.table tasks).events⟩ := rfl

/-- An agenda can be worked off part by part. -/
theorem work_append (xs ys : List Task) :
    work (xs ++ ys) = work xs >>= fun _ => work ys := by
  funext s
  change (work (xs ++ ys)).run s = (work xs >>= fun _ => work ys).run s
  rw [EStateM.run_bind, run_work, run_work, Cascade.run_append, Outcome.andThen]
  cases hf : (Cascade.run s.table xs).fault? with
  | some f => simp [hf]
  | none => simp only [run_work, List.append_assoc]

theorem work_nil : work [] = pure () := by
  funext s
  change (work []).run s = .ok () s
  simp [run_work]

/-- Locks are released one by one. -/
theorem forM_release (locks : List Lock) :
    (locks.forM fun lock => work [.release lock]) = work (locks.map .release) := by
  induction locks with
  | nil => exact work_nil.symm
  | cons lock locks ih =>
    rw [List.map_cons, ← List.singleton_append (l := locks.map _), work_append, ← ih]
    rfl

/-- **The locks to be given up are found without a change.** -/
theorem run_gather (owner : TxnId) (kept : Resource) (found : List Lock) (rs : List Resource) :
    (gather owner kept found rs).run s =
      match s.table.collect owner kept rs with
      | .ok locks => .ok (found ++ locks) s
      | .error e => .error (.refused e) s := by
  induction rs generalizing found with
  | nil => simp [gather, Table.collect]
  | cons r rs ih =>
    rw [gather, EStateM.run_bind, run_table, Table.collect]
    dsimp only
    cases hh : s.table.held? owner r with
    | none => rfl
    | some lock =>
      dsimp only
      rw [ih]
      cases s.table.collect owner kept rs with
      | error e => rfl
      | ok locks =>
        by_cases hr : r = kept <;> simp [Except.map, hr]

/-! ## Whole calls -/

/-- Carries out what a call comes to. -/
def carryOut (op : Operation) : Except Refusal Plan → Course Result
  | .error e => refuse e
  | .ok (.go tasks) => do
    work tasks
    return .granted
  | .ok (.wait q place held) => do
    enqueue op q place held
    return .queued

/-- An agenda is worked off, and the call has been carried out if it is not broken off. -/
theorem run_go (s : State) (op : Operation) (tasks : List Task) :
    (carryOut op (.ok (.go tasks))).run s =
      match (Cascade.run s.table tasks).fault? with
      | none => .ok .granted ⟨(Cascade.run s.table tasks).table,
          s.events ++ (Cascade.run s.table tasks).events⟩
      | some f => .error (.broken f) ⟨(Cascade.run s.table tasks).table,
          s.events ++ (Cascade.run s.table tasks).events⟩ := by
  rw [carryOut, EStateM.run_bind, run_work]
  cases (Cascade.run s.table tasks).fault? with
  | none => rfl
  | some f => rfl

/-- What goes ahead can be carried out part by part. -/
theorem carryOut_parts (op : Operation) (first : Task) (xs ys : List Task) :
    carryOut op (.ok (.go (first :: (xs ++ ys)))) = do
      work [first]
      work xs
      work ys
      return .granted := by
  rw [carryOut, ← List.singleton_append, work_append, work_append]
  simp only [bind_assoc]

/-- A lock is granted, and what follows is done, as if no entry had been made before. -/
theorem run_go_touch (h : s.table.Sound) (ha : s.table.Admits lock) (op : Operation)
    (rest : List Task) :
    (carryOut op (.ok (.go (.grant lock :: rest)))).run
        { s with table := s.table.touch lock.resource } =
      (carryOut op (.ok (.go (.grant lock :: rest)))).run s := by
  simp only [run_go, Table.run_touch h ha]

/-- A request is queued as if no entry had been made before. -/
theorem run_wait_touch (op : Operation) (q : Request) (place : Place) (held : Mode) :
    (carryOut op (.ok (.wait q place held))).run
        { s with table := s.table.touch q.lock.resource } =
      (carryOut op (.ok (.wait q place held))).run s := by
  simp only [carryOut, EStateM.run_bind, run_enqueue, Table.enqueue_touch]

theorem run_acquire (h : s.table.Sound) (txn : Txn) (r : Resource) (mode : Mode) :
    (acquire txn r mode).run s = (carryOut .acquire (s.table.planAcquire txn r mode)).run s := by
  unfold acquire Table.planAcquire demandMode
  by_cases hm : mode = .nl
  · simp [hm, carryOut]
  by_cases hh : s.table.mode txn.id r = .nl
  swap
  · simp [hm, hh, carryOut]
  -- past the checks, the two ways differ only in the entry that has been made
  have hqueue : (s.table.entry r).queue = s.table.queue r := rfl
  simp only [hm, hh, if_false, ne_eq, not_true, pure_bind, EStateM.run_bind, run_table, run_touch,
    Table.entry_touch, hqueue, ← Bool.not_and]
  cases hq : (s.table.queue r).isEmpty && (s.table.entry r).admits mode txn.id with
  | true =>
    have ha : s.table.Admits ⟨r, mode, txn.id⟩ :=
      ⟨hm, Table.admits_iff.1 (Bool.and_eq_true_iff.1 hq).2⟩
    exact run_go_touch h ha .acquire []
  | false => exact run_wait_touch .acquire ⟨txn, ⟨r, mode, txn.id⟩, []⟩ .back .nl

theorem run_release (txn : Txn) (r : Resource) :
    (release txn r).run s = (carryOut .release (s.table.planRelease txn r)).run s := by
  unfold release Table.planRelease
  rw [EStateM.run_bind, run_table]
  dsimp only
  cases s.table.held? txn.id r with
  | none => rfl
  | some lock => rfl

theorem run_promote (h : s.table.Sound) (txn : Txn) (r : Resource) (mode : Mode) :
    (promote txn r mode).run s = (carryOut .promote (s.table.planPromote txn r mode)).run s := by
  unfold promote Table.planPromote
  by_cases hsame : s.table.mode txn.id r = mode
  · simp [hsame, carryOut]
  by_cases hh : s.table.mode txn.id r = .nl
  · have hne : .nl ≠ mode := hh ▸ hsame
    simp [hh, hne, carryOut]
  cases hc : mode.covers (s.table.mode txn.id r) with
  | false => simp [hsame, hh, hc, carryOut]
  | true =>
    have hm : mode ≠ .nl := by
      rintro rfl
      exact hh (Mode.eq_nl_of_nl_covers hc)
    simp only [hsame, hh, hc, if_false, Bool.not_true, Bool.true_eq_false, Bool.false_eq_true,
      EStateM.run_bind, run_table, run_touch, Table.entry_touch]
    cases hq : (s.table.entry r).admits mode txn.id with
    | true =>
      have ha : s.table.Admits ⟨r, mode, txn.id⟩ := ⟨hm, Table.admits_iff.1 hq⟩
      exact run_go_touch h ha .promote []
    | false => exact run_wait_touch .promote ⟨txn, ⟨r, mode, txn.id⟩, []⟩ .front _

theorem run_exchange (h : s.table.Sound) (txn : Txn) (r : Resource) (mode : Mode)
    (releases : List Resource) :
    (exchange txn r mode releases).run s =
      (carryOut .exchange (s.table.planExchange txn r mode releases)).run s := by
  unfold exchange Table.planExchange demandMode
  by_cases hm : mode = .nl
  · simp [hm, carryOut]
  by_cases hh : s.table.mode txn.id r ≠ .nl ∧ r ∉ releases
  · simp [hm, hh, carryOut]
  simp only [hm, hh, if_false, pure_bind, EStateM.run_bind, run_table, run_gather]
  cases s.table.collect txn.id r releases.eraseDups with
  | error e => rfl
  | ok locks =>
    simp only [List.nil_append, forM_release, run_touch, Table.entry_touch]
    cases hq : (s.table.entry r).admits mode txn.id with
    | true =>
      have ha : s.table.Admits ⟨r, mode, txn.id⟩ := ⟨hm, Table.admits_iff.1 hq⟩
      -- the agenda is cut where one step of the course ends and the next begins
      rw [if_pos rfl, List.cons_append, ← run_go_touch h ha, carryOut_parts]
      by_cases hnl : s.table.mode txn.id r = .nl
      · simp [hnl, work_nil]
      · simp [hnl]
    | false => exact run_wait_touch .exchange ⟨txn, ⟨r, mode, txn.id⟩, locks⟩ .front _

end Course

variable {s : Course.State} {txn : Txn} {call : Call} {e : Refusal}

/-- **The course of a call carries out what the call comes to.** All that may speak against a call is
checked before anything changes. -/
theorem Call.course_eq (h : s.table.Sound) (txn : Txn) (call : Call) :
    (call.course txn).run s =
      (Course.carryOut call.operation (s.table.plan txn call)).run s := by
  cases call with
  | acquire r mode => exact Course.run_acquire h txn r mode
  | release r => exact Course.run_release txn r
  | promote r mode => exact Course.run_promote h txn r mode
  | exchange r mode releases => exact Course.run_exchange h txn r mode releases

/-- **A course that is refused hands on all as it was.** -/
theorem Call.course_eq_refused_iff (h : s.table.Sound) {s' : Course.State} :
    (call.course txn).run s = .error (.refused e) s' ↔
      s.table.plan txn call = .error e ∧ s' = s := by
  rw [course_eq h]
  cases s.table.plan txn call with
  | error r => simp [Course.carryOut, eq_comm]
  | ok plan =>
    cases plan with
    | go tasks =>
      rw [Course.run_go]
      cases (run s.table tasks).fault? <;> simp
    | wait q place held => simp [Course.carryOut, EStateM.run_bind, -bind_pure_comp]

/-- A decision is where the course of its call has led. Where the request has been queued, the gate
of the transaction is closed after that. -/
def Decision.Follows (d : Decision) (m : Nat) (txn : Txn) :
    EStateM.Result Halt Course.State Course.Result → Prop
  | .error (.refused e) s =>
    d.verdict = .refused e ∧ d.events = s.events ∧ d.system.table m = s.table
  | .error (.broken f) s =>
    d.verdict = .failed f ∧ d.events = s.events ∧ d.system.table m = s.table
  | .ok .granted s => d.verdict = .done ∧ d.events = s.events ∧ d.system.table m = s.table
  | .ok .queued s =>
    (d.verdict = .waits ∧ d.events = s.events ++ [.gate (.closed txn)] ∨
      d.verdict = .failed (.closedTwice txn.id) ∧
        d.events = s.events ++ [.fault (.closedTwice txn.id)]) ∧
    d.system.table m = s.table

/-- **A decision follows the course of its call.** -/
theorem System.decide_follows {s : System} (h : s.Sound) (m : Nat) (txn : Txn) (call : Call) :
    (s.decide m txn call).Follows m txn ((call.course txn).run { table := s.table m }) := by
  rw [Call.course_eq (h m)]
  have hd := decided h m txn call
  generalize s.decide m txn call = d at hd
  have hset := s.table_setTable_self m
  cases hd with
  | refused hp =>
    rw [hp]
    exact ⟨rfl, rfl, rfl⟩
  | @done tasks t es hp hr =>
    rw [hp, Course.run_go, hr]
    exact ⟨rfl, rfl, hset t⟩
  | @broken tasks t es f hp hr =>
    rw [hp, Course.run_go, hr]
    exact ⟨rfl, rfl, hset t⟩
  | @waits q place held t hp ht hg =>
    rw [hp]
    exact ⟨.inl ⟨rfl, rfl⟩, (hset t).trans ht.symm⟩
  | @shut q place held t hp ht hg =>
    rw [hp]
    exact ⟨.inr ⟨rfl, rfl⟩, (hset t).trans ht.symm⟩

end Locking
