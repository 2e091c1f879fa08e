import Locking.Proofs.Plan
import Locking.Proofs.Table.Audit
import Locking.System

/-!
# Runs of systems

A run is any list of actions, with any arguments, from a system in which nothing has happened.

* `System.start`, `System.after`, `System.trace`: where a run begins, where it leads, and what
  happens on the way.
* `System.Unbroken`: no action of the run breaks off.
* `System.call_eq_run`: a call on its own is a run of one action or two.
* `System.Decided`, `System.Acted`: all that a decision, or any action, can be where every table is
  sound; `Decided.of_refused`, `Decided.of_go`, `Decided.of_wait`, `Decided.goes_through`: what it is
  if it does not break off; `Decided.leads`: where it leads, also if it does.
* `System.sound_after`: every run keeps every table sound, also where an action breaks off.
* `System.Lasting`, `System.Enduring`: what no call destroys holds in every run in which nothing breaks
  off; what even calls that break off do not destroy holds in every run.
-/

namespace Locking

/-- The fault at which a call breaks off. -/
def Verdict.fault? : Verdict → Option Fault
  | failed f => some f
  | _ => none

namespace System

variable {s : System} {m n : Nat} {t : Table} {txn : Txn} {call : Call} {a : Action}
  {as bs : List Action}

/-! ## Runs -/

/-- A system in which nothing has happened. -/
def start (settings : Settings) : System := { settings }

/-- Where a run leads. An action that breaks off leaves the system as it stood then. -/
def after (s : System) (as : List Action) : System := as.foldl (fun s a => (s.act a).system) s

/-- What happens in a run. -/
def trace (s : System) : List Action → List Event
  | [] => []
  | a :: as => (s.act a).events ++ trace (s.act a).system as

/-- No action of a run breaks off. -/
def Unbroken (s : System) : List Action → Prop
  | [] => True
  | a :: as => (s.act a).verdict.fault? = none ∧ Unbroken (s.act a).system as

instance decidableUnbroken (s : System) : (as : List Action) → Decidable (s.Unbroken as)
  | [] => .isTrue trivial
  | a :: as =>
    have := decidableUnbroken (s.act a).system as
    inferInstanceAs (Decidable (_ ∧ _))

@[simp] theorem after_nil (s : System) : s.after [] = s := rfl

@[simp] theorem after_cons (s : System) (a : Action) (as : List Action) :
    s.after (a :: as) = (s.act a).system.after as := rfl

theorem after_append (s : System) (as bs : List Action) :
    s.after (as ++ bs) = (s.after as).after bs := by
  simp [after]

theorem unbroken_append {s : System} :
    s.Unbroken (as ++ bs) ↔ s.Unbroken as ∧ (s.after as).Unbroken bs := by
  induction as generalizing s with
  | nil => simp [Unbroken]
  | cons a as ih => simp [Unbroken, ih, and_assoc]

/-- A call on its own is a run: its decision, and the arrival directly after if its transaction has
to wait. It breaks off where the run does. -/
theorem call_eq_run (s : System) (m : Nat) (txn : Txn) (call : Call) :
    ∃ as, as <+: [.decide m txn call, .arrive call.operation txn] ∧
      (s.call m txn call).system = s.after as ∧ (s.call m txn call).events = s.trace as ∧
      ((s.call m txn call).verdict.fault? = none ↔ s.Unbroken as) := by
  cases hv : (s.decide m txn call).verdict with
  | waits =>
    refine ⟨_, List.prefix_rfl, ?_⟩
    simp [System.call, hv, trace, act, Unbroken, Verdict.fault?]
  | _ =>
    refine ⟨[.decide m txn call], ⟨[.arrive call.operation txn], rfl⟩, ?_⟩
    simp [System.call, hv, trace, act, Unbroken]

/-! ## Decisions -/

@[simp] theorem table_setTable (s : System) (m n : Nat) (t : Table) :
    (s.setTable m t).table n = if m = n then t else s.table n := by
  simp [setTable, table, Std.ExtTreeMap.getD_insert]

theorem table_setTable_self (s : System) (m : Nat) (t : Table) : (s.setTable m t).table m = t :=
  (table_setTable s m m t).trans (if_pos rfl)

/-- Every table is sound. -/
def Sound (s : System) : Prop := ∀ m, (s.table m).Sound

theorem sound_start (settings : Settings) : (start settings).Sound := fun _ => Table.sound_empty

theorem Sound.setTable (h : s.Sound) (ht : t.Sound) (m : Nat) : (s.setTable m t).Sound := by
  intro n
  rw [table_setTable]
  split
  · exact ht
  · exact h n

/-- The audit of a sound table finds nothing. -/
theorem commit_of_sound (ht : t.Sound) (es : List Event) (v : Verdict) :
    s.commit m t es v = ⟨{ s.setTable m t with
      tally := s.tally.update (s.wakeups m es) t.grantedCount t.waitingCount
      uncounted := s.uncounted.erase m }, es, v⟩ := by
  simp [commit, ht.toCoherent.audit_eq_none]

/-- What a decision on a call may be, and where it leads. -/
inductive Decided (s : System) (m : Nat) (txn : Txn) (call : Call) : Decision → Prop where
  | refused {r : Refusal} (hp : (s.table m).plan txn call = .error r) :
    Decided s m txn call
      ⟨{ s with tally := (s.tally.request call.operation).refuse r }, [], .refused r⟩
  /-- The agenda is worked off. -/
  | done {tasks : List Cascade.Task} {t : Table} {es : List Event}
    (hp : (s.table m).plan txn call = .ok (.go tasks))
    (hr : Cascade.run (s.table m) tasks = ⟨t, es, none⟩) :
    Decided s m txn call
      ⟨{ s.setTable m t with
          gates := s.gates.afterEvents es
          tally := (s.tally.request call.operation).update (s.wakeups m es) t.grantedCount
            t.waitingCount
          uncounted := s.uncounted.erase m }, es, .done⟩
  /-- The agenda breaks off. -/
  | broken {tasks : List Cascade.Task} {t : Table} {es : List Event} {f : Fault}
    (hp : (s.table m).plan txn call = .ok (.go tasks))
    (hr : Cascade.run (s.table m) tasks = ⟨t, es, some f⟩) :
    Decided s m txn call
      ⟨{ s.setTable m t with
          gates := s.gates.afterEvents es
          tally := s.tally.request call.operation
          uncounted := s.uncounted.insert m (s.wakeups m es) }, es, .failed f⟩
  /-- The request is queued and the gate closed. -/
  | waits {q : Request} {place : Place} {held : Mode} {t : Table}
    (hp : (s.table m).plan txn call = .ok (.wait q place held))
    (ht : (s.table m).enqueue q place = t) (hg : s.gates.isClosed txn = false) :
    Decided s m txn call
      ⟨{ s.setTable m t with
          gates := s.gates.insert txn.key (s.gates.gate txn).close
          tally := (s.tally.request call.operation).update (s.wakeups m []) t.grantedCount
            t.waitingCount
          uncounted := s.uncounted.erase m },
        [.queued call.operation q held, .gate (.closed txn)], .waits⟩
  /-- The request is queued, but the gate is closed already. -/
  | shut {q : Request} {place : Place} {held : Mode} {t : Table}
    (hp : (s.table m).plan txn call = .ok (.wait q place held))
    (ht : (s.table m).enqueue q place = t) (hg : s.gates.isClosed txn) :
    Decided s m txn call
      ⟨{ s.setTable m t with tally := s.tally.request call.operation },
        [.queued call.operation q held, .fault (.closedTwice txn.id)],
        .failed (.closedTwice txn.id)⟩

theorem decided (h : s.Sound) (m : Nat) (txn : Txn) (call : Call) :
    Decided s m txn call (s.decide m txn call) := by
  unfold decide
  cases hp : (s.table m).plan txn call with
  | error r => exact .refused hp
  | ok plan =>
    have hplan := Table.planned_of_plan (h m) hp
    cases plan with
    | go tasks =>
      have ht : (Cascade.run (s.table m) tasks).table.Sound := (hplan.poised (h m)).run
      cases hr : Cascade.run (s.table m) tasks with
      | mk t es fault =>
        rw [hr] at ht
        change Decided s m txn call (perform _ m tasks)
        have hr' : Cascade.run (({ s with tally := s.tally.request call.operation } :
            System).table m) tasks = ⟨t, es, fault⟩ := hr
        -- whether or not the settings ask for an audit, the call goes through
        cases fault with
        | none =>
          simp only [perform, hr', commit_of_sound ht]
          exact .done hp hr
        | some f =>
          simp only [perform, hr']
          exact .broken hp hr
    | wait q place held =>
      obtain ⟨htxn, hq, -⟩ := hplan.request
      have ht : ((s.table m).enqueue q place).Sound := (h m).enqueue hq place
      change Decided s m txn call (park _ m call.operation q place held)
      simp only [park]
      rw [htxn]
      cases hg : s.gates.isClosed txn with
      | false =>
        rw [Gates.close_eq_ok_iff.2 ⟨hg, rfl⟩]
        change Decided s m txn call (commit _ m ((s.table m).enqueue q place) _ .waits)
        rw [commit_of_sound ht]
        exact .waits hp rfl hg
      | true =>
        rw [Gates.close_eq_error_iff.2 ⟨hg, rfl⟩]
        exact .shut hp rfl hg

/-- Where a call leads that is refused. -/
theorem Decided.of_refused {d : Decision} {r : Refusal} (hd : Decided s m txn call d)
    (hp : (s.table m).plan txn call = .error r) :
    d.verdict = .refused r ∧ d.events = [] ∧ d.system.table m = s.table m := by
  cases hd with
  | refused hp' =>
    cases hp'.symm.trans hp
    exact ⟨rfl, rfl, rfl⟩
  | done hp' hr => cases hp'.symm.trans hp
  | broken hp' hr => cases hp'.symm.trans hp
  | waits hp' ht hg => cases hp'.symm.trans hp
  | shut hp' ht hg => cases hp'.symm.trans hp

/-- Where an agenda leads that does not break off. -/
theorem Decided.of_go {d : Decision} {tasks : List Cascade.Task} (hd : Decided s m txn call d)
    (hp : (s.table m).plan txn call = .ok (.go tasks))
    (hf : (Cascade.run (s.table m) tasks).fault? = none) :
    d.verdict = .done ∧ d.events = (Cascade.run (s.table m) tasks).events ∧
      d.system.table m = (Cascade.run (s.table m) tasks).table ∧
      d.system.gates = s.gates.afterEvents (Cascade.run (s.table m) tasks).events := by
  cases hd with
  | @done _ t es hp' hr =>
    cases hp'.symm.trans hp
    rw [hr]
    exact ⟨rfl, rfl, table_setTable_self s m t, rfl⟩
  | broken hp' hr =>
    cases hp'.symm.trans hp
    rw [hr] at hf
    cases hf
  | refused hp' => cases hp'.symm.trans hp
  | waits hp' ht hg => cases hp'.symm.trans hp
  | shut hp' ht hg => cases hp'.symm.trans hp

/-- Where a transaction is told to wait whose gate is open. -/
theorem Decided.of_wait {d : Decision} {q : Request} {place : Place} {held : Mode}
    (hd : Decided s m txn call d)
    (hp : (s.table m).plan txn call = .ok (.wait q place held))
    (hg : s.gates.isClosed txn = false) :
    d.verdict = .waits ∧ d.events = [.queued call.operation q held, .gate (.closed txn)] ∧
      d.system.table m = (s.table m).enqueue q place ∧
      d.system.gates = s.gates.insert txn.key (s.gates.gate txn).close := by
  cases hd with
  | @waits _ _ _ t hp' ht =>
    cases hp'.symm.trans hp
    exact ⟨rfl, rfl, (table_setTable_self s m t).trans ht.symm, rfl⟩
  | shut hp' ht hg' =>
    rw [hg] at hg'
    cases hg'
  | refused hp' => cases hp'.symm.trans hp
  | done hp' hr => cases hp'.symm.trans hp
  | broken hp' hr => cases hp'.symm.trans hp

/-- Only who goes through an open gate is told to wait. -/
theorem Decided.open_of_waits {d : Decision} (hd : Decided s m txn call d)
    (hv : d.verdict = .waits) : s.gates.isClosed txn = false := by
  cases hd with
  | waits hp ht hg => exact hg
  | _ => cases hv

/-- **A decision that does not break off** is a refusal, or an agenda has been worked off, or the
request of the call has been queued. -/
theorem Decided.goes_through {d : Decision} (hd : Decided s m txn call d)
    (hf : d.verdict.fault? = none) :
    (∃ r, (s.table m).plan txn call = .error r ∧ d.verdict = .refused r ∧ d.events = [] ∧
      d.system.table m = s.table m) ∨
    (∃ tasks, (s.table m).plan txn call = .ok (.go tasks) ∧
      (Cascade.run (s.table m) tasks).fault? = none ∧ d.verdict = .done ∧
      d.events = (Cascade.run (s.table m) tasks).events ∧
      d.system.table m = (Cascade.run (s.table m) tasks).table) ∨
    ∃ q place held, (s.table m).plan txn call = .ok (.wait q place held) ∧ d.verdict = .waits ∧
      d.events = [.queued call.operation q held, .gate (.closed txn)] ∧
      d.system.table m = (s.table m).enqueue q place := by
  cases hd with
  | refused hp => exact .inl ⟨_, hp, rfl, rfl, rfl⟩
  | @done tasks t es hp hr =>
    refine .inr (.inl ⟨tasks, hp, by rw [hr], rfl, by rw [hr], ?_⟩)
    rw [hr]
    exact table_setTable_self s m t
  | broken hp hr => cases hf
  | @waits q place held t hp ht hg =>
    refine .inr (.inr ⟨q, place, held, hp, rfl, rfl, ?_⟩)
    rw [ht]
    exact table_setTable_self s m t
  | shut hp ht hg => cases hf

/-- **Where a decision leads, also if it breaks off**: nowhere, or as far as its agenda has been worked
off, or to the table with the request of its call in a queue. -/
theorem Decided.leads {d : Decision} (hd : Decided s m txn call d) :
    (d.events = [] ∧ d.system.table m = s.table m) ∨
    (∃ tasks, (s.table m).plan txn call = .ok (.go tasks) ∧
      d.events = (Cascade.run (s.table m) tasks).events ∧
      d.system.table m = (Cascade.run (s.table m) tasks).table) ∨
    ∃ q place held e, (s.table m).plan txn call = .ok (.wait q place held) ∧
      (e = .gate (.closed txn) ∨ e = .fault (.closedTwice txn.id)) ∧
      d.events = [.queued call.operation q held, e] ∧
      d.system.table m = (s.table m).enqueue q place := by
  have hset := s.table_setTable_self m
  cases hd with
  | refused hp => exact .inl ⟨rfl, rfl⟩
  | @done tasks t es hp hr =>
    refine .inr (.inl ⟨tasks, hp, ?_⟩)
    rw [hr]
    exact ⟨rfl, hset t⟩
  | @broken tasks t es f hp hr =>
    refine .inr (.inl ⟨tasks, hp, ?_⟩)
    rw [hr]
    exact ⟨rfl, hset t⟩
  | @waits q place held t hp ht hg =>
    exact .inr (.inr ⟨q, place, held, _, hp, .inl rfl, rfl, (hset t).trans ht.symm⟩)
  | @shut q place held t hp ht hg =>
    exact .inr (.inr ⟨q, place, held, _, hp, .inr rfl, rfl, (hset t).trans ht.symm⟩)

/-- What an action may do, and where it leads. -/
inductive Acted (s : System) : Action → Decision → Prop where
  | decided {m : Nat} {txn : Txn} {call : Call} {d : Decision} (hd : Decided s m txn call d) :
    Acted s (.decide m txn call) d
  | arrived {op : Operation} {txn : Txn} :
    Acted s (.arrive op txn) ⟨{ s with tally := s.tally.block op }, [.gate (.arrived txn)],
      if s.gates.isClosed txn then .waits else .done⟩
  | closed {txn : Txn} (hg : s.gates.isClosed txn = false) :
    Acted s (.close txn)
      ⟨{ s with gates := s.gates.insert txn.key (s.gates.gate txn).close },
        [.gate (.closed txn)], .done⟩
  | shut {txn : Txn} (hg : s.gates.isClosed txn) :
    Acted s (.close txn) ⟨s, [.fault (.closedTwice txn.id)], .failed (.closedTwice txn.id)⟩
  | reopened {txn : Txn} :
    Acted s (.reopen txn)
      ⟨{ s with gates := s.gates.reopen txn }, [.gate (.reopened txn)], .done⟩

theorem acted (h : s.Sound) (a : Action) : Acted s a (s.act a) := by
  cases a with
  | decide m txn call => exact .decided (decided h m txn call)
  | arrive op txn => exact .arrived
  | close txn =>
    change Acted s (.close txn) (s.close txn)
    unfold close
    cases hg : s.gates.isClosed txn with
    | false =>
      rw [Gates.close_eq_ok_iff.2 ⟨hg, rfl⟩]
      exact .closed hg
    | true =>
      rw [Gates.close_eq_error_iff.2 ⟨hg, rfl⟩]
      exact .shut hg
  | reopen txn => exact .reopened

/-! ## Every run keeps every table sound -/

/-- **What holds of all tables still does after a decision**, if it holds of the table that the
agenda or the queued request leads to. Only the table of its manager may be another. -/
theorem Decided.preserves {P : Table → Prop} {d : Decision} (hd : Decided s m txn call d)
    (hs : ∀ n, P (s.table n))
    (hgo : ∀ {tasks}, (s.table m).plan txn call = .ok (.go tasks) →
      (d.verdict.fault? = none → (Cascade.run (s.table m) tasks).fault? = none) →
      P (Cascade.run (s.table m) tasks).table)
    (hwait : ∀ {q place held}, (s.table m).plan txn call = .ok (.wait q place held) →
      P ((s.table m).enqueue q place)) (n : Nat) :
    P (d.system.table n) := by
  have hset : ∀ {t : Table}, P t → P ((s.setTable m t).table n) := by
    intro t ht
    rw [table_setTable]
    split
    · exact ht
    · exact hs n
  cases hd with
  | refused hp => exact hs n
  | done hp hr =>
    have ht := hgo hp fun _ => by rw [hr]
    rw [hr] at ht
    exact hset ht
  | broken hp hr =>
    have ht := hgo hp nofun
    rw [hr] at ht
    exact hset ht
  | waits hp ht hg => exact hset (ht ▸ hwait hp)
  | shut hp ht hg => exact hset (ht ▸ hwait hp)

/-- An action that is no decision changes no table. -/
theorem act_preserves {P : Table → Prop} (hs : ∀ n, P (s.table n))
    (hdecide : ∀ {m txn call}, a = .decide m txn call →
      ∀ n, P ((s.decide m txn call).system.table n)) (n : Nat) :
    P ((s.act a).system.table n) := by
  cases a with
  | decide m txn call => exact hdecide rfl n
  | arrive op txn => exact hs n
  | close txn =>
    change P ((s.close txn).system.table n)
    unfold close
    split <;> exact hs n
  | reopen txn => exact hs n

theorem Decided.sound {d : Decision} (h : s.Sound) (hd : Decided s m txn call d) :
    d.system.Sound :=
  hd.preserves h (fun hp _ => ((Table.planned_of_plan (h m) hp).poised (h m)).run)
    fun hp => (h m).enqueue (Table.planned_of_plan (h m) hp).request.2.1 _

theorem sound_act (h : s.Sound) (a : Action) : (s.act a).system.Sound :=
  act_preserves h fun _ => (decided h _ _ _).sound h

theorem sound_after (h : s.Sound) (as : List Action) : (s.after as).Sound := by
  induction as generalizing s with
  | nil => exact h
  | cons a as ih => exact ih (sound_act h a)

/-- **Every table of every run is sound.** -/
theorem sound_run (settings : Settings) (as : List Action) : ((start settings).after as).Sound :=
  sound_after (sound_start settings) as

/-! ## What calls do not destroy -/

/-- A property of sound tables that holds in the beginning, and that no call destroys which does not
break off. -/
structure Lasting (P : Table → Prop) : Prop where
  empty : P {}
  go : ∀ {t : Table} {txn : Txn} {call : Call} {tasks : List Cascade.Task}, t.Sound → P t →
    t.plan txn call = .ok (.go tasks) → (Cascade.run t tasks).fault? = none →
    P (Cascade.run t tasks).table
  wait : ∀ {t : Table} {txn : Txn} {call : Call} {q : Request} {place : Place} {held : Mode},
    t.Sound → P t → t.plan txn call = .ok (.wait q place held) → P (t.enqueue q place)

namespace Lasting

variable {P : Table → Prop}

theorem decided (hP : Lasting P) (h : s.Sound) (hs : ∀ n, P (s.table n)) {d : Decision}
    (hd : Decided s m txn call d) (hf : d.verdict.fault? = none) (n : Nat) :
    P (d.system.table n) :=
  hd.preserves hs (fun hp hrun => hP.go (h m) (hs m) hp (hrun hf))
    (fun hp => hP.wait (h m) (hs m) hp) n

theorem act (hP : Lasting P) (h : s.Sound) (hs : ∀ n, P (s.table n))
    (hf : (s.act a).verdict.fault? = none) (n : Nat) : P ((s.act a).system.table n) := by
  refine act_preserves hs (fun {m txn call} ha => ?_) n
  subst ha
  exact hP.decided h hs (System.decided h m txn call) hf

/-- **What no call destroys holds in every run** in which nothing breaks off. -/
theorem run (hP : Lasting P) {settings : Settings} (hu : (start settings).Unbroken as) (m : Nat) :
    P (((start settings).after as).table m) := by
  have hafter : ∀ (as : List Action) {s : System}, s.Sound → (∀ n, P (s.table n)) →
      s.Unbroken as → P ((s.after as).table m) := by
    intro as
    induction as with
    | nil => exact fun _ hs _ => hs m
    | cons a as ih => exact fun h hs hu => ih (sound_act h a) (hP.act h hs hu.1) hu.2
  exact hafter as (sound_start settings) (fun _ => hP.empty) hu

end Lasting

/-- A property of sound tables that holds in the beginning, and that no call destroys, even if it
breaks off. -/
structure Enduring (P : Table → Prop) : Prop where
  empty : P {}
  go : ∀ {t : Table} {txn : Txn} {call : Call} {tasks : List Cascade.Task}, t.Sound → P t →
    t.plan txn call = .ok (.go tasks) → P (Cascade.run t tasks).table
  wait : ∀ {t : Table} {txn : Txn} {call : Call} {q : Request} {place : Place} {held : Mode},
    t.Sound → P t → t.plan txn call = .ok (.wait q place held) → P (t.enqueue q place)

/-- **What no call destroys, even if it breaks off, holds in every run.** -/
theorem Enduring.run {P : Table → Prop} (hP : Enduring P) (settings : Settings) (as : List Action)
    (m : Nat) : P (((start settings).after as).table m) := by
  have hafter : ∀ (as : List Action) {s : System}, s.Sound → (∀ n, P (s.table n)) →
      P ((s.after as).table m) := by
    intro as
    induction as with
    | nil => exact fun _ hs => hs m
    | cons a as ih =>
      intro s h hs
      refine ih (sound_act h a) (act_preserves hs fun {m txn call} _ => ?_)
      exact (System.decided h m txn call).preserves hs (fun hp _ => hP.go (h m) (hs m) hp)
        fun hp => hP.wait (h m) (hs m) hp
  exact hafter as (sound_start settings) fun _ => hP.empty

end System

end Locking
