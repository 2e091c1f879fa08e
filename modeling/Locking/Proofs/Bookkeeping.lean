import Locking.Proofs.Run
import Locking.Proofs.Table.Owner

/-!
# The books of a table

A granted lock stands in the entry of its resource and in the index of its owner, and it is counted.
Whatever has happened, all of them tell the same.

* `Table.Agrees`: the queries, lists and counts of a table agree with one another.
* `Sound.agrees`: they do in every sound table.
* `Poised.fault_run`, `Decided.fault`: at which faults a call may break off.
* `System.act_under`: the audit changes nothing, for it never finds anything wrong.
* `System.books_agree`: all this for every run, with any arguments.
-/

namespace Locking

open Std

/-- **The books of a table agree**: its queries and its lists tell of the same locks, and its counts
are right. -/
structure Table.Agrees (t : Table) : Prop where
  /-- What a transaction holds on a resource is listed there. -/
  mem_locksOn : ∀ {txn : TxnId} {r : Resource} {mode : Mode}, mode ≠ .nl →
    (⟨r, mode, txn⟩ ∈ t.locksOn r ↔ t.mode txn r = mode)
  /-- What a transaction holds on a resource is listed among its locks. -/
  mem_locksOf : ∀ {txn : TxnId} {r : Resource} {mode : Mode}, mode ≠ .nl →
    (⟨r, mode, txn⟩ ∈ t.locksOf txn ↔ t.mode txn r = mode)
  /-- What a transaction holds on a resource is listed among its locks below every resource that
  this one is below of. -/
  mem_locksBelow : ∀ {txn : TxnId} {r above : Resource} {mode : Mode}, mode ≠ .nl →
    (⟨r, mode, txn⟩ ∈ t.locksBelow txn above ↔ t.mode txn r = mode ∧ r.isBelow above)
  on : ∀ {r : Resource} {lock : Lock}, lock ∈ t.locksOn r → lock.resource = r ∧ lock.mode ≠ .nl
  own : ∀ {txn : TxnId} {lock : Lock}, lock ∈ t.locksOf txn → lock.owner = txn ∧ lock.mode ≠ .nl
  nodup_on : ∀ r, (t.locksOn r).Nodup
  nodup_of : ∀ txn, (t.locksOf txn).Nodup
  nodup_below : ∀ txn r, (t.locksBelow txn r).Nodup
  /-- What waits for a resource asks for a lock on it. -/
  waiting : ∀ {r : Resource} {q : Request}, q ∈ t.queue r →
    q.lock.resource = r ∧ q.lock.mode ≠ .nl
  granted : t.grantedCount = t.grantedTotal
  indexed : t.grantedCount = t.indexedTotal
  queued : t.waitingCount = t.waitingTotal

namespace Table.Sound

variable {t : Table} {r : Resource} {txn : TxnId} {mode : Mode} {lock : Lock}

/-- A transaction has a mode on a resource exactly if it holds the lock with this mode. -/
theorem mode_eq_iff (h : t.Sound) (hm : mode ≠ .nl) :
    t.mode txn r = mode ↔ t.held? txn r = some ⟨r, mode, txn⟩ := by
  constructor
  · intro he
    cases hh : t.held? txn r with
    | none =>
      rw [h.mode_eq_nl_iff.2 hh] at he
      exact absurd he.symm hm
    | some lock =>
      obtain ⟨rfl, rfl, -⟩ := h.of_held? hh
      rw [← he, mode_of_held? hh]
  · exact mode_of_held?

theorem mem_locksOf_of_mode (h : t.Sound) (hm : mode ≠ .nl) :
    ⟨r, mode, txn⟩ ∈ t.locksOf txn ↔ t.mode txn r = mode := by
  rw [h.mem_locksOf_iff, h.mode_eq_iff hm]
  exact and_iff_right rfl

/-- **The books of a sound table agree.** -/
theorem agrees (h : t.Sound) : t.Agrees where
  mem_locksOn := fun hm => by rw [h.mem_locksOn_iff, h.mode_eq_iff hm]
  mem_locksOf := h.mem_locksOf_of_mode
  mem_locksBelow := fun hm => by rw [locksBelow, List.mem_filter, h.mem_locksOf_of_mode hm]
  on := fun hl => (h.of_held? (h.mem_locksOn_iff.1 hl)).2
  own := fun hl => by
    obtain ⟨ho, hh⟩ := h.mem_locksOf_iff.1 hl
    exact ⟨ho, (h.of_held? hh).2.2⟩
  nodup_on := h.nodup_locksOn
  nodup_of := h.nodup_locksOf
  nodup_below := fun txn _ => (h.nodup_locksOf txn).filter _
  waiting := fun hq => ⟨(h.proper hq).resource, (h.proper hq).real⟩
  granted := h.granted.symm
  indexed := h.indexed.symm
  queued := h.waiting.symm

end Table.Sound

/-! ## Faults -/

/-- The faults that only the callers can bring about: a transaction that waits is made to wait
again, or what is to be released has been released in the meantime. -/
def Fault.IsOfCaller (f : Fault) : Prop :=
  (∃ txn, f = .closedTwice txn) ∨ ∃ lock, f = .notGranted lock

theorem Cascade.Poised.fault_run {t : Table} {tasks : List Task} {f : Fault} (h : Poised t tasks)
    (hf : (Cascade.run t tasks).fault? = some f) : f.IsOfCaller := by
  rcases run_invariant (P := fun t tasks _ => Poised t tasks) []
    (fun hp he => hp.step he) h with ⟨hnone, -⟩ | ⟨f', task, rest, es, hsome, -, hp, hb⟩
  · rw [hf] at hnone
    cases hnone
  · rw [hf] at hsome
    cases hsome
    obtain ⟨lock, -, -, rfl⟩ := hp.fault hb
    exact .inr ⟨lock, rfl⟩

namespace System

variable {s : System} {m : Nat} {txn : Txn} {call : Call} {a : Action} {d : Decision} {f : Fault}
  {t : Table} {tasks : List Cascade.Task}

theorem Decided.fault (h : s.Sound) (hd : Decided s m txn call d) (hv : d.verdict = .failed f) :
    f.IsOfCaller := by
  cases hd with
  | refused hp => cases hv
  | done hp hr => cases hv
  | broken hp hr =>
    cases hv
    exact ((Table.planned_of_plan (h m) hp).poised (h m)).fault_run (by rw [hr])
  | waits hp ht hg => cases hv
  | shut hp ht hg =>
    cases hv
    exact .inl ⟨_, rfl⟩

/-- An action breaks off at no fault but those that callers bring about. -/
theorem fault_act (h : s.Sound) (hv : (s.act a).verdict = .failed f) : f.IsOfCaller := by
  have ha := acted h a
  generalize s.act a = d at ha hv
  cases ha with
  | decided hd => exact hd.fault h hv
  | @arrived op txn => cases hg : s.gates.isClosed txn <;> simp [hg] at hv
  | closed hg => cases hv
  | shut hg =>
    cases hv
    exact .inl ⟨_, rfl⟩
  | reopened => cases hv

/-! ## Other settings -/

/-- The same system with other settings. -/
def under (s : System) (settings : Settings) : System := { s with settings }

end System

/-- The same decision in the same system with other settings. -/
def Decision.under (d : Decision) (settings : Settings) : Decision :=
  { d with system := d.system.under settings }

namespace System

variable {s : System} {m : Nat} {txn : Txn} {call : Call} {t : Table} {tasks : List Cascade.Task}

theorem commit_under (ht : t.Sound) (es : List Event) (v : Verdict) (settings : Settings) :
    (s.under settings).commit m t es v = (s.commit m t es v).under settings := by
  rw [commit_of_sound ht, commit_of_sound ht]
  rfl

theorem perform_under (ht : (Cascade.run (s.table m) tasks).table.Sound) (settings : Settings) :
    (s.under settings).perform m tasks = (s.perform m tasks).under settings := by
  unfold perform
  cases hf : (Cascade.run (s.table m) tasks).fault? with
  | none =>
    have hf' : (Cascade.run ((s.under settings).table m) tasks).fault? = none := hf
    simp only [hf, hf']
    exact commit_under (s := { s with
      gates := s.gates.afterEvents (Cascade.run (s.table m) tasks).events }) ht _ .done settings
  | some f =>
    have hf' : (Cascade.run ((s.under settings).table m) tasks).fault? = some f := hf
    simp only [hf, hf']
    rfl

theorem park_under {op : Operation} {q : Request} {place : Place} {held : Mode}
    (ht : ((s.table m).enqueue q place).Sound) (settings : Settings) :
    (s.under settings).park m op q place held = (s.park m op q place held).under settings := by
  unfold park
  cases hg : s.gates.close q.txn with
  | ok gates =>
    have hg' : (s.under settings).gates.close q.txn = .ok gates := hg
    simp only [hg']
    exact commit_under (s := { s with gates }) ht _ .waits settings
  | error f =>
    have hg' : (s.under settings).gates.close q.txn = .error f := hg
    simp only [hg']
    rfl

theorem decide_under (h : s.Sound) (m : Nat) (txn : Txn) (call : Call) (settings : Settings) :
    (s.under settings).decide m txn call = (s.decide m txn call).under settings := by
  have hs : (s.under settings).table m = s.table m := rfl
  unfold decide
  rw [hs]
  cases hp : (s.table m).plan txn call with
  | error r => rfl
  | ok plan =>
    have hplan := Table.planned_of_plan (h m) hp
    cases plan with
    | go tasks =>
      exact perform_under (s := { s with tally := s.tally.request call.operation })
        (hplan.poised (h m)).run settings
    | wait q place held =>
      exact park_under (s := { s with tally := s.tally.request call.operation })
        ((h m).enqueue hplan.request.2.1 place) settings

/-- **The audit changes nothing**: where every table is sound, an action leads to the same under all
settings. -/
theorem act_under (h : s.Sound) (a : Action) (settings : Settings) :
    (s.under settings).act a = (s.act a).under settings := by
  cases a with
  | decide m txn call => exact decide_under h m txn call settings
  | arrive op txn => rfl
  | close txn =>
    change (s.under settings).close txn = (s.close txn).under settings
    unfold close
    cases hg : s.gates.close txn with
    | ok gates =>
      have hg' : (s.under settings).gates.close txn = .ok gates := hg
      simp only [hg']
      rfl
    | error f =>
      have hg' : (s.under settings).gates.close txn = .error f := hg
      simp only [hg']
      rfl
  | reopen txn => rfl

theorem after_under (h : s.Sound) (as : List Action) (settings : Settings) :
    (s.under settings).after as = (s.after as).under settings := by
  induction as generalizing s with
  | nil => rfl
  | cons a as ih =>
    rw [after_cons, after_cons, act_under h]
    exact ih (sound_act h a)

/-- **The books agree in every run**, whatever was called, by whom, and whatever was done to gates
from outside. So the audit finds nothing wrong, an action breaks off only where a transaction that
waits is made to wait again, or where a lock to be released is not granted, and a run leads to the
same, action by action, whether its tables are audited or not. -/
theorem books_agree (settings : Settings) (as : List Action) :
    (∀ m, (((start settings).after as).table m).Agrees ∧
      (((start settings).after as).table m).audit = none) ∧
    (∀ a f, (((start settings).after as).act a).verdict = .failed f →
      (∃ txn, f = .closedTwice txn) ∨ ∃ lock, f = .notGranted lock) ∧
    ∀ audited : Option Bool, let others := { settings with checkInvariants? := audited }
      (start others).after as = ((start settings).after as).under others ∧
      ∀ a, ((start others).after as).act a = (((start settings).after as).act a).under others := by
  have h := sound_run settings as
  refine ⟨fun m => ⟨(h m).agrees, (h m).audit_eq_none⟩, fun a f hv => fault_act h hv, ?_⟩
  intro audited others
  have hafter : (start others).after as = ((start settings).after as).under others :=
    after_under (sound_start settings) as others
  refine ⟨hafter, fun a => ?_⟩
  rw [hafter]
  exact act_under h a others

/-- Two transactions go by the id 1, and each of them is to give up the same lock. The second one
waits for a lock of transaction 2, which gives it up in exchange for one of the first one. So the
lock is released on behalf of the second one while the first one is about to release it. -/
def overtaken : List Action :=
  [.decide 0 ⟨2, 2⟩ (.acquire (.root "d") .x), .decide 0 ⟨0, 1⟩ (.acquire (.root "a") .s),
    .decide 0 ⟨0, 1⟩ (.acquire (.root "b") .s),
    .decide 0 ⟨1, 1⟩ (.exchange (.root "d") .s [.root "b"]),
    .decide 0 ⟨2, 2⟩ (.exchange (.root "a") .x [.root "d"]),
    .decide 0 ⟨0, 1⟩ (.exchange (.root "c") .s [.root "a", .root "b"])]

/-- The books agree also where a call has broken off. -/
theorem books_agree_overtaken :
    (((start {}).after (overtaken.take 5)).decide 0 ⟨0, 1⟩
        (.exchange (.root "c") .s [.root "a", .root "b"])).verdict =
      .failed (.notGranted ⟨.root "b", .s, 1⟩) ∧
    (((start {}).after overtaken).table 0).Agrees :=
  ⟨by decide +kernel, ((books_agree {} overtaken).1 0).1⟩

end System

end Locking
