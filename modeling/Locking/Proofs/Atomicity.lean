import Locking.Proofs.Asking
import Locking.Proofs.Cascade.Effects
import Locking.Proofs.Discipline
import Locking.Proofs.Queueing

/-!
# Calls take effect as a whole

A call changes the locks of its own transaction as it says, and those of others only by granting
their requests. A request is carried out as a whole: what it asks for is granted, and what it gives
up is released.

* `Call.carryOut`: what a call that is carried out at once does to the locks of its transaction.
* `Table.outstanding_of_plan`: its agenda does just that, and nothing to the locks of others.
* `Planned.settled`: no agenda of a call interferes with a request that waits.
* `Orderly.locksOf_decide`: what a call does to the locks of every transaction.
* `System.takes_effect_whole`: all this for every disciplined run.
-/

namespace Locking

open Cascade

/-- The locks of a transaction after a call of it that is carried out at once. -/
def Call.carryOut (txn : TxnId) (locks : List Lock) : Call → List Lock
  | acquire r mode => locks ++ [⟨r, mode, txn⟩]
  | release r => locks.filter (·.resource ≠ r)
  | promote r mode => locks.map fun held => if held.resource = r then ⟨r, mode, txn⟩ else held
  | exchange r mode rs => without (regrant locks ⟨r, mode, txn⟩) (rs.filter (· ≠ r))

theorem without_congr {locks : List Lock} {rs us : List Resource}
    (h : ∀ lock ∈ locks, lock.resource ∈ rs ↔ lock.resource ∈ us) :
    without locks rs = without locks us :=
  List.filter_congr fun lock hm => by simp [h lock hm]

namespace Table

variable {t : Table} {txn : Txn} {u : TxnId} {call : Call} {plan : Plan} {tasks : List Task}
  {r : Resource} {mode : Mode}

theorem mode_of_plan_acquire (hp : t.plan txn (.acquire r mode) = .ok plan) :
    t.mode txn.id r = .nl := by
  simp only [Table.plan, planAcquire] at hp
  split at hp
  · cases hp
  split at hp
  · cases hp
  rename_i hm
  exact not_ne_iff.1 hm

theorem mode_of_plan_promote (hp : t.plan txn (.promote r mode) = .ok plan) :
    t.mode txn.id r ≠ .nl := by
  simp only [Table.plan, planPromote] at hp
  split at hp
  · cases hp
  split at hp
  · cases hp
  rename_i hm
  exact hm

/-- A call that asks for a lock does what its request does. -/
theorem carryOut_request (h : t.Sound) (hcall : call.operation ≠ .release)
    (hp : t.plan txn call = .ok plan) :
    (t.request txn call).carryOut (t.locksOf txn.id) = call.carryOut txn.id (t.locksOf txn.id) := by
  cases call with
  | acquire r mode =>
    have hout : r ∉ (t.locksOf txn.id).map Lock.resource := by
      rw [h.mem_resources_iff, not_ne_iff, ← h.mode_eq_nl_iff]
      exact mode_of_plan_acquire hp
    simp [Request.carryOut, request, offers, Call.resource, Call.mode, Call.carryOut, regrant, hout]
  | release r => exact absurd rfl hcall
  | promote r mode =>
    have hin : r ∈ (t.locksOf txn.id).map Lock.resource := by
      rw [h.mem_resources_iff, Ne, ← h.mode_eq_nl_iff]
      exact mode_of_plan_promote hp
    simp only [Request.carryOut, request, offers, Call.resource, Call.mode, Call.carryOut, regrant,
      hin, if_true, List.map_nil, without_nil]
    rfl
  | exchange r mode rs =>
    refine without_congr fun lock hm => ?_
    rw [List.mem_map, List.mem_filter, decide_eq_true_iff]
    constructor
    · rintro ⟨l, hl, hr⟩
      obtain ⟨hrs, hne, -⟩ := (mem_offers_iff h mode).1 hl
      exact hr ▸ ⟨hrs, hne⟩
    · rintro ⟨hrs, hne⟩
      -- it is not the lock that is granted, so it is one of those that are held
      rcases mem_regrant hm with rfl | hl
      · exact absurd rfl hne
      · exact ⟨lock, (mem_offers_iff h mode).2 ⟨hrs, hne, (h.mem_locksOf_iff.1 hl).2⟩, rfl⟩

/-- All tasks of a call are done for its transaction. -/
theorem Planned.owner?_eq (h : t.Sound) (hp : Planned t txn call (.go tasks)) :
    ∀ task ∈ tasks, ∀ owner, task.owner? = some owner → owner = txn.id := by
  intro task hm owner ho
  cases hp with
  | grant hcall ha hc =>
    cases List.mem_singleton.1 hm
    exact (Option.some.inj ho).symm
  | release hh =>
    cases List.mem_singleton.1 hm
    exact (Option.some.inj ho).symm.trans (h.of_held? hh).1
  | @exchange r mode rs locks drains ha hl hd =>
    rcases List.mem_append.1 hm with hm | hm
    · rcases List.mem_cons.1 hm with rfl | hm
      · exact (Option.some.inj ho).symm
      · obtain ⟨lock, hlock, rfl⟩ := List.mem_map.1 hm
        exact (Option.some.inj ho).symm.trans (h.of_held? (hl.held lock hlock)).1
    · rcases hd with rfl | ⟨rfl, -⟩
      · cases List.mem_singleton.1 hm
        cases ho
      · cases hm

/-- **An agenda does to the locks of its transaction what the call says**, and nothing to those of
others. -/
theorem outstanding_of_plan (h : t.Sound) (hp : t.plan txn call = .ok (.go tasks)) (u : TxnId) :
    outstanding u tasks (t.locksOf u) =
      if u = txn.id then call.carryOut txn.id (t.locksOf u) else t.locksOf u := by
  have hplan := planned_of_plan h hp
  split
  · rename_i hu
    subst hu
    by_cases hcall : call.operation = .release
    · obtain ⟨r, lock, rfl, hh, rfl⟩ := hplan.of_release hcall
      obtain ⟨ho, rfl, -⟩ := h.of_held? hh
      simp [outstanding_cons, outstanding_nil, Task.owner?, Task.apply, ho, without, Call.carryOut]
    · rw [← carryOut_request h hcall hp]
      cases asked_of_plan hcall hp with
      | @now drains ha hq hd =>
        have howner : ∀ lock ∈ (t.request txn call).releases,
            (Task.release lock).owner? = some txn.id := fun lock hm =>
          congrArg some (h.of_held? (held?_of_mem_offers h hm)).1
        have hdrains : ∀ task ∈ drains, task.owner? ≠ some txn.id := by
          rcases hd with rfl | rfl <;> simp [Task.owner?]
        have hgrant : (Task.grant (t.request txn call).lock).owner? = some txn.id := rfl
        rw [outstanding_append, outstanding_of_owner hdrains, outstanding_cons, if_pos hgrant,
          outstanding_map howner fun _ _ => rfl]
        rfl
  · rename_i hu
    exact outstanding_of_owner (fun task hm ho => hu (hplan.owner?_eq h task hm u ho)) _

/-- **No agenda of a call interferes with a request that waits**, if its own transaction waits for
nothing or only releases a lock. -/
theorem Planned.settled (h : t.Sound) (hp : Planned t txn call (.go tasks))
    (hone : t.queuedSum (Request.isOf u) ≤ 1)
    (hfree : call.operation ≠ .release → ∀ {r : Resource} {q : Request}, q ∈ t.queue r →
      q.txn.id ≠ txn.id) : Settled u t tasks where
  one := hone
  idle := by
    intro hne task hm ho
    have hu := hp.owner?_eq h task (List.mem_of_mem_tail hm) u ho
    subst hu
    by_cases hcall : call.operation = .release
    · obtain ⟨r, lock, rfl, -, rfl⟩ := hp.of_release hcall
      cases hm
    · refine hne (queuedSum_eq_zero_iff.2 fun r => sumOf_eq_zero_iff.2 fun q hq => ?_)
      exact if_neg (hfree hcall hq)

end Table

namespace System

variable {s : System} {m : Nat} {txn : Txn} {call : Call} {d : Decision} {txns : List Txn}
  {as : List Action} {settings : Settings}

namespace Orderly

/-- At most one request under an id waits for a manager. -/
theorem queuedSum_isOf_le (h : Orderly txns s) (hids : DistinctIds txns) (m : Nat) (u : TxnId) :
    (s.table m).queuedSum (Request.isOf u) ≤ 1 := by
  by_cases h0 : (s.table m).queuedSum (Request.isOf u) = 0
  · omega
  rw [Table.queuedSum_eq_zero_iff] at h0
  push Not at h0
  obtain ⟨r, hr⟩ := h0
  obtain ⟨q, hq, hw⟩ := exists_of_sumOf_ne_zero hr
  obtain rfl : q.txn.id = u := by simpa [Request.isOf] using hw
  -- all requests under this id are of one transaction, and only one request of it waits
  have hkey : (s.table m).queuedSum (Request.isOf q.txn.id) ≤
      (s.table m).queuedSum (Request.isFrom q.txn.key) := by
    refine Table.queuedSum_le_queuedSum fun r p hp => ?_
    rw [Request.isOf, Request.isFrom]
    split
    · rename_i hid
      exact Nat.le_of_eq (if_pos (hids _ (h.known hp) _ (h.known hq) hid)).symm
    · exact Nat.zero_le _
  have hclosed := h.closed q.txn
  have hbool := Bool.toNat_le (s.gates.isClosed q.txn)
  have hall : (s.table m).queuedSum (Request.isFrom q.txn.key) ≤ s.waitingFor q.txn.key :=
    queuedSum_table_le _ s m
  omega

/-- No request under the id of a transaction waits whose gate is open. -/
theorem queuedSum_isOf_of_open (h : Orderly txns s) (hids : DistinctIds txns) (htxn : txn ∈ txns)
    (hg : s.gates.isClosed txn = false) (m : Nat) :
    (s.table m).queuedSum (Request.isOf txn.id) = 0 :=
  Table.queuedSum_eq_zero_iff.2 fun _ => sumOf_eq_zero_iff.2 fun _ hq =>
    if_neg (h.id_ne_of_open hids htxn hg hq)

/-- The agenda of an allowed call interferes with no request that waits. -/
theorem settled (h : Orderly txns s) (hids : DistinctIds txns) (htxn : txn ∈ txns)
    (ha : call.operation = .release ∨ s.gates.isClosed txn = false) {tasks : List Task}
    (hp : Table.Planned (s.table m) txn call (.go tasks)) (u : TxnId) :
    Settled u (s.table m) tasks :=
  hp.settled (h.sound m) (h.queuedSum_isOf_le hids m u) fun hcall _ _ hq =>
    h.id_ne_of_open hids htxn (ha.resolve_left hcall) hq

/-- **What a decision does to the locks of every transaction.** -/
theorem locksOf_decide (h : Orderly txns s) (hids : DistinctIds txns) (htxn : txn ∈ txns)
    (ha : call.operation = .release ∨ s.gates.isClosed txn = false)
    (hd : Decided s m txn call d) (u : TxnId) :
    let locks := if u = txn.id ∧ d.verdict = .done
      then call.carryOut txn.id ((s.table m).locksOf u) else (s.table m).locksOf u
    (woken d.events).filter (·.txn.id = u) = [] ∧ (d.system.table m).locksOf u = locks ∨
      ∃ q, (woken d.events).filter (·.txn.id = u) = [q] ∧
        q ∈ (s.table m).queue q.lock.resource ∧
        (d.system.table m).locksOf u = q.carryOut locks := by
  intro locks
  rcases hd.goes_through (h.decided hids htxn ha hd).1 with ⟨r, -, hv, he, ht⟩ |
    ⟨tasks, hp, hrun, hv, he, ht⟩ | ⟨q, place, held, hp, hv, he, ht⟩
  · have hlocks : locks = (s.table m).locksOf u := if_neg (by simp [hv])
    rw [he, ht, hlocks]
    exact .inl ⟨rfl, rfl⟩
  · have hplan := Table.planned_of_plan (h.sound m) hp
    have hsettled : Settled u (s.table m) tasks := h.settled hids htxn ha hplan u
    have hlocks : locks = outstanding u tasks ((s.table m).locksOf u) := by
      rw [Table.outstanding_of_plan (h.sound m) hp]
      simp [locks, hv]
    rw [he, ht, hlocks]
    exact hsettled.woken_run (hplan.poised (h.sound m)) hrun hplan.toWake
  · have hlocks : locks = (s.table m).locksOf u := if_neg (by simp [hv])
    rw [he, ht, hlocks, Table.locksOf_enqueue]
    exact .inl ⟨rfl, rfl⟩

end Orderly

/-- **Calls take effect as a whole, and on nobody else**, in every disciplined run. A call that is
carried out changes the locks of its transaction as it says. Apart from that, the locks of a
transaction change only if it is woken; then exactly one request of it has been granted, one that
waited before, and it has been carried out as a whole. Nothing changes for other managers. -/
theorem takes_effect_whole (h : Disciplined settings as) :
    ∀ before rest m txn call, as = before ++ .decide m txn call :: rest →
      let t := ((start settings).after before).table m
      let d := ((start settings).after before).decide m txn call
      (∀ n, m ≠ n → d.system.table n = ((start settings).after before).table n) ∧
      ∀ u,
        let locks := if u = txn.id ∧ d.verdict = .done
          then call.carryOut txn.id (t.locksOf u) else t.locksOf u
        (woken d.events).filter (·.txn.id = u) = [] ∧ (d.system.table m).locksOf u = locks ∨
          ∃ q, (woken d.events).filter (·.txn.id = u) = [q] ∧ q ∈ t.queue q.lock.resource ∧
            (d.system.table m).locksOf u =
              without (regrant locks q.lock) (q.releases.map Lock.resource) := by
  rintro before rest m txn call rfl t d
  have hnow := h.underway.drop
  have hd : Decided _ m txn call d := decided hnow.sound m txn call
  refine ⟨fun n hn => hd.table_other hn, fun u => ?_⟩
  exact hnow.locksOf_decide hnow.ids (hnow.caller_mem rfl) hnow.allowed.1 hd u

/-- Transaction 2 waits for a lock of transaction 1, for which it would give up two locks. One of
them is released before the request is granted. -/
def deferred : List Action :=
  [.decide 0 ⟨0, 1⟩ (.acquire (.root "a") .x), .decide 0 ⟨1, 2⟩ (.acquire (.root "b") .s),
    .decide 0 ⟨1, 2⟩ (.acquire (.root "c") .s),
    .decide 0 ⟨1, 2⟩ (.exchange (.root "a") .x [.root "b", .root "c"]),
    .decide 0 ⟨1, 2⟩ (.release (.root "b")), .decide 0 ⟨0, 1⟩ (.release (.root "a"))]

theorem takes_effect_whole_deferred :
    Disciplined {} deferred ∧
      (((start {}).after (deferred.take 5)).table 0).locksOf 2 = [⟨.root "c", .s, 2⟩] ∧
      (((start {}).after deferred).table 0).locksOf 2 = [⟨.root "a", .x, 2⟩] := by
  have h : Disciplined {} deferred := ⟨by decide +kernel, by decide +kernel⟩
  have hbefore : (((start {}).after (deferred.take 5)).table 0).locksOf 2 =
      [⟨.root "c", .s, 2⟩] := by decide +kernel
  have hwoken : (woken (((start {}).after (deferred.take 5)).decide 0 ⟨0, 1⟩
      (.release (.root "a"))).events).filter (·.txn.id = 2) =
      [⟨⟨1, 2⟩, ⟨.root "a", .x, 2⟩, [⟨.root "b", .s, 2⟩, ⟨.root "c", .s, 2⟩]⟩] := by
    decide +kernel
  have heffect := (takes_effect_whole h (deferred.take 5) [] 0 ⟨0, 1⟩ (.release (.root "a"))
    rfl).2 2
  rw [hwoken, hbefore] at heffect
  rcases heffect with ⟨hnone, -⟩ | ⟨q, hq, -, hlocks⟩
  · cases hnone
  · cases hq
    exact ⟨h, hbefore, hlocks⟩

end System

end Locking
