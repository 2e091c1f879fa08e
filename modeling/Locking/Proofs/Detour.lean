import Locking.Proofs.Asking
import Locking.Proofs.Discipline
import Locking.Proofs.Wakeup

/-!
# The way through the queue

A call that can be carried out at once does not queue its request. It might as well: were every
request queued first, and its queue drained then, the same would come about.

* `Table.detour`: a request is queued, whatever the locks of others, and then its queue is drained.
* `Table.pop?_enqueue`: what is granted at once is taken from the queue at once.
* `Kept.run_giveUps`: giving up a lock that is still held as it was chosen is releasing it.
* `Table.detour_of_go`, `Table.detour_of_wait`: where the way through the queue leads.
* `System.raise_agrees`: a promotion does what an exchange of a lock for itself does.
* `System.detour_agrees`: the way through the queue leads where the call leads, in every disciplined
  run.
-/

namespace Locking

@[simp] theorem woken_granting (q : Request) (es : List Event) :
    woken (.granting q :: es) = woken es := rfl

@[simp] theorem woken_woken (q : Request) (es : List Event) :
    woken (.woken q :: es) = q :: woken es := rfl

namespace Cascade

variable {t : Table} {owner : TxnId} {locks : List Lock} {xs ys zs : List Task}

namespace Kept

/-- Where a first part of an agenda has been worked off, the rest keeps its locks. -/
theorem after (h : Kept t (xs ++ ys)) (hf : (Cascade.run t xs).fault? = none) :
    Kept (Cascade.run t xs).table ys :=
  run_rest Kept.step h hf

/-- **What is given up is what was chosen**: where an agenda keeps the locks that it is to release,
they may as well be looked up when their turn comes. -/
theorem run_giveUps (h : Kept t (locks.map .release ++ zs))
    (howner : ∀ lock ∈ locks, lock.owner = owner) (ys : List Task) :
    Cascade.run t (locks.map (.giveUp owner) ++ ys) = Cascade.run t (locks.map .release ++ ys) := by
  induction locks generalizing t with
  | nil => rfl
  | cons lock locks ih =>
    have hh : t.held? lock.owner lock.resource = some lock := h.held (by simp)
    rw [howner lock List.mem_cons_self] at hh
    have hrest : ∀ l ∈ locks, l.owner = owner := fun l hl => howner l (List.mem_cons_of_mem _ hl)
    rw [List.map_cons, List.map_cons, List.cons_append, List.cons_append, run_giveUp hh,
      run_cons, run_cons t (.release lock) (_ ++ ys)]
    -- the locks that follow are kept while the first is released
    refine Outcome.andThen_congr fun hf => ih ?_ hrest
    have h' : Kept t ([.release lock] ++ (locks.map .release ++ zs)) := h
    exact h'.after hf

end Kept

end Cascade

namespace Table

open Cascade

variable {t : Table} {txn : Txn} {call : Call} {q : Request} {place : Place} {lock : Lock}
  {tasks : List Task}

/-- A request that goes before all others, and asks for a lock that agrees with those of others, is
taken from its queue as soon as it has been added. -/
theorem pop?_enqueue (ha : (t.entry q.lock.resource).admits q.lock.mode q.lock.owner)
    (hq : place = .back → t.queue q.lock.resource = []) :
    (t.enqueue q place).pop? q.lock.resource =
      some (.ok (q, t.touch q.lock.resource)) := by
  have hentry : (t.enqueue q place).entry q.lock.resource =
      (t.entry q.lock.resource).push q place :=
    (t.entry_setEntry q.lock.resource q.lock.resource _).trans (if_pos rfl)
  refine pop?_eq_ok_iff.2 ⟨t.queue q.lock.resource, ?_, ?_, Nat.succ_ne_zero _, ?_⟩
  · rw [queue, hentry]
    cases place with
    | front => rfl
    | back =>
      rw [hq rfl, Entry.queue_push_back, show (t.entry q.lock.resource).queue = [] from hq rfl]
      rfl
  · rw [hentry]
    cases place <;> exact ha
  · have hpush : ∀ p, { (t.entry q.lock.resource).push q p with
        queue := t.queue q.lock.resource } = t.entry q.lock.resource := by
      intro p
      cases p <;> rfl
    rw [hentry, hpush]
    change _ = { (t.setEntry _ _).setEntry _ _ with waitingCount := t.waitingCount }
    rw [setEntry_setEntry]
    rfl

/-- Where a call leads if its request is queued whatever the locks of others, and its queue is
drained then. -/
def detour (t : Table) (txn : Txn) (call : Call) : Outcome :=
  run (t.enqueue (t.request txn call) call.operation.place) [.drain call.resource]

/-- **The way through the queue leads where an agenda leads** that grants the lock at once. That the
request is taken from the queue and its transaction woken is all the difference. -/
theorem detour_of_go (h : t.Sound) (hquiet : t.Quiet) (hcall : call.operation ≠ .release)
    (hfree : ∀ {r : Resource} {q : Request}, q ∈ t.queue r → q.txn.id ≠ txn.id)
    (hp : t.plan txn call = .ok (.go tasks)) :
    (t.detour txn call).fault? = none ∧ (t.detour txn call).table = (run t tasks).table ∧
      ∃ es fs, (run t tasks).events = es ++ fs ∧ (t.detour txn call).events =
        .granting (t.request txn call) :: (es ++ .woken (t.request txn call) :: fs) := by
  have hplan := planned_of_plan h hp
  have hkept : Kept t tasks := hplan.kept h fun _ _ _ hq => hfree hq
  have hf := hkept.run.1
  have hend := (hplan.watched h hquiet).run hf
  cases asked_of_plan hcall hp with
  | @now drains ha hq hd =>
    have howner : ∀ lock ∈ (t.request txn call).releases, lock.owner = txn.id := fun lock hm =>
      (h.of_held? (held?_of_mem_offers h hm)).1
    generalize hreq : t.request txn call = q at *
    have hres : call.resource = q.lock.resource := hreq ▸ rfl
    have htxn : txn = q.txn := hreq ▸ rfl
    have hplace : call.operation.place = .back → t.queue q.lock.resource = [] := fun hback =>
      hres ▸ hq (Operation.place_eq_back_iff.1 hback)
    obtain ⟨t₁, e, hput, -⟩ := h.put (hkept.head rfl)
    have hput' : (t.touch q.lock.resource).put q.lock = .ok (t₁, e) :=
      (t.put_touch q.lock).trans hput
    have hkept₁ : Kept t₁ (q.releases.map .release ++ drains) := hkept.step (.grant hput)
    rw [List.cons_append, run_grant hput, run_append] at hf hend ⊢
    rw [detour, hreq, hres, run_served (pop?_enqueue (by rw [← hres, ← hreq]; exact ha) hplace),
      serve, List.cons_append, run_grant hput', ← htxn, hkept₁.run_giveUps howner, run_append]
    generalize run t₁ (q.releases.map .release) = out at *
    cases hout : out.fault? with
    | some f => simp only [Outcome.andThen, hout, reduceCtorEq] at hf
    | none =>
      simp only [Outcome.andThen, hout] at hf hend ⊢
      -- where the queue is not drained again, nothing could be taken from it
      have hdrain : run out.table drains = run out.table [.drain q.lock.resource] := by
        rcases hd with rfl | rfl
        · rw [run_nil] at hend ⊢
          rw [run_drained (hend _)]
        · rw [hres]
      rw [hdrain] at hf ⊢
      rw [run_wake]
      refine ⟨hf, rfl, e :: out.events, (run out.table [.drain q.lock.resource]).events, ?_, ?_⟩
      · rfl
      · simp

/-- Where a call has to wait, the way through the queue ends there. -/
theorem detour_of_wait {held : Mode} (hquiet : t.Quiet) (h : t.Sound)
    (hcall : call.operation ≠ .release) (hp : t.plan txn call = .ok (.wait q place held)) :
    q = t.request txn call ∧ t.detour txn call = ⟨t.enqueue q place, [], none⟩ := by
  have hq := (planned_of_plan h hp).quiet_enqueue hquiet
  cases asked_of_plan hcall hp with
  | later => exact ⟨rfl, run_drained (hq _)⟩

/-! ## Raising a lock by exchanging it for itself -/

/-- A lock is raised, or exchanged for a stronger one on the same resource. -/
theorem plan_raise (h : t.Sound) {r : Resource} {mode : Mode} (hheld : t.mode txn.id r ≠ .nl)
    (hc : mode.covers (t.mode txn.id r)) (hne : mode ≠ t.mode txn.id r) :
    (t.plan txn (.promote r mode) = .ok (.go [.grant ⟨r, mode, txn.id⟩]) ∧
      t.plan txn (.exchange r mode [r]) = .ok (.go [.grant ⟨r, mode, txn.id⟩, .drain r])) ∨
    ∃ q held, t.plan txn (.promote r mode) = .ok (.wait q .front held) ∧
      t.plan txn (.exchange r mode [r]) = .ok (.wait q .front held) := by
  have hmode : mode ≠ .nl := by
    rintro rfl
    exact hheld (Mode.eq_nl_of_nl_covers hc)
  obtain ⟨lock, hlock⟩ := Option.ne_none_iff_exists'.1 (mt h.mode_eq_nl_iff.2 hheld)
  have hcollect : t.collect txn.id r [r].eraseDups = .ok [] := by
    rw [List.eraseDups_cons]
    simp [collect, hlock, Except.map]
  simp only [plan, planPromote, planExchange, hmode, hheld, hc, Ne.symm hne, hcollect,
    List.mem_singleton, not_true_eq_false, and_false, if_false, Bool.true_eq_false]
  cases (t.entry r).admits mode txn.id with
  | true => exact .inl ⟨rfl, rfl⟩
  | false => exact .inr ⟨_, _, rfl, rfl⟩

/-- After a lock has been raised in a quiet table, nothing can be taken from its queue. -/
theorem run_raise (h : t.Sound) (hquiet : t.Quiet) {r : Resource} {mode : Mode}
    (hp : t.plan txn (.promote r mode) = .ok (.go tasks)) (hf : (run t tasks).fault? = none) :
    run t (tasks ++ [.drain r]) = run t tasks := by
  have hend := ((planned_of_plan h hp).watched h hquiet).run hf
  rw [run_append]
  generalize run t tasks = out at hf hend ⊢
  obtain ⟨u, es, fault⟩ := out
  cases hf
  simp [Outcome.andThen, run_drained (hend r)]

end Table

namespace System

open Table

variable {s : System} {m : Nat} {txn other : Txn} {call : Call} {d : Decision} {txns : List Txn}
  {as : List Action} {settings : Settings} {tasks : List Cascade.Task} {q : Request}
  {place : Place} {held : Mode}

namespace Orderly

/-- A decision wakes no transaction whose gate is open. -/
theorem key_ne_of_woken (h : Orderly txns s) (hd : Decided s m other call d)
    (hf : d.verdict.fault? = none) (hg : s.gates.isClosed txn = false) (hq : q ∈ woken d.events) :
    q.txn.key ≠ txn.key := by
  intro hk
  have hpos := le_sumOf_of_mem (w := Request.isFrom txn.key) hq
  rw [Request.isFrom, if_pos hk] at hpos
  obtain ⟨hc, hw⟩ := hd.conserves h.sound hf (Request.isFrom txn.key)
  change _ = s.waitingFor txn.key + _ at hc
  rw [← h.closed txn, hg, Bool.toNat_false] at hc
  rcases hd.flow h.sound hf with ⟨hj, -⟩ | ⟨-, -, -, -, -, hwoken, -⟩
  · rw [hj, sumOf_nil] at hc
    omega
  · rw [hwoken] at hq
    cases hq

/-- Where a call leads of a transaction whose gate is open, the way through the queue leads as
well. -/
theorem detour (h : Orderly txns s) (hquiet : s.Quiet) (hids : DistinctIds txns) (htxn : txn ∈ txns)
    (hg : s.gates.isClosed txn = false) (hcall : call.operation ≠ .release)
    (hd : Decided s m txn call d) (hv : ∀ r, d.verdict ≠ .refused r) :
    ((s.table m).detour txn call).fault? = none ∧
      d.system.table m = ((s.table m).detour txn call).table ∧
      woken d.events =
        (woken ((s.table m).detour txn call).events).filter (·.txn.key ≠ txn.key) ∧
      d.verdict = if (s.table m).request txn call ∈ woken ((s.table m).detour txn call).events
        then .done else .waits := by
  have hf := (h.decided hids htxn (.inr hg) hd).1
  rcases hd.goes_through hf with ⟨r, -, hrefused, -⟩ | ⟨tasks, hp, -, hdone, he, ht⟩ |
    ⟨q, place, held, hp, hwaits, he, ht⟩
  · exact absurd hrefused (hv r)
  · obtain ⟨hnone, htable, before, after, hes, hevents⟩ :=
      detour_of_go (h.sound m) (hquiet m) hcall (fun hq => h.id_ne_of_open hids htxn hg hq) hp
    have hwoken : woken ((s.table m).detour txn call).events =
        woken before ++ (s.table m).request txn call :: woken after := by
      rw [hevents, woken_granting, woken_append, woken_woken]
    have hself : (woken d.events).filter (·.txn.key ≠ txn.key) = woken d.events :=
      List.filter_eq_self.2 fun q hq => by simpa using h.key_ne_of_woken hd hf hg hq
    refine ⟨hnone, ht.trans htable.symm, ?_, ?_⟩
    · -- the filter leaves out the one wake-up more
      rw [hwoken, List.filter_append, List.filter_cons_of_neg (by simp [request]),
        ← List.filter_append, ← woken_append, ← hes, ← he, hself]
    · rw [hdone, hwoken, if_pos (by simp)]
  · obtain ⟨rfl, hdetour⟩ := detour_of_wait (hquiet m) (h.sound m) hcall hp
    rw [hdetour, he, hwaits]
    exact ⟨rfl, ht, rfl, rfl⟩

end Orderly

/-- **A promotion does what an exchange of a lock for itself does.** -/
theorem raise_agrees (h : s.Sound) (hquiet : s.Quiet) (hg : s.gates.isClosed txn = false) (m : Nat)
    {r : Resource} {mode : Mode} (hheld : (s.table m).mode txn.id r ≠ .nl)
    (hc : mode.covers ((s.table m).mode txn.id r)) (hne : mode ≠ (s.table m).mode txn.id r) :
    let d := s.decide m txn (.exchange r mode [r])
    let d' := s.decide m txn (.promote r mode)
    d.verdict = d'.verdict ∧ woken d.events = woken d'.events ∧
      d.system.table m = d'.system.table m ∧ d.system.gates = d'.system.gates := by
  intro d d'
  have hd : Decided s m txn _ d := decided h m txn _
  have hd' : Decided s m txn _ d' := decided h m txn _
  rcases plan_raise (h m) hheld hc hne with ⟨hp', hp⟩ | ⟨q, held, hp', hp⟩
  · have hf : (Cascade.run (s.table m) [.grant ⟨r, mode, txn.id⟩]).fault? = none := by
      obtain ⟨t', e, hput, -⟩ := (h m).put (((planned_of_plan (h m) hp').poised (h m)).head rfl)
      rw [Cascade.run_grant hput, Cascade.run_nil]
    have hrun : Cascade.run (s.table m) [.grant ⟨r, mode, txn.id⟩, .drain r] =
        Cascade.run (s.table m) [.grant ⟨r, mode, txn.id⟩] := run_raise (h m) (hquiet m) hp' hf
    obtain ⟨hv', he', ht', hgates'⟩ := hd'.of_go hp' hf
    obtain ⟨hv, he, ht, hgates⟩ := hd.of_go hp (by rw [hrun]; exact hf)
    rw [hv, hv', he, he', ht, ht', hgates, hgates', hrun]
    exact ⟨rfl, rfl, rfl, rfl⟩
  · obtain ⟨hv', he', ht', hgates'⟩ := hd'.of_wait hp' hg
    obtain ⟨hv, he, ht, hgates⟩ := hd.of_wait hp hg
    rw [hv, hv', he, he', ht, ht', hgates, hgates']
    exact ⟨rfl, rfl, rfl, rfl⟩

/-- **What is granted at once might as well have been queued first.** Wherever a disciplined run
stands, let a transaction that does not wait ask for a lock. If its call is not refused, then it
leads to the very table to which the way through the queue leads: the same locks in the same slots,
the same queues and the same counts. It wakes the same other transactions in the same order, and it
has to wait exactly if its request is not granted on that way. In particular a promotion does what
an exchange of the lock for itself does. -/
theorem detour_agrees (h : Disciplined settings as) (hids : DistinctIds (txn :: callers as))
    (hopen : ((start settings).after as).gates.isClosed txn = false) (m : Nat) :
    (∀ call, call.operation ≠ .release →
      let t := ((start settings).after as).table m
      let d := ((start settings).after as).decide m txn call
      (∀ r, d.verdict ≠ .refused r) →
      (t.detour txn call).fault? = none ∧
        d.system.table m = (t.detour txn call).table ∧
        woken d.events = (woken (t.detour txn call).events).filter (·.txn.key ≠ txn.key) ∧
        d.verdict = if t.request txn call ∈ woken (t.detour txn call).events then .done
          else .waits) ∧
    ∀ r mode,
      let t := ((start settings).after as).table m
      let d := ((start settings).after as).decide m txn (.exchange r mode [r])
      let d' := ((start settings).after as).decide m txn (.promote r mode)
      t.mode txn.id r ≠ .nl → mode.covers (t.mode txn.id r) → mode ≠ t.mode txn.id r →
      d.verdict = d'.verdict ∧ woken d.events = woken d'.events ∧
        d.system.table m = d'.system.table m ∧ d.system.gates = d'.system.gates := by
  have hunder : Underway (txn :: callers as) (start settings) as :=
    { orderly_start settings _ with
      ids := hids
      allowed := h.allowed
      callers := fun _ hm => List.mem_cons_of_mem txn hm }
  have horder := hunder.orderly_after
  have hquiet := quiet_run hunder.unbroken
  constructor
  · intro call hcall t d hv
    exact horder.detour hquiet hids List.mem_cons_self hopen hcall
      (decided horder.sound m txn call) hv
  · intro r mode t d d' hheld hc hne
    exact raise_agrees horder.sound hquiet hopen m hheld hc hne

theorem detour_agrees_handover :
    Disciplined {} (handover.take 4) ∧ DistinctIds (⟨0, 1⟩ :: callers (handover.take 4)) ∧
      ((start {}).after (handover.take 4)).gates.isClosed ⟨0, 1⟩ = false ∧
      (((start {}).after (handover.take 4)).decide 0 ⟨0, 1⟩
          (.exchange (.root "c") .x [.root "a", .root "b"])).system.table 0 =
        ((((start {}).after (handover.take 4)).table 0).detour ⟨0, 1⟩
          (.exchange (.root "c") .x [.root "a", .root "b"])).table ∧
      (((start {}).after (handover.take 4)).decide 0 ⟨0, 1⟩
          (.exchange (.root "b") .x [.root "b"])).system.table 0 =
        (((start {}).after (handover.take 4)).decide 0 ⟨0, 1⟩
          (.promote (.root "b") .x)).system.table 0 := by
  have h : Disciplined {} (handover.take 4) := ⟨by decide +kernel, by decide +kernel⟩
  have hids : DistinctIds (⟨0, 1⟩ :: callers (handover.take 4)) := by decide +kernel
  have hopen : ((start {}).after (handover.take 4)).gates.isClosed ⟨0, 1⟩ = false := by
    decide +kernel
  have hdone : (((start {}).after (handover.take 4)).decide 0 ⟨0, 1⟩
      (.exchange (.root "c") .x [.root "a", .root "b"])).verdict = .done := by decide +kernel
  obtain ⟨hcalls, hraise⟩ := detour_agrees h hids hopen 0
  have hcall := hcalls (.exchange (.root "c") .x [.root "a", .root "b"]) nofun fun r => by
    rw [hdone]
    nofun
  have hb := hraise (.root "b") .x (by decide +kernel) (by decide +kernel) (by decide +kernel)
  exact ⟨h, hids, hopen, hcall.2.1, hb.2.2.1⟩

end System

end Locking
