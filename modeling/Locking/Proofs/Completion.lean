import Locking.Proofs.Cascade.Moments
import Locking.Proofs.Handoff
import Locking.Proofs.Nesting

/-!
# Whoever is woken has all that was asked for

Between the grant of a waiting request and the wake-up of its transaction other requests may be
granted, and other locks released, as many as it takes. Even so, at the very moment of the wake-up
the request has been carried out: its lock is held as it was asked for, what was to be given up is
not held, and nothing else of the transaction waits.

* `Cascade.woken_moments`: the moments at which transactions are woken.
* `Cascade.WakesLast`: whoever is woken, nothing is done for it afterwards.
* `Cascade.InHand`: what has been done for every transaction, and what is left to do, at every
  moment of a cascade.
* `InHand.carried_out`: where a transaction is about to be woken, its request has been carried out.
* `System.done_when_woken`: all this for every disciplined run.
-/

namespace Locking

namespace Cascade

variable {t t' before : Table} {task : Task} {tasks rest new : List Task} {es es' : List Event}
  {locks : TxnId → List Lock} {q : Request} {w : Request → Nat}

theorem woken_step (t : Table) (task : Task) :
    woken (step t task).events = task.wakes?.toList := by
  cases hn : (step t task).next with
  | error f =>
    obtain ⟨hb, -, he⟩ := breaks_of_next hn
    rw [he]
    cases hb <;> rfl
  | ok new =>
    have he := effect_of_next hn
    generalize (step t task).table = t', (step t task).events = es at he
    cases he with
    | grant hp => rcases Table.event_of_put hp with rfl | ⟨before, rfl⟩ <;> rfl
    | _ => rfl

/-- **A cascade wakes transactions at the moments at which that comes up.** -/
theorem woken_moments (hf : (run t tasks).fault? = none) :
    woken (run t tasks).events = (moments t tasks).filterMap (·.task.wakes?) := by
  rw [events_run hf]
  generalize moments t tasks = nows
  induction nows with
  | nil => rfl
  | cons now nows ih =>
    rw [List.flatMap_cons, woken_append, ih, Moment.events, woken_step, List.filterMap_cons]
    cases now.task.wakes? <;> rfl

/-! ## Nothing is done after a wake-up -/

/-- Behind the wake-up of a transaction nothing on the agenda is done for it. -/
def WakesLast (tasks : List Task) : Prop :=
  tasks.Pairwise fun a b => ∀ q, a = .wake q → b.owner? ≠ some q.txn.id

theorem not_wake_mem_of_toWake (h : toWake tasks = []) : .wake q ∉ tasks := fun hm =>
  nomatch List.filterMap_eq_nil_iff.1 h _ hm

theorem wakesLast_of_toWake (h : toWake tasks = []) : WakesLast tasks := by
  refine List.pairwise_of_forall_mem_list fun a ha b hb q hq => ?_
  subst hq
  exact absurd ha (not_wake_mem_of_toWake h)

/-- Whoever is woken by what a task gives rise to, its request has just been taken from a queue. -/
theorem Effect.of_wake_mem (he : Effect t task t' es new) (hm : .wake q ∈ new) : q ∈ taken es := by
  cases he with
  | serve hp =>
    rw [serve_eq] at hm
    rcases List.mem_append.1 hm with hm | hm
    · exact absurd hm (not_wake_mem_of_toWake (toWake_unit _))
    · simp only [List.mem_cons, Task.wake.injEq, reduceCtorEq, List.not_mem_nil, or_false] at hm
      exact hm ▸ List.mem_cons_self
  | _ => simp at hm

theorem Effect.wakesLast (he : Effect t task t' es new) : WakesLast new := by
  cases he with
  | @serve r p _ hp =>
    rw [serve_eq]
    refine List.pairwise_append.2 ⟨wakesLast_of_toWake (toWake_unit p), ?_, ?_⟩
    · simp [Task.owner?]
    · intro a ha b hb q hq
      exact absurd (hq ▸ ha) (not_wake_mem_of_toWake (toWake_unit p))
  | _ => exact wakesLast_of_toWake rfl

/-- **Nothing is done for a transaction after its wake-up**: as long as its request waits, nothing
else is to be done for it. -/
theorem WakesLast.step (h : WakesLast (task :: rest)) (hs : ∀ txn, Settled txn t (task :: rest))
    (he : Effect t task t' es new) : WakesLast (new ++ rest) := by
  refine List.pairwise_append.2 ⟨he.wakesLast, (List.pairwise_cons.1 h).2, ?_⟩
  rintro a ha b hb q rfl
  refine (hs q.txn.id).idle ?_ b hb
  have hsum := he.queuedSum_eq (Request.isOf q.txn.id)
  have hpos := le_sumOf_of_mem (w := Request.isOf q.txn.id) (he.of_wake_mem ha)
  rw [Request.isOf, if_pos rfl] at hpos
  omega

/-! ## What has been done at a moment -/

/-- At a moment of a cascade: what has been done since the table was `before`, and what is left to
do, to the locks of every transaction and for every request. -/
structure InHand (before : Table) (locks : TxnId → List Lock) (t : Table) (tasks : List Task)
    (es : List Event) : Prop where
  due : ∀ txn, Due txn (locks txn) t tasks es
  balanced : ∀ w, Balanced w (before.queuedSum w) t tasks es
  last : WakesLast tasks

namespace InHand

theorem start (hp : Poised t tasks) (hs : ∀ txn, Settled txn t tasks) (hw : toWake tasks = []) :
    InHand t (fun txn => outstanding txn tasks (t.locksOf txn)) t tasks [] where
  due txn := ⟨hp, hs txn, rfl⟩
  balanced w := ⟨rfl, by rw [hw]; rfl⟩
  last := wakesLast_of_toWake hw

theorem step (h : InHand before locks t (task :: rest) es) (he : Effect t task t' es' new) :
    InHand before locks t' (new ++ rest) (es ++ es') where
  due txn := (h.due txn).step he
  balanced w := (h.balanced w).step he
  last := h.last.step (fun txn => (h.due txn).toSettled) he

section Wake

variable (h : InHand before locks t (.wake q :: rest) es)

include h

/-- Whose transaction is woken, the request has been taken from a queue. -/
theorem mem_taken : q ∈ taken es := by
  have hawake := (h.balanced (Request.isThis q)).awake
  change _ + sumOf _ (q :: toWake rest) = _ at hawake
  rw [sumOf_cons, Request.isThis, if_pos rfl] at hawake
  exact Request.sumOf_isThis_ne_zero_iff.1 (by omega)

/-- Whose transaction is woken, the request waited before. -/
theorem waited : ∃ r, q ∈ before.queue r := by
  have hwaiting := (h.balanced (Request.isThis q)).waiting
  have htaken := Request.sumOf_isThis_ne_zero_iff.2 h.mem_taken
  have hne : before.queuedSum (Request.isThis q) ≠ 0 := by omega
  rw [Ne, Table.queuedSum_eq_zero_iff] at hne
  push Not at hne
  obtain ⟨r, hr⟩ := hne
  exact ⟨r, Request.sumOf_isThis_ne_zero_iff.1 hr⟩

/-- If a weight counts the request that is woken for, and no more than one waited, then none does
any longer. -/
theorem queuedSum_eq (hw : w q ≠ 0) (hone : before.queuedSum w ≤ 1) :
    before.queuedSum w = 1 ∧ t.queuedSum w = 0 := by
  have hwaiting := (h.balanced w).waiting
  have hpos := le_sumOf_of_mem (w := w) h.mem_taken
  omega

/-- **Where a transaction is about to be woken, its request has been carried out**, after what was
to be done for the transaction anyway, and nothing else has been done. -/
theorem carried_out (hone : before.queuedSum (Request.isOf q.txn.id) ≤ 1) :
    t.locksOf q.txn.id = q.carryOut (locks q.txn.id) := by
  have hdue := (h.due q.txn.id).due
  rw [outstanding_of_owner] at hdue
  · -- no other request of the transaction has been taken
    have hmem : q ∈ (taken es).filter (·.txn.id = q.txn.id) := by simp [h.mem_taken]
    have hlength : ((taken es).filter (·.txn.id = q.txn.id)).length ≤ 1 := by
      have hwaiting := (h.balanced (Request.isOf q.txn.id)).waiting
      rw [Request.sumOf_isOf] at hwaiting
      omega
    obtain ⟨p, hp⟩ := List.length_eq_one_iff.1
      (Nat.le_antisymm hlength (List.length_pos_of_mem hmem))
    rw [hp] at hdue hmem
    rw [hdue, List.mem_singleton.1 hmem]
    rfl
  · intro task hm
    rcases List.mem_cons.1 hm with rfl | hm
    · nofun
    · exact (List.pairwise_cons.1 h.last).1 task hm q rfl

end Wake

end InHand

end Cascade

open Cascade

namespace Table

variable {t : Table} {q : Request} {locks : List Lock}

/-- A request that has been carried out has what it asks for, if it does not give it up. -/
theorem Sound.held?_of_carryOut (h : t.Sound) (ha : q.Apart)
    (hl : t.locksOf q.txn.id = q.carryOut locks) :
    t.held? q.txn.id q.lock.resource = some q.lock := by
  refine (h.mem_locksOf_iff.1 (?_ : q.lock ∈ t.locksOf q.txn.id)).2
  rw [hl]
  refine List.mem_filter.2 ⟨mem_regrant_self locks q.lock, decide_eq_true fun hm => ?_⟩
  obtain ⟨lock, hlock, hr⟩ := List.mem_map.1 hm
  exact ha lock hlock hr

end Table

namespace System

variable {s : System} {m : Nat} {txn : Txn} {call : Call} {d : Decision} {tasks : List Task}
  {as : List Action} {txns : List Txn} {settings : Settings}

/-- The moments of a call: of the cascade that carries it out, if it is carried out. -/
def moments (s : System) (m : Nat) (txn : Txn) (call : Call) : List Moment :=
  match (s.table m).plan txn call with
  | .ok (.go tasks) => Cascade.moments (s.table m) tasks
  | _ => []

theorem moments_of_go (hp : (s.table m).plan txn call = .ok (.go tasks)) :
    s.moments m txn call = Cascade.moments (s.table m) tasks := by
  simp only [moments, hp]

/-- A call wakes transactions at its moments. -/
theorem Decided.woken_moments (hd : Decided s m txn call d) (hf : d.verdict.fault? = none) :
    woken d.events = (s.moments m txn call).filterMap (·.task.wakes?) := by
  rcases hd.goes_through hf with ⟨r, hp, -, he, -⟩ | ⟨tasks, hp, hrun, -, he, -⟩ |
    ⟨q, place, held, hp, -, he, -⟩
  · simp only [he, moments, hp]
    rfl
  · rw [he, moments_of_go hp, Cascade.woken_moments hrun]
  · simp only [he, moments, hp]
    rfl

/-- In an orderly system a call that is allowed is in hand at all its moments. -/
theorem Orderly.inHand (h : Orderly txns s) (hids : DistinctIds txns) (htxn : txn ∈ txns)
    (ha : call.operation = .release ∨ s.gates.isClosed txn = false)
    {now : Moment} (hm : now ∈ s.moments m txn call) :
    ∃ locks es, InHand (s.table m) locks now.table (now.task :: now.rest) es := by
  rw [moments] at hm
  split at hm
  · rename_i tasks hp
    have hplan := Table.planned_of_plan (h.sound m) hp
    have hstart := InHand.start (hplan.poised (h.sound m)) (h.settled hids htxn ha hplan)
      hplan.toWake
    obtain ⟨es, hnow⟩ := of_mem_moments [] InHand.step hstart hm
    exact ⟨_, _, hnow⟩
  · cases hm

/-- From every moment of a call it goes on to where the call leads. -/
theorem Decided.of_mem_moments (hd : Decided s m txn call d) (hf : d.verdict.fault? = none)
    {now : Moment} (hm : now ∈ s.moments m txn call) :
    d.system.table m = now.outcome.table ∧ ∃ es, d.events = es ++ now.outcome.events := by
  rcases hd.goes_through hf with ⟨r, hp, -⟩ | ⟨tasks, hp, -, -, he, ht⟩ | ⟨q, place, held, hp, -⟩
  · simp only [moments, hp, List.not_mem_nil] at hm
  · rw [moments_of_go hp] at hm
    obtain ⟨es, hrun⟩ := run_of_mem_moments hm
    rw [ht, he, hrun]
    exact ⟨rfl, es, rfl⟩
  · simp only [moments, hp, List.not_mem_nil] at hm

/-- Where at most one request of a transaction waited, and it is woken for, none waits. -/
theorem waitsNowhere_of_woken {locks : TxnId → List Lock} {t : Table} {rest : List Task}
    {es : List Event} {q : Request}
    (h : InHand (s.table m) locks t (.wake q :: rest) es) (hone : s.waitingFor q.txn.key ≤ 1) :
    (s.setTable m t).WaitsNowhere q.txn := by
  refine waitingFor_eq_zero_iff.1 ?_
  have hpart := queuedSum_table_le (Request.isFrom q.txn.key) s m
  have hset := queuedSum_setTable (Request.isFrom q.txn.key) s m t
  rw [waitingFor] at hone ⊢
  obtain ⟨hwaited, hnone⟩ := h.queuedSum_eq (w := Request.isFrom q.txn.key)
    (by simp [Request.isFrom]) (by omega)
  omega

/-- **Whoever is woken has all that was asked for.** Every wake-up in a disciplined run comes at a
moment of a call, from which the call goes on to where it leads. At this very moment, however far
the cascade has got by then, the transaction holds the lock that its request asks for, in the mode
asked for, and holds nothing on any resource that the request was to give up. The request waited
before the call, and now no request of the transaction waits, for any manager. -/
theorem done_when_woken (h : Disciplined settings as) :
    ∀ before rest m txn call, as = before ++ .decide m txn call :: rest →
      let s := (start settings).after before
      let d := s.decide m txn call
      woken d.events = (s.moments m txn call).filterMap (·.task.wakes?) ∧
      ∀ now ∈ s.moments m txn call,
        (d.system.table m = now.outcome.table ∧ ∃ es, d.events = es ++ now.outcome.events) ∧
        ∀ q, now.task = .wake q →
          q ∈ (s.table m).queue q.lock.resource ∧
          now.table.held? q.txn.id q.lock.resource = some q.lock ∧
          (∀ lock ∈ q.releases, now.table.held? q.txn.id lock.resource = none) ∧
          (s.setTable m now.table).WaitsNowhere q.txn := by
  rintro before rest m txn call rfl s d
  have hnow := h.underway.drop
  have hcalm : (s.table m).Calm := h.underway.take.calm_after m
  have hd : Decided s m txn call d := decided hnow.sound m txn call
  refine ⟨hd.woken_moments hnow.fault?_head.1, fun now hm =>
    ⟨hd.of_mem_moments hnow.fault?_head.1 hm, ?_⟩⟩
  obtain ⟨t, _, left⟩ := now
  rintro q rfl
  obtain ⟨locks, es, hin⟩ := hnow.inHand hnow.ids (hnow.caller_mem rfl) hnow.allowed.1 hm
  obtain ⟨r, hq⟩ := hin.waited
  have hlocks := hin.carried_out (hcalm.one q.txn.id)
  have hsound : t.Sound := (hin.due q.txn.id).sound
  have hone : s.waitingFor q.txn.key ≤ 1 := hnow.closed q.txn ▸ Bool.toNat_le _
  exact ⟨(hcalm.sound.proper hq).resource ▸ hq, hsound.held?_of_carryOut (hcalm.apart hq) hlocks,
    fun lock hl => hsound.held?_eq_none_of_without hlocks (List.mem_map_of_mem hl),
    waitsNowhere_of_woken hin hone⟩

/-- Transaction 3 is woken last, after other requests have been granted in between. -/
theorem done_when_woken_entangled :
    let s := (start {}).after (entangled.take 7)
    let q : Request :=
      ⟨⟨2, 3⟩, ⟨.root "a", .s, 3⟩, [⟨.root "b", .x, 3⟩, ⟨.root "c", .x, 3⟩]⟩
    Disciplined {} entangled ∧
      ∃ now ∈ s.moments 0 ⟨1, 2⟩ (.release (.root "a")), now.task = .wake q ∧
        now.table.held? 3 (.root "a") = some ⟨.root "a", .s, 3⟩ ∧
        now.table.held? 3 (.root "b") = none ∧ now.table.held? 3 (.root "c") = none ∧
        (s.setTable 0 now.table).WaitsNowhere ⟨2, 3⟩ := by
  intro s q
  obtain ⟨hwoken, hdone⟩ := done_when_woken disciplined_entangled (entangled.take 7) [] 0 ⟨1, 2⟩
    (.release (.root "a")) rfl
  have hq : q ∈ woken (s.decide 0 ⟨1, 2⟩ (.release (.root "a"))).events := by decide +kernel
  rw [hwoken] at hq
  obtain ⟨now, hm, hwakes⟩ := List.mem_filterMap.1 hq
  have htask : now.task = .wake q := Task.wakes?_eq_some_iff.1 hwakes
  obtain ⟨-, hheld, hgiven, hnowhere⟩ := (hdone now hm).2 q htask
  exact ⟨disciplined_entangled, now, hm, htask, hheld, hgiven ⟨.root "b", .x, 3⟩ (by decide),
    hgiven ⟨.root "c", .x, 3⟩ (by decide), hnowhere⟩

end System

end Locking
