import Locking.Proofs.Atomicity
import Locking.Proofs.Cascade.Guarded

/-!
# Units in disciplined runs

Between the moment when a waiting request is taken from its queue and the wake-up of its transaction,
what it was to give up is given up. That may let other requests through, from other queues, and then
all that these entail happens in between as well. It comes back to the queue where it began only if
another transaction gives up its intention to lock shared there.

* `Table.Calm`: what is known of a table before a call.
* `Calm.units`: what happens in a call consists of whole units.
* `Undisturbed`: what is to be excluded for wake-ups to come in the order of a queue.
* `System.units_whole`: all this for every disciplined run.
* `System.unit_overtaken`: a run in which a unit comes back to its own queue.
-/

namespace Locking

open Cascade

namespace Table

variable {t t' : Table} {txn : Txn} {call : Call} {tasks : List Task} {lock : Lock}

/-- Before a call nothing that waits can be granted. At most one request of every transaction waits,
and none gives up what it asks for. -/
structure Calm (t : Table) : Prop where
  sound : t.Sound
  quiet : t.Quiet
  one : ∀ txn, t.queuedSum (Request.isOf txn) ≤ 1
  apart : ∀ {r : Resource} {q : Request}, q ∈ t.queue r → q.Apart

namespace Calm

/-- The agenda of a call is guarded, if its transaction does not wait. -/
theorem guarded (h : t.Calm) (hp : Planned t txn call (.go tasks))
    (hidle : t.queuedSum (Request.isOf txn.id) = 0) : Guarded t tasks where
  toPoised := hp.poised h.sound
  one := h.one
  idle := fun task hm u ho => by
    rw [hp.owner?_eq h.sound task hm u ho]
    exact hidle
  other := h.apart
  apart := fun {lock} hh task hm hf => by
    cases hp with
    | grant hcall ha hc =>
      rw [List.mem_singleton.1 hm] at hf
      exact hf
    | release hheld => cases hh
    | @exchange r mode rs locks drains ha hl hd =>
      cases hh
      rcases List.mem_append.1 hm with hm | hm
      · rcases List.mem_cons.1 hm with rfl | hm
        · exact hf
        · obtain ⟨given, hgiven, rfl⟩ := List.mem_map.1 hm
          exact hl.other given hgiven hf.2
      · rcases hd with rfl | ⟨rfl, -⟩
        · rw [List.mem_singleton.1 hm] at hf
          exact hf
        · cases hm
  guard := fun _ hh hm _ _ hq => h.sound.conflicts_of_quiet (h.quiet _) hq hh hm

/-- Where a lock has been released, also one of a transaction that waits, the rest of the agenda is
guarded. -/
theorem guarded_take (h : t.Calm) (ht : t.take lock = .ok t') :
    Guarded t' [.drain lock.resource, .prune lock.resource] := by
  obtain ⟨-, hs, hheld⟩ := h.sound.of_take ht
  refine {
    toPoised := .of_not_grant hs (by simp)
    one := fun u => ?_
    idle := by simp [Task.owner?]
    other := fun {r q} hq => h.apart (Table.queue_take ht r ▸ hq)
    apart := nofun
    guard := fun {u r held} _ hh hm q rest hq => ?_ }
  · have hsum := (Effect.release ht).queuedSum_eq (Request.isOf u)
    have hone := h.one u
    omega
  · -- the lock was there before, and so was the queue
    rw [Table.queue_take ht] at hq
    rw [hheld] at hh
    split at hh
    · cases hh
    · exact h.sound.conflicts_of_quiet (h.quiet r) hq hh hm

/-- **What happens in a call consists of whole units**, if its transaction waits for nothing or only
releases a lock. -/
theorem units (h : t.Calm) (hp : Planned t txn call (.go tasks))
    (hidle : call.operation ≠ .release → t.queuedSum (Request.isOf txn.id) = 0)
    (hf : (run t tasks).fault? = none) : Units Request.Whole (run t tasks).events := by
  by_cases hcall : call.operation = .release
  · obtain ⟨r, lock, rfl, hh, rfl⟩ := hp.of_release hcall
    obtain ⟨ho, rfl, -⟩ := h.sound.of_held? hh
    obtain ⟨t', ht, -⟩ := h.sound.take (ho ▸ hh)
    have hrun := run_of_effect (.release ht) []
    rw [List.append_nil] at hrun
    rw [hrun] at hf ⊢
    exact .between rfl rfl ((h.guarded_take ht).units_run rfl hf)
  · exact (h.guarded hp (hidle hcall)).units_run hp.toWake hf

end Calm

end Table

/-- No unit of the resource is disturbed: while it lasts, nobody else gives up its intention to lock
shared there. -/
def Undisturbed (r : Resource) (es : List Event) : Prop :=
  ∀ (earlier own behind : List Event) (q : Request),
    es = earlier ++ .granting q :: (own ++ .woken q :: behind) → q.lock.resource = r →
    ∀ lock, .released lock ∈ own → lock.resource = r → lock.mode = .is → lock.owner = q.txn.id

/-- As long as no unit of a resource is disturbed, the transactions that wait for it are woken in the
order in which their requests leave the queue. -/
theorem Units.woken_eq_of_undisturbed {r : Resource} {es : List Event} (h : Units Request.Whole es)
    (hu : Undisturbed r es) : (woken es).filter (·.lock.resource = r) = takenFrom r es := by
  refine h.woken_eq fun earlier q own behind hsplit hwhole hr => ?_
  subst hr
  by_contra hne
  obtain ⟨p, hp⟩ := List.exists_mem_of_ne_nil _ hne
  obtain ⟨hp, hr⟩ := List.mem_filter.1 hp
  obtain ⟨xs, ys, rfl⟩ := List.append_of_mem (mem_taken.1 hp)
  -- another request of the queue is taken within the unit only where the unit is disturbed
  obtain ⟨lock, hlock, hres, hmode, howner⟩ :=
    hwhole.overtaken xs p ys rfl (of_decide_eq_true hr)
  exact howner (hu earlier _ behind q hsplit rfl lock (List.mem_append_left _ hlock) hres hmode)

namespace System

variable {s : System} {m n : Nat} {txn : Txn} {call : Call} {a : Action} {as : List Action}
  {q : Request} {txns : List Txn} {settings : Settings}

namespace Underway

/-- **Before every call of a disciplined run the tables are calm.** -/
theorem calm_after (h : Underway txns (start settings) as) (m : Nat) :
    (((start settings).after as).table m).Calm where
  sound := h.orderly_after.sound m
  quiet := quiet_run h.unbroken m
  one := h.orderly_after.queuedSum_isOf_le h.ids m
  apart := enduring_apart.run _ _ m _ _

/-- **What happens in a call of a disciplined run consists of whole units.** -/
theorem units (h : Underway txns (start settings) (as ++ [.decide m txn call])) :
    let d := ((start settings).after as).decide m txn call
    Units Request.Whole d.events := by
  intro d
  have hnow := h.drop
  have hd : Decided _ m txn call d := System.decided hnow.sound m txn call
  have hf : d.verdict.fault? = none := hnow.fault?_head.1
  rcases hd.goes_through hf with ⟨r, -, -, he, -⟩ | ⟨tasks, hp, hrun, -, he, -⟩ |
    ⟨q, place, held, -, -, he, -⟩
  · rw [he]
    exact .nil
  · rw [he]
    have hplan := Table.planned_of_plan (hnow.sound m) hp
    refine (h.take.calm_after m).units hplan (fun hcall => ?_) hrun
    -- the transaction of a call for a lock does not wait
    refine Table.queuedSum_eq_zero_iff.2 fun r => sumOf_eq_zero_iff.2 fun q hq => if_neg ?_
    exact hnow.id_ne_of_open h.ids (hnow.caller_mem rfl) (hnow.allowed.1.resolve_left hcall) hq
  · rw [he]
    exact .between rfl rfl (.between rfl rfl .nil)

end Underway

/-- **Requests are carried out as units.** Whenever a call of a disciplined run takes a waiting
request from its queue, its transaction is woken in the same call, and in between everything has been
given up that the request was to give up. Requests leave each queue in its order. In the middle of a
unit another request of its queue may be granted, and then another transaction has given up there its
intention to lock shared. As long as no unit of a resource is disturbed like this, the transactions
that wait for it are woken in the order of its queue. -/
theorem units_whole (h : Disciplined settings as) :
    ∀ before rest m txn call, as = before ++ .decide m txn call :: rest →
      let t := ((start settings).after before).table m
      let d := ((start settings).after before).decide m txn call
      (∀ (earlier later : List Event) (q : Request), d.events = earlier ++ .granting q :: later →
        ∃ own behind, later = own ++ .woken q :: behind ∧ q.Whole own ∧
          (woken own).Perm (taken own)) ∧
      ∀ r, (∃ left, t.queue r = takenFrom r d.events ++ left) ∧
        (Undisturbed r d.events →
          (woken d.events).filter (·.lock.resource = r) = takenFrom r d.events) := by
  rintro before rest m txn call rfl t d
  have hnow := h.underway.drop
  have hunits : Units Request.Whole d.events := by
    have hunder := h.underway
    rw [show before ++ .decide m txn call :: rest = before ++ [.decide m txn call] ++ rest by simp]
      at hunder
    exact hunder.take.units
  refine ⟨fun earlier later q hsplit => ?_, fun r => ⟨?_, hunits.woken_eq_of_undisturbed⟩⟩
  · obtain ⟨own, behind, hlater, hwhole, hown⟩ := hunits.split hsplit
    exact ⟨own, behind, hlater, hwhole, hown.perm⟩
  · have hd : Decided _ m txn call d := System.decided hnow.sound m txn call
    rcases hd.queues hnow.sound hnow.fault?_head.1 with ⟨-, hqueued⟩ | ⟨-, hadvanced⟩
    · obtain ⟨held, he⟩ := hqueued.events
      exact ⟨t.queue r, by rw [he]; rfl⟩
    · exact ⟨_, hadvanced.queue r⟩

/-- Transaction 3 waits for a resource, to give up two others then, and transaction 4 waits behind it.
Transaction 1 waits for the first of the two, to give up its intention to lock shared where the other
two wait. When transaction 2 releases its lock there, the units come to lie in one another. -/
def entangled : List Action :=
  [.decide 0 ⟨0, 1⟩ (.acquire (.root "a") .is), .decide 0 ⟨1, 2⟩ (.acquire (.root "a") .ix),
    .decide 0 ⟨2, 3⟩ (.acquire (.root "b") .x), .decide 0 ⟨2, 3⟩ (.acquire (.root "c") .x),
    .decide 0 ⟨2, 3⟩ (.exchange (.root "a") .s [.root "b", .root "c"]),
    .decide 0 ⟨3, 4⟩ (.acquire (.root "a") .s),
    .decide 0 ⟨0, 1⟩ (.exchange (.root "b") .s [.root "a"]),
    .decide 0 ⟨1, 2⟩ (.release (.root "a"))]

theorem disciplined_entangled : Disciplined {} entangled := ⟨by decide +kernel, by decide +kernel⟩

theorem events_entangled :
    let given : Lock := ⟨.root "c", .x, 3⟩
    let q : Request := ⟨⟨2, 3⟩, ⟨.root "a", .s, 3⟩, [⟨.root "b", .x, 3⟩, given]⟩
    let p : Request := ⟨⟨3, 4⟩, ⟨.root "a", .s, 4⟩, []⟩
    let inner : Request := ⟨⟨0, 1⟩, ⟨.root "b", .s, 1⟩, [⟨.root "a", .is, 1⟩]⟩
    (((start {}).after (entangled.take 7)).decide 0 ⟨1, 2⟩ (.release (.root "a"))).events =
      [.released ⟨.root "a", .ix, 2⟩, .granting q, .granted q.lock, .released ⟨.root "b", .x, 3⟩,
        .granting inner, .granted inner.lock, .released ⟨.root "a", .is, 1⟩, .granting p,
        .granted p.lock, .woken p, .woken inner, .released given, .woken q] := by
  decide +kernel

/-- **A unit may come to lie in another one of the same resource.** Transaction 4 stands behind
transaction 3 in the queue, but it is granted its lock and woken before transaction 3 has given up
all that it was to give up, and is woken itself. -/
theorem unit_overtaken :
    let s := (start {}).after (entangled.take 7)
    let d := s.decide 0 ⟨1, 2⟩ (.release (.root "a"))
    let given : Lock := ⟨.root "c", .x, 3⟩
    let q : Request := ⟨⟨2, 3⟩, ⟨.root "a", .s, 3⟩, [⟨.root "b", .x, 3⟩, given]⟩
    let p : Request := ⟨⟨3, 4⟩, ⟨.root "a", .s, 4⟩, []⟩
    Disciplined {} entangled ∧ (s.table 0).queue (.root "a") = [q, p] ∧
      (∃ earlier between later, d.events = earlier ++ .granting q ::
          (between ++ .granting p :: later) ∧ .woken q ∉ between ∧
        .released given ∉ between ∧ .gone given ∉ between) ∧
      (woken d.events).filter (·.lock.resource = .root "a") = [p, q] := by
  intro s d given q p
  have hevents : d.events = [.released ⟨.root "a", .ix, 2⟩] ++ .granting q ::
      ([.granted q.lock, .released ⟨.root "b", .x, 3⟩,
        .granting ⟨⟨0, 1⟩, ⟨.root "b", .s, 1⟩, [⟨.root "a", .is, 1⟩]⟩,
        .granted ⟨.root "b", .s, 1⟩, .released ⟨.root "a", .is, 1⟩] ++
      .granting p :: [.granted p.lock, .woken p,
        .woken ⟨⟨0, 1⟩, ⟨.root "b", .s, 1⟩, [⟨.root "a", .is, 1⟩]⟩, .released given,
        .woken q]) := events_entangled
  refine ⟨disciplined_entangled, by decide +kernel, ⟨_, _, _, hevents, ?_⟩, by decide +kernel⟩
  decide

theorem units_whole_entangled :
    let t := ((start {}).after (entangled.take 7)).table 0
    let d := ((start {}).after (entangled.take 7)).decide 0 ⟨1, 2⟩ (.release (.root "a"))
    let q : Request :=
      ⟨⟨2, 3⟩, ⟨.root "a", .s, 3⟩, [⟨.root "b", .x, 3⟩, ⟨.root "c", .x, 3⟩]⟩
    Disciplined {} entangled ∧
      (∃ own behind, d.events = .released ⟨.root "a", .ix, 2⟩ :: .granting q ::
        (own ++ .woken q :: behind) ∧ q.Whole own) ∧
      ∃ left,
        t.queue (.root "b") = (woken d.events).filter (·.lock.resource = .root "b") ++ left := by
  intro t d q
  obtain ⟨hunits, horder⟩ := units_whole disciplined_entangled (entangled.take 7) [] 0 ⟨1, 2⟩
    (.release (.root "a")) rfl
  obtain ⟨own, behind, hlater, hwhole, -⟩ := hunits [.released ⟨.root "a", .ix, 2⟩]
    (d.events.drop 2) q (by decide +kernel)
  obtain ⟨⟨left, hqueue⟩, hwoken⟩ := horder (.root "b")
  refine ⟨disciplined_entangled, ⟨own, behind, ?_, hwhole⟩, left, ?_⟩
  · rw [← hlater]
    decide +kernel
  · rw [hwoken ?_]
    · exact hqueue
    · -- nobody gives up an intention to lock shared there
      intro earlier own behind p hsplit _ lock hm hr hmode
      have hin : .released lock ∈ d.events := by
        rw [hsplit]
        simp [hm]
      rw [show d.events = _ from events_entangled] at hin
      simp only [List.mem_cons, List.not_mem_nil, reduceCtorEq, Event.released.injEq, or_false,
        false_or] at hin
      rcases hin with rfl | rfl | rfl | rfl
      · exact absurd hr (by decide)
      · exact absurd hmode (by decide)
      · exact absurd hr (by decide)
      · exact absurd hr (by decide)

end System

end Locking
