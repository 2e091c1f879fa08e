import Locking.Proofs.Asking
import Locking.Proofs.Cascade.Queues
import Locking.Proofs.Table.Owner

/-!
# Queues in time

A queue grows at both ends and shrinks at its front only. So it keeps the order in which requests
have come to it, whatever cascades do in between.

* `Table.Queued`, `Table.Advanced`: what a call does to all queues, where it has to wait and where
  it does not.
* `InLine`: how a queue may differ from what it was before; `InLine.front`, `InLine.back` and
  `InLine.advance` say how it may go on.
* `Follows`, `System.follows_run`: the events of a run tell how a queue comes about from an older
  one.
* `System.enduring_apart`: in every run, what waits gives up nothing on its own resource.
* `System.queue_discipline`: the order of queues in every run in which nothing breaks off.
-/

namespace Locking

/-- A queue with one more request, at one of its ends. -/
def Place.add (place : Place) (q : Request) (qs : List Request) : List Request :=
  match place with
  | front => q :: qs
  | back => qs ++ [q]

/-- **The request of an operation has been queued**, and nothing else has happened. -/
structure Table.Queued (t t' : Table) (op : Operation) (q : Request) (es : List Event) : Prop where
  events : ∃ held, es = [.queued op q held, .gate (.closed q.txn)]
  woken : woken es = []
  queue : t'.queue q.lock.resource = op.place.add q (t.queue q.lock.resource)
  others : ∀ r, q.lock.resource ≠ r → t'.queue r = t.queue r
  locksOn : ∀ r, t'.locksOn r = t.locksOn r
  locksOf : ∀ txn, t'.locksOf txn = t.locksOf txn

/-- **Requests have been granted from the fronts of queues**, in order, and their transactions have
been woken. -/
structure Table.Advanced (t t' : Table) (es : List Event) : Prop where
  queue : ∀ r, t.queue r = takenFrom r es ++ t'.queue r
  served : Served es
  woken : (woken es).Perm (taken es)
  joined : joined es = []

/-- The request that an event adds at one end of the queue of a resource. -/
def Event.joins? (place : Place) (r : Resource) : Event → Option Request
  | queued op q _ => if op.place = place ∧ q.lock.resource = r then some q else none
  | _ => none

/-- The requests that have been added at one end of the queue of a resource, in order. -/
def joinedAt (place : Place) (r : Resource) (es : List Event) : List Request :=
  es.filterMap (Event.joins? place r)

@[simp] theorem joinedAt_append (place : Place) (r : Resource) (es fs : List Event) :
    joinedAt place r (es ++ fs) = joinedAt place r es ++ joinedAt place r fs :=
  List.filterMap_append

theorem joinedAt_of_joined {es : List Event} (h : joined es = []) (place : Place) (r : Resource) :
    joinedAt place r es = [] := by
  rw [joined, List.filterMap_eq_nil_iff] at h
  refine List.filterMap_eq_nil_iff.2 fun e hm => ?_
  have he := h e hm
  cases e with
  | queued op q held => cases he
  | _ => rfl

theorem joinedAt_queued (place : Place) (r : Resource) (op : Operation) (q : Request) (held : Mode)
    (note : Note) :
    joinedAt place r [.queued op q held, .gate note] =
      if op.place = place ∧ q.lock.resource = r then [q] else [] := by
  by_cases h : op.place = place ∧ q.lock.resource = r <;> simp [joinedAt, Event.joins?, h]

theorem Table.Advanced.refl (t : Table) : t.Advanced t [] where
  queue := fun _ => rfl
  served := served_of_taken_eq_nil rfl
  woken := .refl _
  joined := rfl

/-! ## Older and newer queues -/

/-- **How a queue comes about from an older one**, after some requests have come to its front and
others to its back, and some have been granted. What is gone of the older queue was granted in the
order in which it stood there, and what is kept still stands in this order. Before it stand requests
that came to the front, the newest first, and behind it requests that came to the back, the oldest
first. None of those that came to the back is granted as long as an older request is kept. No
request is lost, none is invented, and none is granted more often than it came. -/
structure InLine (old fronts backs granted new : List Request) : Prop where
  order : ∃ gone kept first last, old = gone ++ kept ∧ new = first ++ kept ++ last ∧
    gone.Sublist granted ∧ first.reverse.Sublist fronts ∧ last <:+ backs ∧
    (kept ≠ [] → last = backs)
  all : (granted ++ new).Perm (old ++ fronts ++ backs)

namespace InLine

variable {old fronts backs granted now new : List Request}

theorem refl (old : List Request) : InLine old [] [] [] old where
  order := ⟨[], old, [], [], rfl, by simp, List.nil_sublist _, List.nil_sublist _, List.nil_suffix,
    fun _ => rfl⟩
  all := by simp

theorem front (h : InLine old fronts backs granted new) (q : Request) :
    InLine old (fronts ++ [q]) backs granted (q :: new) where
  order := by
    obtain ⟨gone, kept, first, last, rfl, rfl, hgone, hfirst, hlast, hkept⟩ := h.order
    refine ⟨gone, kept, q :: first, last, rfl, rfl, hgone, ?_, hlast, hkept⟩
    rw [List.reverse_cons]
    exact hfirst.append_right [q]
  all := by
    refine List.perm_iff_count.2 fun p => ?_
    have hall := h.all.count_eq p
    simp only [List.count_append, List.count_cons, List.count_nil] at hall ⊢
    omega

theorem back (h : InLine old fronts backs granted new) (q : Request) :
    InLine old fronts (backs ++ [q]) granted (new ++ [q]) where
  order := by
    obtain ⟨gone, kept, first, last, rfl, rfl, hgone, hfirst, hlast, hkept⟩ := h.order
    refine ⟨gone, kept, first, last ++ [q], rfl, by simp, hgone, hfirst, ?_, fun hne => ?_⟩
    · obtain ⟨before, rfl⟩ := hlast
      exact ⟨before, by simp⟩
    · rw [hkept hne]
  all := by
    rw [← List.append_assoc, ← List.append_assoc]
    exact h.all.append_right [q]

/-- Requests are granted from the front. -/
theorem advance (h : InLine old fronts backs granted (now ++ new)) :
    InLine old fronts backs (granted ++ now) new where
  order := by
    obtain ⟨gone, kept, first, last, rfl, hnew, hgone, hfirst, hlast, hkept⟩ := h.order
    rw [List.append_assoc] at hnew
    rcases List.append_eq_append_iff.1 hnew with ⟨first', rfl, rfl⟩ | ⟨more, rfl, hrest⟩
    · -- only requests that came to the front
      refine ⟨gone, kept, first', last, rfl, by simp, ?_, ?_, hlast, hkept⟩
      · exact hgone.trans (List.sublist_append_left _ _)
      · exact (List.sublist_append_right now first').reverse.trans hfirst
    rcases List.append_eq_append_iff.1 hrest with ⟨more', rfl, rfl⟩ | ⟨kept', rfl, rfl⟩
    · -- all of these, all that were kept so far, and some that came to the back
      refine ⟨gone ++ kept, [], [], new, by simp, rfl, ?_, List.nil_sublist _, ?_, by simp⟩
      · refine hgone.append ?_
        exact (List.sublist_append_left kept more').trans (List.sublist_append_right _ _)
      · exact (List.suffix_append more' new).trans hlast
    · -- all of these, and some that were kept so far
      refine ⟨gone ++ more, kept', [], last, by simp, rfl, ?_, List.nil_sublist _, hlast, ?_⟩
      · exact hgone.append (List.sublist_append_right _ _)
      · exact fun hne => hkept (by simp [hne])
  all := by
    rw [List.append_assoc]
    exact h.all

end InLine

/-- The events tell how the queue of a resource comes about from an older one. -/
def Follows (r : Resource) (old : List Request) (es : List Event) (new : List Request) : Prop :=
  InLine old (joinedAt .front r es) (joinedAt .back r es) (takenFrom r es) new

namespace Follows

variable {r : Resource} {old : List Request} {es es' : List Event} {t t' : Table} {op : Operation}
  {q : Request}

theorem refl (r : Resource) (old : List Request) : Follows r old [] old := InLine.refl old

theorem advanced (h : Follows r old es (t.queue r)) (ha : t.Advanced t' es') :
    Follows r old (es ++ es') (t'.queue r) := by
  rw [Follows, ha.queue r] at h
  rw [Follows, joinedAt_append, joinedAt_append, takenFrom_append, joinedAt_of_joined ha.joined,
    joinedAt_of_joined ha.joined, List.append_nil, List.append_nil]
  exact h.advance

theorem queued (h : Follows r old es (t.queue r)) (hq : t.Queued t' op q es') :
    Follows r old (es ++ es') (t'.queue r) := by
  obtain ⟨held, rfl⟩ := hq.events
  rw [Follows, joinedAt_append, joinedAt_append, takenFrom_append, joinedAt_queued, joinedAt_queued,
    show takenFrom r [.queued op q held, .gate (.closed q.txn)] = [] from rfl, List.append_nil]
  by_cases hr : q.lock.resource = r
  · subst hr
    rw [hq.queue]
    cases hp : op.place with
    | front => simpa [Place.add] using InLine.front h q
    | back => simpa [Place.add] using InLine.back h q
  · rw [hq.others r hr]
    simpa [hr, Follows] using h

end Follows

/-! ## Runs -/

/-- The manager that decides on a call. -/
def Action.manager? : Action → Option Nat
  | decide m _ _ => some m
  | _ => none

namespace System

variable {s : System} {m n : Nat} {r : Resource} {txn : Txn} {call : Call} {d : Decision}
  {a : Action} {as : List Action} {old : List Request} {es : List Event} {settings : Settings}

/-- What happens in those calls of a run that one manager decides on. -/
def eventsAt (s : System) (m : Nat) : List Action → List Event
  | [] => []
  | a :: as =>
    (if a.manager? = some m then (s.act a).events else []) ++ eventsAt (s.act a).system m as

/-- A decision changes no table but that of its manager. -/
theorem Decided.table_other (hd : Decided s m txn call d) (hn : m ≠ n) :
    d.system.table n = s.table n := by
  cases hd with
  | refused hp => rfl
  | @done tasks t => exact (table_setTable s m n t).trans (if_neg hn)
  | @broken tasks t => exact (table_setTable s m n t).trans (if_neg hn)
  | @waits q place held t => exact (table_setTable s m n t).trans (if_neg hn)
  | @shut q place held t => exact (table_setTable s m n t).trans (if_neg hn)

theorem table_act (h : s.Sound) (hn : a.manager? ≠ some m) :
    (s.act a).system.table m = s.table m := by
  have hacted := acted h a
  generalize s.act a = d at hacted ⊢
  cases hacted with
  | decided hd => exact hd.table_other fun hm => hn (congrArg some hm)
  | _ => rfl

/-- **A decision queues the request of its caller, or it grants requests from the fronts of
queues**, if it does not break off. -/
theorem Decided.queues (h : s.Sound) (hd : Decided s m txn call d) (hf : d.verdict.fault? = none) :
    (d.verdict = .waits ∧ (s.table m).Queued (d.system.table m) call.operation
      ((s.table m).request txn call) d.events) ∨
    (d.verdict ≠ .waits ∧ (s.table m).Advanced (d.system.table m) d.events) := by
  have hperm : (woken d.events).Perm (taken d.events) :=
    perm_of_sumOf fun w => (hd.conserves h hf w).2
  rcases hd.goes_through hf with ⟨r, -, hv, he, ht⟩ | ⟨tasks, hp, hrun, hv, he, ht⟩ |
    ⟨q, place, held, hp, hv, he, ht⟩
  · rw [hv, he, ht]
    exact .inr ⟨nofun, .refl _⟩
  · rw [he] at hperm
    rw [hv, he, ht]
    exact .inr ⟨nofun, ((Table.planned_of_plan (h m) hp).poised (h m)).queue_run,
      Cascade.served_run hrun, hperm, Cascade.joined_run _ _⟩
  · have hcall := (Table.planned_of_plan (h m) hp).request.2.2
    rw [hv, he, ht]
    cases Table.asked_of_plan hcall hp with
    | later =>
      refine .inl ⟨rfl, ⟨held, rfl⟩, rfl, ?_, fun r hr => ?_, fun r => ?_, fun u => ?_⟩
      · rw [Table.queue_enqueue, if_pos rfl]
        cases call.operation.place <;> rfl
      · rw [Table.queue_enqueue, if_neg hr]
      · rw [Table.locksOn_enqueue]
      · rw [Table.locksOf_enqueue]

/-- An acquisition is carried out at once only where nobody waits. -/
theorem Decided.queue_of_acquire (hd : Decided s m txn call d) (hv : d.verdict = .done)
    (hcall : call.operation = .acquire) : (s.table m).queue call.resource = [] := by
  cases hd with
  | done hp hr =>
    cases Table.asked_of_plan (by rw [hcall]; nofun) hp with
    | now ha hq hdrains => exact hq hcall
  | _ => cases hv

/-- **No request that waits gives up what it asks for**, in every run. -/
theorem enduring_apart : Enduring fun t => ∀ r, ∀ q ∈ t.queue r, q.Apart where
  empty := nofun
  go := fun _ ha _ r q hm => ha r q ((Cascade.run_queue_suffix _ _ r).subset hm)
  wait := fun {t txn call q place held} h ha hp r p hm => by
    rcases Table.eq_or_mem_of_mem_enqueue hm with rfl | hm
    · cases Table.asked_of_plan (Table.planned_of_plan h hp).request.2.2 hp with
      | later => exact Table.apart_request h txn call
    · exact ha r p hm

/-- **Every run leads on from an older queue.** -/
theorem follows_run (h : s.Sound) (hu : s.Unbroken as)
    (hq : Follows r old es ((s.table m).queue r)) :
    Follows r old (es ++ s.eventsAt m as) (((s.after as).table m).queue r) := by
  induction as generalizing s es with
  | nil => simpa [eventsAt] using hq
  | cons a as ih =>
    rw [eventsAt, ← List.append_assoc]
    refine ih (sound_act h a) hu.2 ?_
    split
    · rename_i hm
      cases a with
      | decide n txn call =>
        cases hm
        rcases (decided h m txn call).queues h hu.1 with ⟨-, hqueued⟩ | ⟨-, hadvanced⟩
        · exact hq.queued hqueued
        · exact hq.advanced hadvanced
      | _ => cases hm
    · rename_i hm
      rw [table_act h hm, List.append_nil]
      exact hq

/-- **Queues keep their order in every run in which nothing breaks off**, whatever was called and by
whom. A call that has to wait adds its request to one queue, at the back if it is an acquisition and
at the front otherwise, and does nothing else. Any other call only takes requests from the fronts of
queues, in order; each is granted and woken, and an acquisition that is carried out at once has
overtaken nobody. So between any two points of a run a queue follows from what it was: nothing is
lost, doubled, altered or overtaken by what stood behind it. At any time promotions and exchanges
wait first, the newest first, and then acquisitions, the oldest first. -/
theorem queue_discipline (hu : (start settings).Unbroken as) :
    (∀ before a rest m, as = before ++ a :: rest → a.manager? ≠ some m →
      (((start settings).after before).act a).system.table m =
        ((start settings).after before).table m) ∧
    (∀ before m txn call rest, as = before ++ .decide m txn call :: rest →
      let t := ((start settings).after before).table m
      let d := ((start settings).after before).decide m txn call
      (d.verdict = .waits →
        t.Queued (d.system.table m) call.operation (t.request txn call) d.events) ∧
      (d.verdict ≠ .waits → t.Advanced (d.system.table m) d.events) ∧
      (d.verdict = .done → call.operation = .acquire → t.queue call.resource = [])) ∧
    (∀ before between rest m r, as = before ++ (between ++ rest) →
      let s := (start settings).after before
      Follows r ((s.table m).queue r) (s.eventsAt m between)
        (((s.after between).table m).queue r)) ∧
    ∀ m r, ∃ first last, (((start settings).after as).table m).queue r = first ++ last ∧
      first.reverse.Sublist (joinedAt .front r ((start settings).eventsAt m as)) ∧
      last <:+ joinedAt .back r ((start settings).eventsAt m as) := by
  refine ⟨?_, ?_, ?_, fun m r => ?_⟩
  · intro before a rest m _ hm
    exact table_act (sound_run settings before) hm
  · rintro before m txn call rest rfl t d
    have hs := sound_run settings before
    have hd := decided hs m txn call
    have hqueues := hd.queues hs (unbroken_append.1 hu).2.1
    refine ⟨fun hv => ?_, fun hv => ?_, hd.queue_of_acquire⟩
    · exact (hqueues.resolve_right fun h => h.1 hv).2
    · exact (hqueues.resolve_left fun h => hv h.1).2
  · rintro before between rest m r rfl s
    have hbetween := (unbroken_append.1 (unbroken_append.1 hu).2).1
    exact follows_run (sound_run settings before) hbetween (.refl r _)
  · -- at the start every queue is empty, so nothing of it is kept
    have hline := follows_run (sound_start settings) hu (m := m) (.refl r [])
    obtain ⟨gone, kept, first, last, hold, hnew, -, hfirst, hlast, -⟩ := hline.order
    obtain ⟨-, rfl⟩ := List.nil_eq_append_iff.1 hold
    exact ⟨first, last, by rw [hnew, List.append_nil], hfirst, hlast⟩

/-- Transaction 3 waits for a lock that transactions 1 and 2 share, and transaction 1 then asks for
more than its share. When transaction 2 has released the lock, transaction 1 is served first. -/
def overtaking : List Action :=
  [.decide 0 ⟨0, 1⟩ (.acquire (.root "a") .s), .decide 0 ⟨1, 2⟩ (.acquire (.root "a") .s),
    .decide 0 ⟨2, 3⟩ (.acquire (.root "a") .x), .decide 0 ⟨0, 1⟩ (.promote (.root "a") .x),
    .decide 0 ⟨1, 2⟩ (.release (.root "a"))]

theorem queue_discipline_overtaking :
    (start {}).Unbroken overtaking ∧
      Table.Advanced (((start {}).after (overtaking.take 4)).table 0)
        (((start {}).after overtaking).table 0)
        (((start {}).after (overtaking.take 4)).decide 0 ⟨1, 2⟩ (.release (.root "a"))).events ∧
      Follows (.root "a")
        [⟨⟨0, 1⟩, ⟨.root "a", .x, 1⟩, []⟩, ⟨⟨2, 3⟩, ⟨.root "a", .x, 3⟩, []⟩]
        (((start {}).after (overtaking.take 4)).eventsAt 0 (overtaking.drop 4))
        [⟨⟨2, 3⟩, ⟨.root "a", .x, 3⟩, []⟩] := by
  have hu : (start {}).Unbroken overtaking := by decide +kernel
  obtain ⟨-, hcalls, hfollows, -⟩ := queue_discipline hu
  have hrelease := hcalls (overtaking.take 4) 0 ⟨1, 2⟩ (.release (.root "a")) [] rfl
  have hline := hfollows (overtaking.take 4) (overtaking.drop 4) [] 0 (.root "a") rfl
  have hold : (((start {}).after (overtaking.take 4)).table 0).queue (.root "a") =
      [⟨⟨0, 1⟩, ⟨.root "a", .x, 1⟩, []⟩, ⟨⟨2, 3⟩, ⟨.root "a", .x, 3⟩, []⟩] := by decide +kernel
  have hnew : ((((start {}).after (overtaking.take 4)).after (overtaking.drop 4)).table 0).queue
      (.root "a") = [⟨⟨2, 3⟩, ⟨.root "a", .x, 3⟩, []⟩] := by decide +kernel
  refine ⟨hu, hrelease.2.1 (by decide +kernel), ?_⟩
  rw [← hold, ← hnew]
  exact hline

end System

end Locking
