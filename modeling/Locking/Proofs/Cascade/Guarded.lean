import Locking.Proofs.Cascade.Succession
import Locking.Proofs.Cascade.Units

/-!
# Locks that guard a queue

A lock that a transaction will give up may hold back the queue of its resource. As long as it is
held, nothing is taken from there: at first the queue was held back by some lock, and modes that
agree with the lock in question agree with one another, unless its mode is the intention to lock
shared. So only the release of such a lock lets a request through while another one, taken from the
same queue, is still being served.

* `Cascade.Gives`: a transaction is to give up what it holds on a resource.
* `Sound.conflicts_of_quiet`: at the outset every other lock holds the queue back, or intends to lock
  shared.
* `Cascade.Guarded`: the locks that are to be given up hold the queues of their resources back.
* `Cascade.Inside`: what is known in the middle of a unit.
* `Request.Whole`, `Guarded.units_run`: what is known of a unit in the end, and of every unit of a
  cascade.
-/

namespace Locking

/-- Modes that agree with a third one agree with each other, unless this is the intention to lock
shared, or none. -/
theorem Mode.compatible_of_common {a b c : Mode} (ha : a.compatible c) (hb : b.compatible c)
    (his : c ≠ .is) (hnl : c ≠ .nl) : a.compatible b := by
  revert ha hb his hnl
  cases a <;> cases b <;> cases c <;> decide

/-- **At the outset every lock holds the queue of its resource back**, unless it intends to lock
shared. -/
theorem Table.Sound.conflicts_of_quiet {t : Table} {r : Resource} {q : Request}
    {rest : List Request} {txn : TxnId} {held : Lock} (h : t.Sound) (hp : t.pop? r = none)
    (hq : t.queue r = q :: rest) (hh : t.held? txn r = some held) (hm : held.mode ≠ .is) :
    q.lock.mode.compatible held.mode = false := by
  by_contra hc
  rw [Bool.not_eq_false] at hc
  refine Table.pop?_eq_none_iff.1 hp q rest hq (Table.admits_iff.2 fun lock hl _ => ?_)
  have hlock := h.mem_locksOn_iff.1 hl
  by_cases ho : lock.owner = txn
  · rw [ho, hh] at hlock
    cases hlock
    exact hc
  · -- the request and this lock both agree with the lock in question
    obtain ⟨-, slot, hslot⟩ := h.held?_eq_some_iff.1 hlock
    obtain ⟨hown, slot', hslot'⟩ := h.held?_eq_some_iff.1 hh
    have hagree := (h.entry r).compatible hslot hslot' (hown ▸ ho)
    exact Mode.compatible_of_common hc hagree hm (h.of_held? hh).2.2

namespace Cascade

variable {t t' : Table} {task : Task} {tasks rest new xs ys : List Task} {es es' : List Event}
  {r : Resource} {q : Request} {txn : TxnId} {lock held : Lock}

/-- The task takes away what a transaction holds on a resource. -/
def Task.Frees (txn : TxnId) (r : Resource) : Task → Prop
  | release lock => lock.owner = txn ∧ lock.resource = r
  | giveUp owner lock => owner = txn ∧ lock.resource = r
  | grant _ | wake _ | drain _ | prune _ => False

theorem Task.owner?_of_frees (h : task.Frees txn r) : task.owner? = some txn := by
  cases task with
  | release lock => exact congrArg some h.1
  | giveUp owner lock => exact congrArg some h.1
  | _ => exact h.elim

/-- The transaction is to give up what it holds on the resource: a task says so, or a request of it
that waits. -/
def Gives (t : Table) (tasks : List Task) (txn : TxnId) (r : Resource) : Prop :=
  (∃ task ∈ tasks, task.Frees txn r) ∨
    ∃ u, ∃ q ∈ t.queue u, q.txn.id = txn ∧ ∃ lock ∈ q.releases, lock.resource = r

theorem Gives.mono (h : Gives t xs txn r) (hsub : ∀ task ∈ xs, task ∈ ys) : Gives t ys txn r :=
  h.imp_left fun ⟨task, hm, hf⟩ => ⟨task, hsub task hm, hf⟩

/-- No task makes a transaction give up what it was not to give up before. -/
theorem Effect.gives (hs : t.Sound) (he : Effect t task t' es new)
    (h : Gives t' (new ++ rest) txn r) : Gives t (task :: rest) txn r := by
  rcases h with ⟨a, hm, hf⟩ | ⟨u, q, hq, hid, hl⟩
  · rcases List.mem_append.1 hm with hm | hm
    · cases he with
      | release ht =>
        simp only [List.mem_cons, List.not_mem_nil, or_false] at hm
        rcases hm with rfl | rfl <;> exact hf.elim
      | giveUp hh =>
        obtain ⟨ho, hr, -⟩ := hs.of_held? hh
        rw [List.mem_singleton.1 hm] at hf
        exact .inl ⟨_, List.mem_cons_self, ho.symm.trans hf.1, hr.symm.trans hf.2⟩
      | @serve s p _ hp =>
        have hqueue := (Table.queue_pop? hp).1
        rcases mem_serve_iff.1 hm with rfl | ⟨l, hl, rfl⟩ | rfl | rfl
        · exact hf.elim
        · exact .inr ⟨s, p, hqueue ▸ List.mem_cons_self, hf.1, l, hl, hf.2⟩
        · exact hf.elim
        · exact hf.elim
      | _ => cases hm
    · exact .inl ⟨a, List.mem_cons_of_mem _ hm, hf⟩
  · exact .inr ⟨u, q, he.queue_eq hs u ▸ List.mem_append_right _ hq, hid, hl⟩

/-- Who is about to be granted a lock does not wait, and is not to give it up if no task says so. -/
theorem Clear.not_gives (h : Clear t tasks) (hh : tasks.head? = some (.grant lock))
    (hapart : ∀ task ∈ tasks, ¬ task.Frees lock.owner lock.resource) :
    ¬ Gives t tasks lock.owner lock.resource := by
  rintro (⟨task, hm, hf⟩ | ⟨u, q, hq, hid, -⟩)
  · exact hapart task hm hf
  · exact ne_of_queuedSum_eq_zero (h.idle _ (List.mem_of_mem_head? hh) _ rfl) hq hid

/-- **The locks that are to be given up hold the queues of their resources back**, unless they intend
to lock shared. No request gives up what it asks for, and nor does a task behind a grant. -/
structure Guarded (t : Table) (tasks : List Task) : Prop extends Clear t tasks where
  other : ∀ {r : Resource} {q : Request}, q ∈ t.queue r → ∀ lock ∈ q.releases,
    lock.resource ≠ q.lock.resource
  apart : ∀ {lock : Lock}, tasks.head? = some (.grant lock) → ∀ task ∈ tasks,
    ¬ task.Frees lock.owner lock.resource
  guard : ∀ {txn : TxnId} {r : Resource} {held : Lock}, Gives t tasks txn r →
    t.held? txn r = some held → held.mode ≠ .is → ∀ {q : Request} {rest : List Request},
    t.queue r = q :: rest → q.lock.mode.compatible held.mode = false

namespace Guarded

theorem part (h : Guarded t (xs ++ ys)) : Guarded t xs := by
  have hhead : ∀ {task}, xs.head? = some task → (xs ++ ys).head? = some task := fun hh => by
    rw [List.head?_append, hh]
    rfl
  have htail : ∀ {task}, task ∈ xs.tail → task ∈ (xs ++ ys).tail := fun hm => by
    cases xs with
    | nil => cases hm
    | cons x xs => exact List.mem_append_left ys hm
  exact {
    sound := h.sound
    head := fun hh => h.head (hhead hh)
    tail := fun hm => h.tail (htail hm)
    one := h.one
    idle := fun task hm => h.idle task (List.mem_append_left ys hm)
    other := h.other
    apart := fun hh task hm => h.apart (hhead hh) task (List.mem_append_left ys hm)
    guard := fun hg => h.guard (hg.mono fun _ => List.mem_append_left ys) }

/-- What is to be given up is left alone. -/
theorem held?_of_gives (h : Guarded t (task :: rest)) (he : Effect t task t' es new)
    (hg : Gives t (task :: rest) txn r) (hh : t'.held? txn r = some held) :
    t.held? txn r = some held := by
  cases he with
  | @grant lock _ e hp =>
    obtain ⟨-, hheld⟩ := h.sound.of_put (h.head rfl) hp
    rw [hheld] at hh
    split at hh
    · rename_i hc
      obtain ⟨rfl, rfl⟩ := hc
      exact absurd hg (h.toClear.not_gives rfl (h.apart rfl))
    · exact hh
  | @release lock _ ht =>
    obtain ⟨-, -, hheld⟩ := h.sound.of_take ht
    rw [hheld] at hh
    split at hh
    · cases hh
    · exact hh
  | serve hp => rwa [(Table.granted_pop? hp r).2] at hh
  | prune s => rwa [h.sound.held?_prune] at hh
  | _ => exact hh

/-- **Whoever is to give up a lock on a resource intends to lock shared there**, when a request of
another one is taken from its queue. -/
theorem mode_of_pop? (h : Guarded t tasks) {t' : Table}
    (hp : t.pop? r = some (.ok (q, t'))) (hg : Gives t tasks txn r)
    (hh : t.held? txn r = some held) (hne : txn ≠ q.lock.owner) : held.mode = .is := by
  by_contra hm
  obtain ⟨rest, hqueue, ha, -⟩ := Table.pop?_eq_ok_iff.1 hp
  obtain ⟨ho, -, -⟩ := h.sound.of_held? hh
  -- the lock would hold the request back
  have hagree := Table.admits_iff.1 ha held
    (h.sound.mem_locksOn_iff.2 (by rw [ho]; exact hh)) (by rw [ho]; exact hne)
  rw [h.guard hg hh hm hqueue] at hagree
  cases hagree

/-- Only what is being served is granted next, and nobody is to give that up. -/
theorem apart_step (h : Guarded t (task :: rest)) (he : Effect t task t' es new)
    (hh : (new ++ rest).head? = some (.grant lock)) :
    ∀ a ∈ new ++ rest, ¬ a.Frees lock.owner lock.resource := by
  have hrest : ∀ {l}, (rest.head? = some (.grant l)) → False := fun hr =>
    h.tail (List.mem_of_mem_head? hr)
  cases he with
  | @serve s q _ hp =>
    cases hh
    obtain ⟨hproper, -⟩ := h.sound.of_pop? hp
    have hq : q ∈ t.queue s := (Table.queue_pop? hp).1 ▸ List.mem_cons_self
    intro a hm hf
    rcases List.mem_append.1 hm with hm | hm
    · rcases mem_serve_iff.1 hm with rfl | ⟨l, hl, rfl⟩ | rfl | rfl
      · exact hf
      · exact h.other hq l hl hf.2
      · exact hf
      · exact hf
    · -- nothing was done for its transaction while it waited
      have hzero := h.idle a (List.mem_cons_of_mem _ hm) _ (Task.owner?_of_frees hf)
      exact ne_of_queuedSum_eq_zero hzero hq hproper.owner.symm
  | release ht => cases hh
  | giveUp hheld => cases hh
  | _ => exact (hrest hh).elim

/-- **Every task leads from a guarded agenda to a guarded agenda.** -/
theorem step (h : Guarded t (task :: rest)) (he : Effect t task t' es new) :
    Guarded t' (new ++ rest) where
  toClear := h.toClear.step he
  other := fun {r q} hq => h.other (he.queue_eq h.sound r ▸ List.mem_append_right _ hq)
  apart := h.apart_step he
  guard := fun {txn r held} hg hh hm {q rest'} hqueue => by
    have hold := he.gives h.sound hg
    have hheld := h.held?_of_gives he hold hh
    have hsplit := he.queue_eq h.sound r
    rw [hqueue] at hsplit
    by_cases htaken : takenFrom r es = []
    · rw [htaken] at hsplit
      exact h.guard hold hheld hm hsplit
    · -- a request has been taken from this queue, so the lock does not hold it back
      exfalso
      cases he with
      | @serve s p _ hp =>
        obtain ⟨hproper, -⟩ := h.sound.of_pop? hp
        obtain rfl : s = r := by
          by_contra hne
          rw [takenFrom_granting, hproper.resource, if_neg hne] at htaken
          exact htaken rfl
        refine hm (h.mode_of_pop? hp hold hheld ?_)
        rintro rfl
        -- who is served is not to give up what it is served with
        have hnot := (h.toClear.step (.serve hp)).not_gives rfl (h.apart_step (.serve hp) rfl)
        rw [hproper.resource] at hnot
        exact hnot hg
      | grant hp => rcases Table.event_of_put hp with rfl | ⟨before, rfl⟩ <;> exact htaken rfl
      | _ => exact htaken rfl

end Guarded

/-! ## Inside a unit -/

/-- What a request was to give up has been given up, or is found not to be held any more. -/
def GivenUp (txn : TxnId) (lock : Lock) (es : List Event) : Prop :=
  .gone lock ∈ es ∨ ∃ held, .released held ∈ es ∧ held.owner = txn ∧ held.resource = lock.resource

theorem GivenUp.append (h : GivenUp txn lock es) (es' : List Event) :
    GivenUp txn lock (es ++ es') :=
  h.imp (List.mem_append_left es') fun ⟨held, hm, hh⟩ => ⟨held, List.mem_append_left es' hm, hh⟩

/-- What a request is to give up is on the agenda, or it has been given up. -/
def Pending (txn : TxnId) (lock : Lock) (tasks : List Task) (es : List Event) : Prop :=
  .giveUp txn lock ∈ tasks ∨
    (∃ held, .release held ∈ tasks ∧ held.owner = txn ∧ held.resource = lock.resource) ∨
      GivenUp txn lock es

theorem Pending.step (h : Pending txn lock (task :: rest) es) (hs : t.Sound)
    (he : Effect t task t' es' new) : Pending txn lock (new ++ rest) (es ++ es') := by
  rcases h with hm | ⟨held, hm, hheld⟩ | hgiven
  · rcases List.mem_cons.1 hm with rfl | hm
    · cases he with
      | gone hh => exact .inr (.inr (.inl (by simp)))
      | giveUp hh =>
        obtain ⟨ho, hr, -⟩ := hs.of_held? hh
        exact .inr (.inl ⟨_, List.mem_cons_self, ho, hr⟩)
    · exact .inl (List.mem_append_right new hm)
  · rcases List.mem_cons.1 hm with rfl | hm
    · cases he with
      | release ht => exact .inr (.inr (.inr ⟨held, by simp, hheld⟩))
    · exact .inr (.inl ⟨held, List.mem_append_right new hm, hheld⟩)
  · exact .inr (.inr (hgiven.append es'))

/-- **In the middle of the unit of a request.** Whoever is to give up a lock on its resource intends
to lock shared there. So all locks released there are of this kind, and the queue is drained only
after such a release. -/
structure Inside (q : Request) (t : Table) (tasks : List Task) (es : List Event) : Prop
    extends Guarded t tasks where
  givers : ∀ {txn : TxnId} {held : Lock}, Gives t tasks txn q.lock.resource →
    t.held? txn q.lock.resource = some held → held.mode = .is ∧ txn ≠ q.lock.owner
  released : ∀ {lock : Lock}, .released lock ∈ es → lock.resource = q.lock.resource →
    lock.mode = .is ∧ lock.owner ≠ q.lock.owner
  drained : .drain q.lock.resource ∈ tasks →
    ∃ lock, .released lock ∈ es ∧ lock.resource = q.lock.resource
  taken : ∀ xs p ys, es = xs ++ .granting p :: ys → p.lock.resource = q.lock.resource →
    ∃ lock, .released lock ∈ xs ∧ lock.resource = q.lock.resource ∧ lock.mode = .is ∧
      lock.owner ≠ q.lock.owner
  pending : ∀ lock ∈ q.releases, Pending q.txn.id lock tasks es

namespace Inside

/-- Where a request has been taken from its queue, its unit begins. -/
theorem start (h : Guarded t (.drain r :: rest)) (hp : t.pop? r = some (.ok (q, t'))) :
    Inside q t' (unit q) [] := by
  have hnext : Guarded t' (unit q ++ ([.wake q, .drain r] ++ rest)) := by
    have hstep := h.step (.serve hp)
    rwa [serve_eq, List.append_assoc] at hstep
  obtain ⟨hproper, -⟩ := h.sound.of_pop? hp
  have hgives : ∀ {txn u}, Gives t' (unit q) txn u → Gives t (.drain r :: rest) txn u := by
    intro txn u hg
    refine (Effect.serve hp).gives h.sound (hg.mono fun task hm => ?_)
    rw [serve_eq, List.append_assoc]
    exact List.mem_append_left _ hm
  refine { hnext.part with
    givers := fun {txn held} hg hh => ?_
    released := nofun
    drained := fun hm => ?_
    taken := fun xs p ys he => ?_
    pending := fun lock hl => .inl ?_ }
  · have hne : txn ≠ q.lock.owner := by
      rintro rfl
      exact hnext.part.toClear.not_gives rfl (hnext.part.apart rfl) hg
    rw [(Table.granted_pop? hp _).2] at hh
    rw [hproper.resource] at hg hh
    exact ⟨h.mode_of_pop? hp (hgives hg) hh hne, hne⟩
  · simp [unit] at hm
  · cases xs <;> cases he
  · exact List.mem_cons_of_mem _ (List.mem_map_of_mem hl)

/-- Where the queue of the unit's own resource is drained, another transaction has given up its
intention to lock shared there. -/
theorem released_of_drain (h : Inside q t tasks es) (hm : .drain q.lock.resource ∈ tasks) :
    ∃ lock, .released lock ∈ es ∧ lock.resource = q.lock.resource ∧ lock.mode = .is ∧
      lock.owner ≠ q.lock.owner := by
  obtain ⟨lock, hl, hr⟩ := h.drained hm
  exact ⟨lock, hl, hr, h.released hl hr⟩

/-- **Every task of a unit leads on within it.** -/
theorem step (h : Inside q t (task :: rest) es) (he : Effect t task t' es' new) :
    Inside q t' (new ++ rest) (es ++ es') where
  toGuarded := h.toGuarded.step he
  givers := fun hg hh =>
    have hold := he.gives h.sound hg
    h.givers hold (h.held?_of_gives he hold hh)
  released := fun {lock} hm hr => by
    rcases List.mem_append.1 hm with hm | hm
    · exact h.released hm hr
    · cases he with
      | release ht =>
        rw [List.mem_singleton.1 hm |> Event.released.inj] at hr ⊢
        refine h.givers (.inl ⟨_, List.mem_cons_self, rfl, hr⟩) ?_
        rw [← hr]
        exact (h.sound.of_take ht).1
      | grant hp => rcases Table.event_of_put hp with rfl | ⟨before, rfl⟩ <;> simp at hm
      | _ => simp at hm
  drained := fun hm => by
    have hbefore : .drain q.lock.resource ∈ task :: rest →
        ∃ lock, .released lock ∈ es ++ es' ∧ lock.resource = q.lock.resource := fun hm =>
      let ⟨lock, hl, hr⟩ := h.drained hm
      ⟨lock, List.mem_append_left es' hl, hr⟩
    rcases List.mem_append.1 hm with hm | hm
    · cases he with
      | @release lock _ ht =>
        rw [List.mem_pair] at hm
        exact ⟨lock, by simp, (Task.drain.inj (hm.resolve_right nofun)).symm⟩
      | giveUp hh => simp at hm
      | @serve s p _ hp =>
        -- the drain goes on
        refine hbefore ?_
        rcases mem_serve_iff.1 hm with hm | ⟨l, -, hm⟩ | hm | hm
        · cases hm
        · cases hm
        · cases hm
        · exact hm ▸ List.mem_cons_self
      | _ => cases hm
    · exact hbefore (List.mem_cons_of_mem task hm)
  taken := fun xs p ys hsplit hp => by
    rcases he.events_eq with rfl | ⟨e, rfl⟩
    · exact h.taken xs p ys (by simpa using hsplit) hp
    · rcases ys.eq_nil_or_concat' with rfl | ⟨init, last, rfl⟩
      · -- the request has just been taken, by a drain of its queue
        obtain ⟨rfl, hlast⟩ := List.append_inj' hsplit rfl
        cases hlast
        cases he with
        | grant hput => rcases Table.event_of_put hput with he | ⟨before, he⟩ <;> cases he
        | serve hpop =>
          rw [(h.sound.of_pop? hpop).1.resource] at hp
          exact h.released_of_drain (hp ▸ List.mem_cons_self)
      · rw [← List.cons_append, ← List.append_assoc] at hsplit
        exact h.taken xs p init (List.append_inj' hsplit rfl).1 hp
  pending := fun lock hl => (h.pending lock hl).step h.sound he

end Inside

end Cascade

/-- **What is known of the unit of a request.** What it was to give up has been given up. And if
another request has been taken from its queue, then the lock of another transaction that intended to
lock shared has been released there before. -/
structure Request.Whole (q : Request) (own : List Event) : Prop where
  performed : ∀ lock ∈ q.releases, Cascade.GivenUp q.txn.id lock own
  overtaken : ∀ xs p ys, own = xs ++ .granting p :: ys → p.lock.resource = q.lock.resource →
    ∃ lock, .released lock ∈ xs ∧ lock.resource = q.lock.resource ∧ lock.mode = .is ∧
      lock.owner ≠ q.txn.id

namespace Cascade

variable {t t' : Table} {tasks rest : List Task} {r : Resource} {q : Request}

/-- **Where a guarded agenda serves a request, its unit is whole.** -/
theorem Guarded.whole (h : Guarded t (.drain r :: rest)) (hp : t.pop? r = some (.ok (q, t')))
    (hf : (run t' (unit q)).fault? = none) : q.Whole (run t' (unit q)).events := by
  have howner := (h.sound.of_pop? hp).1.owner
  have hend : Inside q _ [] _ := run_end Inside.step (Inside.start h hp) hf
  refine ⟨fun lock hl => ?_, fun xs p ys he hr => howner ▸ hend.taken xs p ys he hr⟩
  -- nothing is left on the agenda
  rcases hend.pending lock hl with hm | ⟨held, hm, -⟩ | hgiven
  · cases hm
  · cases hm
  · exact hgiven

/-- **What happens in a guarded cascade consists of whole units.** -/
theorem Guarded.units_run (h : Guarded t tasks) (hw : toWake tasks = [])
    (hf : (run t tasks).fault? = none) : Units Request.Whole (run t tasks).events :=
  Cascade.units_run Guarded.step Guarded.part Guarded.whole h hw hf

end Cascade

end Locking
