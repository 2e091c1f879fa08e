import Locking.Proofs.Plan

/-!
# Locks kept for release

The locks that an exchange gives up are chosen before it grants anything, and released only after
cascades that release locks of their own. What was chosen is still held, as long as nobody else on
the agenda lays hands on it: neither a task that comes before, nor a request of the same transaction
that may be taken from a queue.

* `Cascade.Kept`: the locks to be released are held, and kept apart from everything before them.
* `Kept.step`: every task leads from such an agenda to such an agenda.
* `Kept.run`: such an agenda meets no fault, and releases exactly the locks that it was to release.
* `Planned.kept`: the agenda of a call is of this kind if its transaction waits for nothing.
-/

namespace Locking

open Cascade

namespace Cascade

variable {t t' : Table} {task : Task} {tasks rest new : List Task} {es : List Event} {f : Fault}

/-- The task changes what a transaction holds on a resource. -/
def Task.Claims (owner : TxnId) (r : Resource) : Task → Prop
  | grant lock | release lock => lock.owner = owner ∧ lock.resource = r
  | giveUp txn lock => txn = owner ∧ lock.resource = r
  | wake _ | drain _ | prune _ => False

/-- The locks to be released are held. No task before the release of a lock changes what its owner
holds there, and no request of this owner waits, unless the release comes first. -/
structure Kept (t : Table) (tasks : List Task) : Prop extends Poised t tasks where
  held : ∀ {lock : Lock}, .release lock ∈ tasks → t.held? lock.owner lock.resource = some lock
  apart : tasks.Pairwise fun a b => ∀ lock, b = .release lock →
    ¬ a.Claims lock.owner lock.resource
  free : ∀ {lock : Lock}, .release lock ∈ tasks.tail → ∀ {r : Resource} {q : Request},
    q ∈ t.queue r → q.txn.id ≠ lock.owner

namespace Kept

/-- Where the first task has been done, tasks that release nothing and lay hands on none of the
locks to be released may come first. -/
theorem next (h : Kept t (task :: rest)) (he : Effect t task t' es new)
    (hn : ∀ lock, .release lock ∉ new)
    (hclaims : ∀ {a lock}, a ∈ new → .release lock ∈ rest → ¬ a.Claims lock.owner lock.resource)
    (hheld : ∀ {lock : Lock}, .release lock ∈ rest →
      t'.held? lock.owner lock.resource = t.held? lock.owner lock.resource)
    (hqueue : ∀ {r : Resource} {q : Request}, q ∈ t'.queue r → q ∈ t.queue r) :
    Kept t' (new ++ rest) := by
  have hrest : ∀ {lock}, .release lock ∈ new ++ rest → .release lock ∈ rest := fun hm =>
    (List.mem_append.1 hm).resolve_left (hn _)
  refine ⟨h.step he, fun hm => ?_, ?_, fun hm _ _ hq => ?_⟩
  · rw [hheld (hrest hm)]
    exact h.held (List.mem_cons_of_mem _ (hrest hm))
  · refine List.pairwise_append.2 ⟨?_, (List.pairwise_cons.1 h.apart).2, ?_⟩
    · refine List.pairwise_of_forall_mem_list fun a _ b hb lock hl => ?_
      exact absurd (hl ▸ hb) (hn lock)
    · intro a ha b hb lock hl
      exact hclaims ha (hl ▸ hb)
  · exact h.free (hrest (List.mem_of_mem_tail hm)) (hqueue hq)

/-- The first task changes nothing that a later task releases. -/
theorem not_claims (h : Kept t (task :: rest)) {lock : Lock} (hm : .release lock ∈ rest) :
    ¬ task.Claims lock.owner lock.resource :=
  (List.pairwise_cons.1 h.apart).1 _ hm lock rfl

/-- **Every task leads from an agenda that keeps its locks to such an agenda.** -/
theorem step (h : Kept t (task :: rest)) (he : Effect t task t' es new) :
    Kept t' (new ++ rest) := by
  cases he with
  | @grant lock _ e hp =>
    obtain ⟨-, hheld⟩ := h.sound.of_put (h.head rfl) hp
    refine h.next (.grant hp) (by simp) (by simp) (fun {l} hm => ?_) fun {r q} hq => ?_
    · have hne : ¬ (lock.owner = l.owner ∧ lock.resource = l.resource) := h.not_claims hm
      rw [hheld, if_neg hne]
    · rwa [Table.queue_put hp] at hq
  | @release lock _ ht =>
    obtain ⟨-, -, hheld⟩ := h.sound.of_take ht
    refine h.next (.release ht) (by simp) (fun {a l} ha _ => ?_) (fun {l} hm => ?_)
      fun {r q} hq => ?_
    · simp only [List.mem_cons, List.not_mem_nil, or_false] at ha
      rcases ha with rfl | rfl
      · exact id
      · exact id
    · have hne : ¬ (lock.owner = l.owner ∧ lock.resource = l.resource) := h.not_claims hm
      rw [hheld, if_neg hne]
    · rwa [Table.queue_take ht] at hq
  | gone hh => exact h.next (.gone hh) (by simp) (by simp) (fun _ => rfl) id
  | @giveUp owner lock held hh =>
    -- the release claims what the task claimed before
    obtain ⟨rfl, hres, -⟩ := h.sound.of_held? hh
    refine ⟨h.toPoised.step (.giveUp hh), fun hm => ?_, ?_, h.free⟩
    · rcases List.mem_cons.1 hm with hl | hm
      · cases hl
        rw [hres]
        exact hh
      · exact h.held (List.mem_cons_of_mem _ hm)
    · obtain ⟨hfirst, hrest⟩ := List.pairwise_cons.1 h.apart
      refine List.pairwise_cons.2 ⟨fun b hb l hl hc => ?_, hrest⟩
      exact hfirst b hb l hl ⟨hc.1, hres ▸ hc.2⟩
  | wake q => exact h.next (.wake q) (by simp) (by simp) (fun _ => rfl) id
  | drained hp => exact h.next (.drained hp) (by simp) (by simp) (fun _ => rfl) id
  | @serve r q _ hp =>
    obtain ⟨hqueue, hother⟩ := Table.queue_pop? hp
    obtain ⟨hproper, -⟩ := h.sound.of_pop? hp
    refine h.next (.serve hp) (by simp [serve]) (fun {a lock} ha hm => ?_)
      (fun _ => (Table.granted_pop? hp _).2 _) fun {s p} hm => ?_
    · -- what serves `q` is done for its transaction, which owns none of the locks to be released
      have hne : q.txn.id ≠ lock.owner := h.free hm (r := r) (hqueue ▸ List.mem_cons_self)
      simp only [serve, List.cons_append, List.mem_cons, List.mem_append, List.mem_map,
        List.not_mem_nil, or_false] at ha
      rcases ha with rfl | ⟨l, -, rfl⟩ | rfl | rfl
      · exact fun hc => hne (hproper.owner ▸ hc.1)
      · exact fun hc => hne hc.1
      · exact id
      · exact id
    · by_cases hs : r = s
      · subst hs
        exact hqueue ▸ List.mem_cons_of_mem q hm
      · exact hother s hs ▸ hm
  | prune r =>
    refine h.next (.prune r) (by simp) (by simp) (fun _ => h.sound.held?_prune r _ _) ?_
    intro s q hq
    rwa [t.queue_prune] at hq

/-- **Such an agenda is worked off**, and every lock that it was to release has been released. -/
theorem run (h : Kept t tasks) :
    (Cascade.run t tasks).fault? = none ∧
      ∀ lock, .release lock ∈ tasks → .released lock ∈ (Cascade.run t tasks).events := by
  have hrun := run_completes []
    (P := fun t left es => Kept t left ∧ ∀ lock, .release lock ∈ tasks →
      .release lock ∈ left ∨ .released lock ∈ es) ?_ ?_ ⟨h, fun lock hm => .inl hm⟩
  · refine ⟨hrun.1, fun lock hm => ?_⟩
    rcases hrun.2.2 lock hm with hnil | he
    · cases hnil
    · exact he
  · rintro t task rest es t' es' new ⟨hk, hall⟩ he
    refine ⟨hk.step he, fun lock hm => ?_⟩
    rcases hall lock hm with hl | hr
    · rcases List.mem_cons.1 hl with rfl | hl
      · cases he
        exact .inr (by simp)
      · exact .inl (List.mem_append_right _ hl)
    · exact .inr (List.mem_append_left _ hr)
  · rintro t task rest es f ⟨hk, -⟩ hb
    obtain ⟨lock, rfl, hne, -⟩ := hk.fault hb
    exact hne (hk.held List.mem_cons_self)

end Kept

end Cascade

/-! ## The agendas of calls -/

variable {t : Table} {txn : Txn} {call : Call} {tasks : List Task}

/-- **The agenda of a call keeps its locks**, if its transaction waits for nothing or only releases
a lock. -/
theorem Table.Planned.kept (h : t.Sound) (hp : Planned t txn call (.go tasks))
    (hfree : call.operation ≠ .release → ∀ {r : Resource} {q : Request}, q ∈ t.queue r →
      q.txn.id ≠ txn.id) : Kept t tasks := by
  have hpoised := hp.poised h
  cases hp with
  | grant hcall ha hc => exact ⟨hpoised, by simp, by simp, by simp⟩
  | release hh =>
    obtain ⟨ho, hr, -⟩ := h.of_held? hh
    refine ⟨hpoised, fun hm => ?_, by simp, by simp⟩
    cases List.mem_singleton.1 hm
    rw [ho, hr]
    exact hh
  | @exchange r mode rs locks drains ha hl hd =>
    have hdrain : ∀ b ∈ drains, b = .drain r := by
      rcases hd with rfl | ⟨rfl, -⟩
      · simp
      · simp
    have hmem : ∀ {lock}, .release lock ∈ locks.map Task.release ++ drains → lock ∈ locks := by
      intro lock hm
      rcases List.mem_append.1 hm with hm | hm
      · simpa using hm
      · cases hdrain _ hm
    have howner : ∀ lock ∈ locks, lock.owner = txn.id := fun lock hm =>
      (h.of_held? (hl.held lock hm)).1
    refine ⟨hpoised, fun hm => ?_, ?_, fun hm _ _ hq => ?_⟩
    · have hm' := hmem ((List.mem_cons.1 hm).resolve_left nofun)
      rw [howner _ hm']
      exact hl.held _ hm'
    · -- the grant is on another resource than the releases, and they are on different ones
      refine List.pairwise_cons.2 ⟨fun b hb lock hlock hc => ?_, ?_⟩
      · exact hl.other lock (hmem (hlock ▸ hb)) hc.2.symm
      · refine List.pairwise_append.2 ⟨?_, ?_, fun a ha b hb lock hlock => ?_⟩
        · refine List.pairwise_map.2 ((List.pairwise_map.1 hl.nodup).imp fun hne lock hlock hc => ?_)
          cases hlock
          exact hne hc.2
        · refine List.pairwise_of_forall_mem_list fun a _ b hb lock hlock => ?_
          cases hlock.symm.trans (hdrain b hb)
        · cases hlock.symm.trans (hdrain b hb)
    · rw [howner _ (hmem hm)]
      exact hfree nofun hq

end Locking
