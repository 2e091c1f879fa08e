import Locking.Proofs.Cascade.Invariant

/-!
# Drains and releases as a recursion

An agenda lists what is still to be done. Seen from a single queue the same is a recursion: to drain
a queue, its head is granted, what it gives up is released, and then the rest is drained; to release
a lock, the queue of its resource is drained. The rules say where each of the three leads, from any
table, and a derivation from them is a recursion that comes to an end.

* `Drains`, `GivesUp`, `Releases`: the rules.
* `drains_run`, `givesUp_run`, `releases_run`: from every table the recursion comes to an end. No
  queue and no list of locks gets shorter in every turn, but the load of the table does, or else what
  one request still has to give up.
* `Drains.eq_run`, `GivesUp.eq_run`, `Releases.eq_run`: it ends where the agenda leads.
-/

namespace Locking.Cascade

mutual

/-- Draining the queue of a resource leads there: its head is granted as long as it can be. -/
inductive Drains : Table → Resource → Outcome → Prop where
  | over {t : Table} {r : Resource} (hp : t.pop? r = none) : Drains t r ⟨t, [], none⟩
  | broken {t : Table} {r : Resource} {f : Fault} (hp : t.pop? r = some (.error f)) :
    Drains t r ⟨t, [.fault f], some f⟩
  /-- The head is taken from the queue, but its lock cannot be granted. -/
  | rejected {t t₁ : Table} {r : Resource} {q : Request} {f : Fault}
    (hp : t.pop? r = some (.ok (q, t₁))) (hg : t₁.put q.lock = .error f) :
    Drains t r ⟨t₁, [.granting q, .fault f], some f⟩
  /-- The head is granted, but giving up its locks breaks off. -/
  | stuck {t t₁ t₂ : Table} {r : Resource} {q : Request} {e : Event} {mid : Outcome} {f : Fault}
    (hp : t.pop? r = some (.ok (q, t₁))) (hg : t₁.put q.lock = .ok (t₂, e))
    (hu : GivesUp t₂ q.txn.id q.releases mid) (hf : mid.fault? = some f) :
    Drains t r ⟨mid.table, .granting q :: e :: mid.events, mid.fault?⟩
  /-- The head is served and woken, and the rest of the queue is drained. -/
  | served {t t₁ t₂ : Table} {r : Resource} {q : Request} {e : Event} {mid out : Outcome}
    (hp : t.pop? r = some (.ok (q, t₁))) (hg : t₁.put q.lock = .ok (t₂, e))
    (hu : GivesUp t₂ q.txn.id q.releases mid) (hf : mid.fault? = none)
    (hd : Drains mid.table r out) :
    Drains t r
      ⟨out.table, .granting q :: e :: (mid.events ++ .woken q :: out.events), out.fault?⟩

/-- Giving up the locks of an owner, one after the other, leads there. -/
inductive GivesUp : Table → TxnId → List Lock → Outcome → Prop where
  | nil {t : Table} {owner : TxnId} : GivesUp t owner [] ⟨t, [], none⟩
  | gone {t : Table} {owner : TxnId} {lock : Lock} {locks : List Lock} {out : Outcome}
    (hh : t.held? owner lock.resource = none) (hu : GivesUp t owner locks out) :
    GivesUp t owner (lock :: locks) ⟨out.table, .gone lock :: out.events, out.fault?⟩
  | stuck {t : Table} {owner : TxnId} {lock held : Lock} {locks : List Lock} {mid : Outcome}
    {f : Fault} (hh : t.held? owner lock.resource = some held) (hr : Releases t held mid)
    (hf : mid.fault? = some f) : GivesUp t owner (lock :: locks) mid
  | released {t : Table} {owner : TxnId} {lock held : Lock} {locks : List Lock}
    {mid out : Outcome} (hh : t.held? owner lock.resource = some held) (hr : Releases t held mid)
    (hf : mid.fault? = none) (hu : GivesUp mid.table owner locks out) :
    GivesUp t owner (lock :: locks) ⟨out.table, mid.events ++ out.events, out.fault?⟩

/-- Releasing a lock leads there: the queue of its resource is drained, and the entry is dropped if
nothing is left in it. -/
inductive Releases : Table → Lock → Outcome → Prop where
  | broken {t : Table} {lock : Lock} {f : Fault} (ht : t.take lock = .error f) :
    Releases t lock ⟨t, [.fault f], some f⟩
  | stuck {t t₁ : Table} {lock : Lock} {out : Outcome} {f : Fault} (ht : t.take lock = .ok t₁)
    (hd : Drains t₁ lock.resource out) (hf : out.fault? = some f) :
    Releases t lock ⟨out.table, .released lock :: out.events, out.fault?⟩
  | released {t t₁ : Table} {lock : Lock} {out : Outcome} (ht : t.take lock = .ok t₁)
    (hd : Drains t₁ lock.resource out) (hf : out.fault? = none) :
    Releases t lock ⟨out.table.prune lock.resource, .released lock :: out.events, none⟩

end

variable {t t₁ t₂ : Table} {r : Resource} {q : Request} {lock held : Lock} {owner : TxnId}
  {e : Event} {f : Fault}

/-! ## Where the agenda of a drain goes -/

/-- A head whose lock cannot be granted breaks off its drain. -/
theorem run_rejected (hp : t.pop? r = some (.ok (q, t₁))) (hg : t₁.put q.lock = .error f) :
    run t [.drain r] = ⟨t₁, [.granting q, .fault f], some f⟩ := by
  rw [run_served hp, serve, List.cons_append, run_of_breaks (.grant hg)]

/-- A head that is granted gives up its locks; then it is woken, and the drain goes on. -/
theorem run_granted (hp : t.pop? r = some (.ok (q, t₁))) (hg : t₁.put q.lock = .ok (t₂, e)) :
    run t [.drain r] =
      let out := (run t₂ (q.releases.map (.giveUp q.txn.id))).andThen [.wake q, .drain r]
      { out with events := .granting q :: e :: out.events } := by
  rw [run_served hp, serve, List.cons_append, run_grant hg, run_append]

/-- What is held is released, and then the other locks are given up. -/
theorem run_giveUps (hh : t.held? owner lock.resource = some held) (locks : List Lock) :
    run t ((lock :: locks).map (.giveUp owner)) =
      (run t [.release held]).andThen (locks.map (.giveUp owner)) := by
  rw [List.map_cons, run_giveUp hh, run_cons]

theorem run_gone (hh : t.held? owner lock.resource = none) (locks : List Lock) :
    run t ((lock :: locks).map (.giveUp owner)) =
      let out := run t (locks.map (.giveUp owner))
      { out with events := .gone lock :: out.events } :=
  run_of_effect (.gone hh) _

theorem run_release (ht : t.take lock = .ok t₁) :
    run t [.release lock] =
      let out := (run t₁ [.drain lock.resource]).andThen [.prune lock.resource]
      { out with events := .released lock :: out.events } := by
  rw [run_of_effect (.release ht), List.append_nil, run_cons t₁ (.drain lock.resource)]
  rfl

theorem run_prune (t : Table) (r : Resource) : run t [.prune r] = ⟨t.prune r, [], none⟩ := by
  rw [run_of_effect (.prune r), List.append_nil, run_nil]
  rfl

/-! ## The recursion comes to an end -/

mutual

/-- **Every drain comes to an end**, from every table. -/
theorem drains_run (t : Table) (r : Resource) : Drains t r (run t [.drain r]) := by
  cases hp : t.pop? r with
  | none =>
    rw [run_drained hp]
    exact .over hp
  | some popped =>
    cases popped with
    | error f =>
      rw [run_of_breaks (.drain hp)]
      exact .broken hp
    | ok taken =>
      obtain ⟨q, t₁⟩ := taken
      cases hg : t₁.put q.lock with
      | error f =>
        rw [run_rejected hp hg]
        exact .rejected hp hg
      | ok granted =>
        obtain ⟨t₂, e⟩ := granted
        -- the request has left its queue, and giving up its locks adds nothing to a queue
        have hload : t₂.load + q.work = t.load := Table.load_put hg ▸ Table.load_pop? hp
        have hu := givesUp_run t₂ q.txn.id q.releases
        have hle := load_run_le t₂ (q.releases.map (.giveUp q.txn.id))
        rw [run_granted hp hg]
        generalize run t₂ (q.releases.map (.giveUp q.txn.id)) = mid at hu hle
        cases hf : mid.fault? with
        | some f =>
          rw [Outcome.andThen_of_fault hf]
          exact .stuck hp hg hu hf
        | none =>
          rw [Outcome.andThen_of_none hf, run_wake]
          exact .served hp hg hu hf (drains_run mid.table r)
termination_by t.load + 1
decreasing_by
  all_goals simp only [Request.work] at *; omega

/-- Giving up locks comes to an end, from every table. -/
theorem givesUp_run (t : Table) (owner : TxnId) (locks : List Lock) :
    GivesUp t owner locks (run t (locks.map (.giveUp owner))) := by
  cases locks with
  | nil =>
    rw [List.map_nil, run_nil]
    exact .nil
  | cons lock locks =>
    cases hh : t.held? owner lock.resource with
    | none =>
      rw [run_gone hh]
      exact .gone hh (givesUp_run t owner locks)
    | some held =>
      -- what is released is one lock less to give up, whatever its drain lets through
      have hr := releases_run t held
      have hle := load_run_le t [.release held]
      rw [run_giveUps hh]
      generalize run t [.release held] = mid at hr hle
      cases hf : mid.fault? with
      | some f =>
        rw [Outcome.andThen_of_fault hf]
        exact .stuck hh hr hf
      | none =>
        rw [Outcome.andThen_of_none hf]
        exact .released hh hr hf (givesUp_run mid.table owner locks)
termination_by t.load + 4 * locks.length
decreasing_by
  all_goals simp only [List.length_cons]; omega

/-- Every release comes to an end, from every table. -/
theorem releases_run (t : Table) (lock : Lock) : Releases t lock (run t [.release lock]) := by
  cases ht : t.take lock with
  | error f =>
    rw [run_of_breaks (.release ht)]
    exact .broken ht
  | ok t₁ =>
    have hload := Table.load_take ht
    have hd := drains_run t₁ lock.resource
    rw [run_release ht]
    generalize run t₁ [.drain lock.resource] = out at hd
    cases hf : out.fault? with
    | some f =>
      rw [Outcome.andThen_of_fault hf]
      exact .stuck ht hd hf
    | none =>
      rw [Outcome.andThen_of_none hf, run_prune]
      simpa using Releases.released ht hd hf
termination_by t.load + 3
decreasing_by omega

end

/-! ## It ends where the agenda leads -/

mutual

theorem Drains.eq_run {t : Table} {r : Resource} {out : Outcome} :
    Drains t r out → out = run t [.drain r]
  | .over hp => (run_drained hp).symm
  | .broken hp => (run_of_breaks (.drain hp) []).symm
  | .rejected hp hg => (run_rejected hp hg).symm
  | .stuck hp hg hu hf => by
    rw [run_granted hp hg, ← hu.eq_run, Outcome.andThen_of_fault hf]
  | .served hp hg hu hf hd => by
    rw [run_granted hp hg, ← hu.eq_run, Outcome.andThen_of_none hf, run_wake, ← hd.eq_run]

theorem GivesUp.eq_run {t : Table} {owner : TxnId} {locks : List Lock} {out : Outcome} :
    GivesUp t owner locks out → out = run t (locks.map (.giveUp owner))
  | .nil => (run_nil t).symm
  | .gone hh hu => by rw [run_gone hh, ← hu.eq_run]
  | .stuck hh hr hf => by rw [run_giveUps hh, ← hr.eq_run, Outcome.andThen_of_fault hf]
  | .released hh hr hf hu => by
    rw [run_giveUps hh, ← hr.eq_run, Outcome.andThen_of_none hf, ← hu.eq_run]

theorem Releases.eq_run {t : Table} {lock : Lock} {out : Outcome} :
    Releases t lock out → out = run t [.release lock]
  | .broken ht => (run_of_breaks (.release ht) []).symm
  | .stuck ht hd hf => by rw [run_release ht, ← hd.eq_run, Outcome.andThen_of_fault hf]
  | .released ht hd hf => by
    rw [run_release ht, ← hd.eq_run, Outcome.andThen_of_none hf, run_prune, List.append_nil]

end

end Locking.Cascade
