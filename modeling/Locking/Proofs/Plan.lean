import Mathlib.Data.List.Nodup
import Locking.Plan
import Locking.Proofs.Cascade.Poised

/-!
# What calls come to

* `Table.GivenUp`: locks that a transaction may give up for a lock on another resource. It holds
  each of them, and no two are on one resource.
* `Table.Planned`: all that a call can come to that is not refused, and what is known then.
* `planned_of_plan`: it is all.
* `Planned.poised`: an agenda grants at most its first lock, one that agrees with those of others.
-/

namespace Locking.Table

variable {t : Table} {owner : TxnId} {txn : Txn} {kept r : Resource} {mode : Mode}
  {locks : List Lock} {rs : List Resource} {call : Call} {plan : Plan}

theorem nodup_eraseDups {α : Type} [BEq α] [LawfulBEq α] (xs : List α) : xs.eraseDups.Nodup := by
  induction h : xs.length using Nat.strongRecOn generalizing xs with
  | ind n ih =>
    cases xs with
    | nil => simp
    | cons x xs =>
      rw [List.eraseDups_cons, List.nodup_cons]
      refine ⟨by simp, ih _ ?_ _ rfl⟩
      have := List.length_filter_le (fun y => !y == x) xs
      rw [List.length_cons] at h
      omega

/-! ## Locks to be given up -/

/-- Locks that their owner may give up for a lock on `kept`. -/
structure GivenUp (t : Table) (owner : TxnId) (kept : Resource) (locks : List Lock) : Prop where
  held : ∀ lock ∈ locks, t.held? owner lock.resource = some lock
  other : ∀ lock ∈ locks, lock.resource ≠ kept
  nodup : (locks.map Lock.resource).Nodup

/-- The locks of the first resource and of all others are found on their own. -/
theorem collect_cons (hc : t.collect owner kept (r :: rs) = .ok locks) :
    ∃ held found, t.held? owner r = some held ∧ t.collect owner kept rs = .ok found ∧
      locks = if r = kept then found else held :: found := by
  unfold collect at hc
  split at hc
  · cases hc
  · rename_i held hh
    cases hl : t.collect owner kept rs with
    | error refusal => simp [hl, Except.map] at hc
    | ok found =>
      simp only [hl, Except.map, Except.ok.injEq] at hc
      exact ⟨held, found, hh, rfl, hc.symm⟩

theorem mem_of_collect (h : t.Sound) (hc : t.collect owner kept rs = .ok locks) :
    ∀ lock ∈ locks, lock.resource ∈ rs ∧ lock.resource ≠ kept ∧
      t.held? owner lock.resource = some lock := by
  induction rs generalizing locks with
  | nil =>
    cases hc
    simp
  | cons r rs ih =>
    obtain ⟨held, found, hh, hl, rfl⟩ := collect_cons hc
    obtain rfl := (h.of_held? hh).2.1
    intro lock hm
    have hfound : lock ∈ found → lock.resource ∈ held.resource :: rs ∧
        lock.resource ≠ kept ∧ t.held? owner lock.resource = some lock := fun hm =>
      ⟨List.mem_cons_of_mem _ (ih hl lock hm).1, (ih hl lock hm).2⟩
    split at hm
    · exact hfound hm
    · rename_i hk
      rcases List.mem_cons.1 hm with rfl | hm
      · exact ⟨List.mem_cons_self, hk, hh⟩
      · exact hfound hm

theorem nodup_of_collect (h : t.Sound) (hc : t.collect owner kept rs = .ok locks) (hrs : rs.Nodup) :
    (locks.map Lock.resource).Nodup := by
  induction rs generalizing locks with
  | nil =>
    cases hc
    simp
  | cons r rs ih =>
    obtain ⟨held, found, hh, hl, rfl⟩ := collect_cons hc
    obtain rfl := (h.of_held? hh).2.1
    obtain ⟨hr, hrs⟩ := List.nodup_cons.1 hrs
    have hnew : held.resource ∉ found.map Lock.resource := by
      intro hm
      obtain ⟨lock, hm, hlock⟩ := List.mem_map.1 hm
      exact hr (hlock ▸ (mem_of_collect h hl lock hm).1)
    split
    · exact ih hl hrs
    · rw [List.map_cons]
      exact List.nodup_cons.2 ⟨hnew, ih hl hrs⟩

theorem givenUp_of_collect (h : t.Sound) (hc : t.collect owner kept rs.eraseDups = .ok locks) :
    t.GivenUp owner kept locks where
  held := fun lock hm => (mem_of_collect h hc lock hm).2.2
  other := fun lock hm => (mem_of_collect h hc lock hm).2.1
  nodup := nodup_of_collect h hc (nodup_eraseDups rs)

/-! ## Plans -/

/-- What a call may come to, if it is not refused. -/
inductive Planned (t : Table) (txn : Txn) : Call → Plan → Prop where
  /-- The lock agrees with those of others, and gives its owner no less than it has. -/
  | grant {call : Call} {r : Resource} {mode : Mode}
    (hcall : call = .acquire r mode ∨ call = .promote r mode)
    (ha : t.Admits ⟨r, mode, txn.id⟩)
    (hc : ∀ held, t.held? txn.id r = some held → mode.covers held.mode) :
    Planned t txn call (.go [.grant ⟨r, mode, txn.id⟩])
  | release {r : Resource} {lock : Lock} (hh : t.held? txn.id r = some lock) :
    Planned t txn (.release r) (.go [.release lock])
  /-- The lock agrees with those of others, and the queue is looked at if it replaces another. -/
  | exchange {r : Resource} {mode : Mode} {rs : List Resource} {locks : List Lock}
    {drains : List Cascade.Task} (ha : t.Admits ⟨r, mode, txn.id⟩)
    (hl : t.GivenUp txn.id r locks)
    (hd : drains = [.drain r] ∨ drains = [] ∧ t.held? txn.id r = none) :
    Planned t txn (.exchange r mode rs)
      (.go (.grant ⟨r, mode, txn.id⟩ :: locks.map .release ++ drains))
  /-- The lock has to wait, for those of others or behind other requests. -/
  | waits {call : Call} {r : Resource} {mode held : Mode} {locks : List Lock} {place : Place}
    (hcall : call.operation ≠ .release) (hm : mode ≠ .nl)
    (hw : place = .back ∧ t.queue r ≠ [] ∨ ¬ (t.entry r).admits mode txn.id) :
    Planned t txn call (.wait ⟨txn, ⟨r, mode, txn.id⟩, locks⟩ place held)

theorem planned_of_acquire (h : t.Sound) (hp : t.planAcquire txn r mode = .ok plan) :
    Planned t txn (.acquire r mode) plan := by
  unfold planAcquire at hp
  split at hp
  · cases hp
  split at hp
  · cases hp
  rename_i hm hh
  -- who has no mode on the resource holds nothing there
  rw [not_ne_iff, h.mode_eq_nl_iff] at hh
  split at hp
  · rename_i hq
    cases hp
    obtain ⟨-, ha⟩ := Bool.and_eq_true_iff.1 hq
    exact .grant (.inl rfl) ⟨hm, admits_iff.1 ha⟩ (by simp [hh])
  · rename_i hq
    cases hp
    refine .waits nofun hm ?_
    by_cases he : t.queue r = []
    · exact .inr fun ha => hq (by simp [he, ha])
    · exact .inl ⟨rfl, he⟩

theorem planned_of_release (hp : t.planRelease txn r = .ok plan) :
    Planned t txn (.release r) plan := by
  unfold planRelease at hp
  split at hp
  · cases hp
  · rename_i hh
    cases hp
    exact .release hh

theorem planned_of_promote (hp : t.planPromote txn r mode = .ok plan) :
    Planned t txn (.promote r mode) plan := by
  unfold planPromote at hp
  split at hp
  · cases hp
  split at hp
  · cases hp
  split at hp
  · cases hp
  rename_i hnl hc
  rw [Bool.not_eq_false] at hc
  -- a mode that covers the mode of a lock is itself the mode of a lock
  have hm : mode ≠ .nl := by
    rintro rfl
    exact hnl (Mode.eq_nl_of_nl_covers hc)
  split at hp
  · rename_i ha
    cases hp
    exact .grant (.inr rfl) ⟨hm, admits_iff.1 ha⟩ fun held hh => mode_of_held? hh ▸ hc
  · rename_i ha
    cases hp
    exact .waits nofun hm (.inr ha)

theorem planned_of_exchange (h : t.Sound) (hp : t.planExchange txn r mode rs = .ok plan) :
    Planned t txn (.exchange r mode rs) plan := by
  unfold planExchange at hp
  split at hp
  · cases hp
  split at hp
  · cases hp
  rename_i hm hdup
  split at hp
  · cases hp
  rename_i locks hl
  split at hp
  · rename_i ha
    cases hp
    refine .exchange ⟨hm, admits_iff.1 ha⟩ (givenUp_of_collect h hl) ?_
    split
    · rename_i hnl
      exact .inr ⟨rfl, h.mode_eq_nl_iff.1 hnl⟩
    · exact .inl rfl
  · rename_i ha
    cases hp
    exact .waits nofun hm (.inr ha)

/-- **A call that is not refused comes to one of these.** -/
theorem planned_of_plan (h : t.Sound) (hp : t.plan txn call = .ok plan) :
    Planned t txn call plan := by
  cases call with
  | acquire r mode => exact planned_of_acquire h hp
  | release r => exact planned_of_release hp
  | promote r mode => exact planned_of_promote hp
  | exchange r mode rs => exact planned_of_exchange h hp

/-- A release comes to the release of the lock that is held. -/
theorem Planned.of_release {tasks : List Cascade.Task} (hp : Planned t txn call (.go tasks))
    (hcall : call.operation = .release) :
    ∃ r lock, call = .release r ∧ t.held? txn.id r = some lock ∧ tasks = [.release lock] := by
  cases hp with
  | release hh => exact ⟨_, _, rfl, hh, rfl⟩
  | grant hor => rcases hor with rfl | rfl <;> cases hcall
  | exchange => cases hcall

/-- **Agendas of calls are poised.** -/
theorem Planned.poised {tasks : List Cascade.Task} (h : t.Sound)
    (hp : Planned t txn call (.go tasks)) : Cascade.Poised t tasks := by
  cases hp with
  | grant hcall ha hc =>
    refine ⟨h, ?_, by simp⟩
    rintro lock ⟨⟩
    exact ha
  | release hh => exact .of_not_grant h (by simp)
  | exchange ha hl hd =>
    refine ⟨h, ?_, ?_⟩
    · rintro lock ⟨⟩
      exact ha
    · rcases hd with rfl | ⟨rfl, -⟩
      · simp
      · simp

/-- The request of a plan that has to wait. -/
theorem Planned.request {q : Request} {place : Place} {held : Mode}
    (hp : Planned t txn call (.wait q place held)) :
    q.txn = txn ∧ q.Proper q.lock.resource ∧ call.operation ≠ .release := by
  cases hp with
  | waits hcall hm hw => exact ⟨rfl, ⟨rfl, rfl, hm⟩, hcall⟩

end Locking.Table
