import Locking.Proofs.Asking
import Locking.Proofs.Table.Holders

/-!
# Tables that agree on a part

Two tables may hold the same locks and the same requests as far as some resources and some
transactions are concerned, under other slots and whatever else they hold. Nobody who asks only for
these can tell one table from the other.

* `Scope`: some resources and some transactions; `Scope.Apart`: two scopes have nothing in common.
* `Table.AgreesOn`: two tables agree on a scope.
* `AgreesOn.held?`, `AgreesOn.mode_of`, `AgreesOn.admits`: so they answer queries alike.
* `plan_congr`, `AgreesOn.plan`: and a call that stays within the scope comes to the same.
* `AgreesOn.put`, `AgreesOn.take`, `AgreesOn.pop?`, `AgreesOn.enqueue`: what is done to both of them
  alike leaves them in agreement.
* `Sound.agrees_of_put`, `Sound.agrees_of_take`, `agrees_of_pop?`, `agrees_of_enqueue`: what is done
  outside of the scope is not seen in it.
-/

namespace Locking

/-- Some resources and some transactions, these by their ids and by the keys of their objects. -/
structure Scope where
  resources : Resource → Prop
  ids : TxnId → Prop
  keys : Nat → Prop

/-- Two scopes have nothing in common. -/
structure Scope.Apart (σ τ : Scope) : Prop where
  resources : ∀ {r : Resource}, σ.resources r → ¬ τ.resources r
  ids : ∀ {txn : TxnId}, σ.ids txn → ¬ τ.ids txn
  keys : ∀ {key : Nat}, σ.keys key → ¬ τ.keys key

/-- All resources that a call names: the one that it is about, and those that are to be given up. -/
def Call.names : Call → List Resource
  | acquire r _ | release r | promote r _ => [r]
  | exchange r _ rs => r :: rs

theorem Call.resource_mem_names (call : Call) : call.resource ∈ call.names := by
  cases call <;> exact List.mem_cons_self

namespace Table

/-- Two tables agree on a scope. The slots of locks may be others. -/
structure AgreesOn (σ : Scope) (t u : Table) : Prop where
  locksOn : ∀ {r : Resource}, σ.resources r → t.locksOn r = u.locksOn r
  queue : ∀ {r : Resource}, σ.resources r → t.queue r = u.queue r
  locksOf : ∀ {txn : TxnId}, σ.ids txn → t.locksOf txn = u.locksOf txn

variable {σ : Scope} {t t' u u' v : Table} {r : Resource} {lock : Lock} {txn : TxnId} {e e' : Event}
  {q : Request}

theorem Sound.held?_eq_some_iff_on (h : t.Sound) :
    t.held? txn r = some lock ↔ lock.owner = txn ∧ lock ∈ t.locksOn r := by
  constructor
  · intro hh
    obtain ⟨rfl, -, -⟩ := h.of_held? hh
    exact ⟨rfl, h.mem_locksOn_iff.2 hh⟩
  · rintro ⟨rfl, hm⟩
    exact h.mem_locksOn_iff.1 hm

/-- What a transaction holds on a resource is told by who holds what there. -/
theorem Sound.held?_eq_of_locksOn (h : t.Sound) (hu : u.Sound)
    (hmem : ∀ lock, lock ∈ t.locksOn r ↔ lock ∈ u.locksOn r) (txn : TxnId) :
    t.held? txn r = u.held? txn r :=
  Option.ext fun lock => by
    rw [h.held?_eq_some_iff_on, hu.held?_eq_some_iff_on, hmem]

theorem Sound.held?_eq_some_iff_of (h : t.Sound) :
    t.held? txn r = some lock ↔ lock.resource = r ∧ lock ∈ t.locksOf txn := by
  constructor
  · intro hh
    obtain ⟨ho, rfl, -⟩ := h.of_held? hh
    exact ⟨rfl, h.mem_locksOf_iff.2 ⟨ho, hh⟩⟩
  · rintro ⟨rfl, hm⟩
    exact (h.mem_locksOf_iff.1 hm).2

/-- What is told of a grant: whether the lock is a new one, or which mode its owner had before. -/
theorem Sound.event_put (h : t.Sound) (hp : t.put lock = .ok (t', e)) :
    e = match t.held? lock.owner lock.resource with
      | none => .granted lock
      | some held => .updated lock held.mode := by
  cases hh : t.held? lock.owner lock.resource with
  | none =>
    cases hp.symm.trans (h.put_of_not_held hh)
    rfl
  | some held =>
    obtain ⟨slot, -, hp'⟩ := h.put_of_held? hh
    cases hp.symm.trans hp'
    rfl

/-- What is to be given up is told by what is held. -/
theorem collect_congr {kept : Resource} {rs : List Resource}
    (h : ∀ r ∈ rs, t.held? txn r = u.held? txn r) :
    t.collect txn kept rs = u.collect txn kept rs := by
  induction rs with
  | nil => rfl
  | cons r rs ih =>
    rw [collect, collect, h r List.mem_cons_self,
      ih fun s hs => h s (List.mem_cons_of_mem r hs)]

/-- **What a call comes to** is told by what its transaction holds of what the call names, by the
modes that agree with the locks of others there, and by whether anybody waits there. -/
theorem plan_congr {txn : Txn} {call : Call}
    (hheld : ∀ r ∈ call.names, t.held? txn.id r = u.held? txn.id r)
    (hadmits : ∀ mode, (t.entry call.resource).admits mode txn.id =
      (u.entry call.resource).admits mode txn.id)
    (hqueue : (t.queue call.resource).isEmpty = (u.queue call.resource).isEmpty) :
    t.plan txn call = u.plan txn call := by
  have hr := hheld _ call.resource_mem_names
  have hmode : t.mode txn.id call.resource = u.mode txn.id call.resource := by
    rw [Table.mode, Table.mode, hr]
  cases call with
  | acquire r mode =>
    simp only [Call.resource] at hmode hqueue hadmits
    simp only [plan, planAcquire, hmode, hqueue, hadmits]
  | release r =>
    simp only [Call.resource] at hr
    simp only [plan, planRelease, hr]
  | promote r mode =>
    simp only [Call.resource] at hmode hadmits
    simp only [plan, planPromote, hmode, hadmits]
  | exchange r mode rs =>
    simp only [Call.resource] at hmode hadmits
    have hrs : ∀ s ∈ rs.eraseDups, t.held? txn.id s = u.held? txn.id s := fun s hs =>
      hheld s (List.mem_cons_of_mem r (List.mem_eraseDups.1 hs))
    simp only [plan, planExchange, hmode, hadmits, collect_congr hrs]

namespace AgreesOn

theorem refl (σ : Scope) (t : Table) : AgreesOn σ t t := ⟨fun _ => rfl, fun _ => rfl, fun _ => rfl⟩

theorem trans (h : AgreesOn σ t u) (h' : AgreesOn σ u v) : AgreesOn σ t v where
  locksOn := fun hr => (h.locksOn hr).trans (h'.locksOn hr)
  queue := fun hr => (h.queue hr).trans (h'.queue hr)
  locksOf := fun ht => (h.locksOf ht).trans (h'.locksOf ht)

/-! ## Queries -/

theorem held? (h : AgreesOn σ t u) (ht : t.Sound) (hu : u.Sound) (hr : σ.resources r)
    (txn : TxnId) : t.held? txn r = u.held? txn r :=
  ht.held?_eq_of_locksOn hu (fun lock => by rw [h.locksOn hr]) txn

theorem held?_of (h : AgreesOn σ t u) (ht : t.Sound) (hu : u.Sound) (htxn : σ.ids txn)
    (r : Resource) : t.held? txn r = u.held? txn r :=
  Option.ext fun lock => by
    rw [ht.held?_eq_some_iff_of, hu.held?_eq_some_iff_of, h.locksOf htxn]

theorem mode (h : AgreesOn σ t u) (ht : t.Sound) (hu : u.Sound) (hr : σ.resources r)
    (txn : TxnId) : t.mode txn r = u.mode txn r := by
  rw [Table.mode, Table.mode, h.held? ht hu hr]

theorem mode_of (h : AgreesOn σ t u) (ht : t.Sound) (hu : u.Sound) (htxn : σ.ids txn)
    (r : Resource) : t.mode txn r = u.mode txn r := by
  rw [Table.mode, Table.mode, h.held?_of ht hu htxn]

theorem locksBelow (h : AgreesOn σ t u) (htxn : σ.ids txn) (r : Resource) :
    t.locksBelow txn r = u.locksBelow txn r := by
  rw [Table.locksBelow, Table.locksBelow, h.locksOf htxn]

theorem waiting (h : AgreesOn σ t u) (hr : σ.resources r) : t.waiting r = u.waiting r := by
  rw [Table.waiting, Table.waiting, h.queue hr]

theorem admits (h : AgreesOn σ t u) (hr : σ.resources r) (mode : Mode) (except : TxnId) :
    (t.entry r).admits mode except = (u.entry r).admits mode except := by
  rw [Bool.eq_iff_iff, admits_iff, admits_iff, h.locksOn hr]

theorem admits_lock (h : AgreesOn σ t u) (hr : σ.resources lock.resource) (ha : t.Admits lock) :
    u.Admits lock where
  real := ha.real
  agrees := fun held hm => ha.agrees held (h.locksOn hr ▸ hm)

/-! ## Plans -/

/-- **A call that stays within the scope comes to the same.** -/
theorem plan (h : AgreesOn σ t u) (ht : t.Sound) (hu : u.Sound) (txn : Txn) {call : Call}
    (hcall : ∀ r ∈ call.names, σ.resources r) : t.plan txn call = u.plan txn call := by
  have hr := hcall _ call.resource_mem_names
  refine plan_congr (fun r hm => h.held? ht hu (hcall r hm) txn.id)
    (fun mode => h.admits hr mode txn.id) ?_
  rw [h.queue hr]

/-! ## What is done to both -/

theorem put (h : AgreesOn σ t u) (ht : t.Sound) (hu : u.Sound) (hp : t.put lock = .ok (t', e))
    (hp' : u.put lock = .ok (u', e')) : AgreesOn σ t' u' where
  locksOn := fun hr => by rw [ht.locksOn_put hp, hu.locksOn_put hp', h.locksOn hr]
  queue := fun hr => by rw [queue_put hp, queue_put hp', h.queue hr]
  locksOf := fun htxn => by rw [ht.locksOf_put hp, hu.locksOf_put hp', h.locksOf htxn]

theorem take (h : AgreesOn σ t u) (ht : t.Sound) (hu : u.Sound) (hp : t.take lock = .ok t')
    (hp' : u.take lock = .ok u') : AgreesOn σ t' u' where
  locksOn := fun hr => by rw [ht.locksOn_take hp, hu.locksOn_take hp', h.locksOn hr]
  queue := fun hr => by rw [queue_take hp, queue_take hp', h.queue hr]
  locksOf := fun htxn => by rw [ht.locksOf_take hp, hu.locksOf_take hp', h.locksOf htxn]

theorem pop? (h : AgreesOn σ t u) (hp : t.pop? r = some (.ok (q, t')))
    (hp' : u.pop? r = some (.ok (q, u'))) : AgreesOn σ t' u' where
  locksOn := fun hs => by rw [locksOn_pop? hp, locksOn_pop? hp', h.locksOn hs]
  queue := fun {s} hs => by
    obtain ⟨hqueue, hother⟩ := queue_pop? hp
    obtain ⟨hqueue', hother'⟩ := queue_pop? hp'
    by_cases hr : r = s
    · subst hr
      have hcons := (hqueue.symm.trans (h.queue hs)).trans hqueue'
      exact (List.cons.injEq .. ▸ hcons).2
    · rw [hother s hr, hother' s hr, h.queue hs]
  locksOf := fun htxn => by rw [locksOf_pop? hp, locksOf_pop? hp', h.locksOf htxn]

/-- A request that is taken from one of them can be taken from the other. -/
theorem exists_pop? (h : AgreesOn σ t u) (hu : u.Sound) (hr : σ.resources r)
    (hp : t.pop? r = some (.ok (q, t'))) : ∃ u', u.pop? r = some (.ok (q, u')) := by
  obtain ⟨rest, hqueue, ha, -⟩ := pop?_eq_ok_iff.1 hp
  rw [h.queue hr] at hqueue
  rw [h.admits hr] at ha
  cases hpop : u.pop? r with
  | none => exact absurd ha (pop?_eq_none_iff.1 hpop q rest hqueue)
  | some popped =>
    rcases popped with f | ⟨q', u'⟩
    · exact absurd hpop hu.pop?_ne_error
    · rw [(queue_pop? hpop).1] at hqueue
      cases hqueue
      exact ⟨u', rfl⟩

theorem prune (h : AgreesOn σ t u) (r : Resource) : AgreesOn σ (t.prune r) (u.prune r) where
  locksOn := fun hs => by rw [locksOn_prune, locksOn_prune, h.locksOn hs]
  queue := fun hs => by rw [queue_prune, queue_prune, h.queue hs]
  locksOf := fun htxn => by rw [locksOf_prune, locksOf_prune, h.locksOf htxn]

theorem enqueue (h : AgreesOn σ t u) (q : Request) (place : Place) :
    AgreesOn σ (t.enqueue q place) (u.enqueue q place) where
  locksOn := fun hr => by rw [locksOn_enqueue, locksOn_enqueue, h.locksOn hr]
  queue := fun {r} hr => by
    rw [queue_enqueue, queue_enqueue]
    by_cases hq : q.lock.resource = r
    · have hqueue : (t.entry r).queue = (u.entry r).queue := h.queue hr
      cases place <;> simp [hq, hqueue]
    · rw [if_neg hq, if_neg hq, h.queue hr]
  locksOf := fun htxn => by rw [locksOf_enqueue, locksOf_enqueue, h.locksOf htxn]

end AgreesOn

/-! ## What is done elsewhere -/

theorem ne_of_outside {A : Type} {P : A → Prop} {a b : A} (ha : ¬ P a) (hb : P b) : a ≠ b :=
  fun h => ha (h ▸ hb)

theorem Sound.agrees_of_put (h : t.Sound) (hp : t.put lock = .ok (t', e))
    (hr : ¬ σ.resources lock.resource) (ho : ¬ σ.ids lock.owner) : AgreesOn σ t' t where
  locksOn := fun hs => by rw [h.locksOn_put hp, if_neg (ne_of_outside hr hs)]
  queue := fun _ => by rw [queue_put hp]
  locksOf := fun htxn => by rw [h.locksOf_put hp, if_neg (ne_of_outside ho htxn)]

theorem Sound.agrees_of_take (h : t.Sound) (ht : t.take lock = .ok t')
    (hr : ¬ σ.resources lock.resource) (ho : ¬ σ.ids lock.owner) : AgreesOn σ t' t where
  locksOn := fun hs => by rw [h.locksOn_take ht, if_neg (ne_of_outside hr hs)]
  queue := fun _ => by rw [queue_take ht]
  locksOf := fun htxn => by rw [h.locksOf_take ht, if_neg (ne_of_outside ho htxn)]

theorem agrees_of_pop? (hp : t.pop? r = some (.ok (q, t'))) (hr : ¬ σ.resources r) :
    AgreesOn σ t' t where
  locksOn := fun _ => by rw [locksOn_pop? hp]
  queue := fun hs => by rw [(queue_pop? hp).2 _ (ne_of_outside hr hs)]
  locksOf := fun _ => by rw [locksOf_pop? hp]

theorem agrees_of_prune (t : Table) (r : Resource) : AgreesOn σ (t.prune r) t where
  locksOn := fun _ => by rw [locksOn_prune]
  queue := fun _ => by rw [queue_prune]
  locksOf := fun _ => by rw [locksOf_prune]

theorem agrees_of_enqueue (t : Table) (place : Place) (hr : ¬ σ.resources q.lock.resource) :
    AgreesOn σ (t.enqueue q place) t where
  locksOn := fun _ => by rw [locksOn_enqueue]
  queue := fun hs => by rw [queue_enqueue, if_neg (ne_of_outside hr hs)]
  locksOf := fun _ => by rw [locksOf_enqueue]

end Table

end Locking
