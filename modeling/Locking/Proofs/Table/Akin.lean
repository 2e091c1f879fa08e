import Mathlib.Data.Multiset.Basic
import Locking.Proofs.Table.Agreement

/-!
# Tables that no query tells apart

In which order a request gives up locks once it is granted is told by no query. Two tables may
differ in that, and in the slots of locks, and still all calls come to the same in them.

* `Request.terms`: what a request asks for and gives up, whatever the order.
* `Table.Akin`: two tables list the same locks, and requests on the same terms wait in them.
* `Akin.answersAlike`, `Akin.plan`: so all queries are answered alike, and calls come to the same.
* `Akin.put`, `Akin.take`, `Akin.enqueue`: what is done to both of them alike leaves them akin.
-/

namespace Locking

/-- What a request asks for, and what it gives up. In which order it gives up locks is left out. -/
structure Terms where
  txn : Txn
  lock : Lock
  releases : Multiset Lock
  deriving DecidableEq

/-- The terms of a request. -/
def Request.terms (q : Request) : Terms := ⟨q.txn, q.lock, q.releases⟩

theorem Request.terms_eq_iff {q p : Request} :
    q.terms = p.terms ↔ q.txn = p.txn ∧ q.lock = p.lock ∧ q.releases.Perm p.releases := by
  simp [terms]

namespace Table

/-- **No query tells two tables apart.** The slots of locks may be others, and so may the order in
which requests give up locks. -/
structure Akin (t u : Table) : Prop where
  locksOn : ∀ r, t.locksOn r = u.locksOn r
  locksOf : ∀ txn, t.locksOf txn = u.locksOf txn
  terms : ∀ r, (t.queue r).map Request.terms = (u.queue r).map Request.terms

/-- All queries on two tables are answered alike, with lists in the same order. -/
structure AnswersAlike (t u : Table) : Prop extends Akin t u where
  locksBelow : ∀ txn r, t.locksBelow txn r = u.locksBelow txn r
  mode : ∀ txn r, t.mode txn r = u.mode txn r
  waiting : ∀ r, t.waiting r = u.waiting r

namespace Akin

variable {t t' u u' : Table} {lock : Lock} {e e' : Event} {q p : Request}

theorem refl (t : Table) : t.Akin t := ⟨fun _ => rfl, fun _ => rfl, fun _ => rfl⟩

theorem symm (h : t.Akin u) : u.Akin t :=
  ⟨fun r => (h.locksOn r).symm, fun txn => (h.locksOf txn).symm, fun r => (h.terms r).symm⟩

/-! ## Queries -/

theorem held? (h : t.Akin u) (ht : t.Sound) (hu : u.Sound) (txn : TxnId) (r : Resource) :
    t.held? txn r = u.held? txn r :=
  ht.held?_eq_of_locksOn hu (fun lock => by rw [h.locksOn]) txn

theorem mode (h : t.Akin u) (ht : t.Sound) (hu : u.Sound) (txn : TxnId) (r : Resource) :
    t.mode txn r = u.mode txn r := by
  rw [Table.mode, Table.mode, h.held? ht hu]

theorem locksBelow (h : t.Akin u) (txn : TxnId) (r : Resource) :
    t.locksBelow txn r = u.locksBelow txn r := by
  rw [Table.locksBelow, Table.locksBelow, h.locksOf]

theorem length_queue (h : t.Akin u) (r : Resource) : (t.queue r).length = (u.queue r).length := by
  simpa using congrArg List.length (h.terms r)

theorem waiting (h : t.Akin u) (r : Resource) : t.waiting r = u.waiting r := by
  have hlocks := congrArg (List.map Terms.lock) (h.terms r)
  rwa [List.map_map, List.map_map] at hlocks

theorem admits (h : t.Akin u) (r : Resource) (mode : Mode) (except : TxnId) :
    (t.entry r).admits mode except = (u.entry r).admits mode except := by
  rw [Bool.eq_iff_iff, admits_iff, admits_iff, h.locksOn]

theorem answersAlike (h : t.Akin u) (ht : t.Sound) (hu : u.Sound) : t.AnswersAlike u where
  toAkin := h
  locksBelow := h.locksBelow
  mode := h.mode ht hu
  waiting := h.waiting

/-- **Every call comes to the same.** -/
theorem plan (h : t.Akin u) (ht : t.Sound) (hu : u.Sound) (txn : Txn) (call : Call) :
    t.plan txn call = u.plan txn call := by
  refine plan_congr (fun r _ => h.held? ht hu txn.id r) (fun mode => h.admits _ mode txn.id) ?_
  have hlen := h.length_queue call.resource
  rw [Bool.eq_iff_iff, List.isEmpty_iff_length_eq_zero, List.isEmpty_iff_length_eq_zero, hlen]

/-! ## What is done to both -/

theorem put (h : t.Akin u) (ht : t.Sound) (hu : u.Sound) (hp : t.put lock = .ok (t', e))
    (hp' : u.put lock = .ok (u', e')) : t'.Akin u' where
  locksOn := fun r => by rw [ht.locksOn_put hp, hu.locksOn_put hp', h.locksOn]
  locksOf := fun txn => by rw [ht.locksOf_put hp, hu.locksOf_put hp', h.locksOf]
  terms := fun r => by rw [queue_put hp, queue_put hp', h.terms]

theorem take (h : t.Akin u) (ht : t.Sound) (hu : u.Sound) (hp : t.take lock = .ok t')
    (hp' : u.take lock = .ok u') : t'.Akin u' where
  locksOn := fun r => by rw [ht.locksOn_take hp, hu.locksOn_take hp', h.locksOn]
  locksOf := fun txn => by rw [ht.locksOf_take hp, hu.locksOf_take hp', h.locksOf]
  terms := fun r => by rw [queue_take hp, queue_take hp', h.terms]

theorem enqueue (h : t.Akin u) (hq : q.terms = p.terms) (place : Place) :
    (t.enqueue q place).Akin (u.enqueue p place) where
  locksOn := fun r => by rw [locksOn_enqueue, locksOn_enqueue, h.locksOn]
  locksOf := fun txn => by rw [locksOf_enqueue, locksOf_enqueue, h.locksOf]
  terms := fun r => by
    have hlock : q.lock = p.lock := congrArg Terms.lock hq
    have hqueue : (t.entry r).queue.map Request.terms = (u.entry r).queue.map Request.terms :=
      h.terms r
    rw [queue_enqueue, queue_enqueue, hlock]
    split
    · cases place <;> simp [hq, hqueue]
    · exact h.terms r

end Akin

end Table

end Locking
