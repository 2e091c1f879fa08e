import Locking.Proofs.Plan

/-!
# What a call asks for

A call other than a release asks for a lock, and the request for it is the same whether it is
granted at once or has to wait.

* `Call.mode`, `Operation.place`: what is asked for, and where the request would come in the queue.
* `Table.request`: the request of a call, with the locks that are given up for it.
* `Table.Asked`, `asked_of_plan`: the request is granted at once, or it waits.
* `Request.Apart`, `apart_request`: no request gives up what it asks for.
-/

namespace Locking

/-- The mode that a call asks for. A release asks for none. -/
def Call.mode : Call → Mode
  | acquire _ mode | promote _ mode | exchange _ mode _ => mode
  | release _ => .nl

/-- The end of the queue where the request of a call comes to wait. -/
def Operation.place : Operation → Place
  | acquire => .back
  | _ => .front

theorem Operation.place_eq_back_iff {op : Operation} : op.place = .back ↔ op = .acquire := by
  cases op <;> simp [place]

/-- The request does not give up what it asks for. -/
def Request.Apart (q : Request) : Prop := ∀ lock ∈ q.releases, lock.resource ≠ q.lock.resource

namespace Table

variable {t : Table} {txn : Txn} {lock : Lock} {owner : TxnId} {kept : Resource}
  {rs : List Resource} {locks : List Lock} {call : Call} {plan : Plan}

/-- The locks that a transaction gives up for what a call asks for, as it holds them now. -/
def offers (t : Table) (owner : TxnId) : Call → List Lock
  | .exchange r _ rs => (rs.eraseDups.filter (· ≠ r)).filterMap (t.held? owner)
  | _ => []

/-- The request of a call. -/
def request (t : Table) (txn : Txn) (call : Call) : Request :=
  ⟨txn, ⟨call.resource, call.mode, txn.id⟩, t.offers txn.id call⟩

/-- What is given up is what the transaction holds of what it names. -/
theorem mem_offers_iff (h : t.Sound) {r : Resource} (mode : Mode) :
    lock ∈ t.offers owner (.exchange r mode rs) ↔
      lock.resource ∈ rs ∧ lock.resource ≠ r ∧ t.held? owner lock.resource = some lock := by
  rw [offers, List.mem_filterMap]
  constructor
  · rintro ⟨s, hs, hh⟩
    obtain ⟨-, rfl, -⟩ := h.of_held? hh
    simpa [hh] using hs
  · rintro ⟨hrs, hr, hh⟩
    exact ⟨lock.resource, by simp [hrs, hr], hh⟩

theorem apart_request (h : t.Sound) (txn : Txn) (call : Call) : (t.request txn call).Apart := by
  intro lock hm
  cases call with
  | exchange r mode rs => exact ((mem_offers_iff h mode).1 hm).2.1
  | _ => cases hm

theorem held?_of_mem_offers (h : t.Sound) (hm : lock ∈ t.offers owner call) :
    t.held? owner lock.resource = some lock := by
  cases call with
  | exchange r mode rs => exact ((mem_offers_iff h mode).1 hm).2.2
  | _ => cases hm

theorem collect_eq (hc : t.collect owner kept rs = .ok locks) :
    locks = (rs.filter (· ≠ kept)).filterMap (t.held? owner) := by
  induction rs generalizing locks with
  | nil =>
    cases hc
    rfl
  | cons r rs ih =>
    obtain ⟨held, found, hh, hl, rfl⟩ := collect_cons hc
    rw [ih hl, List.filter_cons]
    by_cases hr : r = kept
    · simp [hr]
    · simp [hr, hh]

/-- What a call for a lock comes to. -/
inductive Asked (t : Table) (txn : Txn) (call : Call) : Plan → Prop where
  /-- The lock is granted, others are given up, and the queue may be looked at again. Nobody is
  overtaken by an acquisition. -/
  | now {drains : List Cascade.Task} (ha : (t.entry call.resource).admits call.mode txn.id)
    (hq : call.operation = .acquire → t.queue call.resource = [])
    (hd : drains = [] ∨ drains = [.drain call.resource]) :
    Asked t txn call (.go (.grant (t.request txn call).lock ::
      (t.request txn call).releases.map .release ++ drains))
  | later {held : Mode} :
    Asked t txn call (.wait (t.request txn call) call.operation.place held)

/-- **A call for a lock that is not refused** has its request granted at once, or queued. -/
theorem asked_of_plan (hcall : call.operation ≠ .release) (hp : t.plan txn call = .ok plan) :
    Asked t txn call plan := by
  cases call with
  | acquire r mode =>
    simp only [Table.plan, planAcquire] at hp
    split at hp
    · cases hp
    split at hp
    · cases hp
    split at hp
    · rename_i hq
      cases hp
      rw [Bool.and_eq_true, List.isEmpty_iff] at hq
      exact .now hq.2 (fun _ => hq.1) (.inl rfl)
    · cases hp
      exact .later
  | release r => exact absurd rfl hcall
  | promote r mode =>
    simp only [Table.plan, planPromote] at hp
    split at hp
    · cases hp
    split at hp
    · cases hp
    split at hp
    · cases hp
    split at hp
    · rename_i ha
      cases hp
      exact .now ha nofun (.inl rfl)
    · cases hp
      exact .later
  | exchange r mode rs =>
    simp only [Table.plan, planExchange] at hp
    split at hp
    · cases hp
    split at hp
    · cases hp
    split at hp
    · cases hp
    rename_i locks hl
    obtain rfl := collect_eq hl
    split at hp
    · rename_i ha
      cases hp
      refine .now ha nofun ?_
      split
      · exact .inl rfl
      · exact .inr rfl
    · cases hp
      exact .later

end Table

end Locking
