import Locking.Proofs.Queueing
import Locking.Proofs.Table.Holds

/-!
# What is given up, and what is kept

A hold ends only where somebody has named it: the call itself, as what it releases, or a request
that is granted in the call, as what it gives up. No lock is ever given up for the sake of what is
granted on its own resource, and a lock that is held stays the same hold when another mode takes its
place.

* `Call.gives`, `Request.gives`, `promised`: what is named by a call, by a request, and by the requests
  that have been taken from their queues.
* `Event.Fits`, `Ledger.Accounts`: what may be told of holds, and events that tell nothing else.
* `Accounts.mem_releasedKeys`: so all that is released has been named.
* `Accounted.step`, `Accounted.run`: a cascade tells nothing else.
* `System.Decided.accounts`: nor does a decision on a call, even one that breaks off.
* `Decision.Respects`: what this comes to for the holds of a manager.
-/

namespace Locking

/-! ## What is named -/

/-- The holds of its transaction that a call releases, or gives up for what it asks for. -/
def Call.gives (owner : TxnId) : Call → List (TxnId × Resource)
  | release r => [(owner, r)]
  | exchange r _ rs => (rs.filter (· ≠ r)).map fun s => (owner, s)
  | acquire _ _ | promote _ _ => []

/-- The holds of its transaction that a request gives up. -/
def Request.gives (q : Request) : List (TxnId × Resource) :=
  q.releases.map fun lock => (q.txn.id, lock.resource)

/-- What the requests give up that have been taken from their queues. -/
def promised (es : List Event) : List (TxnId × Resource) := (taken es).flatMap Request.gives

@[simp] theorem promised_nil : promised [] = [] := rfl

@[simp] theorem promised_append (es fs : List Event) :
    promised (es ++ fs) = promised es ++ promised fs := by
  simp [promised]

theorem mem_promised {key : TxnId × Resource} {es : List Event} :
    key ∈ promised es ↔ ∃ q ∈ taken es, key ∈ q.gives :=
  List.mem_flatMap

theorem Request.Apart.not_mem_gives {q : Request} (h : q.Apart) : q.lock.key ∉ q.gives := by
  intro hm
  obtain ⟨lock, hl, hk⟩ := List.mem_map.1 hm
  exact h lock hl (congrArg Prod.snd hk)

/-! ## What may be told of holds -/

/-- What an event may tell while certain holds last and certain ones are to be given up. A lock is
granted in a new slot only to who does not hold the resource, and another one takes the place of a
lock that is held. Only what is to be given up is released. -/
def Event.Fits (held named : List (TxnId × Resource)) : Event → Prop
  | granted lock => lock.key ∉ held
  | updated lock _ => lock.key ∈ held
  | released lock => lock.key ∈ held ∧ lock.key ∈ named
  | _ => True

namespace Ledger

variable {b : Ledger} {named : List (TxnId × Resource)} {es es' : List Event} {e : Event}
  {key : TxnId × Resource} {h : Hold}

/-- Who holds what. -/
def keys (b : Ledger) : List (TxnId × Resource) := b.holds.map Hold.key

/-- **A ledger accounts for events** if each of them fits what is held by then, and what has been
named by then: from outside, or by the requests that have been taken from their queues. -/
def Accounts (b : Ledger) (named : List (TxnId × Resource)) (es : List Event) : Prop :=
  ∀ before e after, es = before ++ e :: after →
    e.Fits (b.after before).keys (named ++ promised before)

/-- Events that are no matter of holds. -/
theorem accounts_of_fits (b : Ledger) (named : List (TxnId × Resource))
    (hf : ∀ e ∈ es, ∀ held named, e.Fits held named) : b.Accounts named es := by
  rintro before e after rfl
  exact hf e (by simp) _ _

theorem accounts_nil (b : Ledger) (named : List (TxnId × Resource)) : b.Accounts named [] :=
  accounts_of_fits b named nofun

theorem accounts_singleton (hf : e.Fits b.keys named) : b.Accounts named [e] := by
  intro before e' after hsplit
  cases before with
  | nil =>
    cases hsplit
    simpa using hf
  | cons first before => simp at hsplit

theorem Accounts.append (h : b.Accounts named es)
    (h' : (b.after es).Accounts (named ++ promised es) es') : b.Accounts named (es ++ es') := by
  intro before e after hsplit
  rcases List.append_eq_append_iff.1 hsplit with ⟨mid, rfl, hlater⟩ | ⟨mid, rfl, hlater⟩
  · rw [after_append, promised_append, ← List.append_assoc]
    exact h' mid e after hlater
  · cases mid with
    | nil =>
      rw [List.append_nil] at h'
      exact after_nil (b.after before) ▸ List.append_nil (named ++ promised before) ▸
        h' [] e after hlater.symm
    | cons first mid =>
      cases hlater
      exact h before e mid rfl

/-- **All that is released has been named.** -/
theorem Accounts.mem_releasedKeys (h : b.Accounts named es) (hk : key ∈ releasedKeys es) :
    key ∈ named ∨ ∃ q ∈ taken es, key ∈ q.gives := by
  obtain ⟨e, he, hlock⟩ := List.mem_filterMap.1 hk
  cases e with
  | released lock =>
    cases hlock
    obtain ⟨before, after, rfl⟩ := List.append_of_mem he
    rcases List.mem_append.1 (h before _ after rfl).2 with hm | hm
    · exact .inl hm
    · obtain ⟨q, hq, hgives⟩ := mem_promised.1 hm
      exact .inr ⟨q, by simp [hq], hgives⟩
  | _ => cases hlock

/-- A hold that nobody names is kept, with its slot. -/
theorem Accounts.mem_holds (ha : b.Accounts named es) (hh : h ∈ b.holds) (hn : h.key ∉ named)
    (hq : ∀ q ∈ taken es, h.key ∉ q.gives) : h ∈ (b.after es).holds := by
  obtain ⟨-, fresh, hholds, -⟩ := b.holds_after es
  rw [hholds]
  refine List.mem_append_left _ (List.mem_filter.2 ⟨hh, decide_eq_true fun hk => ?_⟩)
  rcases ha.mem_releasedKeys hk with hm | ⟨q, hmq, hm⟩
  · exact hn hm
  · exact hq q hmq hm

end Ledger

namespace Table

variable {t : Table} {b : Ledger} {txn : TxnId} {r : Resource} {h : Hold}

/-- The ledger tells who holds what. -/
theorem Booked.mem_keys_iff (hb : Booked t b) (hs : t.Sound) :
    (txn, r) ∈ b.keys ↔ t.held? txn r ≠ none := by
  rw [Ledger.keys, List.mem_map]
  constructor
  · rintro ⟨x, hx, hk⟩
    cases hk
    exact hb.held?_of_mem hs hx
  · intro hne
    obtain ⟨lock, hh⟩ := Option.ne_none_iff_exists'.1 hne
    obtain ⟨ho, slot, hslot⟩ := hs.held?_eq_some_iff.1 hh
    obtain ⟨-, hr, -⟩ := hs.of_held? hh
    have hon : (⟨slot, txn, r⟩ : Hold) ∈ t.holdsOn r :=
      mem_holds_iff.2 ⟨lock, hslot, by rw [Lock.key, ho, hr]; rfl⟩
    rw [hb.on] at hon
    exact ⟨_, (List.mem_filter.1 hon).1, rfl⟩

/-- What the ledger lists is listed by the table. -/
theorem Booked.mem_tables (hb : Booked t b) (hh : h ∈ b.holds) :
    h ∈ t.holdsOn h.resource ∧ h ∈ t.holdsOf h.owner := by
  rw [hb.on, hb.of]
  exact ⟨List.mem_filter.2 ⟨hh, by simp⟩, List.mem_filter.2 ⟨hh, by simp⟩⟩

end Table

/-! ## Cascades -/

namespace Cascade

variable {t t' : Table} {task : Task} {tasks rest new : List Task} {b : Ledger}
  {named : List (TxnId × Resource)} {es es' : List Event}

/-- What a task gives up. -/
def Task.gives : Task → List (TxnId × Resource)
  | release lock => [lock.key]
  | giveUp owner lock => [(owner, lock.resource)]
  | grant _ | wake _ | drain _ | prune _ => []

/-- **A task leaves to others only what it was to give up itself**, or what the request gives up that
it has taken from a queue. -/
theorem Effect.gives_subset (hs : t.Sound) (he : Effect t task t' es new) :
    ∀ next ∈ new, next.gives ⊆ task.gives ++ promised es := by
  cases he with
  | release ht => simp [Task.gives]
  | @giveUp owner lock held hh =>
    obtain ⟨ho, hr, -⟩ := hs.of_held? hh
    simp [Task.gives, Lock.key, ho, hr]
  | @serve r q t' hp =>
    intro next hm
    rcases mem_serve_iff.1 hm with rfl | ⟨lock, hl, rfl⟩ | rfl | rfl
    · simp [Task.gives]
    · have hgives : (q.txn.id, lock.resource) ∈ q.gives := List.mem_map_of_mem hl
      simpa [Task.gives, promised, taken, Event.taken?] using hgives
    · simp [Task.gives]
    · simp [Task.gives]
  | _ => simp

/-- **What a task does fits what is held and what has been named.** -/
theorem Effect.accounts (hs : t.Sound) (hb : t.Booked b) (he : Effect t task t' es new)
    (hn : task.gives ⊆ named) : b.Accounts named es := by
  cases he with
  | @grant lock t' e hp =>
    refine Ledger.accounts_singleton ?_
    have hkeys : lock.key ∈ b.keys ↔ t.held? lock.owner lock.resource ≠ none := hb.mem_keys_iff hs
    cases hh : t.held? lock.owner lock.resource with
    | none =>
      cases hp.symm.trans (hs.put_of_not_held hh)
      exact fun hm => hkeys.1 hm hh
    | some held =>
      obtain ⟨slot, -, hp'⟩ := hs.put_of_held? hh
      cases hp.symm.trans hp'
      exact hkeys.2 (by rw [hh]; nofun)
  | @release lock t' ht =>
    have hheld := (hs.of_take ht).1
    refine Ledger.accounts_singleton ⟨(hb.mem_keys_iff hs).2 ?_, hn List.mem_cons_self⟩
    rw [hheld]
    nofun
  | giveUp | drained | prune => exact b.accounts_nil named
  | gone | wake | serve => exact Ledger.accounts_singleton trivial

/-- What a task does is written down. -/
theorem Effect.booked (hs : t.Sound) (hb : t.Booked b) (he : Effect t task t' es new) :
    t'.Booked (b.after es) := by
  cases he with
  | grant hp => exact hb.put hs hp
  | release ht => exact hb.take hs ht
  | serve hp => exact hb.pop? hp
  | prune r => exact hb.prune r
  | gone | giveUp | wake | drained => exact hb

/-- What has happened is written down and accounted for, and all that is left to be given up has been
named. -/
structure Accounted (b : Ledger) (named : List (TxnId × Resource)) (t : Table) (tasks : List Task)
    (es : List Event) : Prop extends Poised t tasks where
  booked : t.Booked (b.after es)
  accounts : b.Accounts named es
  left : ∀ task ∈ tasks, task.gives ⊆ named ++ promised es

theorem Accounted.step (h : Accounted b named t (task :: rest) es)
    (he : Effect t task t' es' new) : Accounted b named t' (new ++ rest) (es ++ es') where
  toPoised := h.toPoised.step he
  booked := by
    rw [Ledger.after_append]
    exact he.booked h.sound h.booked
  accounts := h.accounts.append (he.accounts h.sound h.booked (h.left task List.mem_cons_self))
  left := fun next hm => by
    have hbefore : named ++ promised es ⊆ named ++ promised es ++ promised es' :=
      List.subset_append_left _ _
    rw [promised_append, ← List.append_assoc]
    rcases List.mem_append.1 hm with hm | hm
    · refine List.Subset.trans (he.gives_subset h.sound next hm) (List.append_subset.2 ⟨?_, ?_⟩)
      · exact List.Subset.trans (h.left task List.mem_cons_self) hbefore
      · exact List.subset_append_right _ _
    · exact List.Subset.trans (h.left next (List.mem_cons_of_mem task hm)) hbefore

/-- **What a cascade does is written down and accounted for**, wherever it ends. -/
theorem Poised.accounts (h : Poised t tasks) (hb : t.Booked b)
    (hn : ∀ task ∈ tasks, task.gives ⊆ named) :
    (Cascade.run t tasks).table.Booked (b.after (Cascade.run t tasks).events) ∧
      b.Accounts named (Cascade.run t tasks).events := by
  have hstart : Accounted b named t tasks [] :=
    ⟨h, hb, b.accounts_nil named, fun task hm => by simpa using hn task hm⟩
  rcases run_invariant [] Accounted.step hstart with
    ⟨-, hend⟩ | ⟨f, task, rest, es, -, he, hend, -⟩
  · exact ⟨hend.booked, hend.accounts⟩
  · -- the fault is no matter of holds
    rw [he, Ledger.after_append]
    exact ⟨hend.booked, hend.accounts.append (Ledger.accounts_singleton trivial)⟩

end Cascade

/-! ## Calls -/

namespace Table

variable {t : Table} {txn : Txn} {call : Call} {tasks : List Cascade.Task}

/-- The agenda of a call gives up what the call names. -/
theorem gives_subset_of_plan (h : t.Sound) (hp : t.plan txn call = .ok (.go tasks)) :
    ∀ task ∈ tasks, task.gives ⊆ call.gives txn.id := by
  by_cases hcall : call.operation = .release
  · obtain ⟨r, lock, rfl, hh, rfl⟩ := (planned_of_plan h hp).of_release hcall
    obtain ⟨ho, hr, -⟩ := h.of_held? hh
    simp [Cascade.Task.gives, Call.gives, Lock.key, ho, hr]
  · cases asked_of_plan hcall hp with
    | now ha hq hd =>
      intro task hm
      rcases List.mem_append.1 hm with hm | hm
      · rcases List.mem_cons.1 hm with rfl | hm
        · exact List.nil_subset _
        obtain ⟨lock, hl, rfl⟩ := List.mem_map.1 hm
        cases call with
        | exchange r mode rs =>
          obtain ⟨hrs, hr, hh⟩ := (mem_offers_iff h mode).1 hl
          obtain ⟨ho, -, -⟩ := h.of_held? hh
          simp [Cascade.Task.gives, Call.gives, Lock.key, ho, hrs, hr]
        | _ => cases hl
      · rcases hd with rfl | rfl
        · cases hm
        · rw [List.mem_singleton.1 hm]
          exact List.nil_subset _

end Table

namespace System

open Table

variable {s : System} {m : Nat} {txn : Txn} {call : Call} {d : Decision} {b : Ledger}

/-- **What a decision does is written down and accounted for**, also where it breaks off. -/
theorem Decided.accounts (h : s.Sound) (hd : Decided s m txn call d) (hb : Booked (s.table m) b) :
    Booked (d.system.table m) (b.after d.events) ∧ b.Accounts (call.gives txn.id) d.events := by
  rcases hd.leads with ⟨he, ht⟩ | ⟨tasks, hp, he, ht⟩ | ⟨q, place, held, e, -, hor, he, ht⟩
  · rw [he, ht]
    exact ⟨hb, b.accounts_nil _⟩
  · rw [he, ht]
    exact ((planned_of_plan (h m) hp).poised (h m)).accounts hb (gives_subset_of_plan (h m) hp)
  · -- neither the queue nor the gate is a matter of holds
    rw [he, ht]
    rcases hor with rfl | rfl
    · exact ⟨hb.enqueue q place, b.accounts_of_fits _ (by simp [Event.Fits])⟩
    · exact ⟨hb.enqueue q place, b.accounts_of_fits _ (by simp [Event.Fits])⟩

/-- What is taken from a queue has waited there. -/
theorem Decided.mem_queue_of_taken (h : s.Sound) (hd : Decided s m txn call d) {q : Request}
    (hq : q ∈ taken d.events) : q ∈ (s.table m).queue q.lock.resource := by
  rcases hd.leads with ⟨he, -⟩ | ⟨tasks, hp, he, -⟩ | ⟨p, place, held, e, -, hor, he, -⟩
  · rw [he] at hq
    cases hq
  · have hqueue := ((planned_of_plan (h m) hp).poised (h m)).queue_run q.lock.resource
    rw [he] at hq
    rw [hqueue]
    exact List.mem_append_left _ (List.mem_filter.2 ⟨hq, by simp⟩)
  · rw [he] at hq
    rcases hor with rfl | rfl <;> cases hq

/-- What a call asks for is granted first, if it is carried out at once. -/
theorem Decided.grants_first (h : s.Sound) (hd : Decided s m txn call d) (hv : d.verdict = .done)
    (hcall : call.operation ≠ .release) :
    ∃ e later, d.events = e :: later ∧ e.Grants ⟨call.resource, call.mode, txn.id⟩ := by
  cases hd with
  | @done tasks t es hp hr =>
    have hpoised := (planned_of_plan (h m) hp).poised (h m)
    cases asked_of_plan hcall hp with
    | now ha hq hdrains =>
      obtain ⟨t', e, hput, -⟩ := (h m).put (hpoised.head rfl)
      rw [List.cons_append, Cascade.run_grant hput] at hr
      exact ⟨e, _, (congrArg Cascade.Outcome.events hr).symm, event_of_put hput⟩
  | _ => cases hv

end System

/-- **A decision respects the holds of a ledger.** All that it does to them is accounted for, by what
the call and the requests name that are granted in it. What is asked for, by the call or by a request
that has waited, is granted directly, and nothing on the same resource is given up for it. So all
holds stay, under their slots, that nobody has named. -/
structure Decision.Respects (d : Decision) (m : Nat) (b : Ledger) (owner : TxnId) (call : Call) :
    Prop where
  accounts : b.Accounts (call.gives owner) d.events
  asked : d.verdict = .done → call.operation ≠ .release →
    ∃ e later, d.events = e :: later ∧ e.Grants ⟨call.resource, call.mode, owner⟩
  served : d.verdict.fault? = none → Served d.events
  apart : (call.operation ≠ .release → (owner, call.resource) ∉ call.gives owner) ∧
    ∀ q ∈ taken d.events, q.lock.key ∉ q.gives
  kept : ∀ h ∈ b.holds, h.key ∉ call.gives owner → (∀ q ∈ taken d.events, h.key ∉ q.gives) →
    h ∈ (d.system.table m).holdsOn h.resource ∧ h ∈ (d.system.table m).holdsOf h.owner

namespace System

open Table

variable {s : System} {m : Nat} {txn : Txn} {call : Call} {d : Decision} {b : Ledger}

theorem Decided.respects (h : s.Sound) (hd : Decided s m txn call d) (hb : Booked (s.table m) b)
    (hapart : ∀ r, ∀ q ∈ (s.table m).queue r, q.Apart) : d.Respects m b txn.id call where
  accounts := (hd.accounts h hb).2
  asked := hd.grants_first h
  served := fun hf => by
    rcases hd.queues h hf with ⟨-, hqueued⟩ | ⟨-, hadvanced⟩
    · obtain ⟨held, he⟩ := hqueued.events
      rw [he]
      exact served_of_taken_eq_nil rfl
    · exact hadvanced.served
  apart := ⟨fun hcall => by cases call <;> simp_all [Call.gives, Call.operation, Call.resource],
    fun q hq => (hapart _ q (hd.mem_queue_of_taken h hq)).not_mem_gives⟩
  kept := fun x hx hn hq => by
    obtain ⟨hbooked, haccounts⟩ := hd.accounts h hb
    exact hbooked.mem_tables (haccounts.mem_holds hx hn hq)

end System

end Locking
