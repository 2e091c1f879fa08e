import Locking.Proofs.Cascade.Kept
import Locking.Proofs.Gates

/-!
# Disciplined runs

In a disciplined run different transactions have different ids, a transaction that waits asks for no
further lock, and nobody but the managers turns a gate. Locks may be released at any time, also on
behalf of a transaction that waits.

* `System.Disciplined`: the runs.
* `System.Orderly`: what holds throughout them. Above all, the gate of a transaction is closed
  exactly while a request of it waits, and then only one does.
* `Orderly.act`: every allowed action keeps it; `Underway`: so it holds wherever such a run stands.
* `System.no_fault`: nothing breaks off in a disciplined run.
-/

namespace Locking

/-- The transaction that calls a manager. -/
def Action.caller? : Action → Option Txn
  | decide _ txn _ => some txn
  | _ => none

/-- The transactions that call managers in a run. -/
def callers (as : List Action) : List Txn := as.filterMap Action.caller?

/-- The transaction that asks for a lock, and may have to wait. -/
def Action.asker? : Action → Option Txn
  | decide _ txn call => if call.operation = .release then none else some txn
  | _ => none

theorem Action.caller?_of_asker? {a : Action} {txn : Txn} (h : a.asker? = some txn) :
    a.caller? = some txn := by
  cases a with
  | decide m other call =>
    simp only [asker?] at h
    split at h
    · cases h
    · exact h
  | _ => cases h

/-- Different transactions have different ids. -/
def DistinctIds (txns : List Txn) : Prop := ∀ a ∈ txns, ∀ b ∈ txns, a.id = b.id → a.key = b.key

instance (txns : List Txn) : Decidable (DistinctIds txns) :=
  inferInstanceAs (Decidable (∀ a ∈ txns, ∀ b ∈ txns, a.id = b.id → a.key = b.key))

namespace System

/-- A transaction that waits may have locks released, and nothing else; gates are left to the
managers. -/
def Allows (s : System) : Action → Prop
  | .decide _ txn call => call.operation = .release ∨ s.gates.isClosed txn = false
  | .arrive _ _ => True
  | .close _ | .reopen _ => False

instance (s : System) : (a : Action) → Decidable (s.Allows a)
  | .decide _ txn call =>
    inferInstanceAs (Decidable (call.operation = .release ∨ s.gates.isClosed txn = false))
  | .arrive _ _ => .isTrue trivial
  | .close _ | .reopen _ => .isFalse id

/-- Every action is allowed when its turn comes. -/
def AllowsAll (s : System) : List Action → Prop
  | [] => True
  | a :: as => s.Allows a ∧ AllowsAll (s.act a).system as

instance decidableAllowsAll (s : System) : (as : List Action) → Decidable (s.AllowsAll as)
  | [] => .isTrue trivial
  | a :: as =>
    have := decidableAllowsAll (s.act a).system as
    inferInstanceAs (Decidable (_ ∧ _))

/-- A disciplined run, of any number of managers that share the transactions. -/
structure Disciplined (settings : Settings) (as : List Action) : Prop where
  ids : DistinctIds (callers as)
  allowed : (start settings).AllowsAll as

variable {s : System} {m n : Nat} {r : Resource} {q : Request} {txn : Txn} {call : Call}
  {a : Action} {as : List Action} {d : Decision} {txns : List Txn} {settings : Settings}

theorem allowsAll_append {bs : List Action} :
    s.AllowsAll (as ++ bs) ↔ s.AllowsAll as ∧ (s.after as).AllowsAll bs := by
  induction as generalizing s with
  | nil => simp [AllowsAll]
  | cons a as ih => simp [AllowsAll, ih, and_assoc]

/-! ## Where requests come from -/

/-- A decision that does not break off queues nothing and wakes the transactions of what it grants,
or it queues one request of its caller and closes the gate, which was open. -/
theorem Decided.flow (h : s.Sound) (hd : Decided s m txn call d)
    (hf : d.verdict.fault? = none) :
    (joined d.events = [] ∧ ∀ key, turns key d.events =
      List.replicate (sumOf (Request.isFrom key) (woken d.events)) false) ∨
    ∃ q, joined d.events = [q] ∧ q.txn = txn ∧ call.operation ≠ .release ∧
      s.gates.isClosed txn = false ∧ woken d.events = [] ∧
      ∀ key, turns key d.events = if txn.key = key then [true] else [] := by
  cases hd with
  | refused hp => exact .inl ⟨rfl, fun _ => rfl⟩
  | @done tasks t es hp hr =>
    have hj := Cascade.joined_run (s.table m) tasks
    have hturns := turns_run (s.table m) tasks
    rw [hr] at hj hturns
    exact .inl ⟨hj, hturns⟩
  | broken hp hr => cases hf
  | @waits q place held t hp ht hg =>
    obtain ⟨htxn, -, hcall⟩ := (Table.planned_of_plan (h m) hp).request
    exact .inr ⟨q, rfl, htxn, hcall, hg, rfl, fun key => turns_closed key txn⟩
  | shut hp ht hg => cases hf

/-- Only who asks for a lock comes to wait. -/
theorem asker?_of_joined (h : s.Sound) (hf : (s.act a).verdict.fault? = none)
    (hq : q ∈ joined (s.act a).events) : a.asker? = some q.txn := by
  have hacted := acted h a
  generalize s.act a = d at hacted hf hq
  cases hacted with
  | decided hd =>
    rcases hd.flow h hf with ⟨hj, -⟩ | ⟨p, hj, htxn, hcall, -⟩
    · rw [hj] at hq
      cases hq
    · rw [hj] at hq
      cases List.mem_singleton.1 hq
      rw [Action.asker?, if_neg hcall, htxn]
  | arrived => cases hq
  | closed hg => cases hq
  | shut hg => cases hf
  | reopened => cases hq

/-- A request that waits has waited before, or has just been queued. -/
theorem waits_of_waits_act (h : s.Sound) (hf : (s.act a).verdict.fault? = none)
    (hq : (s.act a).system.Waits q) : s.Waits q ∨ q ∈ joined (s.act a).events := by
  have hc := (act_conserves h hf (Request.isThis q)).1
  rw [waits_iff] at hq ⊢
  by_cases hj : q ∈ joined (s.act a).events
  · exact .inr hj
  · rw [← Request.sumOf_isThis_ne_zero_iff, not_not] at hj
    exact .inl (by omega)

/-! ## Order -/

/-- What holds throughout a disciplined run of some transactions. -/
structure Orderly (txns : List Txn) (s : System) : Prop where
  sound : s.Sound
  known : ∀ {m : Nat} {r : Resource} {q : Request}, q ∈ (s.table m).queue r → q.txn ∈ txns
  /-- A gate is closed while a request of its transaction waits, and only one does. -/
  closed : ∀ txn : Txn, (s.gates.isClosed txn).toNat = s.waitingFor txn.key
  /-- A gate has been reopened for every request that does not wait any more. -/
  times : ∀ txn : Txn, (s.gates.gate txn).timesClosed =
    (s.gates.gate txn).timesReopened + s.waitingFor txn.key

theorem orderly_start (settings : Settings) (txns : List Txn) : Orderly txns (start settings) where
  sound := sound_start settings
  known := nofun
  closed := fun _ => rfl
  times := fun _ => rfl

namespace Orderly

/-- A transaction whose gate is open waits for nothing. -/
theorem requestsFrom_of_open (h : Orderly txns s) (hg : s.gates.isClosed txn = false) (m : Nat)
    (r : Resource) : (s.table m).requestsFrom txn.key r = [] := by
  refine waitingFor_eq_zero_iff.1 ?_ m r
  rw [← h.closed txn, hg]
  rfl

/-- No request of a transaction whose gate is open waits, nor one under its id. -/
theorem id_ne_of_open (h : Orderly txns s) (hids : DistinctIds txns) (htxn : txn ∈ txns)
    (hg : s.gates.isClosed txn = false) (hq : q ∈ (s.table m).queue r) : q.txn.id ≠ txn.id := by
  intro hid
  have hkey := hids _ (h.known hq) _ htxn hid
  have hnone := h.requestsFrom_of_open hg m r
  rw [Table.requestsFrom, List.filter_eq_nil_iff] at hnone
  exact hnone q hq (by simpa using hkey)

/-- **A decision that is allowed does not break off**, and releases all the locks that its agenda
was to release. -/
theorem decided (h : Orderly txns s) (hids : DistinctIds txns) (htxn : txn ∈ txns)
    (ha : call.operation = .release ∨ s.gates.isClosed txn = false)
    (hd : Decided s m txn call d) :
    d.verdict.fault? = none ∧ (∀ f, .fault f ∉ d.events) ∧
      ∀ tasks lock, (s.table m).plan txn call = .ok (.go tasks) → .release lock ∈ tasks →
        .released lock ∈ d.events := by
  have hkept : ∀ {tasks}, (s.table m).plan txn call = .ok (.go tasks) →
      Cascade.Kept (s.table m) tasks := fun hp =>
    (Table.planned_of_plan (h.sound m) hp).kept (h.sound m) fun hcall _ _ hq =>
      h.id_ne_of_open hids htxn (ha.resolve_left hcall) hq
  cases hd with
  | refused hp =>
    refine ⟨rfl, by simp, fun tasks lock hp' => ?_⟩
    rw [hp] at hp'
    cases hp'
  | done hp hr =>
    obtain ⟨hf, hreleased⟩ := (hkept hp).run
    have hfault := Cascade.not_fault_mem_run hf
    rw [hr] at hreleased hfault
    refine ⟨rfl, hfault, fun tasks lock hp' => ?_⟩
    rw [hp] at hp'
    cases hp'
    exact hreleased lock
  | broken hp hr =>
    have hf := (hkept hp).run.1
    rw [hr] at hf
    cases hf
  | waits hp ht hg =>
    refine ⟨rfl, by simp, fun tasks lock hp' => ?_⟩
    rw [hp] at hp'
    cases hp'
  | shut hp ht hg =>
    -- its transaction would be about to wait twice
    have hcall := (Table.planned_of_plan (h.sound m) hp).request.2.2
    rw [ha.resolve_left hcall] at hg
    cases hg

theorem fault?_act (h : Orderly txns s) (hids : DistinctIds txns) (ha : s.Allows a)
    (hc : ∀ txn, a.caller? = some txn → txn ∈ txns) :
    (s.act a).verdict.fault? = none ∧ ∀ f, .fault f ∉ (s.act a).events := by
  have hacted := acted h.sound a
  generalize s.act a = d at hacted ⊢
  cases hacted with
  | decided hd =>
    obtain ⟨hf, hfault, -⟩ := h.decided hids (hc _ rfl) ha hd
    exact ⟨hf, hfault⟩
  | @arrived op txn => cases hg : s.gates.isClosed txn <;> simp [Verdict.fault?]
  | closed hg => exact ha.elim
  | shut hg => exact ha.elim
  | reopened => exact ha.elim

/-- A decision that is allowed turns a gate at most once: it closes an open gate when a request of
its transaction comes to wait, and reopens a closed one when that request waits no longer. -/
theorem turned_decided (h : Orderly txns s) (hd : Decided s m txn call d)
    (hf : d.verdict.fault? = none) (other : Txn) :
    (turns other.key d.events = [] ∧ d.system.waitingFor other.key = s.waitingFor other.key) ∨
    (turns other.key d.events = [true] ∧ s.gates.isClosed other = false ∧
      d.system.waitingFor other.key = 1) ∨
    (turns other.key d.events = [false] ∧ s.gates.isClosed other ∧
      d.system.waitingFor other.key = 0) := by
  have hclosed := h.closed other
  have hone := Bool.toNat_le (s.gates.isClosed other)
  obtain ⟨hc, hw⟩ := hd.conserves h.sound hf (Request.isFrom other.key)
  change d.system.waitingFor other.key + _ = s.waitingFor other.key + _ at hc
  rcases hd.flow h.sound hf with ⟨hj, hturns⟩ | ⟨q, hj, htxn, -, hg, hwoken, hturns⟩
  · -- what is woken no longer waits, and no more than one request waited
    rw [hj, sumOf_nil, ← hw] at hc
    rcases Nat.eq_zero_or_pos (sumOf (Request.isFrom other.key) (woken d.events)) with
      h0 | hpos
    · exact .inl ⟨by rw [hturns, h0]; rfl, by omega⟩
    · have h1 : sumOf (Request.isFrom other.key) (woken d.events) = 1 := by omega
      refine .inr (.inr ⟨by rw [hturns, h1]; rfl, ?_, by omega⟩)
      exact Bool.toNat_eq_one.1 (by omega)
  · rw [← hw, hwoken, hj, sumOf_cons, sumOf_nil, Request.isFrom, htxn] at hc
    by_cases hk : txn.key = other.key
    · rw [if_pos hk] at hc
      have hopen : s.gates.isClosed other = false := by
        rwa [← s.gates.isClosed_eq_of_key hk]
      rw [hopen, Bool.toNat_false] at hclosed
      exact .inr (.inl ⟨by rw [hturns, if_pos hk], hopen, by omega⟩)
    · rw [if_neg hk] at hc
      exact .inl ⟨by rw [hturns, if_neg hk], by omega⟩

theorem turned (h : Orderly txns s) (ha : s.Allows a) (hf : (s.act a).verdict.fault? = none)
    (txn : Txn) :
    (turns txn.key (s.act a).events = [] ∧
      (s.act a).system.waitingFor txn.key = s.waitingFor txn.key) ∨
    (turns txn.key (s.act a).events = [true] ∧ s.gates.isClosed txn = false ∧
      (s.act a).system.waitingFor txn.key = 1) ∨
    (turns txn.key (s.act a).events = [false] ∧ s.gates.isClosed txn ∧
      (s.act a).system.waitingFor txn.key = 0) := by
  have hacted := acted h.sound a
  generalize s.act a = d at hacted hf ⊢
  cases hacted with
  | decided hd => exact h.turned_decided hd hf txn
  | arrived => exact .inl ⟨rfl, rfl⟩
  | closed hg => exact ha.elim
  | shut hg => exact ha.elim
  | reopened => exact ha.elim

/-- **Every allowed action keeps order.** -/
theorem act (h : Orderly txns s) (hids : DistinctIds txns) (ha : s.Allows a)
    (hc : ∀ txn, a.caller? = some txn → txn ∈ txns) : Orderly txns (s.act a).system := by
  have hf := (h.fault?_act hids ha hc).1
  constructor
  · exact sound_act h.sound a
  · intro m r q hq
    rcases waits_of_waits_act h.sound hf ⟨m, r, hq⟩ with ⟨n, u, hold⟩ | hj
    · exact h.known hold
    · exact hc _ (Action.caller?_of_asker? (asker?_of_joined h.sound hf hj))
  · intro txn
    have hclosed := h.closed txn
    rw [Gates.isClosed, gate_act h.sound]
    rcases h.turned ha hf txn with ⟨ht, hw⟩ | ⟨ht, -, hw⟩ | ⟨ht, -, hw⟩
    · rw [ht, hw]
      exact hclosed
    · rw [ht, hw]
      rfl
    · rw [ht, hw]
      rfl
  · intro txn
    have htimes := h.times txn
    have hclosed := h.closed txn
    rw [gate_act h.sound]
    rcases h.turned ha hf txn with ⟨ht, hw⟩ | ⟨ht, hg, hw⟩ | ⟨ht, hg, hw⟩
    · rw [ht, hw]
      exact htimes
    · rw [ht, hw]
      rw [hg, Bool.toNat_false] at hclosed
      change (s.gates.gate txn).timesClosed + 1 = (s.gates.gate txn).timesReopened + 1
      omega
    · rw [ht, hw]
      rw [hg, Bool.toNat_true] at hclosed
      change (s.gates.gate txn).timesClosed = (s.gates.gate txn).timesReopened + 1 + 0
      omega

end Orderly

/-- An orderly system, and actions that may follow. -/
structure Underway (txns : List Txn) (s : System) (as : List Action) : Prop
    extends Orderly txns s where
  ids : DistinctIds txns
  allowed : s.AllowsAll as
  callers : ∀ txn ∈ callers as, txn ∈ txns

theorem Disciplined.underway (h : Disciplined settings as) :
    Underway (Locking.callers as) (start settings) as where
  toOrderly := orderly_start settings _
  ids := h.ids
  allowed := h.allowed
  callers := fun _ hm => hm

namespace Underway

theorem caller_mem (h : Underway txns s (a :: as)) {txn : Txn} (ha : a.caller? = some txn) :
    txn ∈ txns :=
  h.callers txn (List.mem_filterMap.2 ⟨a, List.mem_cons_self, ha⟩)

/-- The next action does not break off. -/
theorem fault?_head (h : Underway txns s (a :: as)) :
    (s.act a).verdict.fault? = none ∧ ∀ f, .fault f ∉ (s.act a).events :=
  h.fault?_act h.ids h.allowed.1 fun _ ha => h.caller_mem ha

theorem tail (h : Underway txns s (a :: as)) : Underway txns (s.act a).system as where
  toOrderly := h.act h.ids h.allowed.1 fun _ ha => h.caller_mem ha
  ids := h.ids
  allowed := h.allowed.2
  callers := fun txn hm => by
    obtain ⟨b, hb, ht⟩ := List.mem_filterMap.1 hm
    exact h.callers txn (List.mem_filterMap.2 ⟨b, List.mem_cons_of_mem a hb, ht⟩)

theorem take {bs : List Action} (h : Underway txns s (as ++ bs)) : Underway txns s as where
  toOrderly := h.toOrderly
  ids := h.ids
  allowed := (allowsAll_append.1 h.allowed).1
  callers := fun txn hm => h.callers txn (by
    rw [Locking.callers, List.filterMap_append]
    exact List.mem_append_left _ hm)

theorem drop {bs : List Action} (h : Underway txns s (as ++ bs)) :
    Underway txns (s.after as) bs := by
  induction as generalizing s with
  | nil => exact h
  | cons a as ih => exact ih h.tail

theorem orderly_after (h : Underway txns s as) : Orderly txns (s.after as) := by
  rw [← as.append_nil] at h
  exact h.drop.toOrderly

theorem unbroken (h : Underway txns s as) : s.Unbroken as := by
  induction as generalizing s with
  | nil => trivial
  | cons a as ih => exact ⟨h.fault?_head.1, ih h.tail⟩

theorem not_fault_mem_trace (h : Underway txns s as) (f : Fault) : .fault f ∉ s.trace as := by
  induction as generalizing s with
  | nil => simp [trace]
  | cons a as ih => exact fun hm => (List.mem_append.1 hm).elim (h.fault?_head.2 f) (ih h.tail)

end Underway

/-- **Nothing breaks off in a disciplined run**, over any number of managers. In particular every
lock that a call has chosen to give up is released as it was chosen, whatever the cascades before
have done. -/
theorem no_fault (h : Disciplined settings as) :
    (start settings).Unbroken as ∧ (∀ f, .fault f ∉ (start settings).trace as) ∧
      ∀ before rest m txn call tasks lock, as = before ++ .decide m txn call :: rest →
        (((start settings).after before).table m).plan txn call = .ok (.go tasks) →
        .release lock ∈ tasks →
        .released lock ∈ (((start settings).after before).decide m txn call).events := by
  refine ⟨h.underway.unbroken, h.underway.not_fault_mem_trace, ?_⟩
  rintro before rest m txn call tasks lock rfl hp hm
  have hnow := h.underway.drop
  exact (hnow.decided hnow.ids (hnow.caller_mem rfl) hnow.allowed.1
    (System.decided hnow.sound m txn call)).2.2 tasks lock hp hm

/-- Transaction 2 waits for a lock of transaction 1, which exchanges its locks for another. -/
def handover : List Action :=
  [.decide 0 ⟨0, 1⟩ (.acquire (.root "a") .x), .decide 0 ⟨0, 1⟩ (.acquire (.root "b") .s),
    .decide 0 ⟨1, 2⟩ (.acquire (.root "a") .s), .arrive .acquire ⟨1, 2⟩,
    .decide 0 ⟨0, 1⟩ (.exchange (.root "c") .x [.root "a", .root "b"])]

theorem disciplined_handover : Disciplined {} handover := ⟨by decide +kernel, by decide +kernel⟩

theorem no_fault_handover :
    Disciplined {} handover ∧ (start {}).Unbroken handover ∧
      .released ⟨.root "b", .s, 1⟩ ∈ (((start {}).after (handover.take 4)).decide 0 ⟨0, 1⟩
        (.exchange (.root "c") .x [.root "a", .root "b"])).events := by
  obtain ⟨hu, -, hreleased⟩ := no_fault disciplined_handover
  refine ⟨disciplined_handover, hu, ?_⟩
  exact hreleased _ [] 0 ⟨0, 1⟩ _ [.grant ⟨.root "c", .x, 1⟩, .release ⟨.root "a", .x, 1⟩,
    .release ⟨.root "b", .s, 1⟩] _ rfl (by decide +kernel) (by simp)

end System

end Locking
