import Locking.Proofs.Conservation

/-!
# What the counts tell

The counts are kept on the way, wherever something happens. They tell how often it has happened, and
how many locks and requests there are now.

* `System.verdicts`, `System.refusals`, `System.due`: what the actions of a run come to, which
  refusals there were, and who was told to wait and has to arrive.
* `System.prompt`: a run in which whoever is told to wait arrives directly.
* `System.Counted`: what has been counted on the way from one system to another;
  `System.counted_after`: what is counted in a run.
* `System.counts_conserved`: all counts, in every run in which nothing breaks off.
-/

namespace Locking

open Std Map

/-! ## How often -/

/-- What is counted for each value makes up the length of the list. -/
theorem finsum_count {A : Type} [DecidableEq A] (as : List A) : ∑ᶠ a, as.count a = as.length := by
  rw [finsum_eq_sum_of_support_subset (s := as.toFinset)]
  · exact List.sum_toFinset_count_eq_length as
  · intro a ha
    simpa [List.count_eq_zero] using ha

/-! ## Tables -/

namespace Table

theorem weigh_granted (t : Table) (r : Resource) :
    weigh (fun e => e.granted.size) t.entries[r]? = (t.locksOn r).length := by
  rw [locksOn, Entry.length_locks, entry, ExtTreeMap.getD_eq_getD_getElem?]
  cases t.entries[r]? <;> rfl

theorem weigh_slots (t : Table) (txn : TxnId) :
    weigh (fun slots => slots.size) t.index[txn]? = (t.locksOf txn).length := by
  rw [locksOf, List.length_map, ExtTreeMap.length_toList, slots, ExtTreeMap.getD_eq_getD_getElem?]
  cases t.index[txn]? <;> rfl

theorem weigh_queue (t : Table) (r : Resource) :
    weigh (fun e => e.queue.length) t.entries[r]? = (t.queue r).length := by
  rw [← sumOf_one, ← weigh_entries]
  simp only [sumOf_one]

/-- All locks granted on resources. -/
theorem grantedTotal_eq (t : Table) : t.grantedTotal = ∑ᶠ r, (t.locksOn r).length :=
  (total_eq_finsum _ t.entries).trans (finsum_congr t.weigh_granted)

/-- All locks of transactions. -/
theorem indexedTotal_eq (t : Table) : t.indexedTotal = ∑ᶠ txn, (t.locksOf txn).length :=
  (total_eq_finsum _ t.index).trans (finsum_congr t.weigh_slots)

/-- All requests that wait. -/
theorem waitingTotal_eq (t : Table) : t.waitingTotal = ∑ᶠ r, (t.queue r).length :=
  (total_eq_finsum _ t.entries).trans (finsum_congr t.weigh_queue)

/-- Only finitely many resources are locked or waited for, and only finitely many transactions hold
locks. -/
theorem finite_books (t : Table) :
    {r | t.locksOn r ≠ []}.Finite ∧ {txn | t.locksOf txn ≠ []}.Finite ∧
      {r | t.queue r ≠ []}.Finite :=
  ⟨finite_of_weigh t.weigh_granted, finite_of_weigh t.weigh_slots, finite_of_weigh t.weigh_queue⟩

end Table

/-! ## Runs -/

/-- The refusal of a call. -/
def Verdict.refusal? : Verdict → Option Refusal
  | refused r => some r
  | _ => none

namespace Action

/-- The operation that an action calls. -/
def called? : Action → Option Operation
  | decide _ _ call => some call.operation
  | _ => none

/-- The operation for which a transaction arrives at its gate. -/
def arrived? : Action → Option Operation
  | arrive op _ => some op
  | _ => none

/-- The arrival that is due where a call comes to this. -/
def due? : Action → Verdict → Option Action
  | decide _ txn call, .waits => some (.arrive call.operation txn)
  | _, _ => none

theorem exists_of_due? {a b : Action} {v : Verdict} (h : a.due? v = some b) :
    ∃ op txn, b = .arrive op txn := by
  cases a with
  | decide m txn call =>
    cases v with
    | waits => exact ⟨call.operation, txn, (Option.some.inj h).symm⟩
    | _ => cases h
  | _ => cases h

end Action

/-- The operations called in a run. -/
def calls (as : List Action) : List Operation := as.filterMap Action.called?

/-- The arrivals in a run. -/
def arrivals (as : List Action) : List Action := as.filter (·.arrived?.isSome)

/-- The operations of some arrivals. -/
def arrivedFor (as : List Action) : List Operation := as.filterMap Action.arrived?

theorem arrivedFor_arrivals (as : List Action) : arrivedFor (arrivals as) = arrivedFor as := by
  rw [arrivedFor, arrivals, List.filterMap_filter]
  refine List.filterMap_congr fun a _ => ?_
  cases h : a.arrived? <;> simp

theorem length_arrivedFor (as : List Action) : (arrivedFor as).length = (arrivals as).length := by
  rw [arrivedFor, arrivals, List.length_filterMap_eq_countP, List.countP_eq_length_filter]

namespace System

variable {s s' s'' : System} {m : Nat} {txn : Txn} {call : Call} {a : Action} {as bs : List Action}
  {d : Decision} {settings : Settings}

/-- What each action of a run comes to. -/
def verdicts (s : System) : List Action → List (Action × Verdict)
  | [] => []
  | a :: as => (a, (s.act a).verdict) :: verdicts (s.act a).system as

/-- The refusals in a run. -/
def refusals (s : System) (as : List Action) : List Refusal :=
  (s.verdicts as).filterMap (·.2.refusal?)

/-- The arrivals that are due in a run: one for each call whose transaction is told to wait. -/
def due (s : System) (as : List Action) : List Action :=
  (s.verdicts as).filterMap fun p => p.1.due? p.2

/-- The run in which some actions take their turns, and whoever is told to wait arrives directly. -/
def prompt (s : System) : List Action → List Action
  | [] => []
  | a :: as =>
    if a.arrived?.isSome then prompt s as
    else
      let turn := a :: (a.due? (s.act a).verdict).toList
      turn ++ prompt (s.after turn) as

theorem verdicts_append (s : System) (as bs : List Action) :
    s.verdicts (as ++ bs) = s.verdicts as ++ (s.after as).verdicts bs := by
  induction as generalizing s with
  | nil => rfl
  | cons a as ih => simp [verdicts, ih]

theorem refusals_cons (s : System) (a : Action) (as : List Action) :
    s.refusals (a :: as) =
      (s.act a).verdict.refusal?.toList ++ (s.act a).system.refusals as := by
  cases h : (s.act a).verdict.refusal? <;> simp [refusals, verdicts, h]

theorem due_append (s : System) (as bs : List Action) :
    s.due (as ++ bs) = s.due as ++ (s.after as).due bs := by
  simp [due, verdicts_append]

theorem due_cons (s : System) (a : Action) (as : List Action) :
    s.due (a :: as) = (a.due? (s.act a).verdict).toList ++ (s.act a).system.due as := by
  cases h : a.due? (s.act a).verdict <;> simp [due, verdicts, h]

/-- In a prompt run everybody arrives who is to arrive, and nobody else. -/
theorem arrivals_prompt (s : System) (as : List Action) :
    arrivals (s.prompt as) = s.due (s.prompt as) := by
  induction as generalizing s with
  | nil => rfl
  | cons a as ih =>
    rw [prompt]
    split
    · exact ih s
    · rename_i ha
      rw [due_append, arrivals, List.filter_append]
      refine congrArg₂ (· ++ ·) ?_ (ih _)
      rw [due_cons, List.filter_cons, if_neg ha]
      cases hb : a.due? (s.act a).verdict with
      | none => rfl
      | some b =>
        obtain ⟨op, txn, rfl⟩ := Action.exists_of_due? hb
        rfl

/-! ## What is counted -/

/-- What has been counted on the way from one system to another: calls, refusals and arrivals under
their labels, all wake-ups, where none were left to be counted, and all that came to wait. -/
structure Counted (s s' : System) (called : List Operation) (refused : List Refusal)
    (arrived : List Operation) (awake : List Request) (due : List Action) : Prop where
  requests : ∀ label, s'.tally.requests.count label =
    s.tally.requests.count label + (called.map Operation.label).count label
  errors : ∀ label, s'.tally.errors.count label =
    s.tally.errors.count label + (refused.map Refusal.label).count label
  blocked : ∀ label, s'.tally.blocked.count label =
    s.tally.blocked.count label + (arrived.map Operation.label).count label
  wakeups : s.uncounted = ∅ →
    s'.uncounted = ∅ ∧ s'.tally.wakeups = s.tally.wakeups + awake.length
  waiting : s'.queuedSum (fun _ => 1) + awake.length = s.queuedSum (fun _ => 1) + due.length

theorem Counted.trans {called called' : List Operation} {refused refused' : List Refusal}
    {arrived arrived' : List Operation} {awake awake' : List Request} {due due' : List Action}
    (h : Counted s s' called refused arrived awake due)
    (h' : Counted s' s'' called' refused' arrived' awake' due') :
    Counted s s'' (called ++ called') (refused ++ refused') (arrived ++ arrived')
      (awake ++ awake') (due ++ due') where
  requests := fun label => by
    rw [h'.requests, h.requests, List.map_append, List.count_append, Nat.add_assoc]
  errors := fun label => by
    rw [h'.errors, h.errors, List.map_append, List.count_append, Nat.add_assoc]
  blocked := fun label => by
    rw [h'.blocked, h.blocked, List.map_append, List.count_append, Nat.add_assoc]
  wakeups := fun hnone => by
    obtain ⟨hnone, hw⟩ := h.wakeups hnone
    obtain ⟨hnone, hw'⟩ := h'.wakeups hnone
    exact ⟨hnone, by rw [hw', hw, List.length_append, Nat.add_assoc]⟩
  waiting := by
    have hw := h.waiting
    have hw' := h'.waiting
    rw [List.length_append, List.length_append]
    omega

theorem count_bump_singleton (c : Counter) (label other : String) :
    (c.bump label).count other = c.count other + [label].count other := by
  rw [Counter.count_bump, List.count_singleton]
  simp only [beq_iff_eq]

/-- What comes to wait in a decision is what an arrival is due for. -/
theorem Decided.length_joined (hd : Decided s m txn call d) (hf : d.verdict.fault? = none) :
    (joined d.events).length =
      ((Action.decide m txn call).due? d.verdict).toList.length := by
  cases hd with
  | refused hp => rfl
  | @done tasks t es hp hr =>
    have hj := Cascade.joined_run (s.table m) tasks
    rw [hr] at hj
    simp only [hj, List.length_nil]
    rfl
  | broken hp hr => cases hf
  | waits hp ht hg => rfl
  | shut hp ht hg => cases hf

/-- Where no wake-ups are left to be counted, those of a call are all. -/
theorem wakeups_of_uncounted (hnone : s.uncounted = ∅) (m : Nat) (es : List Event) :
    s.wakeups m es = (woken es).length := by
  rw [wakeups, hnone]
  exact Nat.zero_add _

theorem Decided.counted (h : s.Sound) (hd : Decided s m txn call d)
    (hf : d.verdict.fault? = none) :
    Counted s d.system [call.operation] d.verdict.refusal?.toList [] (woken d.events)
      ((Action.decide m txn call).due? d.verdict).toList := by
  have hwaiting : d.system.queuedSum (fun _ => 1) + (woken d.events).length =
      s.queuedSum (fun _ => 1) +
        ((Action.decide m txn call).due? d.verdict).toList.length := by
    obtain ⟨hc, hw⟩ := hd.conserves h hf fun _ => 1
    simp only [sumOf_one] at hc hw
    rw [← hd.length_joined hf, hw, hc]
  have hcall : ∀ label, (s.tally.requests.bump call.operation.label).count label =
      s.tally.requests.count label + ([call.operation].map Operation.label).count label :=
    count_bump_singleton _ _
  have hwakeups : ∀ es, s.uncounted = ∅ → s.uncounted.erase m = ∅ ∧
      s.tally.wakeups + s.wakeups m es = s.tally.wakeups + (woken es).length := fun es hnone =>
    ⟨hnone ▸ ExtTreeMap.erase_empty, by rw [wakeups_of_uncounted hnone]⟩
  cases hd with
  | @refused r hp =>
    exact ⟨hcall, count_bump_singleton _ r.label, fun _ => rfl, fun hnone => ⟨hnone, rfl⟩, hwaiting⟩
  | done hp hr => exact ⟨hcall, fun _ => rfl, fun _ => rfl, hwakeups _, hwaiting⟩
  | broken hp hr => cases hf
  | waits hp ht hg => exact ⟨hcall, fun _ => rfl, fun _ => rfl, hwakeups [], hwaiting⟩
  | shut hp ht hg => cases hf

/-- **What is counted in one action** that does not break off. -/
theorem counted_act (h : s.Sound) (hf : (s.act a).verdict.fault? = none) :
    Counted s (s.act a).system a.called?.toList (s.act a).verdict.refusal?.toList
      a.arrived?.toList (woken (s.act a).events) (a.due? (s.act a).verdict).toList := by
  have ha := acted h a
  generalize s.act a = d at ha hf ⊢
  cases ha with
  | decided hd => exact hd.counted h hf
  | @arrived op txn =>
    -- whether the transaction stops at its gate makes no difference
    cases s.gates.isClosed txn with
    | false => exact ⟨fun _ => rfl, fun _ => rfl, count_bump_singleton _ op.label, (⟨·, rfl⟩), rfl⟩
    | true => exact ⟨fun _ => rfl, fun _ => rfl, count_bump_singleton _ op.label, (⟨·, rfl⟩), rfl⟩
  | closed hg => exact ⟨fun _ => rfl, fun _ => rfl, fun _ => rfl, (⟨·, rfl⟩), rfl⟩
  | shut hg => cases hf
  | reopened => exact ⟨fun _ => rfl, fun _ => rfl, fun _ => rfl, (⟨·, rfl⟩), rfl⟩

/-- **What is counted in a run** in which nothing breaks off. -/
theorem counted_after (h : s.Sound) (hu : s.Unbroken as) :
    Counted s (s.after as) (calls as) (s.refusals as) (arrivedFor as) (woken (s.trace as))
      (s.due as) := by
  induction as generalizing s with
  | nil => exact ⟨fun _ => rfl, fun _ => rfl, fun _ => rfl, (⟨·, rfl⟩), rfl⟩
  | cons a as ih =>
    have hcalls : calls (a :: as) = a.called?.toList ++ calls as := by
      cases h : a.called? <;> simp [calls, h]
    have harrived : arrivedFor (a :: as) = a.arrived?.toList ++ arrivedFor as := by
      cases h : a.arrived? <;> simp [arrivedFor, h]
    rw [hcalls, harrived, refusals_cons, due_cons, trace, woken_append]
    exact (counted_act h hu.1).trans (ih (sound_act h a) hu.2)

/-! ## One manager -/

/-- The numbers of the manager that was called last, if it is the only one. -/
structure Gauged (m : Nat) (s : System) : Prop where
  granted : s.tally.granted = (s.table m).grantedCount
  waiting : s.tally.waiting = (s.table m).waitingCount

theorem Gauged.act (hg : Gauged m s) (h : s.Sound) (hf : (s.act a).verdict.fault? = none)
    (hm : ∀ n txn call, a = .decide n txn call → n = m) : Gauged m (s.act a).system := by
  have ha := acted h a
  generalize s.act a = d at ha hf ⊢
  cases ha with
  | @decided n txn call _ hd =>
    obtain rfl := hm n txn call rfl
    cases hd with
    | refused hp => exact ⟨hg.granted, hg.waiting⟩
    | @done tasks t es hp hr =>
      have ht := table_setTable_self s n t
      exact ⟨congrArg Table.grantedCount ht.symm, congrArg Table.waitingCount ht.symm⟩
    | broken hp hr => cases hf
    | @waits q place held t hp ht hg =>
      have ht := table_setTable_self s n t
      exact ⟨congrArg Table.grantedCount ht.symm, congrArg Table.waitingCount ht.symm⟩
    | shut hp ht hg => cases hf
  | arrived => exact ⟨hg.granted, hg.waiting⟩
  | closed => exact ⟨hg.granted, hg.waiting⟩
  | shut => cases hf
  | reopened => exact ⟨hg.granted, hg.waiting⟩

theorem Gauged.after (hg : Gauged m s) (h : s.Sound) (hu : s.Unbroken as)
    (hm : ∀ n txn call, .decide n txn call ∈ as → n = m) : Gauged m (s.after as) := by
  induction as generalizing s with
  | nil => exact hg
  | cons a as ih =>
    refine ih (hg.act h hu.1 fun n txn call ha => ?_) (sound_act h a) hu.2
      fun n txn call hmem => hm n txn call (List.mem_cons_of_mem a hmem)
    exact hm n txn call (ha ▸ List.mem_cons_self)

/-! ## All counts -/

/-- All requests that wait for any manager. -/
theorem queuedSum_one (s : System) :
    s.queuedSum (fun _ => 1) = ∑ᶠ m, ∑ᶠ r, ((s.table m).queue r).length := by
  rw [queuedSum, total_eq_finsum]
  refine finsum_congr fun m => ?_
  rw [weigh_tables, Table.queuedSum_one, Table.waitingTotal_eq]

theorem finite_waiting (s : System) : {m | ∃ r, (s.table m).queue r ≠ []}.Finite := by
  refine (finite_weigh (Table.queuedSum fun _ => 1) s.tables).subset ?_
  rintro m ⟨r, hr⟩ h0
  rw [weigh_tables, Table.queuedSum_eq_zero_iff] at h0
  exact hr (List.length_eq_zero_iff.1 (sumOf_one ((s.table m).queue r) ▸ h0 r))

end System

theorem Operation.label_injective : Function.Injective label := by
  intro a b h
  cases a <;> cases b <;> first | rfl | exact absurd h (by decide)

namespace System

variable {as : List Action} {settings : Settings}

/-- **All that is counted is right**, in every run in which nothing breaks off, of any managers, by
any callers, with gates turned from outside or not. Calls, refusals and arrivals are counted as
often as they have happened, and wake-ups as often as managers have woken a transaction. Who was
told to wait has been woken or still waits, for one manager or another; so once everybody has
arrived who was told to wait, the calls that had to wait are those woken and those that wait, and in
a prompt run this is so all the time. Where there is only one manager, it is told how many locks are
granted, counted by resources or by transactions, and how many requests wait. All these sums are
finite. -/
theorem counts_conserved (hu : (start settings).Unbroken as) :
    let s := (start settings).after as
    let due := (start settings).due as
    (∀ op, s.tally.requests.count op.label = (calls as).count op) ∧
    (∀ label, s.tally.errors.count label =
      (((start settings).refusals as).map Refusal.label).count label) ∧
    (∀ op, s.tally.blocked.count op.label = (arrivedFor as).count op) ∧
    s.tally.wakeups = (woken ((start settings).trace as)).length ∧
    due.length = s.tally.wakeups + ∑ᶠ m, ∑ᶠ r, ((s.table m).queue r).length ∧
    ((arrivals as).Perm due →
      (∀ op, s.tally.blocked.count op.label = (arrivedFor due).count op) ∧
      ∑ᶠ label, s.tally.blocked.count label =
        s.tally.wakeups + ∑ᶠ m, ∑ᶠ r, ((s.table m).queue r).length) ∧
    (∀ turns, as = (start settings).prompt turns → arrivals as = due) ∧
    (∀ m, (∀ n txn call, .decide n txn call ∈ as → n = m) →
      s.tally.granted = ∑ᶠ r, ((s.table m).locksOn r).length ∧
      s.tally.granted = ∑ᶠ txn, ((s.table m).locksOf txn).length ∧
      s.tally.waiting = ∑ᶠ r, ((s.table m).queue r).length) ∧
    {m | ∃ r, (s.table m).queue r ≠ []}.Finite ∧
    ∀ m, {r | (s.table m).locksOn r ≠ []}.Finite ∧ {txn | (s.table m).locksOf txn ≠ []}.Finite ∧
      {r | (s.table m).queue r ≠ []}.Finite := by
  intro s due
  have hlabel : ∀ (ops : List Operation) op, (ops.map Operation.label).count op.label =
      ops.count op := fun ops op => List.count_map_of_injective ops _ Operation.label_injective op
  obtain ⟨hrequests, herrors, hblocked, hwakeups, hwaiting⟩ :=
    counted_after (sound_start settings) hu
  -- nothing has been counted at the start, and nobody waits
  have hrequests : ∀ label, s.tally.requests.count label =
      ((calls as).map Operation.label).count label := fun label =>
    (hrequests label).trans (Nat.zero_add _)
  have hblocked : ∀ label, s.tally.blocked.count label =
      ((arrivedFor as).map Operation.label).count label := fun label =>
    (hblocked label).trans (Nat.zero_add _)
  have hwakeups : s.tally.wakeups = (woken ((start settings).trace as)).length :=
    (hwakeups rfl).2.trans (Nat.zero_add _)
  have hdue : due.length = s.tally.wakeups + ∑ᶠ m, ∑ᶠ r, ((s.table m).queue r).length := by
    have hsum : s.queuedSum (fun _ => 1) + (woken ((start settings).trace as)).length =
        due.length := hwaiting.trans (Nat.zero_add _)
    rw [hwakeups, ← queuedSum_one, ← hsum, Nat.add_comm]
  have hsound : s.Sound := sound_run settings as
  refine ⟨fun op => (hrequests _).trans (hlabel _ op),
    fun label => (herrors label).trans (Nat.zero_add _), fun op => (hblocked _).trans (hlabel _ op),
    hwakeups, hdue, fun hperm => ⟨fun op => ?_, ?_⟩, fun turns ht => ?_, fun m hm => ?_,
    s.finite_waiting, fun m => (s.table m).finite_books⟩
  · rw [hblocked, hlabel, ← arrivedFor_arrivals]
    exact (hperm.filterMap _).count_eq op
  · rw [← hdue, ← hperm.length_eq, ← length_arrivedFor, finsum_congr hblocked, finsum_count,
      List.length_map]
  · subst ht
    exact arrivals_prompt (start settings) turns
  · have hg : Gauged m s := Gauged.after ⟨rfl, rfl⟩ (sound_start settings) hu hm
    rw [hg.granted, hg.waiting]
    refine ⟨?_, ?_, ?_⟩
    · rw [← (hsound m).granted, Table.grantedTotal_eq]
    · rw [← (hsound m).indexed, Table.indexedTotal_eq]
    · rw [← (hsound m).waiting, Table.waitingTotal_eq]

/-- Transactions 2 and 3 wait for a lock of transaction 1, which is refused another one and then
gives up what it has. Transaction 2 is woken, and transaction 3 still waits. -/
def handedOn : List Action :=
  [.decide 0 ⟨0, 1⟩ (.acquire (.root "a") .x), .decide 0 ⟨1, 2⟩ (.acquire (.root "a") .s),
    .arrive .acquire ⟨1, 2⟩, .decide 0 ⟨2, 3⟩ (.acquire (.root "a") .x), .arrive .acquire ⟨2, 3⟩,
    .decide 0 ⟨0, 1⟩ (.acquire (.root "a") .s), .decide 0 ⟨0, 1⟩ (.release (.root "a"))]

theorem counts_conserved_handed_on :
    let s := (start {}).after handedOn
    (start {}).Unbroken handedOn ∧ (arrivals handedOn).Perm ((start {}).due handedOn) ∧
      (∀ n txn call, .decide n txn call ∈ handedOn → n = 0) ∧
      s.tally.errors.count "DuplicateLockRequest" = 1 ∧ s.tally.blocked.count "acquire" = 2 ∧
      ∑ᶠ label, s.tally.blocked.count label = 1 + ∑ᶠ m, ∑ᶠ r, ((s.table m).queue r).length ∧
      s.tally.granted = ∑ᶠ r, ((s.table 0).locksOn r).length := by
  intro s
  have hu : (start {}).Unbroken handedOn := by decide +kernel
  have hperm : (arrivals handedOn).Perm ((start {}).due handedOn) := by decide +kernel
  have hone : ∀ n txn call, .decide n txn call ∈ handedOn → n = 0 := by
    intro n txn call hm
    simp only [handedOn, List.mem_cons, List.not_mem_nil, reduceCtorEq, Action.decide.injEq,
      or_false, false_or] at hm
    omega
  have hwoken : (woken ((start {}).trace handedOn)).length = 1 := by decide +kernel
  obtain ⟨-, herrors, hblocked, hwakeups, -, hsum, -, hgauges, -⟩ := counts_conserved hu
  have hsum := (hsum hperm).2
  rw [hwakeups, hwoken] at hsum
  refine ⟨hu, hperm, hone, (herrors _).trans ?_, (hblocked .acquire).trans ?_, hsum,
    (hgauges 0 hone).1⟩
  · decide +kernel
  · decide +kernel

end System

end Locking
