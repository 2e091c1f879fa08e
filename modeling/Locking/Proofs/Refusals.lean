import Locking.Proofs.Course

/-!
# Refused calls

A call is refused for what its transaction holds, and for nothing else, and a refusal is all that
comes of it.

* `Table.Objection`: what the locks of a transaction say against a call of it.
* `Table.plan_eq_error_iff`: a call is refused exactly for its objection. Left out is only the
  promotion to no lock of a transaction that holds nothing, which is refused in any case.
* `System.act_recount`: what was counted before makes no difference to what is done.
* `System.refusal_leaves_no_trace`: a refused call leaves all as it was, but for two counts.
* `System.refused_for_reason`: in every run, which calls are refused, and what they are told.
-/

namespace Locking

/-- The mode that a refusal says is held. -/
def Refusal.held? : Refusal → Option Mode
  | duplicate _ _ held | invalid _ _ held _ => some held
  | notHeld _ _ => none

/-! ## Objections -/

/-- What is found first is found first where repetitions are left out. -/
theorem find?_eraseDups {A : Type} [BEq A] [LawfulBEq A] (p : A → Bool) :
    ∀ as : List A, as.eraseDups.find? p = as.find? p
  | [] => rfl
  | a :: as => by
    have hshort := List.length_filter_le (fun b => !b == a) as
    rw [List.eraseDups_cons, List.find?_cons, List.find?_cons, find?_eraseDups,
      List.find?_filter]
    cases hp : p a with
    | true => rfl
    | false =>
      -- what is left out is not looked for
      refine congrArg (List.find? · as) (funext fun b => ?_)
      by_cases hb : b = a
      · simp [hb, hp]
      · simp [hb]
termination_by as => as.length
decreasing_by
  rw [List.length_cons]
  omega

namespace Table

variable {t : Table} {owner : TxnId} {txn : Txn} {kept r u : Resource} {mode : Mode}
  {rs : List Resource} {call : Call} {e : Refusal}

/-- The first of some resources on which a transaction holds nothing. -/
def missing? (t : Table) (owner : TxnId) (rs : List Resource) : Option Resource :=
  rs.find? fun r => (t.held? owner r).isNone

/-- **What the locks of a transaction say against a call of it.** -/
inductive Objection (t : Table) (owner : TxnId) : Call → Refusal → Prop where
  /-- No lock is no mode to ask for, whatever is held. -/
  | acquireNothing {r : Resource} : Objection t owner (.acquire r .nl) (.invalid owner r .nl .nl)
  | acquireHeld {r : Resource} {mode : Mode} (hm : mode ≠ .nl) (hh : t.held? owner r ≠ none) :
    Objection t owner (.acquire r mode) (.duplicate owner r (t.mode owner r))
  | releaseNotHeld {r : Resource} (hh : t.held? owner r = none) :
    Objection t owner (.release r) (.notHeld owner r)
  | promoteNotHeld {r : Resource} {mode : Mode} (hh : t.held? owner r = none) :
    Objection t owner (.promote r mode) (.notHeld owner r)
  | promoteSame {r : Resource} (hh : t.held? owner r ≠ none) :
    Objection t owner (.promote r (t.mode owner r)) (.duplicate owner r (t.mode owner r))
  /-- The new mode may only add to the rights of the old one. -/
  | promoteWeaker {r : Resource} {mode : Mode} (hh : t.held? owner r ≠ none)
    (hne : t.mode owner r ≠ mode) (hc : mode.covers (t.mode owner r) = false) :
    Objection t owner (.promote r mode) (.invalid owner r (t.mode owner r) mode)
  | exchangeNothing {r : Resource} {rs : List Resource} :
    Objection t owner (.exchange r .nl rs) (.invalid owner r .nl .nl)
  /-- A lock is replaced only if it is among those that are given up. -/
  | exchangeHeld {r : Resource} {mode : Mode} {rs : List Resource} (hm : mode ≠ .nl)
    (hh : t.held? owner r ≠ none) (hr : r ∉ rs) :
    Objection t owner (.exchange r mode rs) (.duplicate owner r (t.mode owner r))
  /-- What is given up has to be held, and the first that is not is named. -/
  | exchangeMissing {r u : Resource} {mode : Mode} {rs : List Resource} (hm : mode ≠ .nl)
    (hh : t.held? owner r ≠ none → r ∈ rs) (hu : t.missing? owner rs = some u) :
    Objection t owner (.exchange r mode rs) (.notHeld owner u)

/-- What is to be given up is refused for the first resource without a lock. -/
theorem collect_eq_error_iff :
    t.collect owner kept rs = .error e ↔
      ∃ u, t.missing? owner rs = some u ∧ e = .notHeld owner u := by
  induction rs with
  | nil => simp [collect, missing?]
  | cons r rs ih =>
    rw [collect, missing?, List.find?_cons]
    cases hh : t.held? owner r with
    | none => simp [eq_comm]
    | some lock =>
      cases hc : t.collect owner kept rs with
      | error e' => simpa [Except.map, hc, missing?] using ih
      | ok locks => simpa [Except.map, hc, missing?] using ih

theorem Sound.mode_ne_nl_iff (h : t.Sound) : t.mode owner r ≠ .nl ↔ t.held? owner r ≠ none :=
  not_congr h.mode_eq_nl_iff

theorem planAcquire_eq_error_iff (h : t.Sound) :
    t.planAcquire txn r mode = .error e ↔ Objection t txn.id (.acquire r mode) e := by
  unfold planAcquire
  constructor
  · intro hp
    split at hp
    · rename_i hm
      cases hm
      cases hp
      exact .acquireNothing
    · rename_i hm
      split at hp
      · rename_i hh
        cases hp
        exact .acquireHeld hm (h.mode_ne_nl_iff.1 hh)
      · split at hp <;> cases hp
  · intro ho
    cases ho with
    | acquireNothing => exact if_pos rfl
    | acquireHeld hm hh => rw [if_neg hm, if_pos (h.mode_ne_nl_iff.2 hh)]

theorem planRelease_eq_error_iff :
    t.planRelease txn r = .error e ↔ Objection t txn.id (.release r) e := by
  unfold planRelease
  constructor
  · intro hp
    split at hp
    · rename_i hh
      cases hp
      exact .releaseNotHeld hh
    · cases hp
  · intro ho
    cases ho with
    | releaseNotHeld hh => simp only [hh]

/-- A promotion is refused for its objection, unless what is not held is to be promoted to no
lock. -/
theorem planPromote_eq_error_iff (h : t.Sound) (hnl : mode = .nl → t.held? txn.id r ≠ none) :
    t.planPromote txn r mode = .error e ↔ Objection t txn.id (.promote r mode) e := by
  unfold planPromote
  constructor
  · intro hp
    split at hp
    · rename_i hsame
      cases hp
      subst hsame
      refine .promoteSame fun hh => ?_
      exact hnl (h.mode_eq_nl_iff.2 hh) hh
    · rename_i hne
      split at hp
      · rename_i hh
        cases hp
        exact .promoteNotHeld (h.mode_eq_nl_iff.1 hh)
      · rename_i hh
        split at hp
        · rename_i hc
          cases hp
          exact .promoteWeaker (h.mode_ne_nl_iff.1 hh) hne hc
        · split at hp <;> cases hp
  · intro ho
    cases ho with
    | promoteNotHeld hh =>
      have hmode := h.mode_eq_nl_iff.2 hh
      rw [hmode, if_neg fun hm => hnl hm.symm hh, if_pos rfl]
    | promoteSame hh => exact if_pos rfl
    | promoteWeaker hh hne hc => rw [if_neg hne, if_neg (h.mode_ne_nl_iff.2 hh), if_pos hc]

theorem planExchange_eq_error_iff (h : t.Sound) :
    t.planExchange txn r mode rs = .error e ↔ Objection t txn.id (.exchange r mode rs) e := by
  have hcollect : t.collect txn.id r rs.eraseDups = .error e ↔
      ∃ u, t.missing? txn.id rs = some u ∧ e = .notHeld txn.id u := by
    rw [collect_eq_error_iff, missing?, find?_eraseDups, missing?]
  unfold planExchange
  constructor
  · intro hp
    split at hp
    · rename_i hm
      cases hm
      cases hp
      exact .exchangeNothing
    · rename_i hm
      split at hp
      · rename_i hh
        cases hp
        exact .exchangeHeld hm (h.mode_ne_nl_iff.1 hh.1) hh.2
      · rename_i hh
        split at hp
        · rename_i hc
          cases hp
          obtain ⟨u, hu, rfl⟩ := hcollect.1 hc
          refine .exchangeMissing hm (fun hheld => ?_) hu
          by_contra hr
          exact hh ⟨h.mode_ne_nl_iff.2 hheld, hr⟩
        · split at hp <;> cases hp
  · intro ho
    cases ho with
    | exchangeNothing => exact if_pos rfl
    | exchangeHeld hm hh hr => rw [if_neg hm, if_pos ⟨h.mode_ne_nl_iff.2 hh, hr⟩]
    | exchangeMissing hm hh hu =>
      rw [if_neg hm, if_neg fun hc => hc.2 (hh (h.mode_ne_nl_iff.1 hc.1)),
        hcollect.2 ⟨_, hu, rfl⟩]

/-- **A call is refused exactly for its objection.** -/
theorem plan_eq_error_iff (h : t.Sound)
    (hnl : ∀ r, call = .promote r .nl → t.held? txn.id r ≠ none) :
    t.plan txn call = .error e ↔ Objection t txn.id call e := by
  cases call with
  | acquire r mode => exact planAcquire_eq_error_iff h
  | release r => exact planRelease_eq_error_iff
  | promote r mode => exact planPromote_eq_error_iff h fun hm => hnl r (hm ▸ rfl)
  | exchange r mode rs => exact planExchange_eq_error_iff h

/-- No lock is lowered to none, and none is raised to none. -/
theorem exists_plan_promote_nl (t : Table) (txn : Txn) (r : Resource) :
    ∃ e, t.plan txn (.promote r .nl) = .error e ∧
      ∀ held, e.held? = some held → held = t.mode txn.id r := by
  by_cases hm : t.mode txn.id r = .nl
  · exact ⟨.duplicate txn.id r .nl, by simp [plan, planPromote, hm], by simp [Refusal.held?, hm]⟩
  · have hc : Mode.nl.covers (t.mode txn.id r) = false := by
      by_contra hc
      exact hm (Mode.eq_nl_of_nl_covers (by simpa using hc))
    exact ⟨.invalid txn.id r (t.mode txn.id r) .nl, by simp [plan, planPromote, hm, hc],
      by simp [Refusal.held?]⟩

/-- What an objection says is held is held, but for the one to no lock, which looks at nothing. -/
theorem Objection.held_eq (ho : Objection t owner call e) {held : Mode} (hh : e.held? = some held) :
    held = t.mode owner call.resource ∨
      call.operation ≠ .promote ∧ e = .invalid owner call.resource .nl .nl := by
  cases ho with
  | acquireNothing | exchangeNothing => exact .inr ⟨nofun, rfl⟩
  | acquireHeld | promoteSame | promoteWeaker | exchangeHeld => exact .inl (Option.some.inj hh).symm
  | releaseNotHeld | promoteNotHeld | exchangeMissing => cases hh

/-- Nobody is told to hold no lock already. -/
theorem Objection.ne_nl_of_duplicate (h : t.Sound) {held : Mode}
    (ho : Objection t owner call (.duplicate owner r held)) : held ≠ .nl := by
  cases ho with
  | acquireHeld hm hh => exact h.mode_ne_nl_iff.2 hh
  | promoteSame hh => exact h.mode_ne_nl_iff.2 hh
  | exchangeHeld hm hh hr => exact h.mode_ne_nl_iff.2 hh

end Table

namespace System

variable {s : System} {m : Nat} {txn : Txn} {call : Call} {e : Refusal}

/-- Refused is what comes to nothing. -/
theorem verdict_eq_refused_iff (h : s.Sound) :
    (s.decide m txn call).verdict = .refused e ↔ (s.table m).plan txn call = .error e := by
  have hd := decided h m txn call
  constructor
  · intro hv
    generalize s.decide m txn call = d at hd hv
    cases hd with
    | refused hp =>
      cases hv
      exact hp
    | done | broken | waits | shut => cases hv
  · exact fun hp => (hd.of_refused hp).1

/-! ## Refusals leave no trace -/

/-- The same system with other counts. -/
def recount (s : System) (c : Tally) : System := { s with tally := c }

end System

/-- A decision does the same as another one, in the same system but for the counts. -/
structure Decision.Recounts (d d' : Decision) : Prop where
  verdict : d.verdict = d'.verdict
  events : d.events = d'.events
  system : ∃ c, d.system = d'.system.recount c

namespace System

variable {s : System} {m : Nat} {txn : Txn} {call : Call} {e : Refusal}

theorem commit_recount (s : System) (c : Tally) (m : Nat) (t : Table) (es : List Event)
    (v : Verdict) : ((s.recount c).commit m t es v).Recounts (s.commit m t es v) := by
  have hs : (s.recount c).settings = s.settings := rfl
  unfold commit
  simp only [hs]
  cases if s.settings.checkInvariants then t.audit else none with
  | none => exact ⟨rfl, rfl, _, rfl⟩
  | some f => exact ⟨rfl, rfl, _, rfl⟩

theorem perform_recount (s : System) (c : Tally) (m : Nat) (tasks : List Cascade.Task) :
    ((s.recount c).perform m tasks).Recounts (s.perform m tasks) := by
  have ht : (s.recount c).table m = s.table m := rfl
  unfold perform
  simp only [ht]
  cases (Cascade.run (s.table m) tasks).fault? with
  | none =>
    let out := Cascade.run (s.table m) tasks
    exact commit_recount { s with gates := s.gates.afterEvents out.events } c m out.table
      out.events .done
  | some f => exact ⟨rfl, rfl, _, rfl⟩

theorem park_recount (s : System) (c : Tally) (m : Nat) (op : Operation) (q : Request)
    (place : Place) (held : Mode) :
    ((s.recount c).park m op q place held).Recounts (s.park m op q place held) := by
  have hg : (s.recount c).gates = s.gates := rfl
  unfold park
  simp only [hg]
  cases s.gates.close q.txn with
  | ok gates => exact commit_recount { s with gates } c m _ _ .waits
  | error f => exact ⟨rfl, rfl, _, rfl⟩

/-- **What was counted before makes no difference to what is done.** -/
theorem act_recount (s : System) (c : Tally) (a : Action) :
    ((s.recount c).act a).Recounts (s.act a) := by
  have ht : ∀ m, (s.recount c).table m = s.table m := fun _ => rfl
  have hg : (s.recount c).gates = s.gates := rfl
  cases a with
  | decide m txn call =>
    simp only [act, decide, ht]
    cases (s.table m).plan txn call with
    | error r => exact ⟨rfl, rfl, _, rfl⟩
    | ok plan =>
      cases plan with
      | go tasks =>
        exact perform_recount { s with tally := s.tally.request call.operation }
          (c.request call.operation) m tasks
      | wait q place held =>
        exact park_recount { s with tally := s.tally.request call.operation }
          (c.request call.operation) m call.operation q place held
  | arrive op txn => exact ⟨rfl, rfl, _, rfl⟩
  | close txn =>
    simp only [act, close, hg]
    cases s.gates.close txn with
    | ok gates => exact ⟨rfl, rfl, _, rfl⟩
    | error f => exact ⟨rfl, rfl, _, rfl⟩
  | reopen txn => exact ⟨rfl, rfl, _, rfl⟩

theorem after_recount (s : System) (c : Tally) (as : List Action) :
    ∃ c', (s.recount c).after as = (s.after as).recount c' := by
  induction as generalizing s c with
  | nil => exact ⟨c, rfl⟩
  | cons a as ih =>
    obtain ⟨c', hc⟩ := (act_recount s c a).system
    rw [after_cons, hc]
    exact ih _ c'

/-- **A refused call leaves no trace**, wherever a run stands, whatever was called and whatever is
refused. Its course hands on with the refusal the very table that it was given, entries and slots
included. Nothing happens: no gate is turned, and nobody waits or is woken. Settings, tables and gates
are the very same, and so is all that is counted or still to be counted, except that the call and the
refusal are counted once each. So the run goes on as if the call had not been made. -/
theorem refusal_leaves_no_trace (settings : Settings) (as : List Action) (m : Nat) (txn : Txn)
    (call : Call) (e : Refusal)
    (hv : (((start settings).after as).decide m txn call).verdict = .refused e) :
    let s := (start settings).after as
    let d := s.decide m txn call
    (call.course txn).run ⟨s.table m, []⟩ = .error (.refused e) ⟨s.table m, []⟩ ∧
    (s.call m txn call = d ∧ d.events = []) ∧
    (d.system.settings = s.settings ∧ d.system.tables = s.tables ∧
      d.system.gates = s.gates ∧ d.system.uncounted = s.uncounted) ∧
    (d.system.tally.blocked = s.tally.blocked ∧ d.system.tally.wakeups = s.tally.wakeups ∧
      d.system.tally.granted = s.tally.granted ∧ d.system.tally.waiting = s.tally.waiting) ∧
    (∀ label, d.system.tally.requests.count label =
      s.tally.requests.count label + if call.operation.label = label then 1 else 0) ∧
    (∀ label, d.system.tally.errors.count label =
      s.tally.errors.count label + if e.label = label then 1 else 0) ∧
    ∀ bs, (∃ c, d.system.after bs = (s.after bs).recount c) ∧
      ∀ a, ((d.system.after bs).act a).verdict = ((s.after bs).act a).verdict ∧
        ((d.system.after bs).act a).events = ((s.after bs).act a).events := by
  intro s d
  have hcall : s.call m txn call = d := by
    have hv : (s.decide m txn call).verdict = .refused e := hv
    simp only [System.call, hv, d]
  have hs : s.Sound := sound_run settings as
  have hd : Decided s m txn call d := decided hs m txn call
  have hv : d.verdict = .refused e := hv
  generalize d = d at hcall hd hv
  cases hd with
  | refused hp =>
    cases hv
    refine ⟨?_, ⟨hcall, rfl⟩, ⟨rfl, rfl, rfl, rfl⟩, ⟨rfl, rfl, rfl, rfl⟩, fun label => ?_,
      fun label => ?_, fun bs => ?_⟩
    · exact (Call.course_eq_refused_iff (hs m)).2 ⟨hp, rfl⟩
    · exact s.tally.requests.count_bump call.operation.label label
    · exact s.tally.errors.count_bump e.label label
    · obtain ⟨c, hc⟩ := after_recount s ((s.tally.request call.operation).refuse e) bs
      refine ⟨⟨c, hc⟩, fun a => ?_⟩
      have ha := act_recount (s.after bs) c a
      rw [← hc] at ha
      exact ⟨ha.verdict, ha.events⟩
  | done | broken | waits | shut => cases hv

/-- Transaction 1 holds two locks. -/
def holding : List Action :=
  [.decide 0 ⟨0, 1⟩ (.acquire (.root "a") .s), .decide 0 ⟨0, 1⟩ (.acquire (.root "b") .s)]

/-- Two locks have been found that could be given up before the call is refused for a third one. -/
theorem refusal_leaves_no_trace_late :
    let s := (start {}).after holding
    let call : Call := .exchange (.root "c") .x [.root "b", .root "b", .root "a", .root "d", .root "c"]
    let d := s.decide 0 ⟨0, 1⟩ call
    d.verdict = .refused (.notHeld 1 (.root "d")) ∧
      (call.course ⟨0, 1⟩).run ⟨s.table 0, []⟩ =
        .error (.refused (.notHeld 1 (.root "d"))) ⟨s.table 0, []⟩ ∧
      d.events = [] ∧ d.system.tables = s.tables ∧ d.system.tally.errors.count "NoLockHeld" =
        s.tally.errors.count "NoLockHeld" + 1 := by
  have hv : (((start {}).after holding).decide 0 ⟨0, 1⟩ (.exchange (.root "c") .x
      [.root "b", .root "b", .root "a", .root "d", .root "c"])).verdict =
      .refused (.notHeld 1 (.root "d")) := by decide +kernel
  obtain ⟨hcourse, ⟨-, hevents⟩, ⟨-, htables, -⟩, -, -, herrors, -⟩ :=
    refusal_leaves_no_trace {} holding 0 ⟨0, 1⟩ _ _ hv
  exact ⟨hv, hcourse, hevents, htables, herrors "NoLockHeld"⟩

/-! ## Refusals have a reason -/

/-- **A call is refused exactly for what its transaction holds**, wherever a run stands. Which calls
are refused, and which refusal comes where several would be in place, is told by `Table.Objection`;
left open is only what is said where a transaction that holds nothing asks to have it promoted to no
lock, which is refused in any case. What a refusal says is held is held, except that whoever asks
for no lock by an acquisition or an exchange is told of no lock; and nobody is told to hold no lock
already. -/
theorem refused_for_reason (settings : Settings) (as : List Action) (m : Nat) (txn : Txn)
    (call : Call) :
    let t := ((start settings).after as).table m
    let d := ((start settings).after as).decide m txn call
    ((∀ r, call = .promote r .nl → t.held? txn.id r ≠ none) →
      (∀ e, d.verdict = .refused e ↔ t.Objection txn.id call e) ∧
      ∀ r held, d.verdict = .refused (.duplicate txn.id r held) → held ≠ .nl) ∧
    (∀ r, call = .promote r .nl → ∃ e, d.verdict = .refused e) ∧
    ∀ e held, d.verdict = .refused e → e.held? = some held →
      held = t.mode txn.id call.resource ∨
        call.operation ≠ .promote ∧ e = .invalid txn.id call.resource .nl .nl := by
  intro t d
  have hs : ((start settings).after as).Sound := sound_run settings as
  have ht : t.Sound := hs m
  have hv : ∀ e, d.verdict = .refused e ↔ t.plan txn call = .error e := fun e =>
    verdict_eq_refused_iff hs
  simp only [hv]
  refine ⟨fun hnl => ?_, fun r hcall => ?_, fun e held hp hh => ?_⟩
  · have hiff : ∀ e, t.plan txn call = .error e ↔ t.Objection txn.id call e := fun e =>
      Table.plan_eq_error_iff ht hnl
    exact ⟨hiff, fun r held hp => ((hiff _).1 hp).ne_nl_of_duplicate ht⟩
  · obtain ⟨e, hp, -⟩ := t.exists_plan_promote_nl txn r
    exact ⟨e, hcall ▸ hp⟩
  · by_cases hcall : ∃ r, call = .promote r .nl
    · obtain ⟨r, rfl⟩ := hcall
      obtain ⟨e', hp', hheld⟩ := t.exists_plan_promote_nl txn r
      cases hp'.symm.trans hp
      exact .inl (hheld held hh)
    · refine ((Table.plan_eq_error_iff ht fun r hr => ?_).1 hp).held_eq hh
      exact absurd ⟨r, hr⟩ hcall

/-- Of three locks that are not held the first is named, also where the resource itself is. -/
theorem refused_for_reason_first :
    (∀ r, Call.exchange (.root "c") .x [.root "a", .root "e", .root "d", .root "c", .root "e"] =
        .promote r .nl → (((start {}).after holding).table 0).held? 1 r ≠ none) ∧
      (((start {}).after holding).decide 0 ⟨0, 1⟩ (.exchange (.root "c") .x
        [.root "a", .root "e", .root "d", .root "c", .root "e"])).verdict =
          .refused (.notHeld 1 (.root "e")) := by
  have hcall : ∀ r, Call.exchange (.root "c") .x
      [.root "a", .root "e", .root "d", .root "c", .root "e"] = .promote r .nl →
      (((start {}).after holding).table 0).held? 1 r ≠ none := nofun
  have hfirst : (((start {}).after holding).table 0).missing? 1
      [.root "a", .root "e", .root "d", .root "c", .root "e"] = some (.root "e") := by
    decide +kernel
  refine ⟨hcall, (((refused_for_reason {} holding 0 ⟨0, 1⟩ _).1 hcall).1 _).2 ?_⟩
  refine .exchangeMissing (by decide) (fun hheld => ?_) hfirst
  exact absurd (by decide +kernel) hheld

/-- Who holds a shared lock and asks for no lock is told to hold no lock. Who holds nothing and asks
to have it promoted to no lock is told to hold no lock already. -/
theorem refusal_tells_of_no_lock :
    let s := (start {}).after holding
    ((s.decide 0 ⟨0, 1⟩ (.acquire (.root "a") .nl)).verdict =
        .refused (.invalid 1 (.root "a") .nl .nl) ∧ (s.table 0).mode 1 (.root "a") = .s) ∧
      (s.decide 0 ⟨0, 1⟩ (.promote (.root "c") .nl)).verdict =
        .refused (.duplicate 1 (.root "c") .nl) ∧ (s.table 0).held? 1 (.root "c") = none := by
  decide +kernel

end System

end Locking
