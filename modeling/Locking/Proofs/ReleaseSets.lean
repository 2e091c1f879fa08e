import Locking.Proofs.Detour
import Locking.Proofs.Twins

/-!
# What is given up is a set

An exchange names the resources on which it gives up locks, in some order and perhaps repeatedly.
Only which resources it names makes a difference, even where the request waits for long and is
granted in the middle of a cascade.

* `Table.collect_perm`: locks to be given up may be named in any order.
* `Table.planExchange_matches`: so exchanges that name the same resources come to the same.
* `System.releases_as_set`: they lead to systems that no query tells apart, and that go on alike.
-/

namespace Locking

namespace Table

variable {t : Table} {owner : TxnId} {txn : Txn} {r : Resource} {mode : Mode}
  {rs us : List Resource}

theorem missing?_eq_none_of_subset (hsub : us ⊆ rs) (h : t.missing? owner rs = none) :
    t.missing? owner us = none := by
  rw [missing?, List.find?_eq_none] at h ⊢
  exact fun u hu => h u (hsub hu)

/-- **Locks to be given up may be named in any order.** If one is missing, it is missing anyway, but
another one may be missed first. -/
theorem collect_perm (t : Table) (owner : TxnId) (kept : Resource) (hp : us.Perm rs) :
    (∃ locks offered, t.collect owner kept rs = .ok locks ∧ t.collect owner kept us = .ok offered ∧
      locks.Perm offered) ∨
    ∃ u v, t.collect owner kept rs = .error (.notHeld owner u) ∧
      t.collect owner kept us = .error (.notHeld owner v) := by
  have hmissing : t.missing? owner us = none ↔ t.missing? owner rs = none :=
    ⟨missing?_eq_none_of_subset hp.symm.subset, missing?_eq_none_of_subset hp.subset⟩
  have hfailed : ∀ {xs : List Resource} {e : Refusal}, t.collect owner kept xs = .error e →
      t.missing? owner xs ≠ none := fun hc => by
    obtain ⟨u, hu, -⟩ := collect_eq_error_iff.1 hc
    simp [hu]
  have hnamed : ∀ {xs : List Resource}, t.missing? owner xs ≠ none →
      ∃ u, t.collect owner kept xs = .error (.notHeld owner u) := fun hne => by
    obtain ⟨u, hu⟩ := Option.ne_none_iff_exists'.1 hne
    exact ⟨u, collect_eq_error_iff.2 ⟨u, hu, rfl⟩⟩
  cases hrs : t.collect owner kept rs with
  | error e =>
    obtain ⟨u, hu⟩ := hnamed (hfailed hrs)
    obtain ⟨v, hv⟩ := hnamed (mt hmissing.1 (hfailed hrs))
    exact .inr ⟨u, v, hrs.symm.trans hu, hv⟩
  | ok locks =>
    cases hus : t.collect owner kept us with
    | error e =>
      obtain ⟨u, hu⟩ := hnamed (mt hmissing.2 (hfailed hus))
      cases hrs.symm.trans hu
    | ok offered =>
      refine .inl ⟨locks, offered, rfl, rfl, ?_⟩
      rw [collect_eq hrs, collect_eq hus]
      exact (hp.symm.filter _).filterMap _

/-- **Exchanges that name the same resources come to the same.** -/
theorem planExchange_matches (t : Table) (txn : Txn) (r : Resource) (mode : Mode)
    (hset : ∀ u, u ∈ us ↔ u ∈ rs) :
    Plan.Matches txn.id (t.planExchange txn r mode rs) (t.planExchange txn r mode us) := by
  have hp : us.eraseDups.Perm rs.eraseDups :=
    (List.perm_ext_iff_of_nodup (nodup_eraseDups us) (nodup_eraseDups rs)).2 fun u => by
      rw [List.mem_eraseDups, List.mem_eraseDups, hset]
  unfold planExchange
  simp only [hset r]
  split
  · exact .refused _
  split
  · exact .refused _
  rcases t.collect_perm txn.id r hp with ⟨locks, offered, hrs, hus, hlocks⟩ | ⟨u, v, hrs, hus⟩
  · rw [hrs, hus]
    dsimp only
    split
    · refine .go rfl fun lock => ?_
      simp only [List.mem_append, List.mem_cons, (hlocks.map Cascade.Task.release).mem_iff]
    · exact .wait (Request.terms_eq_iff.2 ⟨rfl, rfl, hlocks⟩)
  · rw [hrs, hus]
    exact .notHeld u v

end Table

namespace System

variable {settings : Settings} {before rest : List Action} {m : Nat} {txn : Txn} {r : Resource}
  {mode : Mode} {rs us : List Resource}

/-- **What an exchange gives up is a set**, in every disciplined run. Named in another order, or
with other repetitions, the same is refused, waits or is granted; only which lock is missing may be
told otherwise. The same transactions are woken, and what may follow in one case may follow in the
other. Then, and all the time that follows, all queries on all tables are answered alike, requests
wait on the same terms, all gates and all that is counted are the same, the same becomes of every
call, and it wakes the same transactions, perhaps in another order. -/
theorem releases_as_set
    (h : Disciplined settings (before ++ .decide m txn (.exchange r mode rs) :: rest))
    (hset : ∀ u, u ∈ us ↔ u ∈ rs) :
    let s := (start settings).after before
    let d := s.decide m txn (.exchange r mode rs)
    let d' := s.decide m txn (.exchange r mode us)
    Disciplined settings (before ++ .decide m txn (.exchange r mode us) :: rest) ∧
    (d.verdict = d'.verdict ∧ d.verdict.fault? = none ∨
      ∃ u v, d.verdict = .refused (.notHeld txn.id u) ∧
        d'.verdict = .refused (.notHeld txn.id v)) ∧
    ((woken d.events).map Request.terms).Perm ((woken d'.events).map Request.terms) ∧
    ∀ mid next, rest = mid ++ next →
      let s := d.system.after mid
      let s' := d'.system.after mid
      (∀ k, (s.table k).AnswersAlike (s'.table k)) ∧
      (∀ t, s.gates.gate t = s'.gates.gate t) ∧ s.tally = s'.tally ∧
      ∀ a more, next = a :: more →
        (s.act a).verdict = (s'.act a).verdict ∧
        ((woken (s.act a).events).map Request.terms).Perm
          ((woken (s'.act a).events).map Request.terms) := by
  intro s d d'
  have hnow : Underway _ s (.decide m txn (.exchange r mode rs) :: rest) := h.underway.drop
  have hquiet : s.Quiet := quiet_run h.underway.take.unbroken
  have hf : d.verdict.fault? = none := hnow.fault?_head.1
  have hop : (Call.exchange r mode us).operation = (Call.exchange r mode rs).operation := rfl
  obtain ⟨hv, hwoken, htwins⟩ := (Twins.refl hnow.toOrderly hquiet).decide hnow.ids
    (hnow.caller_mem rfl) hnow.allowed.1 hop ((s.table m).planExchange_matches txn r mode hset)
  have hlater : Underway _ d.system rest := hnow.tail
  refine ⟨⟨?_, ?_⟩, ?_, hwoken, ?_⟩
  · have hcallers : callers (before ++ .decide m txn (.exchange r mode us) :: rest) =
        callers (before ++ .decide m txn (.exchange r mode rs) :: rest) := by
      simp [callers, Action.caller?]
    exact hcallers ▸ h.ids
  · refine allowsAll_append.2 ⟨(allowsAll_append.1 h.allowed).1, hnow.allowed.1, ?_⟩
    exact (htwins.underway hlater).allowed
  · change d.verdict.Alike txn.id d'.verdict at hv
    generalize d.verdict = v, d'.verdict = v' at hv hf ⊢
    cases hv with
    | refl => exact .inl ⟨rfl, hf⟩
    | notHeld u v => exact .inr ⟨u, v, rfl, rfl⟩
  · rintro mid next rfl
    intro s s'
    have htwins : Twins _ s s' := htwins.after hlater.take
    have hnext : Underway _ s next := hlater.drop
    refine ⟨fun k => (htwins.akin k).answersAlike (htwins.order.sound k) (htwins.order'.sound k),
      htwins.gate, htwins.tally, ?_⟩
    rintro a more rfl
    obtain ⟨hverdict, hwake, -⟩ :=
      htwins.act hnext.ids hnext.allowed.1 fun _ hc => hnext.caller_mem hc
    exact ⟨hverdict, hwake⟩

/-- Transaction 2 waits for a lock of transaction 1, to give up two locks then for which
transactions 3 and 4 wait. -/
def awaited : List Action :=
  [.decide 0 ⟨0, 1⟩ (.acquire (.root "a") .x), .decide 0 ⟨1, 2⟩ (.acquire (.root "b") .x),
    .decide 0 ⟨1, 2⟩ (.acquire (.root "c") .x), .decide 0 ⟨2, 3⟩ (.acquire (.root "b") .s),
    .decide 0 ⟨3, 4⟩ (.acquire (.root "c") .s)]

/-- The exchange is granted when transaction 1 releases its lock. Then transactions 3 and 4 are
woken in one order or in the other one, and again all queries are answered alike. -/
theorem releases_as_set_awaited :
    let s := (start {}).after awaited
    let d := s.decide 0 ⟨1, 2⟩ (.exchange (.root "a") .x [.root "b", .root "c"])
    let d' := s.decide 0 ⟨1, 2⟩ (.exchange (.root "a") .x [.root "c", .root "b", .root "c"])
    let last : Action := .decide 0 ⟨0, 1⟩ (.release (.root "a"))
    Disciplined {} (awaited ++
      .decide 0 ⟨1, 2⟩ (.exchange (.root "a") .x [.root "b", .root "c"]) :: [last]) ∧
    (∀ u, u ∈ [Resource.root "c", .root "b", .root "c"] ↔ u ∈ [Resource.root "b", .root "c"]) ∧
    (woken (d.system.act last).events).map (·.txn.id) = [3, 4, 2] ∧
    (woken (d'.system.act last).events).map (·.txn.id) = [4, 3, 2] ∧
    ((d.system.act last).system.table 0).AnswersAlike ((d'.system.act last).system.table 0) := by
  intro s d d' last
  have h : Disciplined {} (awaited ++
      .decide 0 ⟨1, 2⟩ (.exchange (.root "a") .x [.root "b", .root "c"]) :: [last]) :=
    ⟨by decide +kernel, by decide +kernel⟩
  have hset : ∀ u, u ∈ [Resource.root "c", .root "b", .root "c"] ↔
      u ∈ [Resource.root "b", .root "c"] := by
    intro u
    simp only [List.mem_cons, List.not_mem_nil, or_false]
    tauto
  obtain ⟨-, -, -, hlater⟩ := releases_as_set h hset
  exact ⟨h, hset, by decide +kernel, by decide +kernel, (hlater [last] [] rfl).1 0⟩

end System

end Locking
