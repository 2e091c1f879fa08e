import Locking.Proofs.Discipline

/-!
# From the queue to the gate and back

In a disciplined run a transaction that is told to wait has one request in one queue, and is let
through when that request is granted. When it arrives at its gate makes no difference: it may be let
through before it gets there.

* `System.WaitsOnce`, `System.WaitsNowhere`: what a closed and an open gate stand for.
* `System.Stopped`: a transaction is still at its gate after some actions.
* `Underway.alternates`: closings and reopenings of a gate alternate.
* `Orderly.granted_or_waits`: one action leaves a waiting request where it is, with the gate closed,
  or it grants it and reopens the gate.
* `System.handoff`: all this for every disciplined run.
-/

namespace Locking

namespace System

variable {s : System} {q : Request} {txn : Txn} {a : Action} {as : List Action}
  {txns : List Txn} {settings : Settings}

/-- Exactly one request of the transaction waits, in one queue of one manager. -/
def WaitsOnce (s : System) (txn : Txn) : Prop :=
  ∃ m r q, (s.table m).requestsFrom txn.key r = [q] ∧
    ∀ n u, m ≠ n ∨ r ≠ u → (s.table n).requestsFrom txn.key u = []

/-- No request of the transaction waits. -/
def WaitsNowhere (s : System) (txn : Txn) : Prop :=
  ∀ m r, (s.table m).requestsFrom txn.key r = []

/-- A transaction at its gate is still there after some actions: the gate was closed all the time. The
threads at the gate sleep as long (`System.stopped_iff_asleep`). -/
def Stopped (s : System) (txn : Txn) : List Action → Prop
  | [] => s.gates.isClosed txn
  | a :: as => s.gates.isClosed txn ∧ Stopped (s.act a).system txn as

theorem isClosed_of_stopped (h : s.Stopped txn as) : s.gates.isClosed txn := by
  cases as with
  | nil => exact h
  | cons a as => exact h.1

theorem sum_joined_eq_zero (h : s.Sound) (hf : (s.act a).verdict.fault? = none)
    (hask : ∀ other, a.asker? = some other → other.key ≠ txn.key) :
    sumOf (Request.isFrom txn.key) (joined (s.act a).events) = 0 := by
  by_contra hne
  obtain ⟨p, hp, hw⟩ := exists_of_sumOf_ne_zero hne
  rw [Request.isFrom, Ne, ite_eq_right_iff, Classical.not_imp] at hw
  exact hask p.txn (asker?_of_joined h hf hp) hw.1

theorem isClosed_of_asker (ha : s.Allows a) (hask : a.asker? = some txn) :
    s.gates.isClosed txn = false := by
  cases a with
  | decide m other call =>
    simp only [Action.asker?] at hask
    split at hask
    · cases hask
    · rename_i hcall
      cases hask
      exact ha.resolve_left hcall
  | _ => cases hask

namespace Orderly

theorem closed_iff (h : Orderly txns s) (txn : Txn) : s.gates.isClosed txn ↔ s.WaitsOnce txn := by
  rw [WaitsOnce, ← waitingFor_eq_one_iff, ← h.closed txn, Bool.toNat_eq_one]

theorem open_iff (h : Orderly txns s) (txn : Txn) :
    s.gates.isClosed txn = false ↔ s.WaitsNowhere txn := by
  rw [WaitsNowhere, ← waitingFor_eq_zero_iff, ← h.closed txn, Bool.toNat_eq_zero]

/-- Where an allowed action that does not break off leaves the gate of a transaction. -/
theorem isClosed_act (h : Orderly txns s) (a : Action) (txn : Txn) :
    (s.act a).system.gates.isClosed txn =
      ((turns txn.key (s.act a).events).foldl Gate.turn (s.gates.gate txn)).closed := by
  rw [Gates.isClosed, gate_act h.sound]

theorem isClosed_of_waits (h : Orderly txns s) (hw : s.Waits q) : s.gates.isClosed q.txn := by
  obtain ⟨m, r, hq⟩ := hw
  cases hg : s.gates.isClosed q.txn with
  | true => rfl
  | false =>
    have hnone := h.requestsFrom_of_open hg m r
    rw [Table.requestsFrom, List.filter_eq_nil_iff] at hnone
    exact absurd (by simp) (hnone q hq)

/-- A gate stays open while its transaction asks for nothing. -/
theorem open_act (h : Orderly txns s) (h' : Orderly txns (s.act a).system)
    (hf : (s.act a).verdict.fault? = none) (hg : s.gates.isClosed txn = false)
    (hask : ∀ other, a.asker? = some other → other.key ≠ txn.key) :
    (s.act a).system.gates.isClosed txn = false := by
  have hclosed := h.closed txn
  have hclosed' := h'.closed txn
  have hj := sum_joined_eq_zero h.sound hf hask
  have hc := (act_conserves h.sound hf (Request.isFrom txn.key)).1
  change (s.act a).system.waitingFor txn.key + _ = s.waitingFor txn.key + _ at hc
  rw [hg, Bool.toNat_false] at hclosed
  exact Bool.toNat_eq_zero.1 (by omega)

/-- **An action leaves a waiting request where it is, or it grants it and reopens the gate.** -/
theorem granted_or_waits (h : Orderly txns s) (h' : Orderly txns (s.act a).system)
    (ha : s.Allows a) (hf : (s.act a).verdict.fault? = none) (hw : s.Waits q) :
    (.granting q ∈ (s.act a).events ∧ (s.act a).system.gates.isClosed q.txn = false) ∨
      (.granting q ∉ (s.act a).events ∧ (s.act a).system.Waits q) := by
  have hg := h.isClosed_of_waits hw
  -- a transaction that waits asks for nothing, so no other request of it comes to a queue
  have hj : sumOf (Request.isFrom q.txn.key) (joined (s.act a).events) = 0 :=
    sum_joined_eq_zero h.sound hf fun other hask hk => by
      have hopen := isClosed_of_asker ha hask
      rw [s.gates.isClosed_eq_of_key hk, hg] at hopen
      cases hopen
  by_cases hm : .granting q ∈ (s.act a).events
  · refine .inl ⟨hm, ?_⟩
    have hone := Bool.toNat_le (s.gates.isClosed q.txn)
    have hclosed := h.closed q.txn
    have hclosed' := h'.closed q.txn
    have hc := (act_conserves h.sound hf (Request.isFrom q.txn.key)).1
    change (s.act a).system.waitingFor q.txn.key + _ = s.waitingFor q.txn.key + _ at hc
    have hpos := le_sumOf_of_mem (w := Request.isFrom q.txn.key) (mem_taken.2 hm)
    rw [Request.isFrom, if_pos rfl] at hpos
    exact Bool.toNat_eq_zero.1 (by omega)
  · refine .inr ⟨hm, ?_⟩
    have hc := (act_conserves h.sound hf (Request.isThis q)).1
    rw [waits_iff] at hw ⊢
    rw [← mem_taken, ← Request.sumOf_isThis_ne_zero_iff, not_not] at hm
    omega

end Orderly

namespace Underway

/-- **The turns of a gate alternate.** -/
theorem alternates (h : Underway txns s as) (txn : Txn) :
    Gates.Alternates (s.gates.isClosed txn) (turns txn.key (s.trace as)) := by
  induction as generalizing s with
  | nil => trivial
  | cons a as ih =>
    have htail := ih h.tail
    rw [h.isClosed_act] at htail
    rw [trace, turns_append]
    rcases h.turned h.allowed.1 h.fault?_head.1 txn with ⟨ht, -⟩ | ⟨ht, hg, -⟩ | ⟨ht, hg, -⟩
    · rw [ht] at htail ⊢
      exact htail
    · rw [ht] at htail ⊢
      rw [hg]
      exact ⟨rfl, htail⟩
    · rw [ht] at htail ⊢
      rw [hg]
      exact ⟨rfl, htail⟩

theorem open_after (h : Underway txns s as) (hg : s.gates.isClosed txn = false)
    (hask : ∀ a ∈ as, ∀ other, a.asker? = some other → other.key ≠ txn.key) :
    (s.after as).gates.isClosed txn = false := by
  induction as generalizing s with
  | nil => exact hg
  | cons a as ih =>
    have hg' := h.open_act h.tail.toOrderly h.fault?_head.1 hg (hask a List.mem_cons_self)
    exact ih h.tail hg' fun b hb => hask b (List.mem_cons_of_mem a hb)

/-- A request still waits after some actions, or one of them has granted it; then the gate of its
transaction is open, if the transaction has asked for nothing else. -/
theorem granted_or_waits_after (h : Underway txns s as) (hw : s.Waits q)
    (hask : ∀ a ∈ as, ∀ other, a.asker? = some other → other.key ≠ q.txn.key) :
    (.granting q ∈ s.trace as ∧ (s.after as).gates.isClosed q.txn = false) ∨
      (.granting q ∉ s.trace as ∧ (s.after as).Waits q) := by
  induction as generalizing s with
  | nil => exact .inr ⟨by simp [trace], hw⟩
  | cons a as ih =>
    have hrest : ∀ b ∈ as, ∀ other, b.asker? = some other → other.key ≠ q.txn.key :=
      fun b hb => hask b (List.mem_cons_of_mem a hb)
    rcases h.granted_or_waits h.tail.toOrderly h.allowed.1 h.fault?_head.1 hw with
      ⟨hm, hg⟩ | ⟨hm, hw'⟩
    · exact .inl ⟨List.mem_append_left _ hm, h.tail.open_after hg hrest⟩
    · rcases ih h.tail hw' hrest with ⟨hm', hg⟩ | ⟨hm', hw''⟩
      · exact .inl ⟨List.mem_append_right _ hm', hg⟩
      · exact .inr ⟨fun hc => (List.mem_append.1 hc).elim hm hm', hw''⟩

/-- **A transaction stays at its gate exactly until its request is granted.** -/
theorem stopped_iff (h : Underway txns s as) (hw : s.Waits q) :
    s.Stopped q.txn as ↔ .granting q ∉ s.trace as := by
  induction as generalizing s with
  | nil => exact iff_of_true (h.isClosed_of_waits hw) (by simp [trace])
  | cons a as ih =>
    rw [trace, List.mem_append, not_or]
    rcases h.granted_or_waits h.tail.toOrderly h.allowed.1 h.fault?_head.1 hw with
      ⟨hm, hg⟩ | ⟨hm, hw'⟩
    · refine iff_of_false (fun hs => ?_) fun hn => hn.1 hm
      rw [isClosed_of_stopped hs.2] at hg
      cases hg
    · rw [← ih h.tail hw']
      exact and_congr (iff_of_true (h.isClosed_of_waits hw) hm) Iff.rfl

end Underway

/-- A transaction that is told to wait has one request in a queue, and its gate is closed. -/
theorem Decided.queued {m : Nat} {call : Call} {d : Decision} (h : s.Sound)
    (hd : Decided s m txn call d) (hv : d.verdict = .waits) :
    ∃ q held, d.events = [.queued call.operation q held, .gate (.closed txn)] ∧ q.txn = txn ∧
      d.system.Waits q := by
  have hf : d.verdict.fault? = none := by rw [hv]; rfl
  have hc := fun q => (hd.conserves h hf (Request.isThis q)).1
  cases hd with
  | @waits q place held t hp ht hg =>
    have hone : sumOf (Request.isThis q) [q] ≠ 0 :=
      Request.sumOf_isThis_ne_zero_iff.2 List.mem_cons_self
    refine ⟨q, held, rfl, (Table.planned_of_plan (h m) hp).request.1, waits_iff.2 ?_⟩
    -- the request has joined a queue, and none has been taken
    have hq := hc q
    change _ + 0 = _ + sumOf (Request.isThis q) [q] at hq
    omega
  | refused hp => cases hv
  | done hp hr => cases hv
  | broken hp hr => cases hv
  | shut hp ht hg => cases hv

/-- **From the queue to the gate and back.** Whenever in a disciplined run, the gate of a transaction
is closed exactly if one request of it waits, in one queue of one manager, and open exactly if none
does. Its closings and reopenings alternate, and their difference is the number of its requests that
wait. A transaction that is told to wait has queued one request. If it asks for nothing else before
it arrives at its gate, then it goes on at once if that request has been granted in the meantime,
and stops there otherwise, exactly until the request is granted. -/
theorem handoff (h : Disciplined settings as) :
    (∀ txn : Txn,
      (((start settings).after as).gates.isClosed txn ↔
        ((start settings).after as).WaitsOnce txn) ∧
      (((start settings).after as).gates.isClosed txn = false ↔
        ((start settings).after as).WaitsNowhere txn) ∧
      Gates.Alternates false (turns txn.key ((start settings).trace as)) ∧
      (((start settings).after as).gates.gate txn).timesClosed =
        (((start settings).after as).gates.gate txn).timesReopened +
          ((start settings).after as).waitingFor txn.key) ∧
    ∀ before between rest m txn call,
      as = before ++ .decide m txn call :: (between ++ .arrive call.operation txn :: rest) →
      (((start settings).after before).decide m txn call).verdict = .waits →
      (∀ a ∈ between, ∀ other, a.asker? = some other → other.key ≠ txn.key) →
      let told := (start settings).after (before ++ [.decide m txn call])
      let arrival := (told.after between).arrive call.operation txn
      ∃ q held,
        (((start settings).after before).decide m txn call).events =
          [.queued call.operation q held, .gate (.closed txn)] ∧
        (.granting q ∈ told.trace between → arrival.verdict = .done) ∧
        (.granting q ∉ told.trace between → arrival.verdict = .waits ∧
          (arrival.system.Stopped txn rest ↔ .granting q ∉ arrival.system.trace rest)) := by
  constructor
  · intro txn
    have horder := h.underway.orderly_after
    exact ⟨horder.closed_iff txn, horder.open_iff txn, h.underway.alternates txn,
      horder.times txn⟩
  · rintro before between rest m txn call rfl hv hask told arrival
    have hnow := h.underway.drop
    obtain ⟨q, held, he, rfl, hw⟩ :=
      (System.decided hnow.sound m txn call).queued hnow.sound hv
    -- what follows the decision is one run up to the arrival, and another one after it
    have htold : told = (((start settings).after before).decide m q.txn call).system :=
      after_append _ before _
    have hbetween := hnow.tail
    change Underway _ (((start settings).after before).decide m q.txn call).system _ at hbetween
    rw [← htold] at hw hbetween
    have hrest := hbetween.drop.tail
    refine ⟨q, held, he, ?_⟩
    rcases hbetween.take.granted_or_waits_after hw hask with ⟨hm, hg⟩ | ⟨hm, hw'⟩
    · refine ⟨fun _ => ?_, fun hn => absurd hm hn⟩
      simp only [arrival, arrive, hg, Bool.false_eq_true, if_false]
    · refine ⟨fun hc => absurd hc hm, fun _ => ⟨?_, hrest.stopped_iff hw'⟩⟩
      simp only [arrival, arrive, hbetween.drop.isClosed_of_waits hw', if_true]

theorem handoff_handover :
    Disciplined {} handover ∧
      ((start {}).after handover).WaitsNowhere ⟨1, 2⟩ ∧
      (((start {}).after (handover.take 3)).arrive .acquire ⟨1, 2⟩).verdict = .waits ∧
      ¬ (((start {}).after (handover.take 3)).arrive .acquire ⟨1, 2⟩).system.Stopped ⟨1, 2⟩
        (handover.drop 4) := by
  obtain ⟨hgates, harrival⟩ := handoff disciplined_handover
  obtain ⟨q, held, he, -, hsuspended⟩ := harrival (handover.take 2) [] (handover.drop 4) 0 ⟨1, 2⟩
    (.acquire (.root "a") .s) rfl (by decide +kernel) (by simp)
  have hq : (((start {}).after (handover.take 2)).decide 0 ⟨1, 2⟩
      (.acquire (.root "a") .s)).events =
      [.queued .acquire ⟨⟨1, 2⟩, ⟨.root "a", .s, 2⟩, []⟩ .nl, .gate (.closed ⟨1, 2⟩)] := by
    decide +kernel
  rw [hq] at he
  cases he
  obtain ⟨hverdict, hstopped⟩ := hsuspended (by decide +kernel)
  refine ⟨disciplined_handover, (hgates ⟨1, 2⟩).2.1.1 (by decide +kernel), hverdict, ?_⟩
  exact fun hs => hstopped.1 hs (by decide +kernel)

end System

end Locking
