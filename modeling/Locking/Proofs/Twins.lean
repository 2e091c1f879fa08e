import Locking.Proofs.Cascade.Loose
import Locking.Proofs.Counting
import Locking.Proofs.Refusals
import Locking.Proofs.Wakeup

/-!
# Systems that go on alike

Two systems in which no query tells the tables apart, nor the gates, go on alike, whatever is
called: calls come to the same, the same transactions are woken, and where they lead no query tells
the systems apart either.

* `Plan.Matches`: what two calls come to is the same, but for the order in which locks are given up.
* `Planned.loosens`: in a quiet table the agenda of a call is loose once its first task is done.
* `System.Twins`: two systems that no query tells apart.
* `Twins.decide`: calls that come to the same lead from twins to twins.
* `Twins.act`, `Twins.after`: so every action does, and every run.
-/

namespace Locking

open Cascade

/-! ## What calls come to -/

/-- What two calls come to is the same, but for the order in which locks are given up, and for which
lock of the transaction it is that is missing. -/
inductive Plan.Matches (owner : TxnId) : Except Refusal Plan → Except Refusal Plan → Prop where
  | refused (e : Refusal) : Matches owner (.error e) (.error e)
  | notHeld (r u : Resource) : Matches owner (.error (.notHeld owner r)) (.error (.notHeld owner u))
  | go {xs ys : List Task} (hhead : xs.head? = ys.head?)
    (hr : ∀ lock, .release lock ∈ xs ↔ .release lock ∈ ys) :
    Matches owner (.ok (.go xs)) (.ok (.go ys))
  | wait {q p : Request} {place : Place} {held : Mode} (hq : q.terms = p.terms) :
    Matches owner (.ok (.wait q place held)) (.ok (.wait p place held))

theorem Plan.Matches.refl (owner : TxnId) : (plan : Except Refusal Plan) → Matches owner plan plan
  | .error e => .refused e
  | .ok (.go _) => .go rfl fun _ => .rfl
  | .ok (.wait _ _ _) => .wait rfl

/-- What becomes of two calls is the same, but for which lock of the transaction it is that is
missing. -/
inductive Verdict.Alike (owner : TxnId) : Verdict → Verdict → Prop where
  | refl (v : Verdict) : Alike owner v v
  | notHeld (r u : Resource) :
    Alike owner (.refused (.notHeld owner r)) (.refused (.notHeld owner u))

namespace Table

variable {t u : Table} {txn : Txn} {call : Call} {tasks : List Task}

/-- **In a quiet table the agenda of a call is loose once its first task is done**, if its
transaction waits for nothing or only releases a lock. -/
theorem Planned.loosens (h : t.Sound) (hq : t.Quiet) (hp : Planned t txn call (.go tasks))
    (hone : ∀ u, t.queuedSum (Request.isOf u) ≤ 1)
    (hfree : call.operation ≠ .release → t.queuedSum (Request.isOf txn.id) = 0) :
    Loosens t tasks := by
  have hkept : Kept t tasks := hp.kept h fun hcall _ _ => ne_of_queuedSum_eq_zero (hfree hcall)
  have hwatched : Watched t tasks := hp.watched h hq
  have howner := hp.owner?_eq h
  cases hp with
  | grant hcall ha hc =>
    obtain ⟨t', e, hput, -⟩ := h.put ha
    exact .grant hput (.of_effect hkept hwatched (.grant hput) hone (by simp) (by simp))
  | @release r lock hh =>
    obtain ⟨t', htake, -⟩ := h.take (hkept.held List.mem_cons_self)
    refine .release htake (.of_effect hkept hwatched (.release htake) hone ?_ ?_)
    · simp [Task.owner?]
    · simp [Task.Plain]
  | @exchange r mode rs locks drains ha hl hd =>
    obtain ⟨t', e, hput, -⟩ := h.put ha
    have hplain : ∀ a ∈ locks.map Task.release ++ drains, a.Plain := by
      intro a hm
      rcases List.mem_append.1 hm with hm | hm
      · obtain ⟨lock, -, rfl⟩ := List.mem_map.1 hm
        trivial
      · rcases hd with rfl | ⟨rfl, -⟩
        · rw [List.mem_singleton.1 hm]
          trivial
        · cases hm
    have hloose : Loose t' ([] ++ (locks.map .release ++ drains)) := by
      refine .of_effect hkept hwatched (.grant hput) hone (fun a hm u ho => ?_) hplain
      rw [howner a (List.mem_cons_of_mem _ hm) u ho]
      exact hfree (by simp [Call.operation])
    exact .grant hput hloose

/-! ## Numbers of tables -/

namespace Akin

variable (h : t.Akin u) (ht : t.Sound) (hu : u.Sound)

include h ht hu

theorem grantedCount_eq : t.grantedCount = u.grantedCount := by
  rw [← ht.granted, ← hu.granted, grantedTotal_eq, grantedTotal_eq]
  exact finsum_congr fun r => congrArg List.length (h.locksOn r)

theorem waitingCount_eq : t.waitingCount = u.waitingCount := by
  rw [← ht.waiting, ← hu.waiting, waitingTotal_eq, waitingTotal_eq]
  exact finsum_congr h.length_queue

end Akin

end Table

/-! ## Twins -/

/-- Requests on the same terms are of the same transactions. -/
theorem sumOf_isFrom_of_terms {qs ps : List Request}
    (h : (qs.map Request.terms).Perm (ps.map Request.terms)) (key : Nat) :
    sumOf (Request.isFrom key) qs = sumOf (Request.isFrom key) ps := by
  have hterms : ∀ rs : List Request, sumOf (Request.isFrom key) rs =
      sumOf (fun c : Terms => if c.txn.key = key then 1 else 0) (rs.map Request.terms) := by
    intro rs
    rw [sumOf_eq_sum, sumOf_eq_sum, List.map_map]
    rfl
  rw [hterms, hterms, sumOf_perm h]

namespace System

variable {s o : System} {m : Nat} {txn : Txn} {call call' : Call} {a : Action} {d d' : Decision}
  {as bs : List Action} {txns : List Txn}

/-- What a decision leaves in the tally, and what it leaves to be counted, if it does not break
off. -/
theorem Decided.tally_eq (hd : Decided s m txn call d) (hf : d.verdict.fault? = none) :
    (d.system.tally, d.system.uncounted) =
      match d.verdict with
      | .refused e => ((s.tally.request call.operation).refuse e, s.uncounted)
      | _ => ((s.tally.request call.operation).update (s.wakeups m d.events)
          (d.system.table m).grantedCount (d.system.table m).waitingCount, s.uncounted.erase m) := by
  have hcounts : ∀ (t : Table) (es : List Event),
      (s.tally.request call.operation).update (s.wakeups m es) t.grantedCount t.waitingCount =
        (s.tally.request call.operation).update (s.wakeups m es)
          ((s.setTable m t).table m).grantedCount ((s.setTable m t).table m).waitingCount :=
    fun t es => by rw [table_setTable_self]
  cases hd with
  | refused hp => rfl
  | @done tasks t es hp hr => exact congrArg (·, _) (hcounts t es)
  | broken hp hr => cases hf
  | @waits q place held t hp ht hg => exact congrArg (·, _) (hcounts t [])
  | shut hp ht hg => cases hf

/-- **No query tells two systems apart**, and both are in order. -/
structure Twins (txns : List Txn) (s o : System) : Prop where
  order : Orderly txns s
  order' : Orderly txns o
  quiet : s.Quiet
  quiet' : o.Quiet
  akin : ∀ m, (s.table m).Akin (o.table m)
  gate : ∀ txn, s.gates.gate txn = o.gates.gate txn
  tally : s.tally = o.tally
  uncounted : s.uncounted = o.uncounted

namespace Twins

theorem refl (h : Orderly txns s) (hq : s.Quiet) : Twins txns s s :=
  ⟨h, h, hq, hq, fun m => .refl (s.table m), fun _ => rfl, rfl, rfl⟩

theorem isClosed (h : Twins txns s o) (txn : Txn) :
    s.gates.isClosed txn = o.gates.isClosed txn := by
  rw [Gates.isClosed, Gates.isClosed, h.gate]

theorem allows (h : Twins txns s o) (ha : s.Allows a) : o.Allows a := by
  cases a with
  | decide m txn call => exact ha.imp_right fun hg => (h.isClosed txn).symm.trans hg
  | arrive op txn => trivial
  | close txn => exact ha
  | reopen txn => exact ha

/-- **Calls that come to the same lead on alike**: the same becomes of them, requests on the same
terms are woken, the same gates are turned, and no query tells the tables apart. -/
theorem compare (h : Twins txns s o) (hids : DistinctIds txns) (htxn : txn ∈ txns)
    (ha : call.operation = .release ∨ s.gates.isClosed txn = false)
    (hop : call'.operation = call.operation)
    (hp : Plan.Matches txn.id ((s.table m).plan txn call) ((o.table m).plan txn call'))
    (hd : Decided s m txn call d) (hd' : Decided o m txn call' d') :
    d.verdict.Alike txn.id d'.verdict ∧ (d.system.table m).Akin (d'.system.table m) ∧
      ((woken d.events).map Request.terms).Perm ((woken d'.events).map Request.terms) ∧
      ∀ key, turns key d.events = turns key d'.events := by
  generalize hplan : (s.table m).plan txn call = plan,
    hplan' : (o.table m).plan txn call' = plan' at hp
  cases hp with
  | refused e =>
    obtain ⟨hv, he, ht⟩ := hd.of_refused hplan
    obtain ⟨hv', he', ht'⟩ := hd'.of_refused hplan'
    rw [hv, he, ht, hv', he', ht']
    exact ⟨.refl _, h.akin m, .refl _, fun _ => rfl⟩
  | notHeld r u =>
    obtain ⟨hv, he, ht⟩ := hd.of_refused hplan
    obtain ⟨hv', he', ht'⟩ := hd'.of_refused hplan'
    rw [hv, he, ht, hv', he', ht']
    exact ⟨.notHeld r u, h.akin m, .refl _, fun _ => rfl⟩
  | @go xs ys hhead hr =>
    have hs := h.order.sound m
    have ho := h.order'.sound m
    have hgate : call.operation ≠ .release → s.gates.isClosed txn = false := ha.resolve_left
    have hxs : Loosens (s.table m) xs :=
      (Table.planned_of_plan hs hplan).loosens hs (h.quiet m)
        (h.order.queuedSum_isOf_le hids m) fun hcall =>
          h.order.queuedSum_isOf_of_open hids htxn (hgate hcall) m
    have hys : Loosens (o.table m) ys :=
      (Table.planned_of_plan ho hplan').loosens ho (h.quiet' m)
        (h.order'.queuedSum_isOf_le hids m) fun hcall =>
          h.order'.queuedSum_isOf_of_open hids htxn
            ((h.isClosed txn).symm.trans (hgate (hop ▸ hcall))) m
    obtain ⟨hv, he, ht, -⟩ := hd.of_go hplan hxs.fault?_run
    obtain ⟨hv', he', ht', -⟩ := hd'.of_go hplan' hys.fault?_run
    obtain ⟨hakin, hwoken⟩ := hxs.akin_run hys hs ho (h.akin m) hhead hr
    rw [hv, he, ht, hv', he', ht']
    refine ⟨.refl _, hakin, hwoken, fun key => ?_⟩
    rw [turns_run, turns_run, sumOf_isFrom_of_terms hwoken]
  | wait hq =>
    have hcall := (Table.planned_of_plan (h.order.sound m) hplan).request.2.2
    have hg := ha.resolve_left hcall
    obtain ⟨hv, he, ht, -⟩ := hd.of_wait hplan hg
    obtain ⟨hv', he', ht', -⟩ := hd'.of_wait hplan' ((h.isClosed txn).symm.trans hg)
    rw [hv, he, ht, hv', he', ht']
    exact ⟨.refl _, (h.akin m).enqueue hq _, .refl _, fun _ => rfl⟩

/-- **Calls that come to the same lead from twins to twins.** -/
theorem decide (h : Twins txns s o) (hids : DistinctIds txns) (htxn : txn ∈ txns)
    (ha : s.Allows (.decide m txn call)) (hop : call'.operation = call.operation)
    (hp : Plan.Matches txn.id ((s.table m).plan txn call) ((o.table m).plan txn call')) :
    let d := s.decide m txn call
    let d' := o.decide m txn call'
    d.verdict.Alike txn.id d'.verdict ∧
      ((woken d.events).map Request.terms).Perm ((woken d'.events).map Request.terms) ∧
      Twins txns d.system d'.system := by
  intro d d'
  have hd : Decided s m txn call d := System.decided h.order.sound m txn call
  have hd' : Decided o m txn call' d' := System.decided h.order'.sound m txn call'
  have ha' : o.Allows (.decide m txn call') := by
    have hallowed : call.operation = .release ∨ o.gates.isClosed txn = false := h.allows ha
    rwa [← hop] at hallowed
  have hcaller : ∀ (c : Call) u, (Action.decide m txn c).caller? = some u → u ∈ txns := by
    rintro c _ ⟨⟩
    exact htxn
  have hf : d.verdict.fault? = none := (h.order.decided hids htxn ha hd).1
  have hf' : d'.verdict.fault? = none := (h.order'.decided hids htxn ha' hd').1
  obtain ⟨hv, hakin, hwoken, hturns⟩ := h.compare hids htxn ha hop hp hd hd'
  have horder : Orderly txns d.system := h.order.act hids ha (hcaller call)
  have horder' : Orderly txns d'.system := h.order'.act hids ha' (hcaller call')
  have hcounts : (d.system.tally, d.system.uncounted) = (d'.system.tally, d'.system.uncounted) := by
    have hlen : (woken d.events).length = (woken d'.events).length := by
      simpa using hwoken.length_eq
    rw [hd.tally_eq hf, hd'.tally_eq hf', wakeups, wakeups, ← h.tally, ← h.uncounted, ← hop, ← hlen,
      hakin.grantedCount_eq (horder.sound m) (horder'.sound m),
      hakin.waitingCount_eq (horder.sound m) (horder'.sound m)]
    generalize d.verdict = v, d'.verdict = v' at hv
    cases hv with
    | refl => rfl
    | notHeld r u => rfl
  refine ⟨hv, hwoken, ⟨horder, horder', lasting_quiet.decided h.order.sound h.quiet hd hf,
    lasting_quiet.decided h.order'.sound h.quiet' hd' hf', fun n => ?_, fun u => ?_,
    congrArg Prod.fst hcounts, congrArg Prod.snd hcounts⟩⟩
  · by_cases hn : m = n
    · exact hn ▸ hakin
    · rw [hd.table_other hn, hd'.table_other hn]
      exact h.akin n
  · rw [hd.gate, hd'.gate, hturns, h.gate]

/-- **The same action leads from twins to twins**, and the same becomes of it. -/
theorem act (h : Twins txns s o) (hids : DistinctIds txns) (ha : s.Allows a)
    (hc : ∀ txn, a.caller? = some txn → txn ∈ txns) :
    (s.act a).verdict = (o.act a).verdict ∧
      ((woken (s.act a).events).map Request.terms).Perm
        ((woken (o.act a).events).map Request.terms) ∧
      Twins txns (s.act a).system (o.act a).system := by
  cases a with
  | decide m txn call =>
    have hplan : (s.table m).plan txn call = (o.table m).plan txn call :=
      (h.akin m).plan (h.order.sound m) (h.order'.sound m) txn call
    obtain ⟨hv, hwoken, htwins⟩ :=
      h.decide hids (hc txn rfl) ha rfl (hplan ▸ .refl txn.id _)
    refine ⟨?_, hwoken, htwins⟩
    -- the calls come to the very same, so they also miss the same lock
    have hrefused : ∀ e, (s.decide m txn call).verdict = .refused e ↔
        (o.decide m txn call).verdict = .refused e := fun e => by
      rw [verdict_eq_refused_iff h.order.sound, verdict_eq_refused_iff h.order'.sound, hplan]
    change (s.decide m txn call).verdict = (o.decide m txn call).verdict
    generalize (s.decide m txn call).verdict = v, (o.decide m txn call).verdict = v' at hv hrefused
    cases hv with
    | refl => rfl
    | notHeld r u => exact ((hrefused _).1 rfl).symm
  | arrive op txn =>
    refine ⟨?_, .refl _, ⟨?_, ?_, h.quiet, h.quiet', h.akin, h.gate, ?_, h.uncounted⟩⟩
    · exact congrArg (fun b : Bool => if b then Verdict.waits else .done) (h.isClosed txn)
    · exact h.order.act (a := .arrive op txn) hids trivial hc
    · exact h.order'.act (a := .arrive op txn) hids trivial hc
    · exact congrArg (Tally.block · op) h.tally
  | close txn => exact ha.elim
  | reopen txn => exact ha.elim

/-- What may follow in one system may follow in its twin. -/
theorem underway (h : Twins txns s o) (hu : Underway txns s as) : Underway txns o as where
  toOrderly := h.order'
  ids := hu.ids
  allowed := by
    induction as generalizing s o with
    | nil => trivial
    | cons a as ih =>
      have hnext := h.act hu.ids hu.allowed.1 fun _ hc => hu.caller_mem hc
      exact ⟨h.allows hu.allowed.1, ih hnext.2.2 hu.tail⟩
  callers := hu.callers

/-- **Twins stay twins in every run.** -/
theorem after (h : Twins txns s o) (hu : Underway txns s as) :
    Twins txns (s.after as) (o.after as) := by
  induction as generalizing s o with
  | nil => exact h
  | cons a as ih =>
    exact ih (h.act hu.ids hu.allowed.1 fun _ hc => hu.caller_mem hc).2.2 hu.tail

end Twins

end System

end Locking
