import Locking.Proofs.Cascade.Confined
import Locking.Proofs.Gates

/-!
# Isolation of unrelated work

Two strands of work that share neither transactions nor resources may be woven into each other in any
way. They have one table, one count of slots and all counters in common, and still each of them goes
on as it would on its own.

* `Action.txn`, `Action.names`, `scope`: what actions have to do with.
* `strand`: the actions of one strand of a run; `Unrelated`: two strands have nothing in common.
* `System.Mirrors`: a system that looks like another one within a scope.
* `Mirrors.act`, `Mirrors.act_outside`: it still does after an action in both, and after an action of
  unrelated work in the first one.
* `System.isolation`: every strand of every run goes on as it would on its own.
-/

namespace Locking

open Cascade

/-! ## Scopes of calls -/

namespace Table

variable {σ : Scope} {t : Table} {txn : Txn} {call : Call} {tasks : List Task}

/-- The request of a call stays within the scope of the call. -/
theorem within_request (h : t.Sound) (hid : σ.ids txn.id) (hkey : σ.keys txn.key)
    (hcall : ∀ r ∈ call.names, σ.resources r) : (t.request txn call).Within σ where
  resource := hcall _ call.resource_mem_names
  id := hid
  key := hkey
  releases := fun lock hm => by
    cases call with
    | exchange r mode rs =>
      exact hcall _ (List.mem_cons_of_mem r ((mem_offers_iff h mode).1 hm).1)
    | _ => cases hm

/-- The request of a call that has to wait stays within the scope of the call. -/
theorem within_of_wait (h : t.Sound) (hid : σ.ids txn.id) (hkey : σ.keys txn.key)
    (hcall : ∀ r ∈ call.names, σ.resources r) {q : Request} {place : Place} {held : Mode}
    (hp : t.plan txn call = .ok (.wait q place held)) : q.Within σ := by
  have hoperation := (planned_of_plan h hp).request.2.2
  cases asked_of_plan hoperation hp
  exact within_request h hid hkey hcall

/-- **The agenda of a call stays within the scope of the call**, with all requests that wait in it. -/
theorem confined_of_plan (h : t.Sound)
    (hqueues : ∀ {r : Resource}, σ.resources r → ∀ q ∈ t.queue r, q.Within σ)
    (hid : σ.ids txn.id) (hkey : σ.keys txn.key) (hcall : ∀ r ∈ call.names, σ.resources r)
    (hp : t.plan txn call = .ok (.go tasks)) : Confined σ t tasks where
  toPoised := (planned_of_plan h hp).poised h
  queues := hqueues
  tasks := fun task hm => by
    by_cases hrelease : call.operation = .release
    · obtain ⟨r, lock, rfl, hh, rfl⟩ := (planned_of_plan h hp).of_release hrelease
      obtain ⟨ho, hr, -⟩ := h.of_held? hh
      rw [List.mem_singleton.1 hm]
      exact ⟨hr ▸ hcall _ List.mem_cons_self, ho ▸ hid⟩
    · have hwithin : (t.request txn call).Within σ := within_request h hid hkey hcall
      cases asked_of_plan hrelease hp with
      | @now drains ha hq hd =>
        rcases List.mem_append.1 hm with hm | hm
        · rcases List.mem_cons.1 hm with rfl | hm
          · exact ⟨hwithin.resource, hid⟩
          · obtain ⟨lock, hl, rfl⟩ := List.mem_map.1 hm
            obtain ⟨ho, -, -⟩ := h.of_held? (held?_of_mem_offers h hl)
            exact ⟨hwithin.releases lock hl, ho ▸ hid⟩
        · rcases hd with rfl | rfl
          · cases hm
          · rw [List.mem_singleton.1 hm]
            exact hwithin.resource

end Table

/-! ## Strands of work -/

namespace Action

/-- The transaction that an action is about. -/
def txn : Action → Txn
  | decide _ txn _ | arrive _ txn | close txn | reopen txn => txn

/-- The resources that an action names. -/
def names : Action → List Resource
  | decide _ _ call => call.names
  | arrive _ _ | close _ | reopen _ => []

/-- The action is part of a call to the manager: the decision, or the arrival at the gate. -/
def OfCall (m : Nat) : Action → Prop
  | decide n _ _ => n = m
  | arrive _ _ => True
  | close _ | reopen _ => False

instance decidableOfCall (m : Nat) : (a : Action) → Decidable (a.OfCall m)
  | decide n _ _ => inferInstanceAs (Decidable (n = m))
  | arrive _ _ => .isTrue trivial
  | close _ | reopen _ => .isFalse id

/-- A part of a call that stays within a scope. -/
structure Within (σ : Scope) (m : Nat) (a : Action) : Prop where
  call : a.OfCall m
  id : σ.ids a.txn.id
  key : σ.keys a.txn.key
  names : ∀ r ∈ a.names, σ.resources r

end Action

/-- All that some actions have to do with. -/
def scope (as : List Action) : Scope where
  resources := fun r => ∃ a ∈ as, r ∈ a.names
  ids := fun txn => ∃ a ∈ as, a.txn.id = txn
  keys := fun key => ∃ a ∈ as, a.txn.key = key

/-- The actions of one of two strands of work, in order. -/
def strand (side : Bool) (as : List (Bool × Action)) : List Action :=
  (as.filter (·.1 = side)).map Prod.snd

/-- **Two strands of calls to one manager have nothing in common**: no id of a transaction, and no
resource. Every transaction goes by one id. -/
structure Unrelated (m : Nat) (xs ys : List Action) : Prop where
  calls : ∀ a ∈ xs ++ ys, a.OfCall m
  oneId : ∀ a ∈ xs ++ ys, ∀ b ∈ xs ++ ys, a.txn.key = b.txn.key → a.txn.id = b.txn.id
  ids : ∀ a ∈ xs, ∀ b ∈ ys, a.txn.id ≠ b.txn.id
  names : ∀ a ∈ xs, ∀ b ∈ ys, ∀ r ∈ a.names, r ∉ b.names

section Strands

variable {m : Nat} {xs ys : List Action} {as : List (Bool × Action)} {side : Bool} {a : Action}

theorem Unrelated.symm (h : Unrelated m xs ys) : Unrelated m ys xs where
  calls := fun a hm => h.calls a (List.mem_append.2 (List.mem_append.1 hm).symm)
  oneId := fun a ha b hb => h.oneId a (List.mem_append.2 (List.mem_append.1 ha).symm) b
    (List.mem_append.2 (List.mem_append.1 hb).symm)
  ids := fun a ha b hb => (h.ids b hb a ha).symm
  names := fun a ha b hb r hr hr' => h.names b hb a ha r hr' hr

theorem Unrelated.apart (h : Unrelated m xs ys) : (scope xs).Apart (scope ys) where
  resources := fun ⟨a, ha, hr⟩ ⟨b, hb, hr'⟩ => h.names a ha b hb _ hr hr'
  ids := fun ⟨a, ha, hid⟩ ⟨b, hb, hid'⟩ => h.ids a ha b hb (hid.trans hid'.symm)
  keys := fun ⟨a, ha, hk⟩ ⟨b, hb, hk'⟩ => h.ids a ha b hb <|
    h.oneId a (List.mem_append_left ys ha) b (List.mem_append_right xs hb) (hk.trans hk'.symm)

theorem mem_strand : a ∈ strand side as ↔ (side, a) ∈ as := by
  simp [strand]

theorem strand_cons (side : Bool) (p : Bool × Action) (as : List (Bool × Action)) :
    strand side (p :: as) = if p.1 = side then p.2 :: strand side as else strand side as := by
  by_cases h : p.1 = side <;> simp [strand, h]

theorem Unrelated.within (h : Unrelated m (strand side as) ys) (ha : (side, a) ∈ as) :
    a.Within (scope (strand side as)) m where
  call := h.calls a (List.mem_append_left _ (mem_strand.2 ha))
  id := ⟨a, mem_strand.2 ha, rfl⟩
  key := ⟨a, mem_strand.2 ha, rfl⟩
  names := fun _ hr => ⟨a, mem_strand.2 ha, hr⟩

end Strands

/-! ## Actions of two systems -/

namespace System

variable {σ τ : Scope} {s o o' : System} {m : Nat} {txn : Txn} {call : Call} {d : Decision}
  {a : Action} {settings : Settings}

/-- **A system looks like another one within a scope**: its table and its gates do, and what waits in
the scope stays within it. -/
structure Mirrors (σ : Scope) (m : Nat) (s o : System) : Prop where
  left : s.Sound
  right : o.Sound
  agrees : (s.table m).AgreesOn σ (o.table m)
  gates : ∀ txn : Txn, σ.keys txn.key → s.gates.gate txn = o.gates.gate txn
  queues : ∀ {r : Resource}, σ.resources r → ∀ q ∈ (s.table m).queue r, q.Within σ

theorem Mirrors.isClosed (h : Mirrors σ m s o) (hkey : σ.keys txn.key) :
    s.gates.isClosed txn = o.gates.isClosed txn := by
  rw [Gates.isClosed, Gates.isClosed, h.gates txn hkey]

/-- **A call does the same in both systems**, and they still look alike. -/
theorem Mirrors.decide (h : Mirrors σ m s o) (hid : σ.ids txn.id) (hkey : σ.keys txn.key)
    (hcall : ∀ r ∈ call.names, σ.resources r) (hd : Decided s m txn call d)
    (hf : d.verdict.fault? = none) :
    (o.decide m txn call).verdict = d.verdict ∧ (o.decide m txn call).events = d.events ∧
      Mirrors σ m d.system (o.decide m txn call).system := by
  have hd' : Decided o m txn call (o.decide m txn call) := decided h.right m txn call
  have hplan := h.agrees.plan (h.left m) (h.right m) txn hcall
  generalize o.decide m txn call = d' at hd' ⊢
  -- the gates are turned as the events say, so the tables are what is left to look at
  have hmirrors : d'.verdict = d.verdict → d'.events = d.events →
      (d.system.table m).AgreesOn σ (d'.system.table m) →
      (∀ {r}, σ.resources r → ∀ q ∈ (d.system.table m).queue r, q.Within σ) →
      d'.verdict = d.verdict ∧ d'.events = d.events ∧ Mirrors σ m d.system d'.system := by
    intro hv he hagrees hqueues
    refine ⟨hv, he, hd.sound h.left, hd'.sound h.right, hagrees, fun other hother => ?_, hqueues⟩
    rw [hd.gate, hd'.gate, he, h.gates other hother]
  rcases hd.goes_through hf with ⟨r, hp, hv, he, ht⟩ | ⟨tasks, hp, hrun, hv, he, ht⟩ |
    ⟨q, place, held, hp, hv, he, ht⟩
  · obtain ⟨hv', he', ht'⟩ := hd'.of_refused (hplan.symm.trans hp)
    refine hmirrors (hv'.trans hv.symm) (he'.trans he.symm) ?_ ?_
    · rw [ht, ht']
      exact h.agrees
    · rw [ht]
      exact h.queues
  · have hconfined : Confined σ (s.table m) tasks :=
      Table.confined_of_plan (h.left m) h.queues hid hkey hcall hp
    have hp' := hplan.symm.trans hp
    obtain ⟨hfault, hevents, hagrees⟩ := hconfined.run_agrees
      ((Table.planned_of_plan (h.right m) hp').poised (h.right m)) h.agrees hrun
    obtain ⟨hv', he', ht', -⟩ := hd'.of_go hp' hfault
    refine hmirrors (hv'.trans hv.symm) (he'.trans (hevents.trans he.symm)) ?_ ?_
    · rw [ht, ht']
      exact hagrees
    · intro r hr q hq
      rw [ht] at hq
      exact h.queues hr q (hconfined.queue_run r ▸ List.mem_append_right _ hq)
  · have hopen := hd.open_of_waits hv
    rw [h.isClosed hkey] at hopen
    obtain ⟨hv', he', ht', -⟩ := hd'.of_wait (hplan.symm.trans hp) hopen
    refine hmirrors (hv'.trans hv.symm) (he'.trans he.symm) ?_ ?_
    · rw [ht, ht']
      exact h.agrees.enqueue q place
    · intro r hr p hm
      rw [ht] at hm
      rcases Table.eq_or_mem_of_mem_enqueue hm with rfl | hm
      · exact Table.within_of_wait (h.left m) hid hkey hcall hp
      · exact h.queues hr p hm

/-- What a call of unrelated work does is not seen in a scope. -/
theorem Decided.outside (hs : s.Sound) (hd : Decided s m txn call d)
    (hf : d.verdict.fault? = none)
    (hqueues : ∀ {r : Resource}, σ.resources r → ∀ q ∈ (s.table m).queue r, q.Within σ)
    (hid : σ.ids txn.id) (hkey : σ.keys txn.key) (hcall : ∀ r ∈ call.names, σ.resources r)
    (hapart : σ.Apart τ) :
    (d.system.table m).AgreesOn τ (s.table m) ∧
      ∀ other : Txn, τ.keys other.key → d.system.gates.gate other = s.gates.gate other := by
  rcases hd.goes_through hf with ⟨r, hp, hv, he, ht⟩ | ⟨tasks, hp, hrun, hv, he, ht⟩ |
    ⟨q, place, held, hp, hv, he, ht⟩
  · refine ⟨ht ▸ .refl τ _, fun other _ => ?_⟩
    rw [hd.gate, he]
    rfl
  · obtain ⟨hagrees, hwoken⟩ :=
      (Table.confined_of_plan (hs m) hqueues hid hkey hcall hp).run_outside hapart hrun
    refine ⟨ht ▸ hagrees, fun other hother => ?_⟩
    -- nobody there is woken
    have hnone : sumOf (Request.isFrom other.key) (woken (run (s.table m) tasks).events) = 0 :=
      sumOf_eq_zero_iff.2 fun q hq =>
        if_neg fun hk : q.txn.key = other.key => hapart.keys (hwoken q hq) (hk ▸ hother)
    rw [hd.gate, he, turns_run, hnone]
    rfl
  · have hne : ¬ τ.resources q.lock.resource :=
      hapart.resources (Table.within_of_wait (hs m) hid hkey hcall hp).resource
    refine ⟨ht ▸ Table.agrees_of_enqueue _ place hne, fun other hother => ?_⟩
    have hk : txn.key ≠ other.key := fun hk => hapart.keys hkey (hk ▸ hother)
    rw [hd.gate, he]
    change (turns other.key [.gate (.closed txn)]).foldl Gate.turn _ = _
    rw [turns_closed, if_neg hk]
    rfl

/-- **An action does the same in both systems**, and they still look alike. -/
theorem Mirrors.act (h : Mirrors σ m s o) (ha : a.Within σ m)
    (hf : (s.act a).verdict.fault? = none) :
    (o.act a).verdict = (s.act a).verdict ∧ (o.act a).events = (s.act a).events ∧
      Mirrors σ m (s.act a).system (o.act a).system := by
  cases a with
  | decide n txn call =>
    obtain rfl : n = m := ha.call
    exact h.decide ha.id ha.key ha.names (decided h.left n txn call) hf
  | arrive op txn =>
    refine ⟨?_, rfl, h.left, h.right, h.agrees, h.gates, h.queues⟩
    have hclosed : s.gates.isClosed txn = o.gates.isClosed txn := h.isClosed ha.key
    simp only [System.act, arrive, hclosed]
  | close txn => exact ha.call.elim
  | reopen txn => exact ha.call.elim

/-- **An action of unrelated work is not noticed.** -/
theorem Mirrors.act_outside (h : Mirrors τ m s o) (h' : Mirrors σ m s o') (hapart : σ.Apart τ)
    (ha : a.Within σ m) (hf : (s.act a).verdict.fault? = none) :
    Mirrors τ m (s.act a).system o := by
  cases a with
  | decide n txn call =>
    obtain rfl : n = m := ha.call
    have hd : Decided s n txn call (s.decide n txn call) := decided h.left n txn call
    obtain ⟨hagrees, hgates⟩ :=
      hd.outside h.left hf h'.queues ha.id ha.key ha.names hapart
    exact {
      left := hd.sound h.left
      right := h.right
      agrees := hagrees.trans h.agrees
      gates := fun other hother => (hgates other hother).trans (h.gates other hother)
      queues := fun hr q hq => h.queues hr q (hagrees.queue hr ▸ hq) }
  | arrive op txn => exact ⟨h.left, h.right, h.agrees, h.gates, h.queues⟩
  | close txn => exact ha.call.elim
  | reopen txn => exact ha.call.elim

/-- **Two strands of work do not notice each other.** Each goes on as it does in a system of its own,
where it does not break off either. -/
theorem mirrors_after {own : Bool → System} {scopes : Bool → Scope}
    {as : List (Bool × Action)} (h : ∀ side, Mirrors (scopes side) m s (own side))
    (hapart : ∀ {x y : Bool}, x ≠ y → (scopes x).Apart (scopes y))
    (hwithin : ∀ p ∈ as, p.2.Within (scopes p.1) m) (hu : s.Unbroken (as.map Prod.snd))
    (side : Bool) :
    (own side).Unbroken (strand side as) ∧
      Mirrors (scopes side) m (s.after (as.map Prod.snd)) ((own side).after (strand side as)) := by
  induction as generalizing s own with
  | nil => exact ⟨trivial, h side⟩
  | cons p as ih =>
    obtain ⟨turn, a⟩ := p
    have ha : a.Within (scopes turn) m := hwithin _ List.mem_cons_self
    obtain ⟨hv, -, hsame⟩ := (h turn).act ha hu.1
    -- the strand whose turn it is goes on, and the other one notices nothing
    have hnext : ∀ side, Mirrors (scopes side) m (s.act a).system
        (Function.update own turn ((own turn).act a).system side) := by
      intro side
      by_cases hside : side = turn
      · subst hside
        rw [Function.update_self]
        exact hsame
      · rw [Function.update_of_ne hside]
        exact (h side).act_outside (h turn) (hapart (Ne.symm hside)) ha hu.1
    have hrest := ih hnext (fun p hp => hwithin p (List.mem_cons_of_mem _ hp)) hu.2
    rw [strand_cons]
    by_cases hside : turn = side
    · subst hside
      rw [Function.update_self] at hrest
      rw [if_pos rfl]
      exact ⟨⟨hv ▸ hu.1, hrest.1⟩, hrest.2⟩
    · rw [Function.update_of_ne (Ne.symm hside)] at hrest
      rw [if_neg hside]
      exact hrest

theorem mirrors_start (settings : Settings) (σ : Scope) (m : Nat) :
    Mirrors σ m (start settings) (start settings) where
  left := sound_start settings
  right := sound_start settings
  agrees := .refl σ _
  gates := fun _ _ => rfl
  queues := fun _ _ hq => nomatch hq

/-- No query about a scope tells two systems apart. -/
structure AlikeOn (σ : Scope) (m : Nat) (s o : System) : Prop where
  locksOn : ∀ r, σ.resources r → (s.table m).locksOn r = (o.table m).locksOn r
  modeOn : ∀ r, σ.resources r → ∀ txn, (s.table m).mode txn r = (o.table m).mode txn r
  queue : ∀ r, σ.resources r → (s.table m).queue r = (o.table m).queue r
  waiting : ∀ r, σ.resources r → (s.table m).waiting r = (o.table m).waiting r
  locksOf : ∀ txn, σ.ids txn → (s.table m).locksOf txn = (o.table m).locksOf txn
  locksBelow : ∀ txn, σ.ids txn → ∀ r,
    (s.table m).locksBelow txn r = (o.table m).locksBelow txn r
  modeOf : ∀ txn, σ.ids txn → ∀ r, (s.table m).mode txn r = (o.table m).mode txn r
  gate : ∀ txn : Txn, σ.keys txn.key → s.gates.gate txn = o.gates.gate txn

theorem Mirrors.alike (h : Mirrors σ m s o) : AlikeOn σ m s o where
  locksOn := fun _ => h.agrees.locksOn
  modeOn := fun _ => h.agrees.mode (h.left m) (h.right m)
  queue := fun _ => h.agrees.queue
  waiting := fun _ => h.agrees.waiting
  locksOf := fun _ => h.agrees.locksOf
  locksBelow := fun _ => h.agrees.locksBelow
  modeOf := fun _ => h.agrees.mode_of (h.left m) (h.right m)
  gate := h.gates

/-- **Unrelated work is isolated.** Let two strands of calls to one manager have no transaction and no
resource in common, and let them be woven into each other in any way in which nothing breaks off. Then
each strand goes on as it would in a system of its own. There nothing breaks off either, every call is
decided in the same way, with the same events, and so with the same wake-ups in the same order; and
wherever the run stands, no query about the resources and the transactions of the strand tells the
two systems apart. -/
theorem isolation {as : List (Bool × Action)}
    (h : Unrelated m (strand true as) (strand false as))
    (hu : (start settings).Unbroken (as.map Prod.snd)) (side : Bool) :
    (start settings).Unbroken (strand side as) ∧
    (∀ before rest, as = before ++ rest →
      AlikeOn (scope (strand side as)) m ((start settings).after (before.map Prod.snd))
        ((start settings).after (strand side before))) ∧
    ∀ before a rest, as = before ++ (side, a) :: rest →
      let s := (start settings).after (before.map Prod.snd)
      let own := (start settings).after (strand side before)
      (own.act a).verdict = (s.act a).verdict ∧ (own.act a).events = (s.act a).events := by
  have hboth : ∀ side, Unrelated m (strand side as) (strand (!side) as) := by
    rintro (_ | _)
    · exact h.symm
    · exact h
  have hapart : ∀ {x y : Bool}, x ≠ y → (scope (strand x as)).Apart (scope (strand y as)) := by
    intro x y hne
    obtain rfl : y = !x := Bool.eq_not.2 (Ne.symm hne)
    exact (hboth x).apart
  have hwithin : ∀ p ∈ as, p.2.Within (scope (strand p.1 as)) m := fun p hp => (hboth p.1).within hp
  have hbefore : ∀ before rest, as = before ++ rest →
      (start settings).Unbroken (strand side before) ∧
        Mirrors (scope (strand side as)) m ((start settings).after (before.map Prod.snd))
          ((start settings).after (strand side before)) := by
    rintro before rest hsplit
    refine mirrors_after (fun side => mirrors_start settings (scope (strand side as)) m) hapart
      (fun p hp => hwithin p (hsplit ▸ List.mem_append_left rest hp)) ?_ side
    rw [hsplit, List.map_append] at hu
    exact (unbroken_append.1 hu).1
  refine ⟨(hbefore as [] (by simp)).1,
    fun before rest hsplit => (hbefore before rest hsplit).2.alike, ?_⟩
  intro before a rest hsplit s own
  rw [hsplit, List.map_append] at hu
  have hact := (hbefore before _ hsplit).2.act (hwithin (side, a) (by simp [hsplit]))
    (unbroken_append.1 hu).2.1
  exact ⟨hact.1, hact.2.1⟩

/-- Two strands of work: transaction 2 waits for transaction 1, and transaction 4 for transaction 3. -/
def woven : List (Bool × Action) :=
  [(true, .decide 0 ⟨0, 1⟩ (.acquire (.root "a") .x)),
    (false, .decide 0 ⟨2, 3⟩ (.acquire (.root "b") .s)),
    (true, .decide 0 ⟨1, 2⟩ (.acquire (.root "a") .s)),
    (false, .decide 0 ⟨3, 4⟩ (.acquire (.root "b") .x)), (true, .arrive .acquire ⟨1, 2⟩),
    (true, .decide 0 ⟨0, 1⟩ (.exchange (.root "c") .x [.root "a"])),
    (false, .decide 0 ⟨2, 3⟩ (.release (.root "b")))]

theorem isolation_woven :
    Unrelated 0 (strand true woven) (strand false woven) ∧
      (start {}).Unbroken (woven.map Prod.snd) ∧ (start {}).Unbroken (strand false woven) ∧
      AlikeOn (scope (strand true woven)) 0 ((start {}).after (woven.map Prod.snd))
        ((start {}).after (strand true woven)) ∧
      (((start {}).after (strand false (woven.take 6))).decide 0 ⟨2, 3⟩
          (.release (.root "b"))).events =
        (((start {}).after ((woven.take 6).map Prod.snd)).decide 0 ⟨2, 3⟩
          (.release (.root "b"))).events := by
  have hapart : Unrelated 0 (strand true woven) (strand false woven) :=
    ⟨by decide, by decide, by decide, by decide⟩
  have hu : (start {}).Unbroken (woven.map Prod.snd) := by decide +kernel
  obtain ⟨-, halike, -⟩ := isolation hapart hu true
  obtain ⟨hown, -, hact⟩ := isolation hapart hu false
  exact ⟨hapart, hu, hown, halike woven [] (by simp), (hact (woven.take 6) _ [] rfl).2⟩

end System

end Locking
