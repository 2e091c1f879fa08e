import Locking.Proofs.Isolation
import Locking.Proofs.Ledger
import Locking.Proofs.Texts
import Locking.Replay

/-!
# The log tells what is granted

The log of a manager, read from the beginning, tells at any time which locks are granted, as long as
resources can be told apart by their texts. Every record fits what has been read before.

* `DistinctTexts`: different resources have different texts.
* `Replica.Tells`: a copy tells which locks a table has granted.
* `Tells.step`, `Tells.run`: it goes on to do so when the records of a task, or of a cascade, are
  read.
* `System.log_replays`: all this for every run.
-/

namespace Locking

/-- Different resources have different texts. -/
def DistinctTexts (rs : List Resource) : Prop := ∀ a ∈ rs, ∀ b ∈ rs, a.text = b.text → a = b

instance (rs : List Resource) : Decidable (DistinctTexts rs) :=
  inferInstanceAs (Decidable (∀ a ∈ rs, ∀ b ∈ rs, a.text = b.text → a = b))

/-- Resources in trees whose segments contain no slash can be told apart by their texts. -/
theorem distinctTexts_of_plain {rs : List Resource} (h : ∀ r ∈ rs, r.Plain) : DistinctTexts rs :=
  fun a ha b hb => Resource.eq_of_text_eq (h a ha) (h b hb)

open Cascade

namespace Replica

variable {σ : Scope} {b : Replica} {t t' : Table} {task : Task} {tasks rest new : List Task}
  {es : List Event} {r : Resource} {txn : TxnId} {text : String} {mode : Mode}

/-- A copy tells which locks a table has granted, on the resources of a scope and on no others. -/
structure Tells (σ : Scope) (b : Replica) (t : Table) : Prop where
  told : ∀ {r : Resource}, σ.resources r → ∀ txn, b (txn, r.text) = (t.held? txn r).map Lock.mode
  known : ∀ {txn : TxnId} {text : String}, b (txn, text) ≠ none →
    ∃ r, σ.resources r ∧ r.text = text
  within : ∀ {txn : TxnId} {r : Resource}, t.held? txn r ≠ none → σ.resources r

theorem tells_empty (σ : Scope) : Tells σ empty {} where
  told := fun _ _ => rfl
  known := fun hne => absurd rfl hne
  within := fun hne => absurd rfl hne

namespace Tells

/-- The table has granted the same locks. -/
theorem of_held? (h : Tells σ b t) (hheld : ∀ txn r, t'.held? txn r = t.held? txn r) :
    Tells σ b t' where
  told := fun hr txn => hheld txn _ ▸ h.told hr txn
  known := h.known
  within := fun hne => h.within (hheld _ _ ▸ hne)

/-- **A change to what one transaction holds on one resource fits the copy**, if resources can be
told apart by their texts. -/
theorem change (h : Tells σ b t)
    (hdistinct : ∀ {r s : Resource}, σ.resources r → σ.resources s → r.text = s.text → r = s)
    (hr : σ.resources r) {before now : Option Lock} (hbefore : t.held? txn r = before)
    (hheld : ∀ u s, t'.held? u s = if txn = u ∧ r = s then now else t.held? u s) :
    ∃ b', b.change (txn, r.text) (before.map Lock.mode) (now.map Lock.mode) = some b' ∧
      Tells σ b' t' := by
  refine ⟨_, if_pos (hbefore ▸ h.told hr txn), ?_, ?_, ?_⟩
  · intro s hs u
    have hkey : (u, s.text) = (txn, r.text) ↔ txn = u ∧ r = s := by
      rw [Prod.mk.injEq]
      exact ⟨fun ⟨hu, ht⟩ => ⟨hu.symm, hdistinct hr hs ht.symm⟩,
        fun ⟨hu, hs⟩ => ⟨hu.symm, hs ▸ rfl⟩⟩
    rw [hheld]
    by_cases hsame : txn = u ∧ r = s
    · rw [if_pos (hkey.2 hsame), if_pos hsame]
    · rw [if_neg (hkey.not.2 hsame), if_neg hsame, h.told hs]
  · intro u text hne
    split at hne
    · rename_i hkey
      exact ⟨r, hr, (Prod.mk.inj hkey).2.symm⟩
    · exact h.known hne
  · intro u s hne
    rw [hheld] at hne
    split at hne
    · rename_i hsame
      exact hsame.2 ▸ hr
    · exact h.within hne

/-- What the copy has is what is granted. -/
theorem eq_some_iff (h : Tells σ b t) (hs : t.Sound) :
    b (txn, text) = some mode ↔
      ∃ r, r.text = text ∧ ∃ lock ∈ t.locksOn r, lock.owner = txn ∧ lock.mode = mode := by
  have hlocks : ∀ r, (t.held? txn r).map Lock.mode = some mode ↔
      ∃ lock ∈ t.locksOn r, lock.owner = txn ∧ lock.mode = mode := by
    intro r
    rw [Option.map_eq_some_iff]
    refine exists_congr fun lock => ?_
    rw [hs.held?_eq_some_iff_on]
    tauto
  constructor
  · intro hb
    obtain ⟨r, hr, rfl⟩ := h.known (by rw [hb]; exact nofun)
    exact ⟨r, rfl, (hlocks r).1 (h.told hr txn ▸ hb)⟩
  · rintro ⟨r, rfl, hr⟩
    rw [← hlocks] at hr
    have hne : t.held? txn r ≠ none := by
      intro hnone
      rw [hnone] at hr
      cases hr
    rw [h.told (h.within hne), hr]

section Cascade

variable (hdistinct : ∀ {r s : Resource}, σ.resources r → σ.resources s → r.text = s.text → r = s)

include hdistinct

/-- **The records of a task fit the copy**, which then tells what is granted after the task. -/
theorem step (h : Tells σ b t) (hc : Confined σ t (task :: rest)) (he : Effect t task t' es new) :
    ∃ b', b.replay (logged es) = some b' ∧ Tells σ b' t' := by
  have hwithin := hc.tasks task List.mem_cons_self
  cases he with
  | @grant lock _ e hp =>
    have hheld := (hc.sound.of_put (hc.head rfl) hp).2
    have hevent := hc.sound.event_put hp
    cases hbefore : t.held? lock.owner lock.resource with
    | none =>
      rw [hbefore] at hevent
      rw [hevent, replay_granted]
      exact h.change hdistinct hwithin.1 hbefore hheld
    | some held =>
      rw [hbefore] at hevent
      rw [hevent, replay_updated]
      exact h.change hdistinct hwithin.1 hbefore hheld
  | @release lock _ ht =>
    obtain ⟨hbefore, -, hheld⟩ := hc.sound.of_take ht
    rw [replay_released]
    exact h.change hdistinct hwithin.1 hbefore hheld
  | serve hp =>
    refine ⟨b, b.replay_untold (by simp [Event.Untold]), h.of_held? fun txn r => ?_⟩
    exact (Table.granted_pop? hp r).2 txn
  | prune r => exact ⟨b, rfl, h.of_held? fun txn s => hc.sound.held?_prune r txn s⟩
  | _ => exact ⟨b, b.replay_untold (by simp [Event.Untold]), h⟩

/-- **The log of a cascade fits the copy**, wherever the cascade ends. -/
theorem run (h : Tells σ b t) (hc : Confined σ t tasks) :
    ∃ b', b.replay (logged (Cascade.run t tasks).events) = some b' ∧
      Tells σ b' (Cascade.run t tasks).table := by
  have hstep : ∀ {u task rest es u' es' new},
      (Confined σ u (task :: rest) ∧ ∃ b', b.replay (logged es) = some b' ∧ Tells σ b' u) →
      Effect u task u' es' new →
      Confined σ u' (new ++ rest) ∧
        ∃ b', b.replay (logged (es ++ es')) = some b' ∧ Tells σ b' u' := by
    rintro u task rest es u' es' new ⟨hu, b', hb', htells⟩ he
    obtain ⟨b'', hb'', htells'⟩ := htells.step hdistinct hu he
    refine ⟨hu.step he, b'', ?_, htells'⟩
    rw [logged_append, replay_append, hb']
    exact hb''
  rcases run_invariant (P := fun u left es => Confined σ u left ∧
      ∃ b', b.replay (logged es) = some b' ∧ Tells σ b' u) [] hstep ⟨hc, b, rfl, h⟩ with
    ⟨-, -, hend⟩ | ⟨f, task, rest, es, -, he, ⟨-, b', hb', htells⟩, -⟩
  · exact hend
  · -- the fault itself tells of no lock
    refine ⟨b', ?_, htells⟩
    rw [he, logged_append, replay_append]
    rw [List.nil_append] at hb'
    rw [hb']
    exact b'.replay_untold (by simp [Event.Untold])

end Cascade

end Tells

end Replica

/-- All that has to do with some resources, for whatever transaction. -/
def Scope.onAny (rs : List Resource) : Scope where
  resources := (· ∈ rs)
  ids := fun _ => True
  keys := fun _ => True

namespace System

open Table Replica

variable {rs : List Resource} {s : System} {m : Nat} {txn : Txn} {call : Call} {d : Decision}
  {a : Action} {b : Replica} {as : List Action} {settings : Settings}

/-- A copy tells what a manager has granted, and what waits has to do with some resources only. -/
structure Followed (rs : List Resource) (m : Nat) (b : Replica) (s : System) : Prop where
  sound : s.Sound
  tells : Tells (.onAny rs) b (s.table m)
  queues : ∀ {r : Resource}, r ∈ rs → ∀ q ∈ (s.table m).queue r, q.Within (.onAny rs)

theorem followed_start (settings : Settings) (rs : List Resource) (m : Nat) :
    Followed rs m empty (start settings) where
  sound := sound_start settings
  tells := tells_empty _
  queues := fun _ _ hq => nomatch hq

namespace Followed

/-- **The log of a decision fits the copy**, also where it breaks off. -/
theorem decided (h : Followed rs m b s) (hdistinct : DistinctTexts rs)
    (hcall : ∀ r ∈ call.names, r ∈ rs) (hd : Decided s m txn call d) :
    ∃ b', b.replay (logged d.events) = some b' ∧ Followed rs m b' d.system := by
  have hsound := hd.sound h.sound
  rcases hd.leads with ⟨he, ht⟩ | ⟨tasks, hp, he, ht⟩ | ⟨q, place, held, e, hp, hor, he, ht⟩
  · refine ⟨b, by rw [he]; rfl, hsound, ?_, ?_⟩
    · exact ht ▸ h.tells
    · exact ht ▸ h.queues
  · have hconfined : Confined (.onAny rs) (s.table m) tasks :=
      confined_of_plan (h.sound m) h.queues trivial trivial hcall hp
    obtain ⟨b', hb', htells⟩ := h.tells.run (fun hr hs => hdistinct _ hr _ hs) hconfined
    refine ⟨b', by rw [he]; exact hb', hsound, ht ▸ htells, fun {r} hr q hq => ?_⟩
    rw [ht] at hq
    exact h.queues hr q (hconfined.queue_run r ▸ List.mem_append_right _ hq)
  · have huntold : ∀ e ∈ d.events, e.Untold := by
      rw [he]
      rcases hor with rfl | rfl <;> simp [Event.Untold]
    refine ⟨b, b.replay_untold huntold, hsound, ?_, fun {r} hr p hm => ?_⟩
    · exact ht ▸ h.tells.of_held? (held?_enqueue _ q place)
    · rw [ht] at hm
      rcases eq_or_mem_of_mem_enqueue hm with rfl | hm
      · exact within_of_wait (h.sound m) trivial trivial hcall hp
      · exact h.queues hr p hm

/-- **The log of a run fits the copy.** -/
theorem after (h : Followed rs m b s) (hdistinct : DistinctTexts rs)
    (hnames : ∀ a ∈ as, ∀ r ∈ a.names, r ∈ rs) :
    ∃ b', b.replay (logged (s.eventsAt m as)) = some b' ∧ Followed rs m b' (s.after as) := by
  induction as generalizing s b with
  | nil => exact ⟨b, rfl, h⟩
  | cons a as ih =>
    have hact : ∃ b', b.replay (logged (if a.manager? = some m then (s.act a).events else [])) =
        some b' ∧ Followed rs m b' (s.act a).system := by
      split
      · rename_i hm
        cases a with
        | decide n txn call =>
          cases hm
          exact h.decided hdistinct (hnames _ List.mem_cons_self)
            (System.decided h.sound m txn call)
        | _ => cases hm
      · rename_i hm
        have ht : (s.act a).system.table m = s.table m := table_act h.sound hm
        exact ⟨b, rfl, sound_act h.sound a, ht.symm ▸ h.tells, ht.symm ▸ h.queues⟩
    obtain ⟨b', hb', hnext⟩ := hact
    obtain ⟨b'', hb'', hend⟩ := ih hnext fun a hm => hnames a (List.mem_cons_of_mem _ hm)
    refine ⟨b'', ?_, hend⟩
    rw [eventsAt, logged_append, replay_append, hb']
    exact hb''

end Followed

/-- **The log replays to the lock table.** Let the resources that are named in a run have different
texts. Read the log of a manager from the beginning, and take over nothing but the records of locks
that have been granted, changed and released. Then every record fits: nothing was held where a lock
is granted, and where one is changed or released, it was held just as the record says. After every
call the copy is exactly what is granted, by transaction and text of the resource. -/
theorem log_replays (h : DistinctTexts (as.flatMap Action.names)) (settings : Settings) (m : Nat) :
    ∀ before rest, as = before ++ rest →
      ∃ replica, empty.replay (logged ((start settings).eventsAt m before)) = some replica ∧
        ∀ txn text mode, replica (txn, text) = some mode ↔
          ∃ r, r.text = text ∧ ∃ lock ∈ (((start settings).after before).table m).locksOn r,
            lock.owner = txn ∧ lock.mode = mode := by
  rintro before rest rfl
  have hnames : ∀ a ∈ before, ∀ r ∈ a.names, r ∈ (before ++ rest).flatMap Action.names :=
    fun a ha r hr => List.mem_flatMap.2 ⟨a, List.mem_append_left _ ha, hr⟩
  obtain ⟨replica, hreplay, hend⟩ :=
    (followed_start settings ((before ++ rest).flatMap Action.names) m).after h hnames
  exact ⟨replica, hreplay, fun txn text mode => hend.tells.eq_some_iff (hend.sound m)⟩

/-- Transactions 2 and 3 wait for locks of transaction 1, which lowers one of them and gives up the
other. -/
def lowering : List Action :=
  [.decide 0 ⟨0, 1⟩ (.acquire (.root "a") .x), .decide 0 ⟨0, 1⟩ (.acquire ⟨["a", "b"]⟩ .x),
    .decide 0 ⟨1, 2⟩ (.acquire (.root "a") .s), .decide 0 ⟨2, 3⟩ (.acquire ⟨["a", "b"]⟩ .s),
    .decide 0 ⟨0, 1⟩ (.exchange (.root "a") .s [.root "a", ⟨["a", "b"]⟩])]

theorem log_replays_lowering :
    DistinctTexts (lowering.flatMap Action.names) ∧
      ∃ replica, empty.replay (logged ((start {}).eventsAt 0 lowering)) = some replica ∧
        replica (1, "a") = some .s ∧ replica (2, "a") = some .s ∧ replica (3, "a/b") = some .s := by
  have h : DistinctTexts (lowering.flatMap Action.names) := by decide +kernel
  obtain ⟨replica, hreplay, htable⟩ := log_replays h {} 0 lowering [] (List.append_nil _).symm
  refine ⟨h, replica, hreplay, (htable 1 "a" .s).2 ?_, (htable 2 "a" .s).2 ?_,
    (htable 3 "a/b" .s).2 ?_⟩
  · exact ⟨.root "a", by decide +kernel, ⟨.root "a", .s, 1⟩, by decide +kernel, rfl, rfl⟩
  · exact ⟨.root "a", by decide +kernel, ⟨.root "a", .s, 2⟩, by decide +kernel, rfl, rfl⟩
  · exact ⟨⟨["a", "b"]⟩, by decide +kernel, ⟨⟨["a", "b"]⟩, .s, 3⟩, by decide +kernel, rfl, rfl⟩

end System

end Locking
