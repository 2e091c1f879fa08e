import Locking.Doorway
import Locking.Proofs.Handoff

/-!
# Threads sleep exactly while their gate is closed

Threads at a gate move one at a time, between the turns that the actions of a run give to the gate.
What they do comes to whether the gate has been closed all the time.

* `Doorway.Heard`: nobody sleeps at an open gate, since whoever reopens it wakes all.
* `Leads.heard`, `Leads.gate_eq`, `Leads.stays`: what any number of moves does.
* `System.stopped_iff_turns`: a closed gate has been closed all the time if nothing has turned it.
* `System.stopped_iff_asleep`: a thread sleeps on exactly if its transaction is still stopped.
* `System.suspended_until_granted`: in a disciplined run a thread goes on at once if the request of its
  transaction has been granted, and else is suspended exactly until it is.
-/

namespace Locking

namespace Doorway

variable {d d' : Doorway} {m : Move} {turns : List Bool} {i : Nat}

/-! ## Moves -/

/-- What a move may do. -/
inductive Moved (d : Doorway) : Move → Doorway → Prop where
  | close (ho : d.gate.closed = false) : Moved d .close { d with gate := d.gate.close }
  | reopen : Moved d .reopen
      ⟨d.gate.reopen, fun i => if d.stage i = .asleep then .awake else d.stage i⟩
  /-- A thread looks at the gate, which it does not turn. -/
  | looks {m : Move} (hturn : m.turn? = none) (i : Nat) : Moved d m (d.look i)
  | stirs (i : Nat) : Moved d (.stir i) (d.put i .awake)

theorem moved (hm : d.move? m = some d') : Moved d m d' := by
  cases m with
  | close =>
    obtain ⟨ho, hd⟩ := Option.ite_none_left_eq_some.1 hm
    cases hd
    exact .close (Bool.not_eq_true _ ▸ ho)
  | reopen =>
    cases hm
    exact .reopen
  | arrive i | look i =>
    obtain ⟨-, hd⟩ := Option.ite_none_right_eq_some.1 hm
    cases hd
    exact .looks rfl i
  | stir i =>
    obtain ⟨-, hd⟩ := Option.ite_none_right_eq_some.1 hm
    cases hd
    exact .stirs i

theorem stage_put (d : Doorway) (i j : Nat) (stage : Stage) :
    (d.put i stage).stage j = if i = j then stage else d.stage j := rfl

theorem stage_look (d : Doorway) (i : Nat) :
    (d.look i).stage i = if d.gate.closed then .asleep else .away := by
  rw [look, stage_put, if_pos rfl]

/-- Nobody sleeps at an open gate. -/
def Heard (d : Doorway) : Prop := ∀ i, d.stage i = .asleep → d.gate.closed

theorem heard_start : ({} : Doorway).Heard := nofun

/-- **A move leaves nobody asleep at an open gate.** -/
theorem Heard.move (h : d.Heard) (hm : d.move? m = some d') : d'.Heard := by
  cases moved hm with
  | close ho => exact fun i _ => rfl
  | reopen =>
    intro i hi
    dsimp only at hi
    split at hi
    · cases hi
    · contradiction
  | looks hturn i =>
    intro j hj
    rw [look, stage_put] at hj
    split at hj
    · split at hj
      · assumption
      · cases hj
    · exact h j hj
  | stirs i =>
    intro j hj
    rw [stage_put] at hj
    split at hj
    · cases hj
    · exact h j hj

/-- A move turns the gate as it shows. -/
theorem gate_move (hm : d.move? m = some d') :
    d'.gate = m.turn?.toList.foldl Gate.turn d.gate := by
  cases moved hm with
  | close ho => rfl
  | reopen => rfl
  | looks hturn i =>
    rw [hturn]
    rfl
  | stirs i => rfl

/-- **Nobody goes through a closed gate** unless it is turned. -/
theorem stays_move (hm : d.move? m = some d') (hc : d.gate.closed) (hturn : m.turn? = none)
    (hi : d.stage i ≠ .away) : d'.stage i ≠ .away := by
  cases moved hm with
  | close ho => cases hturn
  | reopen => cases hturn
  | looks _ j =>
    rw [look, stage_put, if_pos hc]
    split
    · nofun
    · exact hi
  | stirs j =>
    rw [stage_put]
    split
    · nofun
    · exact hi

/-- Where the gate is open, nobody sleeps, and who has woken goes on with the next look. -/
theorem Heard.goes_on (h : d.Heard) (ho : d.gate.closed = false) (i : Nat) :
    d.stage i ≠ .asleep ∧
      (d.stage i = .awake → d.move? (.look i) = some (d.put i .away)) := by
  constructor
  · intro hi
    rw [h i hi] at ho
    cases ho
  · intro hi
    simp only [move?, look]
    rw [if_pos hi, ho, if_neg Bool.false_ne_true]

/-- A gate that is closed again before a thread has looked at it holds the thread. -/
example :
    (([.close, .arrive 0, .reopen, .close, .look 0].foldlM Doorway.move? {}).map
      (·.stage 0)) = some .asleep := by
  decide

/-! ## Any number of moves -/

namespace Leads

theorem heard (h : d.Leads turns d') (hd : d.Heard) : d'.Heard := by
  induction h with
  | nil => exact hd
  | cons hm hl ih => exact ih (hd.move hm)

theorem gate_eq (h : d.Leads turns d') : d'.gate = turns.foldl Gate.turn d.gate := by
  induction h with
  | nil => rfl
  | cons hm hl ih => rw [ih, gate_move hm, List.foldl_append]

/-- A gate that is closed and not turned holds all that are at it. -/
theorem stays (h : d.Leads turns d') (hturns : turns = []) (hc : d.gate.closed)
    (hi : d.stage i ≠ .away) : d'.stage i ≠ .away := by
  induction h with
  | nil => exact hi
  | @cons d d' _ m turns hm hl ih =>
    obtain ⟨hturn, hrest⟩ := List.append_eq_nil_iff.1 hturns
    have hgate := gate_move hm
    rw [hturn] at hgate
    refine ih hrest (hgate ▸ hc) (stays_move hm hc ?_ hi)
    simpa using hturn

end Leads

end Doorway

namespace System

variable {settings : Settings} {s : System} {m : Nat} {txn : Txn} {call : Call} {dn : Decision}
  {as : List Action}

/-! ## Turns of a closed gate -/

/-- Closing an open gate turns no gate that is closed. -/
theorem turns_closed_of_open {gs : Gates} {other : Txn} (ho : gs.isClosed txn = false)
    (hg : gs.isClosed other) : turns other.key [.gate (.closed txn)] = [] := by
  have hk : txn.key ≠ other.key := by
    intro hk
    rw [gs.isClosed_eq_of_key hk, hg] at ho
    cases ho
  rw [turns_closed, if_neg hk]

theorem Decided.turns_of_closed (hd : Decided s m txn call dn) {other : Txn}
    (hg : s.gates.isClosed other) : ∃ n, turns other.key dn.events = List.replicate n false := by
  cases hd with
  | refused hp => exact ⟨0, rfl⟩
  | done hp hr => exact ⟨_, turns_of_run hr other.key⟩
  | broken hp hr => exact ⟨_, turns_of_run hr other.key⟩
  | waits hp ht ho => exact ⟨0, turns_closed_of_open ho hg⟩
  | shut hp ht hg => exact ⟨0, rfl⟩

/-- A gate that is closed can only be reopened by an action. -/
theorem turns_of_closed (h : s.Sound) (hg : s.gates.isClosed txn) (a : Action) :
    ∃ n, turns txn.key (s.act a).events = List.replicate n false := by
  have ha := acted h a
  generalize s.act a = d at ha ⊢
  cases ha with
  | decided hd => exact hd.turns_of_closed hg
  | arrived => exact ⟨0, rfl⟩
  | closed ho => exact ⟨0, turns_closed_of_open ho hg⟩
  | shut ho => exact ⟨0, rfl⟩
  | @reopened other =>
    refine ⟨if other.key = txn.key then 1 else 0, ?_⟩
    rw [turns_reopened]
    split <;> rfl

/-- After an action a closed gate is still closed if the action has not turned it. -/
theorem isClosed_act_iff (h : s.Sound) (hg : s.gates.isClosed txn) (a : Action) :
    (s.act a).system.gates.isClosed txn ↔ turns txn.key (s.act a).events = [] := by
  obtain ⟨n, hn⟩ := turns_of_closed h hg a
  rw [Gates.isClosed, gate_act h, hn]
  cases n with
  | zero => exact iff_of_true hg rfl
  | succ n => simp [List.replicate_succ', Gate.turn, Gate.reopen]

/-- **A closed gate has been closed all the time exactly if nothing has turned it.** -/
theorem stopped_iff_turns (h : s.Sound) (hg : s.gates.isClosed txn) :
    s.Stopped txn as ↔ turns txn.key (s.trace as) = [] := by
  induction as generalizing s with
  | nil => exact iff_of_true hg rfl
  | cons a as ih =>
    rw [trace, turns_append, List.append_eq_nil_iff, ← isClosed_act_iff h hg a]
    constructor
    · rintro ⟨-, hs⟩
      have hg' := isClosed_of_stopped hs
      exact ⟨hg', (ih (sound_act h a) hg').1 hs⟩
    · rintro ⟨hg', ht⟩
      exact ⟨hg, (ih (sound_act h a) hg').2 ht⟩

/-- Where a run leaves a gate is told by its turns. -/
theorem gate_after (h : s.Sound) (as : List Action) (txn : Txn) :
    (s.after as).gates.gate txn =
      (turns txn.key (s.trace as)).foldl Gate.turn (s.gates.gate txn) := by
  induction as generalizing s with
  | nil => rfl
  | cons a as ih =>
    rw [after_cons, ih (sound_act h a), gate_act h, trace, turns_append, List.foldl_append]

/-! ## Threads at the gates of a run -/

variable {d d' : Doorway} {i : Nat}

/-- **A thread stays at its gate as long as its transaction is stopped.** -/
theorem stays_of_stopped (h : s.Sound) (hs : s.Stopped txn as) (hd : d.gate = s.gates.gate txn)
    (hl : d.Leads (turns txn.key (s.trace as)) d') (hi : d.stage i ≠ .away) :
    d'.stage i ≠ .away := by
  have hg := isClosed_of_stopped hs
  exact hl.stays ((stopped_iff_turns h hg).1 hs) (hd ▸ hg) hi

/-- **A thread goes on once its gate is open**: it sleeps no longer, and goes on with its next
look. -/
theorem goes_on_of_open (h : s.Sound) (ho : (s.after as).gates.isClosed txn = false)
    (hheard : d.Heard) (hd : d.gate = s.gates.gate txn)
    (hl : d.Leads (turns txn.key (s.trace as)) d') (i : Nat) :
    d'.stage i ≠ .asleep ∧
      (d'.stage i = .awake → d'.move? (.look i) = some (d'.put i .away)) := by
  refine (hl.heard hheard).goes_on ?_ i
  rw [hl.gate_eq, hd, ← gate_after h]
  exact ho

/-- **A thread sleeps on exactly if its transaction is still stopped**, where the gate has not been
closed anew, and the thread has looked at the gate if it has woken. -/
theorem stopped_iff_asleep (h : s.Sound) (hheard : d.Heard) (hd : d.gate = s.gates.gate txn)
    (hl : d.Leads (turns txn.key (s.trace as)) d') (hnew : true ∉ turns txn.key (s.trace as))
    (hi : d.stage i = .asleep) (hlooked : d'.stage i ≠ .awake) :
    s.Stopped txn as ↔ d'.stage i = .asleep := by
  constructor
  · intro hs
    have hstays := stays_of_stopped h hs hd hl (i := i) (by simp [hi])
    cases hstage : d'.stage i with
    | away => exact absurd hstage hstays
    | asleep => rfl
    | awake => exact absurd hstage hlooked
  · intro hi'
    have hg : s.gates.isClosed txn := (congrArg Gate.closed hd).symm.trans (hheard i hi)
    have hg' := hl.heard hheard i hi'
    rw [hl.gate_eq] at hg'
    -- a gate that has been turned has been reopened last
    rw [stopped_iff_turns h hg]
    rcases List.eq_nil_or_concat (turns txn.key (s.trace as)) with hnil | ⟨ts, turn, hts⟩
    · exact hnil
    · cases turn with
      | true => exact absurd (hts ▸ by simp) hnew
      | false =>
        rw [hts, List.concat_eq_append, List.foldl_append] at hg'
        cases hg'

/-- **A thread is suspended at its gate exactly until the request of its transaction is granted**, in
every disciplined run. If it arrives after that it goes on at once, and else it falls asleep. As long
as the request is not granted it does not get away, however often it wakes. As soon as the request has
been granted it sleeps no longer, and if its transaction asks for nothing else it goes on with its
next look. -/
theorem suspended_until_granted {before rest : List Action} {op : Operation}
    (h : Disciplined settings (before ++ .arrive op txn :: rest))
    (hl : Doorway.Leads {} (turns txn.key ((start settings).trace before)) d)
    (hi : d.stage i = .away) :
    let arrival := ((start settings).after before).arrive op txn
    d.move? (.arrive i) = some (d.look i) ∧
    (arrival.verdict = .done → (d.look i).stage i = .away) ∧
    (arrival.verdict = .waits → (d.look i).stage i = .asleep ∧
      ∀ q now d', arrival.system.Waits q → q.txn = txn → now <+: rest →
        (∀ a ∈ now, ∀ other, a.asker? = some other → other.key ≠ txn.key) →
        (d.look i).Leads (turns txn.key (arrival.system.trace now)) d' →
        (.granting q ∉ arrival.system.trace now → d'.stage i ≠ .away) ∧
        (.granting q ∈ arrival.system.trace now → d'.stage i ≠ .asleep ∧
          (d'.stage i = .awake → d'.move? (.look i) = some (d'.put i .away)))) := by
  intro arrival
  have hgate : d.gate = arrival.system.gates.gate txn := by
    rw [hl.gate_eq]
    exact (gate_after (sound_start settings) before txn).symm
  have hclosed : d.gate.closed = ((start settings).after before).gates.isClosed txn :=
    congrArg Gate.closed hgate
  have hmove : d.move? (.arrive i) = some (d.look i) := by rw [Doorway.move?, if_pos hi]
  have hheard : (d.look i).Heard := (hl.heard Doorway.heard_start).move hmove
  refine ⟨hmove, fun hv => ?_, fun hv => ?_⟩
  · rw [d.stage_look, hclosed, if_neg]
    intro hg
    simp only [arrival, arrive, hg, if_true] at hv
    cases hv
  · have hasleep : (d.look i).stage i = .asleep := by
      rw [d.stage_look, hclosed, if_pos]
      by_contra hg
      simp only [arrival, arrive, hg] at hv
      cases hv
    refine ⟨hasleep, ?_⟩
    rintro q now d' hw rfl ⟨later, rfl⟩ hask hnow
    have hlook : (d.look i).gate = arrival.system.gates.gate q.txn := hgate
    have hunder := h.underway.drop.tail.take
    rcases hunder.granted_or_waits_after hw hask with ⟨hm, ho⟩ | ⟨hm, -⟩
    · exact ⟨fun hn => absurd hm hn,
        fun _ => goes_on_of_open hunder.sound ho hheard hlook hnow i⟩
    · refine ⟨fun _ => ?_, fun hg => absurd hg hm⟩
      exact stays_of_stopped hunder.sound ((hunder.stopped_iff hw).2 hm) hlook hnow
        (by simp [hasleep])

end System

end Locking
