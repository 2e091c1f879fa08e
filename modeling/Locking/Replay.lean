import Std.Data.String.ToNat
import Locking.Event

/-!
# Replaying the log

Three kinds of record tell of the granted locks: that a lock has been granted, that its mode has
changed, and that it has been released. A reader can keep a copy of what is granted from them. Each
record also says what was there before, so the copy shows where a record does not fit.

* `Replica.read`, `Replica.replay`: a copy of what is granted, kept from the log.
* `Replica.replay_granted`, `Replica.replay_updated`, `Replica.replay_released`: what the records of
  these events tell.
* `Replica.replay_untold`: no other record matters.
-/

namespace Locking

/-- The transaction number that a text stands for. -/
def TxnId.ofText? (text : String) : Option TxnId :=
  text.toNat?.bind fun n => if n < UInt64.size then some (UInt64.ofNat n) else none

@[simp] theorem TxnId.ofText?_toString (txn : TxnId) : ofText? (toString txn) = some txn := by
  have hread : (toString txn).toNat? = some txn.toNat := Nat.toNat?_repr txn.toNat
  rw [ofText?, hread, Option.bind_some, if_pos txn.toNat_lt_size, UInt64.ofNat_toNat]

namespace Log.Record

/-- The value of a field. -/
def field? (record : Record) (name : String) : Option String := record.fields.lookup name

/-- The mode whose code stands in a field. -/
def mode? (record : Record) (name : String) : Option Mode :=
  (record.field? name).bind Mode.ofCode?

/-- The transaction and the text of the resource that a record is about. -/
def key? (record : Record) : Option (TxnId × String) := do
  let txn ← (record.field? "transaction").bind TxnId.ofText?
  let resource ← record.field? "resource"
  return (txn, resource)

end Log.Record

/-- The log of some events. -/
def logged (es : List Event) : List Log.Record := es.filterMap Event.record?

@[simp] theorem logged_append (es fs : List Event) : logged (es ++ fs) = logged es ++ logged fs :=
  List.filterMap_append

/-- A copy of what is granted: the mode in which a transaction holds what goes by a text. -/
abbrev Replica := TxnId × String → Option Mode

namespace Replica

/-- Nothing is granted. -/
def empty : Replica := fun _ => none

/-- Changes what a transaction holds, which has to be what it is said to have been before. -/
def change (b : Replica) (key : TxnId × String) (before after : Option Mode) : Option Replica :=
  if b key = before then some fun k => if k = key then after else b k else none

/-- Takes over what a record tells. -/
def read (b : Replica) (record : Log.Record) : Option Replica :=
  match record.level, record.message with
  | .debug, "lock granted" => do
    b.change (← record.key?) none (some (← record.mode? "lock_type"))
  | .debug, "lock updated" => do
    b.change (← record.key?) (some (← record.mode? "from")) (some (← record.mode? "to"))
  | .debug, "lock released" => do
    b.change (← record.key?) (some (← record.mode? "lock_type")) none
  | _, _ => some b

/-- Takes over what the records of a log tell, one after the other, as long as they fit. -/
def replay (b : Replica) (records : List Log.Record) : Option Replica := records.foldlM read b

variable {b : Replica} {lock : Lock} {before : Mode} {e : Event}

@[simp] theorem replay_nil (b : Replica) : b.replay [] = some b := rfl

theorem replay_append (b : Replica) (xs ys : List Log.Record) :
    b.replay (xs ++ ys) = (b.replay xs).bind (·.replay ys) := List.foldlM_append

theorem replay_singleton (b : Replica) (record : Log.Record) :
    b.replay [record] = b.read record := bind_pure _

/-- The record of an event about a lock tells whose lock it is, and on what. -/
theorem key?_subject (lock : Lock) (level : Log.Level) (message : String)
    (fields : List (String × String)) :
    (⟨level, message, Event.subject lock ++ fields⟩ : Log.Record).key? =
      some (lock.owner, lock.resource.text) := by
  simp [Log.Record.key?, Log.Record.field?, Event.subject, List.lookup_cons]

theorem replay_granted (b : Replica) (lock : Lock) :
    b.replay (logged [.granted lock]) =
      b.change (lock.owner, lock.resource.text) none (some lock.mode) := by
  refine (replay_singleton b _).trans ?_
  simp only [read, key?_subject]
  simp [Log.Record.mode?, Log.Record.field?, Event.subject, List.lookup_cons]

theorem replay_updated (b : Replica) (lock : Lock) (before : Mode) :
    b.replay (logged [.updated lock before]) =
      b.change (lock.owner, lock.resource.text) (some before) (some lock.mode) := by
  refine (replay_singleton b _).trans ?_
  simp only [read, key?_subject]
  simp [Log.Record.mode?, Log.Record.field?, Event.subject, List.lookup_cons]

theorem replay_released (b : Replica) (lock : Lock) :
    b.replay (logged [.released lock]) =
      b.change (lock.owner, lock.resource.text) (some lock.mode) none := by
  refine (replay_singleton b _).trans ?_
  simp only [read, key?_subject]
  simp [Log.Record.mode?, Log.Record.field?, Event.subject, List.lookup_cons]

end Replica

/-- The event does not tell of a change to the granted locks. -/
def Event.Untold : Event → Prop
  | granted _ | updated _ _ | released _ => False
  | queued _ _ _ | granting _ | gone _ | woken _ | gate _ | fault _ => True

theorem Replica.read_untold (b : Replica) {e : Event} {record : Log.Record} (h : e.Untold)
    (he : e.record? = some record) : b.read record = some b := by
  cases e with
  | queued op q held =>
    cases he
    cases op <;> simp [read, Operation.label]
  | fault f => cases f <;> cases he <;> rfl
  | granted | updated | released => exact h.elim
  | woken | gate => cases he
  | granting | gone => cases he; rfl

theorem Replica.replay_untold (b : Replica) {es : List Event} (h : ∀ e ∈ es, e.Untold) :
    b.replay (logged es) = some b := by
  induction es with
  | nil => rfl
  | cons e es ih =>
    have hrest := ih fun e' hm => h e' (List.mem_cons_of_mem e hm)
    cases hr : e.record? with
    | none =>
      rwa [logged, List.filterMap_cons_none hr]
    | some record =>
      rw [logged, List.filterMap_cons_some hr, replay, List.foldlM_cons,
        b.read_untold (h e List.mem_cons_self) hr]
      exact hrest

end Locking
