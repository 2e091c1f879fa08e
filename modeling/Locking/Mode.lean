/-!
# Lock modes

The six modes of multi-granularity locking and the relations between them.

* `Mode.compatible`: two transactions may hold these modes on one resource at the same time.
* `Mode.covers`: the first mode gives at least the rights of the second.
* `Mode.above`: the weakest mode that the enclosing resource needs.
* `Mode.admits`: a holder of the first mode on a resource may hold the second below it.
* `Mode.ofCode?_code`: every mode is read back from its code.
-/

namespace Locking

/-- A lock mode, in order of declaration. -/
inductive Mode where
  /-- No lock. -/
  | nl
  /-- Intention to lock shared further down. -/
  | is
  /-- Intention to lock exclusively further down. -/
  | ix
  /-- Shared. -/
  | s
  /-- Shared, with the intention to lock exclusively further down. -/
  | six
  /-- Exclusive. -/
  | x
  deriving DecidableEq, Repr, Inhabited

namespace Mode

/-- All modes, in order. -/
def all : List Mode := [nl, is, ix, s, six, x]

/-- The place of a mode in the order of declaration. -/
def rank : Mode → Nat
  | nl => 0
  | is => 1
  | ix => 2
  | s => 3
  | six => 4
  | x => 5

instance : Ord Mode := ⟨fun a b => compare a.rank b.rank⟩

/-- Two different transactions may hold these modes on one resource at the same time. -/
def compatible : Mode → Mode → Bool
  | nl, _ | _, nl => true
  | is, x | x, is => false
  | is, _ | _, is => true
  | ix, ix => true
  | s, s => true
  | _, _ => false

/-- The first mode gives at least the rights of the second. -/
def covers : Mode → Mode → Bool
  | _, nl => true
  | x, _ => true
  | six, s | six, ix | six, is | six, six => true
  | s, s | s, is => true
  | ix, ix | ix, is => true
  | is, is => true
  | _, _ => false

/-- The weakest mode on the enclosing resource under which this mode may be taken. -/
def above : Mode → Mode
  | nl => nl
  | is | s => is
  | ix | six | x => ix

/-- A holder of the first mode on a resource may hold the second on a resource below it. -/
def admits : Mode → Mode → Bool
  | _, nl => true
  | is, is | is, s => true
  | ix, _ => true
  | six, ix | six, six | six, x => true
  | _, _ => false

/-- The short code of a mode. -/
def code : Mode → String
  | nl => "NL"
  | is => "IS"
  | ix => "IX"
  | s => "S"
  | six => "SIX"
  | x => "X"

/-- The mode with this code, exactly as `code` writes it. -/
def ofCode? (text : String) : Option Mode :=
  all.find? (·.code == text)

/-- What is said of a text that is no code of a mode. -/
def noSuchCode : String := "Matching variant not found"

instance : ToString Mode := ⟨code⟩

theorem compatible_comm (a b : Mode) : a.compatible b = b.compatible a := by
  cases a <;> cases b <;> rfl

@[simp] theorem covers_refl (a : Mode) : a.covers a := by
  cases a <;> rfl

/-- A mode without rights covers no other. -/
theorem eq_nl_of_nl_covers {a : Mode} (h : nl.covers a) : a = nl := by
  cases a with
  | nl => rfl
  | _ => cases h

/-- Raising a mode can only lose companions. -/
theorem compatible_of_covers {a b c : Mode} (h : a.covers b) (hc : a.compatible c) :
    b.compatible c := by
  revert h hc
  cases a <;> cases b <;> cases c <;> decide

theorem above_admits (a : Mode) : a.above.admits a := by
  cases a <;> rfl

@[simp] theorem ofCode?_code (a : Mode) : ofCode? a.code = some a := by
  cases a <;> decide

theorem ofCode?_eq_some_iff {text : String} {a : Mode} : ofCode? text = some a ↔ text = a.code := by
  constructor
  · intro h
    have := List.find?_some h
    simpa using (beq_iff_eq.1 this).symm
  · rintro rfl
    exact ofCode?_code a

end Mode

end Locking
