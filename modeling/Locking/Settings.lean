/-!
# Settings

What the operator may choose. A choice left open has a default.
-/

namespace Locking

/-- The choices of the operator. -/
structure Settings where
  /-- The root of the hierarchy handed out for the database. -/
  databaseName? : Option String := none
  /-- Whether the table is audited after every change. -/
  checkInvariants? : Option Bool := none
  deriving DecidableEq, Repr, Inhabited

namespace Settings

/-- The root of the database's hierarchy; `database` if left open. -/
def databaseName (s : Settings) : String := s.databaseName?.getD "database"

/-- Whether the table is audited after every change; it is if left open. -/
def checkInvariants (s : Settings) : Bool := s.checkInvariants?.getD true

/-- The settings under which the tables are always audited. -/
def audited : Settings := { checkInvariants? := some true }

end Settings

end Locking
