import Locking.Lock

/-!
# Log records

A log record has a level, a message and named fields. Values with structure are written out in
full, name by name.
-/

namespace Locking.Log

/-- The importance of a record. -/
inductive Level where
  | trace
  | debug
  | error
  deriving DecidableEq, Repr

/-- One record of the log. -/
structure Record where
  level : Level
  message : String
  fields : List (String × String) := []
  deriving DecidableEq, Repr

/-- The name of a level in the log. -/
def Level.text : Level → String
  | trace => "TRACE"
  | debug => "DEBUG"
  | error => "ERROR"

/-- A structured value: its kind, and its fields between braces. -/
def structured (kind : String) (fields : List (String × String)) : String :=
  kind ++ " \x7b " ++ ", ".intercalate (fields.map fun f => f.1 ++ ": " ++ f.2) ++ " \x7d"

/-- A list of values between brackets. -/
def listed (items : List String) : String := "[" ++ ", ".intercalate items ++ "]"

/-- How a character is written between quotes. -/
def escape (c : Char) : String :=
  if c = '\x00' then "\\0"
  else if c = '\t' then "\\t"
  else if c = '\r' then "\\r"
  else if c = '\n' then "\\n"
  else if c = '\"' then "\\\""
  else if c = '\\' then "\\\\"
  else if c.toNat < 0x20 ∨ c.toNat = 0x7f then
    "\\u\x7b" ++ String.ofList (Nat.toDigits 16 c.toNat) ++ "\x7d"
  else c.toString

/-- A text between quotes. Quotes, backslashes and control characters are escaped. This is right for
texts of ASCII characters; of all others, those that cannot be printed should be escaped as well. -/
def quoted (text : String) : String := "\"" ++ String.join (text.toList.map escape) ++ "\""

/-- A resource in full. -/
def resource (r : Resource) : String :=
  structured "ResourceName" [("segments", listed (r.segments.map quoted))]

/-- A lock in full. -/
def lock (l : Lock) : String :=
  structured "Lock" [("name", resource l.resource), ("lock_type", l.mode.code),
    ("transaction", toString l.owner)]

end Locking.Log
