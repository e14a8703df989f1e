/-!
# Configuration

The settings of the engine, and how they are read from and written to a structured value.
-/

namespace Unification

/-- A structured value, as in a configuration file. -/
inductive Value where
  | null
  | bool (b : Bool)
  /-- The number `mantissa / 10 ^ exponent`. -/
  | number (mantissa : Int) (exponent : Nat)
  | text (s : String)
  | list (items : List Value)
  | record (fields : List (String × Value))
  deriving Inhabited

/-- The settings of the engine. -/
structure Config where
  /-- Take back every binding of a unification that fails. Otherwise the bindings that it made
  before it failed stay. -/
  rollbackOnFailure : Bool := false
  deriving DecidableEq

namespace Config

/-- The name of the rollback setting in a record. -/
def rollbackKey : String :=
  "rollback_on_failure"

/-- Reads the settings from a record, where a missing field has its default and unknown fields are
ignored, or from a list that gives the fields in order. -/
def ofValue? : Value → Option Config
  | .record fields =>
    match fields.lookup rollbackKey with
    | none           => some {}
    | some (.bool b) => some { rollbackOnFailure := b }
    | some _         => none
  | .list []        => some {}
  | .list [.bool b] => some { rollbackOnFailure := b }
  | _               => none

/-- Writes the settings as a record. -/
def toValue (c : Config) : Value :=
  .record [(rollbackKey, .bool c.rollbackOnFailure)]

/-- Settings read back as they were written. -/
theorem ofValue?_toValue (c : Config) : ofValue? c.toValue = some c := by
  simp [toValue, ofValue?]

end Config

end Unification
