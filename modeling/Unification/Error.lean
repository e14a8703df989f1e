import Unification.Scope
import Unification.TypeError

/-!
# Errors

The failures of the engine taken together.
-/

namespace Unification

/-- Any failure of the engine. -/
inductive Error where
  | scope (cause : ScopeError)
  | type (cause : TypeError)
  deriving DecidableEq

/-- The wording of a failure, which says what it is about. -/
def Error.message : Error → String
  | scope cause => "Scope error: " ++ cause.message
  | type cause  => "Type error: " ++ cause.message

end Unification
