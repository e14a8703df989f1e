import Unification.Node

/-!
# Templates

A template is a named type constructor with a fixed list of parameters, each with a declared
bound. The bounds are kept as they were declared; unification does not look at them.
-/

namespace Unification

/-- A named type constructor. The bounds run parallel to the parameters. -/
structure Template where
  name   : String
  params : List String
  bounds : List TypeRef
  deriving DecidableEq

namespace Template

/-- The number of arguments that the template takes. -/
def arity (t : Template) : Nat :=
  t.params.length

/-- The declared bound of the first parameter so named. -/
def bound? (t : Template) (param : String) : Option TypeRef :=
  (t.params.zip t.bounds).lookup param

end Template

end Unification
