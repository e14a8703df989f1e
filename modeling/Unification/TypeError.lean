import Unification.Tree.Text

/-!
# Type errors

Why types cannot be built or unified, and how that is worded. An error holds the types that it is
about as texts, taken at the moment of failure, because later bindings change what a type reads as.
-/

namespace Unification

/-- Why a type could not be built or two types could not be unified. -/
inductive TypeError where
  /-- Neither side can become the other. -/
  | incompatible (left right : String)
  /-- No member of an overload set fits. -/
  | noMatch (target union : String)
  /-- Several members of an overload set fit equally well. -/
  | ambiguous (target union : String) (candidates : List String)
  /-- A variable would stand for a type that contains it. -/
  | infiniteType (var ty : String)
  /-- A template was applied to the wrong number of arguments. -/
  | arityMismatch (template : String) (expected found : Nat)
  /-- A template was declared with another number of bounds than of parameters. -/
  | malformedTemplate (template : String) (params bounds : Nat)
  deriving DecidableEq

namespace TypeError

/-- The wording of the error. -/
def message : TypeError → String
  | incompatible left right =>
    "Incompatible types: " ++ left ++ " and " ++ right
  | noMatch target union =>
    "No match for " ++ target ++ " in " ++ union
  | ambiguous target union _ =>
    "Ambiguous " ++ target ++ " for " ++ union
  | infiniteType var ty =>
    "Infinite type: " ++ var ++ " occurs in " ++ ty
  | arityMismatch template expected found =>
    "Wrong number of arguments for " ++ template ++ ": expected " ++ toString expected ++
      ", found " ++ toString found
  | malformedTemplate template params bounds =>
    "Template " ++ template ++ " has " ++ toString params ++ " parameters but " ++
      toString bounds ++ " constraints"

/-- The error means no more than that one member of an overload set does not fit. -/
def rejectsMember : TypeError → Bool
  | incompatible _ _        => true
  | noMatch _ _             => true
  | ambiguous _ _ _         => true
  | infiniteType _ _        => true
  | arityMismatch _ _ _     => false
  | malformedTemplate _ _ _ => false

end TypeError

/-! ### Errors of the unifier -/

namespace Graph

/-- Two types clash. -/
def incompatible (g : Graph) (left right : TypeRef) : TypeError :=
  let l := g.renderIn {} left
  let r := g.renderIn l.2 right
  .incompatible l.1 r.1

/-- A variable occurs in the type that it would stand for. -/
def infiniteType (g : Graph) (var ty : TypeRef) : TypeError :=
  let v := g.renderIn {} var
  let t := g.renderIn v.2 ty
  .infiniteType v.1 t.1

/-- No member of an overload set fits the target. -/
def noMatch (g : Graph) (target union : TypeRef) : TypeError :=
  let t := g.renderIn {} target
  let u := g.renderIn t.2 union
  .noMatch t.1 u.1

/-- The given members of an overload set fit the target equally well. The members are labelled
before the target. -/
def ambiguous (g : Graph) (target union : TypeRef) (candidates : List TypeRef) : TypeError :=
  let cs := g.renderAll {} candidates
  let t := g.renderIn cs.2 target
  let u := g.renderIn t.2 union
  .ambiguous t.1 u.1 cs.1

end Graph

end Unification
