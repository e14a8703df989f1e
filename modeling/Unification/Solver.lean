import Unification.Outcome
import Unification.Store

/-!
# The unifier

Two types are unified by the rule that fits their representatives: a free variable is bound,
instances of one template are unified argument by argument, and an overload set is resolved by
trying its members. The unifier is written as one step over an unknown unifier for the parts, and
then tied to itself with a bound on the depth, because resolving an overload set may lead back to
the same question.
-/

namespace Unification

/-- The rule that applies to a pair of representatives. -/
inductive Rule where
  /-- The sides are one type. -/
  | same
  /-- A free variable takes a type. -/
  | assign (var ty : TypeRef)
  /-- An overload set meets a type that is not a free variable. -/
  | choose (union : TypeRef) (members : List TypeRef) (target : TypeRef)
  /-- Two instances of one template meet. -/
  | descend (lefts rights : List TypeRef)
  /-- The sides cannot be made equal. -/
  | clash
  deriving DecidableEq

/-- The rule for two representatives. Variables come first, then overload sets: an overload set is
resolved even against itself. -/
def Graph.rule (g : Graph) (a b : TypeRef) : Rule :=
  match g.node? a, g.node? b with
  | some (.var _ _), _ => if a = b then .same else .assign a b
  | _, some (.var _ _) => .assign b a
  | some (.union members), _ => .choose a members b
  | _, some (.union members) => .choose b members a
  | some (.inst t xs), some (.inst u ys) =>
    if a = b then .same else if t = u then .descend xs ys else .clash
  | _, _ => if a = b then .same else .clash

/-- The types of a list that no other type of the list is more specific than, in order. -/
def Graph.mostSpecific (g : Graph) (rs : List TypeRef) : List TypeRef :=
  let top := rs.foldl (fun n r => max n (g.specificity r)) 0
  rs.filter fun r => g.specificity r == top

/-- A way to unify two types, which gives the representative of the unified pair. -/
abbrev Unifier := TypeRef → TypeRef → Store → Outcome Store TypeRef

/-- Binds a free variable, unless it occurs in the type. -/
def assign (var ty : TypeRef) (s : Store) : Outcome Store TypeRef :=
  if s.graph.occursIn var ty then
    .failed (s.graph.infiniteType var ty) s
  else
    .done ty (s.bind var ty)

variable (unify : Unifier)

/-- Unifies the types of two lists in pairs, from left to right, up to the first failure. -/
def unifyAll : List TypeRef → List TypeRef → Store → Outcome Store Unit
  | x :: xs, y :: ys, s => (unify x y s).andThen fun _ s => unifyAll xs ys s
  | _,       _,       s => .done () s

/-- Tries a member of an overload set: a fresh instance of the member is unified with a copy of the
target, and all bindings are taken back whatever comes of it. -/
def fits (target member : TypeRef) (s : Store) : Outcome Store Bool :=
  let mark := s.mark
  let inst := s.renew .instantiate member
  let probe := inst.2.renew .copy target
  match unify inst.1 probe.1 probe.2 with
  | .done _ s   => .done true (s.rewind mark)
  | .failed e s =>
    if e.rejectsMember then
      .done false (s.rewind mark)
    else
      .failed e (s.rewind mark)
  | .cut        => .cut

/-- The members that fit the target, each tried in turn. -/
def fitting (target : TypeRef) : List TypeRef → Store → Outcome Store (List TypeRef)
  | [],      s => .done [] s
  | m :: ms, s =>
    (fits unify target m s).andThen fun fit s =>
      (fitting target ms s).map fun rest => if fit then m :: rest else rest

/-- Resolves an overload set: of the members that fit the target, the only most specific one is
instantiated and unified with the target itself. -/
def choose (union : TypeRef) (members : List TypeRef) (target : TypeRef) (s : Store) :
    Outcome Store TypeRef :=
  (fitting unify target members s).andThen fun viable s =>
    match s.graph.mostSpecific viable with
    | []       => .failed (s.graph.noMatch target union) s
    | [winner] =>
      let inst := s.renew .instantiate winner
      unify inst.1 target inst.2
    | tied     => .failed (s.graph.ambiguous target union tied) s

/-- Unifies two types, with `unify` for the parts. -/
def step (a b : TypeRef) (s : Store) : Outcome Store TypeRef :=
  let a := s.graph.rep a
  let b := s.graph.rep b
  match s.graph.rule a b with
  | .same                        => .done a s
  | .assign var ty               => assign var ty s
  | .choose union members target => choose unify union members target s
  | .descend xs ys               => (unifyAll unify xs ys s).map fun _ => a
  | .clash                       => .failed (s.graph.incompatible a b) s

/-- The unifier that goes at most `depth` levels down. -/
def unifier : Nat → Unifier
  | 0,         _, _, _ => .cut
  | depth + 1, a, b, s => step (unifier depth) a b s

end Unification
