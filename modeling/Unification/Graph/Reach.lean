import Unification.Graph.Binding

/-!
# Reachability

The nodes that a type leads to, through bindings, arguments and members, and the occurs check that
keeps the graph free of circles.
-/

namespace Unification.Graph

/-- Adds to `seen`, newest first, what is reachable from a reference without passing through `seen`;
no path longer than `n` is followed. -/
def visit (g : Graph) : Nat → List TypeRef → TypeRef → List TypeRef
  | 0,     seen, _ => seen
  | n + 1, seen, r =>
    if r ∈ seen then seen else (g.children r).foldl (visit g n) (r :: seen)

/-- Every type reachable from a type, itself included: depth first, children from left to right,
each once. A step deeper adds to the types seen, so no path is longer than the graph is large. -/
def reachable (g : Graph) (r : TypeRef) : List TypeRef :=
  (g.visit g.nodes.size [] r).reverse

/-- Looks for `v`, in at most `n` rounds, among the representatives of the references on the stack
and of all that these lead to. A round takes references off the stack up to the first one whose
representative was not seen before, compares the representative with `v`, and puts its children on
the stack. There is no answer if the rounds do not suffice. -/
def search (g : Graph) (v : TypeRef) : Nat → List TypeRef → List TypeRef → Option Bool
  | 0,     _,    _     => none
  | n + 1, seen, stack =>
    match stack.dropWhile fun r => g.rep r ∈ seen with
    | []        => some false
    | r :: rest =>
      if g.rep r = v then
        some true
      else
        search g v n (g.rep r :: seen) (g.children (g.rep r) ++ rest)

/-- The occurs check: `v` lies on a path from `r`. Every round of the search but the last one sees a
node for the first time, so there are no more than as many rounds as nodes, and one. -/
def occursIn (g : Graph) (v r : TypeRef) : Bool :=
  (g.search v (g.nodes.size + 1) [] [r]).getD false

end Unification.Graph
