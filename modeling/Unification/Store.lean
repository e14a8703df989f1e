import Unification.Graph.Reach
import Unification.Renaming

/-!
# The store and its trail

Unification binds variables as it goes, and a trial has to take its bindings back. The trail lists
the variables bound so far, and its length marks a point to return to. Going back clears bindings
only: nodes that were added stay.
-/

namespace Unification

/-- A graph with the variables bound by the unification under way, newest first. -/
structure Store where
  graph : Graph
  trail : List TypeRef := []
  deriving DecidableEq

namespace Store

/-- Adds a node to the graph. -/
def add (s : Store) (n : Node) : TypeRef × Store :=
  ((s.graph.add n).1, { s with graph := (s.graph.add n).2 })

/-- Copies, generalizes or instantiates a type. -/
def renew (s : Store) (how : Renewal) (r : TypeRef) : TypeRef × Store :=
  let result := s.graph.renew how r
  (result.1, { s with graph := result.2 })

/-- Binds a variable and puts it on the trail. -/
def bind (s : Store) (v ty : TypeRef) : Store where
  graph := s.graph.setBinding v (some ty)
  trail := v :: s.trail

/-- The present point of the trail. -/
def mark (s : Store) : Nat :=
  s.trail.length

/-- The variables bound since a mark, newest first. -/
def boundSince (s : Store) (mark : Nat) : List TypeRef :=
  s.trail.take (s.trail.length - mark)

/-- Keeps the bindings made since a mark, and takes them off the trail. -/
def commit (s : Store) (mark : Nat) : Store :=
  { s with trail := s.trail.drop (s.trail.length - mark) }

/-- Takes back the bindings made since a mark, newest first. -/
def rewind (s : Store) (mark : Nat) : Store where
  graph := (s.boundSince mark).foldl (fun g v => g.setBinding v none) s.graph
  trail := s.trail.drop (s.trail.length - mark)

/-- Going back to the present changes nothing. -/
@[simp]
theorem rewind_mark (s : Store) : s.rewind s.mark = s := by
  simp [rewind, boundSince, mark]

end Store

end Unification
