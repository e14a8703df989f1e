/-!
# Nodes of the type graph

A type is a position in a graph of nodes, and two types are the same only if they are the same
position: terminals that share a name, or constraints that look alike, stay different types.
-/

namespace Unification

/-- A type, given by the position of its node in the graph. There are meant to be fewer than `2 ^ 32`
nodes. -/
abbrev TypeRef := Nat

/-- A template, given by its place in the order of definition. There are meant to be fewer than
`2 ^ 32` templates. -/
abbrev TemplateRef := Nat

/-- The template of function types, which every graph defines first. -/
abbrev functionTemplate : TemplateRef := 0

/-- One node of the type graph. The binding of a variable is the only part that ever changes. -/
inductive Node where
  /-- An atomic type. -/
  | terminal (name : String)
  /-- A unification variable, free while it has no binding. -/
  | var (name : Option String) (binding : Option TypeRef)
  /-- A rigid placeholder: equal to itself alone, and never bound. -/
  | constraint (name : Option String)
  /-- A template applied to arguments. -/
  | inst (template : TemplateRef) (args : List TypeRef)
  /-- An overload set: one of the members, to be chosen by unification. -/
  | union (members : List TypeRef)
  deriving DecidableEq

namespace Node

/-- The name under which a scope would register the node. -/
def name? : Node → Option String
  | terminal name    => some name
  | var name _       => name
  | constraint name  => name
  | inst _ _         => none
  | union _          => none

/-- The types that the node points to: a binding, the arguments, or the members. -/
def children : Node → List TypeRef
  | terminal _     => []
  | var _ binding  => binding.toList
  | constraint _   => []
  | inst _ args    => args
  | union members  => members

/-- What a bound variable stands for. -/
def binding? : Node → Option TypeRef
  | var _ binding => binding
  | _             => none

/-- The node is a variable, bound or free. -/
def isVar : Node → Bool
  | var _ _ => true
  | _       => false

/-- The node is a variable without a binding. -/
def isFree : Node → Bool
  | var _ none => true
  | _          => false

/-- The node is a constraint. -/
def isConstraint : Node → Bool
  | constraint _ => true
  | _            => false

/-- The node is an overload set. -/
def isUnion : Node → Bool
  | union _ => true
  | _       => false

/-- The node applies a template. -/
def isInst : Node → Bool
  | inst _ _ => true
  | _        => false

end Node

end Unification
