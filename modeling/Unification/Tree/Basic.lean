import Unification.Graph.Binding

/-!
# Resolved trees

Reading the graph from a type, with the representative taken at every step, gives a finite tree in
which no bound variable is left. Rendering, ranking and renaming depend on this tree alone.
-/

namespace Unification

/-- The two kinds of placeholder. -/
inductive PlaceholderKind where
  /-- A free variable, which unification may bind. -/
  | flexible
  /-- A constraint, which nothing binds. -/
  | rigid
  deriving DecidableEq

/-- A leaf that stands for a type not known here: a free variable or a constraint. -/
structure Placeholder where
  ref  : TypeRef
  kind : PlaceholderKind
  name : Option String
  deriving DecidableEq

/-- A type as a finite tree. Leaves carry their reference, since that is what tells them apart; so
does an overload set, which several operations treat as a leaf. -/
inductive Tree where
  | terminal (ref : TypeRef) (name : String)
  | placeholder (p : Placeholder)
  | inst (template : TemplateRef) (args : List Tree)
  | union (ref : TypeRef) (members : List Tree)

namespace Tree

mutual

/-- The placeholders in the order in which the tree is read, overload sets included, each as often
as it occurs. -/
def placeholders : Tree → List Placeholder
  | terminal _ _     => []
  | placeholder p    => [p]
  | inst _ args      => placeholdersAll args
  | union _ members  => placeholdersAll members

/-- The placeholders of a list of trees, from left to right. -/
def placeholdersAll : List Tree → List Placeholder
  | []      => []
  | t :: ts => placeholders t ++ placeholdersAll ts

end

mutual

/-- The number of concrete nodes: nothing for a placeholder, one for a terminal or an overload set,
and for an instance one more than its arguments have. -/
def specificity : Tree → Nat
  | terminal _ _   => 1
  | placeholder _  => 0
  | inst _ args    => 1 + specificityAll args
  | union _ _      => 1

/-- The concrete nodes of a list of trees. -/
def specificityAll : List Tree → Nat
  | []      => 0
  | t :: ts => specificity t + specificityAll ts

end

end Tree

namespace Graph

/-- The tree at a reference, cut off below `n` levels. A missing or cut off node reads as a nameless
free variable. -/
def unfold (g : Graph) : Nat → TypeRef → Tree
  | 0,     r => .placeholder ⟨r, .flexible, none⟩
  | n + 1, r =>
    let a := g.rep r
    match g.node? a with
    | some (.terminal name)   => .terminal a name
    | some (.var name _)      => .placeholder ⟨a, .flexible, name⟩
    | some (.constraint name) => .placeholder ⟨a, .rigid, name⟩
    | some (.inst t args)     => .inst t (args.map (unfold g n))
    | some (.union members)   => .union a (members.map (unfold g n))
    | none                    => .placeholder ⟨a, .flexible, none⟩

/-- The resolved tree of a type. In a graph without circles a path passes each node at most once,
so as many levels as there are nodes cut nothing off. -/
def resolve (g : Graph) (r : TypeRef) : Tree :=
  g.unfold g.nodes.size r

/-- How concrete a type is; this ranks the members of an overload set. -/
def specificity (g : Graph) (r : TypeRef) : Nat :=
  (g.resolve r).specificity

end Graph

end Unification
