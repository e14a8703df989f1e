import Unification.Node
import Unification.Template

/-!
# The type graph

Nodes and templates are only ever added, so a reference stays valid for the life of the graph and
the order of additions decides the numbers of the references.
-/

namespace Unification

/-- All nodes and all templates made so far. -/
structure Graph where
  nodes     : Array Node
  templates : Array Template
  deriving DecidableEq

namespace Graph

/-- The graph before anything is added to it: the function template and the two anonymous
constraints that bound its parameters. -/
def initial : Graph where
  nodes := #[.constraint none, .constraint none]
  templates := #[⟨"Function", ["Input", "Output"], [0, 1]⟩]

/-- The node at a reference. -/
def node? (g : Graph) (r : TypeRef) : Option Node :=
  g.nodes[r]?

/-- The template at a reference. -/
def template? (g : Graph) (t : TemplateRef) : Option Template :=
  g.templates[t]?

/-- The name of the template at a reference. -/
def templateName (g : Graph) (t : TemplateRef) : String :=
  match g.template? t with
  | some template => template.name
  | none          => ""

/-- Adds a node at the end. -/
def add (g : Graph) (n : Node) : TypeRef × Graph :=
  (g.nodes.size, { g with nodes := g.nodes.push n })

/-- Adds a template at the end. -/
def define (g : Graph) (t : Template) : TemplateRef × Graph :=
  (g.templates.size, { g with templates := g.templates.push t })

/-- The types that a reference points to; none for a reference outside the graph. -/
def children (g : Graph) (r : TypeRef) : List TypeRef :=
  match g.node? r with
  | some n => n.children
  | none   => []

/-- The node at the reference is a variable without a binding. -/
def isFree (g : Graph) (r : TypeRef) : Bool :=
  (g.node? r).any Node.isFree

/-- A new node gets the next reference. -/
@[simp]
theorem add_fst (g : Graph) (n : Node) : (g.add n).1 = g.nodes.size :=
  rfl

/-- Adding a node leaves the templates alone. -/
@[simp]
theorem templates_add (g : Graph) (n : Node) : (g.add n).2.templates = g.templates :=
  rfl

/-- Adding a node makes the graph one larger. -/
@[simp]
theorem size_add (g : Graph) (n : Node) : (g.add n).2.nodes.size = g.nodes.size + 1 := by
  simp [add]

/-- The new node stands at the new reference, and every other reference reads as before. -/
theorem node?_add (g : Graph) (n : Node) (r : TypeRef) :
    (g.add n).2.node? r = if r = g.nodes.size then some n else g.node? r := by
  simp [add, node?, Array.getElem?_push]

/-- The free references are those that hold a variable without a binding. -/
theorem isFree_eq_true_iff (g : Graph) (r : TypeRef) :
    g.isFree r = true ↔ ∃ name, g.node? r = some (.var name none) := by
  cases hn : g.node? r with
  | none => simp [isFree, hn]
  | some n =>
    rcases n with _ | ⟨_, _ | _⟩ | _ | _ | _ <;> simp [isFree, hn, Node.isFree]

/-- Defining a template leaves the nodes alone. -/
@[simp]
theorem node?_define (g : Graph) (t : Template) (r : TypeRef) :
    (g.define t).2.node? r = g.node? r :=
  rfl

/-- The new template stands at the new reference, and every other reference reads as before. -/
theorem template?_define (g : Graph) (t : Template) (i : TemplateRef) :
    (g.define t).2.template? i = if i = g.templates.size then some t else g.template? i := by
  simp [define, template?, Array.getElem?_push]

end Graph

end Unification
