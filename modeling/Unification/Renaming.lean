import Unification.Tree.Basic

/-!
# Renaming placeholders

Copying, generalizing and instantiating a type rebuild its instances and replace its placeholders,
one replacement for each placeholder however often it occurs. Terminals and overload sets are kept,
and so is everything inside an overload set.
-/

namespace Unification

/-- What becomes of the placeholders of a type. -/
inductive Renewal where
  /-- A new variable for each variable, and a new constraint for each constraint. -/
  | copy
  /-- A new constraint for each variable; constraints stay. -/
  | generalize
  /-- A new variable for each constraint; variables stay. -/
  | instantiate
  deriving DecidableEq

/-- The node that replaces a placeholder, or nothing if the placeholder stays. -/
def Renewal.replacement (how : Renewal) (p : Placeholder) : Option Node :=
  match how, p.kind with
  | copy,        .flexible => some (.var p.name none)
  | copy,        .rigid    => some (.constraint p.name)
  | generalize,  .flexible => some (.constraint p.name)
  | generalize,  .rigid    => none
  | instantiate, .flexible => none
  | instantiate, .rigid    => some (.var p.name none)

/-- The replacements chosen so far. A placeholder that stays is its own replacement. -/
structure Renaming where
  entries : List (TypeRef × TypeRef) := []

namespace Renaming

/-- The replacement of a placeholder, if it was met before. -/
def get? (ρ : Renaming) (r : TypeRef) : Option TypeRef :=
  ρ.entries.lookup r

/-- Records the replacement of a placeholder. -/
def insert (ρ : Renaming) (r image : TypeRef) : Renaming :=
  ⟨(r, image) :: ρ.entries⟩

/-- A recorded replacement is found. -/
@[simp]
theorem get?_insert_self (ρ : Renaming) (r image : TypeRef) :
    (ρ.insert r image).get? r = some image := by
  simp [get?, insert]

/-- Recording the replacement of `r` concerns no other placeholder. -/
theorem get?_insert_of_ne (ρ : Renaming) {r r' : TypeRef} (image : TypeRef) (h : r' ≠ r) :
    (ρ.insert r image).get? r' = ρ.get? r' := by
  simp [get?, insert, List.lookup_cons, beq_false_of_ne h]

end Renaming

/-- A graph under change, with the replacements chosen so far. -/
structure Draft where
  graph  : Graph
  chosen : Renaming := {}

namespace Draft

/-- Adds a node to the graph. -/
def add (d : Draft) (n : Node) : TypeRef × Draft :=
  let result := d.graph.add n
  (result.1, { d with graph := result.2 })

/-- Records the replacement of a placeholder. -/
def record (d : Draft) (r image : TypeRef) : Draft :=
  { d with chosen := d.chosen.insert r image }

/-- The replacement of a placeholder: the recorded one, or else a new one, which is recorded. -/
def replace (how : Renewal) (d : Draft) (p : Placeholder) : TypeRef × Draft :=
  match d.chosen.get? p.ref with
  | some image => (image, d)
  | none =>
    match how.replacement p with
    | some n =>
      let image := d.add n
      (image.1, image.2.record p.ref image.1)
    | none => (p.ref, d.record p.ref p.ref)

mutual

/-- Builds the renewed form of a tree: the arguments from left to right, then the instance. -/
def build (how : Renewal) (d : Draft) : Tree → TypeRef × Draft
  | .terminal r _  => (r, d)
  | .placeholder p => replace how d p
  | .inst t args   =>
    let images := buildAll how d args
    images.2.add (.inst t images.1)
  | .union r _     => (r, d)

/-- Builds the renewed forms of several trees. -/
def buildAll (how : Renewal) (d : Draft) : List Tree → List TypeRef × Draft
  | []      => ([], d)
  | t :: ts =>
    let first := build how d t
    let rest := buildAll how first.2 ts
    (first.1 :: rest.1, rest.2)

end

/-- Renews a type of the draft. Types renewed in one draft share their replacements. -/
def renew (how : Renewal) (d : Draft) (r : TypeRef) : TypeRef × Draft :=
  build how d (d.graph.resolve r)

end Draft

/-- Renews a type on its own. -/
def Graph.renew (g : Graph) (how : Renewal) (r : TypeRef) : TypeRef × Graph :=
  let result := Draft.renew how { graph := g } r
  (result.1, result.2.graph)

end Unification
