import Unification.Tree.Basic

/-!
# Text of types

A placeholder has no spelling of its own. It gets a label when a text first mentions it, and texts
that are meant to be read together share one table of labels. A text is written in two steps: first
every placeholder of the tree gets its label, then the tree is spelled with the finished table. To do
both in one pass comes to the same: `Graph.renderIn_eq_write`.
-/

namespace Unification

/-- The labels given so far, newest first. -/
structure Labels where
  entries : List (TypeRef × String) := []

namespace Labels

/-- The label of a placeholder, if it has one. -/
def get? (ls : Labels) (r : TypeRef) : Option String :=
  ls.entries.lookup r

/-- The number of labels given so far. -/
def count (ls : Labels) : Nat :=
  ls.entries.length

/-- The spelling of a new label: a variable keeps its name, and all else is numbered by the labels
given before it. The name of a constraint is not shown. -/
def spell (ls : Labels) (p : Placeholder) : String :=
  match p.kind, p.name with
  | .flexible, some name => "'" ++ name
  | _,         _         => "'" ++ toString ls.count

/-- Gives a placeholder its label, unless it has one. -/
def add (ls : Labels) (p : Placeholder) : Labels :=
  match ls.get? p.ref with
  | some _ => ls
  | none   => ⟨(p.ref, ls.spell p) :: ls.entries⟩

/-- Labels the placeholders of a tree in reading order. -/
def addTree (ls : Labels) (t : Tree) : Labels :=
  t.placeholders.foldl add ls

/-- The label of a placeholder, empty if it has none. -/
def label (ls : Labels) (r : TypeRef) : String :=
  (ls.get? r).getD ""

/-- A label once given does not change. -/
theorem get?_add_of_eq_some (ls : Labels) (p : Placeholder) {r : TypeRef} {l : String}
    (h : ls.get? r = some l) : (ls.add p).get? r = some l := by
  unfold add
  split
  · exact h
  · next hp =>
    have hne : r ≠ p.ref := by
      intro heq
      simp [heq, hp] at h
    simpa [get?, List.lookup_cons, beq_false_of_ne hne] using h

end Labels

namespace Tree

variable (names : TemplateRef → String) (label : TypeRef → String)

mutual

/-- The text of a tree. Curried functions are written as one list of parameters and a result,
`(A, B) -> R`. With `opened` such a list is still open in front of the tree: a function adds its
parameter to the list, and any other type closes it and is the result. -/
def textAfter (opened : Bool) : Tree → String
  | terminal _ name => (if opened then ") -> " else "") ++ name
  | placeholder p   => (if opened then ") -> " else "") ++ label p.ref
  | inst t args     =>
    if t = functionTemplate ∧ args.length = 2 then
      textArrow opened args
    else
      (if opened then ") -> " else "") ++ names t ++ "<" ++ textAll ", " args ++ ">"
  | union _ members =>
    (if opened then ") -> " else "") ++ "\x7b" ++ textAll "|" members ++ "\x7d"

/-- The text of parameters followed by a result. -/
def textArrow (opened : Bool) : List Tree → String
  | []            => ""
  | [result]      => textAfter true result
  | param :: rest => (if opened then ", " else "(") ++ textAfter false param ++ textArrow true rest

/-- The texts of several trees with a separator between them. -/
def textAll (separator : String) : List Tree → String
  | []      => ""
  | [t]     => textAfter false t
  | t :: ts => textAfter false t ++ separator ++ textAll separator ts

end

/-- The text of a tree on its own. -/
def text (t : Tree) : String :=
  t.textAfter names label false

end Tree

namespace Graph

/-- The text of a type, and the table with the labels that it needed. -/
def renderIn (g : Graph) (ls : Labels) (r : TypeRef) : String × Labels :=
  let t := g.resolve r
  let ls := ls.addTree t
  (t.text g.templateName ls.label, ls)

/-- The text of a type with labels of its own. -/
def render (g : Graph) (r : TypeRef) : String :=
  (g.renderIn {} r).1

/-- The texts of several types, labelled together from left to right. -/
def renderAll (g : Graph) (ls : Labels) : List TypeRef → List String × Labels
  | []      => ([], ls)
  | r :: rs =>
    let first := g.renderIn ls r
    let rest := renderAll g first.2 rs
    (first.1 :: rest.1, rest.2)

end Graph

end Unification
