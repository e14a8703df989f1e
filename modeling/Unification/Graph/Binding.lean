import Unification.Graph.Basic

/-!
# Bindings

A bound variable stands for what it is bound to, which may be a bound variable again. The node at
the end of such a chain is the representative of every variable on it.
-/

namespace Unification.Graph

/-- What the variable at a reference is bound to. -/
def binding? (g : Graph) (r : TypeRef) : Option TypeRef :=
  (g.node? r).bind Node.binding?

/-- Follows at most `n` bindings from a reference. -/
def follow (g : Graph) : Nat → TypeRef → TypeRef
  | 0,     r => r
  | n + 1, r =>
    match g.binding? r with
    | some next => follow g n next
    | none      => r

/-- The representative of a type: the end of its chain of bindings. A chain that does not run in a
circle visits no node twice, so it is shorter than the number of nodes. -/
def rep (g : Graph) (r : TypeRef) : TypeRef :=
  g.follow g.nodes.size r

/-- Sets or clears the binding of a variable; any other node stays as it is. -/
def setBinding (g : Graph) (v : TypeRef) (binding : Option TypeRef) : Graph :=
  match g.node? v with
  | some (.var name _) => { g with nodes := g.nodes.setIfInBounds v (.var name binding) }
  | _                  => g

/-- Setting a binding adds and removes no node. -/
@[simp]
theorem size_setBinding (g : Graph) (v : TypeRef) (b : Option TypeRef) :
    (g.setBinding v b).nodes.size = g.nodes.size := by
  unfold setBinding
  split <;> simp

/-- Setting a binding leaves the templates alone. -/
@[simp]
theorem templates_setBinding (g : Graph) (v : TypeRef) (b : Option TypeRef) :
    (g.setBinding v b).templates = g.templates := by
  unfold setBinding
  split <;> rfl

/-- Setting the binding of `v` changes no other node. -/
theorem node?_setBinding_of_ne (g : Graph) {v r : TypeRef} (b : Option TypeRef) (h : r ≠ v) :
    (g.setBinding v b).node? r = g.node? r := by
  unfold setBinding
  split
  · simp [node?, Array.getElem?_setIfInBounds_ne (Ne.symm h)]
  · rfl

/-- A variable has the binding that was set last. -/
theorem node?_setBinding_self (g : Graph) {v : TypeRef} {name : Option String}
    {old : Option TypeRef} (b : Option TypeRef) (h : g.node? v = some (.var name old)) :
    (g.setBinding v b).node? v = some (.var name b) := by
  have hv : v < g.nodes.size := by
    simp only [node?, Array.getElem?_eq_some_iff] at h
    exact h.1
  simp only [setBinding, h]
  simp [node?, hv]

/-- A reference without a binding represents itself. -/
theorem follow_of_binding?_eq_none (g : Graph) (n : Nat) {r : TypeRef} (h : g.binding? r = none) :
    g.follow n r = r := by
  cases n with
  | zero => rfl
  | succ n => simp [follow, h]

end Unification.Graph
