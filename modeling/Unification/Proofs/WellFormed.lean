import Mathlib.Tactic.SplitIfs
import Unification.Proofs.Path

/-!
# Well-formed type graphs

A graph is well formed if its references stay inside it, its paths do not run in circles, and its
instances have as many arguments as their templates have parameters. Adding a node, defining a
template and binding a free variable to a type it does not occur in all keep a graph well formed.
-/

namespace Unification.Graph

open Relation

variable {g : Graph} {r v ty x y : TypeRef} {n : Node}

/-- If the node is an instance, then it has as many arguments as its template takes. -/
def Applies (g : Graph) (n : Node) : Prop :=
  ∀ t args, n = .inst t args → ∃ d, g.template? t = some d ∧ d.arity = args.length

/-- What holds of the type graph at all times. -/
structure WellFormed (g : Graph) : Prop where
  closed  : g.Closed
  acyclic : g.Acyclic
  applies : ∀ ⦃r n⦄, g.node? r = some n → g.Applies n

/-- Two instances of one template have equally many arguments. -/
lemma WellFormed.length_eq (hg : g.WellFormed) {t : TemplateRef} {xs ys : List TypeRef}
    (hx : g.node? x = some (.inst t xs)) (hy : g.node? y = some (.inst t ys)) :
    xs.length = ys.length := by
  obtain ⟨d, hd, hxs⟩ := hg.applies hx t xs rfl
  obtain ⟨d', hd', hys⟩ := hg.applies hy t ys rfl
  rw [← hxs, ← hys, Option.some.inj (hd.symm.trans hd')]

/-- The children of a node of a well-formed graph are in the graph. -/
lemma WellFormed.child_lt (hg : g.WellFormed) (hn : g.node? r = some n) (hx : x ∈ n.children) :
    x < g.nodes.size :=
  hg.closed ((edge_of_node? hn).mpr hx)

/-! ### Adding a node -/

lemma edge_add : (g.add n).2.Edge x y ↔
    (x = g.nodes.size ∧ y ∈ n.children) ∨ (x ≠ g.nodes.size ∧ g.Edge x y) := by
  rw [edge_iff, node?_add]
  split_ifs with hx
  · simp [hx]
  · simp [hx, edge_iff]

/-- A new node may point to any node of the graph. -/
theorem WellFormed.add (hg : g.WellFormed) (hc : ∀ c ∈ n.children, c < g.nodes.size)
    (hn : g.Applies n) : (g.add n).2.WellFormed where
  closed x y hxy := by
    rw [size_add]
    rcases edge_add.mp hxy with ⟨_, hy⟩ | ⟨_, hxy⟩
    · exact (hc y hy).trans (Nat.lt_succ_self _)
    · exact (hg.closed hxy).trans (Nat.lt_succ_self _)
  acyclic := by
    -- the new node is ranked above all others
    apply acyclic_of_rank fun r => if r = g.nodes.size then g.nodes.size else g.height r
    intro x y hxy
    rcases edge_add.mp hxy with ⟨rfl, hy⟩ | ⟨hx, hxy⟩
    · simp [(hc y hy).ne, height_lt_size hg.acyclic (hc y hy)]
    · simp [hx, (hg.closed hxy).ne, height_lt_of_edge hg.closed hg.acyclic hxy]
  applies r m hm := by
    rw [node?_add] at hm
    split_ifs at hm with hr
    · cases hm
      exact hn
    · exact hg.applies hm

/-! ### Defining a template -/

lemma template?_define_of_eq_some {t d : Template} {i : TemplateRef}
    (h : g.template? i = some d) : (g.define t).2.template? i = some d := by
  have hi : i < g.templates.size := by
    simp only [template?, Array.getElem?_eq_some_iff] at h
    exact h.1
  rw [template?_define, if_neg hi.ne, h]

theorem WellFormed.define (hg : g.WellFormed) (t : Template) : (g.define t).2.WellFormed where
  closed := hg.closed
  acyclic := hg.acyclic
  applies r n hn t' args hargs := by
    obtain ⟨d, hd, harity⟩ := hg.applies hn t' args hargs
    exact ⟨d, template?_define_of_eq_some hd, harity⟩

/-! ### Binding a variable -/

lemma node?_bind (ty : TypeRef) (hv : g.isFree v = true) :
    ∃ name, g.node? v = some (.var name none) ∧
      (g.setBinding v (some ty)).node? v = some (.var name (some ty)) := by
  obtain ⟨name, hn⟩ := (g.isFree_eq_true_iff v).mp hv
  exact ⟨name, hn, node?_setBinding_self g (some ty) hn⟩

/-- Binding a free variable adds one edge. -/
lemma edge_bind (hv : g.isFree v = true) :
    (g.setBinding v (some ty)).Edge x y ↔ g.Edge x y ∨ (x = v ∧ y = ty) := by
  obtain ⟨name, hn, hn'⟩ := node?_bind ty hv
  by_cases hx : x = v
  · subst hx
    rw [edge_of_node? hn', edge_of_node? hn]
    simp [Node.children]
  · rw [edge_iff, node?_setBinding_of_ne g (some ty) hx, ← edge_iff]
    simp [hx]

/-- A free variable may be bound to any type that has no path to it. -/
theorem WellFormed.bind (hg : g.WellFormed) (hv : g.isFree v = true) (hty : ty < g.nodes.size)
    (hocc : ¬ g.Reaches ty v) : (g.setBinding v (some ty)).WellFormed where
  closed x y hxy := by
    rw [size_setBinding]
    rcases (edge_bind hv).mp hxy with hxy | ⟨_, rfl⟩
    · exact hg.closed hxy
    · exact hty
  acyclic := by
    classical
    -- whatever has a path to the variable is lifted above the type
    refine acyclic_of_rank
      (fun r => if g.Reaches r v then g.height r + g.height ty + 1 else g.height r) ?_
    intro x y hxy
    rcases (edge_bind hv).mp hxy with hxy | ⟨rfl, rfl⟩
    · have hlt := height_lt_of_edge hg.closed hg.acyclic hxy
      by_cases hy : g.Reaches y v
      · have hx : g.Reaches x v := ReflTransGen.head hxy hy
        simp [hx, hy, hlt]
      · simp only [hy, if_false]
        split_ifs <;> omega
    · have hx : g.Reaches x x := ReflTransGen.refl
      simp only [hocc, hx, if_true, if_false]
      omega
  applies r m hm t args hargs := by
    have hsame : g.node? r = some m := by
      by_cases hr : r = v
      · subst hr
        obtain ⟨name, -, hn'⟩ := node?_bind ty hv
        rw [hn'] at hm
        cases hm
        cases hargs
      · rwa [node?_setBinding_of_ne g (some ty) hr] at hm
    simpa [template?] using hg.applies hsame t args hargs

/-! ### The graph at the start -/

lemma eq_constraint_of_node?_initial (h : initial.node? r = some n) : n = .constraint none := by
  simpa [initial] using Array.mem_of_getElem? h

lemma not_edge_initial : ¬ initial.Edge x y := by
  intro h
  obtain ⟨n, hn, hy⟩ := edge_iff.mp h
  simp [eq_constraint_of_node?_initial hn, Node.children] at hy

theorem wellFormed_initial : initial.WellFormed where
  closed _ _ h := absurd h not_edge_initial
  acyclic := acyclic_of_rank (fun _ => 0) fun _ _ h => absurd h not_edge_initial
  applies r n hn t args hargs := by
    cases (eq_constraint_of_node?_initial hn).symm.trans hargs

end Unification.Graph
