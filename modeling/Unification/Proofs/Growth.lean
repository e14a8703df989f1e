import Unification.Proofs.Reading
import Unification.Store

/-!
# Growth of the store

A store grows by new nodes and by bindings of free variables, and the trail lists the new bindings.
A type keeps its meaning under growth: its tree afterwards is its tree before with the free
variables substituted, and it is the same tree where nothing was bound. Going back to a mark undoes
the growth since the mark up to nodes that nothing points to.
-/

namespace Unification

/-- What may become of a node: it stays, or it is a free variable that gets a binding. -/
inductive Node.Grows : Node → Node → Prop where
  | refl (n : Node) : Grows n n
  | bind (name : Option String) (b : TypeRef) : Grows (.var name none) (.var name (some b))

namespace Graph

variable {g g' g'' : Graph} {b r v : TypeRef} {n : Node} {θ : TypeRef → Tree}

/-- Every node of the first graph is a node of the second, where it may have got a binding. -/
def Extends (g g' : Graph) : Prop :=
  ∀ ⦃r n⦄, g.node? r = some n → ∃ n', g'.node? r = some n' ∧ n.Grows n'

/-- Every node of the first graph is the same node in the second. -/
def Keeps (g g' : Graph) : Prop :=
  ∀ ⦃r n⦄, g.node? r = some n → g'.node? r = some n

lemma Keeps.refl (g : Graph) : g.Keeps g := fun _ _ h => h

lemma Keeps.trans (h : g.Keeps g') (h' : g'.Keeps g'') : g.Keeps g'' := fun _ _ hn => h' (h hn)

lemma Keeps.extends (h : g.Keeps g') : g.Extends g' := fun _ n hn => ⟨n, h hn, .refl n⟩

lemma Extends.trans (h : g.Extends g') (h' : g'.Extends g'') : g.Extends g'' := by
  intro r n hn
  obtain ⟨n', hn', hgrow⟩ := h hn
  obtain ⟨n'', hn'', hgrow'⟩ := h' hn'
  refine ⟨n'', hn'', ?_⟩
  cases hgrow with
  | refl => exact hgrow'
  | bind name b =>
    cases hgrow'
    exact .bind name b

lemma Extends.size_le (h : g.Extends g') : g.nodes.size ≤ g'.nodes.size := by
  by_contra hlt
  obtain ⟨n, hn⟩ := exists_node? (Nat.lt_of_not_le hlt)
  obtain ⟨n', hn', _⟩ := h hn
  exact (lt_size_of_node? hn').false

/-- A node that is not a free variable stays as it is. -/
lemma Extends.node? (h : g.Extends g') (hn : g.node? r = some n) (hfree : n.isFree = false) :
    g'.node? r = some n := by
  obtain ⟨n', hn', hgrow⟩ := h hn
  cases hgrow with
  | refl => exact hn'
  | bind name b => simp [Node.isFree] at hfree

/-- A binding stays. -/
lemma Extends.binding? (h : g.Extends g') (hb : g.binding? r = some b) :
    g'.binding? r = some b := by
  obtain ⟨name, hn⟩ := binding?_eq_some_iff.mp hb
  exact binding?_eq_some_iff.mpr ⟨name, h.node? hn rfl⟩

/-- An existing node without a binding after the growth is unchanged. -/
lemma Extends.node?_of_binding? (h : g.Extends g') (hn : g.node? r = some n)
    (hb : g'.binding? r = none) : g'.node? r = some n := by
  obtain ⟨n', hn', hgrow⟩ := h hn
  cases hgrow with
  | refl => exact hn'
  | bind name b => simp [Graph.binding?, hn', Node.binding?] at hb

/-- A variable that is free after the growth and was there before was free before. -/
lemma Extends.isFree (h : g.Extends g') (hr : r < g.nodes.size) (hf : g'.isFree r = true) :
    g.isFree r = true := by
  obtain ⟨n, hn⟩ := exists_node? hr
  obtain ⟨name, hn'⟩ := (g'.isFree_eq_true_iff r).mp hf
  have hsame := h.node?_of_binding? hn (by simp [Graph.binding?, hn', Node.binding?])
  exact (g.isFree_eq_true_iff r).mpr ⟨name, by rw [hn, ← hsame, hn']⟩

/-! ### Trees under growth -/

/-- A larger graph has fewer valuations. -/
lemma Extends.isValuation (h : g.Extends g') (hθ : g'.IsValuation θ) : g.IsValuation θ := by
  intro r n hn
  obtain ⟨n', hn', hgrow⟩ := h hn
  cases hgrow with
  | refl => exact hθ hn'
  | bind name b => rfl

/-- A type reads after the growth as before it, with the free variables as they read now. -/
theorem Extends.resolve_eq (h : g.Extends g') (hg : g.WellFormed) (hg' : g'.WellFormed)
    (r : TypeRef) : g'.resolve r = (g.resolve r).subst g'.resolve :=
  (h.isValuation (isValuation_resolve hg')).eq_subst hg r

/-- A type all of whose free variables are still free reads as before. -/
lemma Extends.resolve_eq_of_free (h : g.Extends g') (hg : g.WellFormed) (hg' : g'.WellFormed)
    (hr : r < g.nodes.size) (hfree : ∀ v ∈ (g.resolve r).vars, g'.isFree v = true) :
    g'.resolve r = g.resolve r := by
  rw [h.resolve_eq hg hg' r]
  apply Tree.subst_eq_self
  intro p hp hk
  have hnode := (mem_placeholders_resolve hg hr hp).2.1 hk
  obtain ⟨name, hnode'⟩ := (g'.isFree_eq_true_iff _).mp
    (hfree p.ref (Tree.mem_vars.mpr ⟨p, hp, hk, rfl⟩))
  have hsame := h.node?_of_binding? hnode (by simp [Graph.binding?, hnode', Node.binding?])
  obtain ⟨ref, kind, name⟩ := p
  subst hk
  exact resolve_free hsame

/-- Where no node changed, every type reads as before. -/
theorem Keeps.resolve_eq (h : g.Keeps g') (hg : g.WellFormed) (hg' : g'.WellFormed)
    (hr : r < g.nodes.size) : g'.resolve r = g.resolve r := by
  apply h.extends.resolve_eq_of_free hg hg' hr
  intro v hv
  obtain ⟨p, hp, hk, rfl⟩ := Tree.mem_vars.mp hv
  exact (g'.isFree_eq_true_iff _).mpr ⟨_, h ((mem_placeholders_resolve hg hr hp).2.1 hk)⟩

/-- The free variables of a resolved tree are free variables of the graph. -/
lemma isFree_of_mem_vars (hg : g.WellFormed) (hr : r < g.nodes.size)
    (hv : v ∈ (g.resolve r).vars) : g.isFree v = true := by
  obtain ⟨p, hp, hk, rfl⟩ := Tree.mem_vars.mp hv
  exact (g.isFree_eq_true_iff _).mpr ⟨_, (mem_placeholders_resolve hg hr hp).2.1 hk⟩

lemma lt_size_of_isFree (h : g.isFree v = true) : v < g.nodes.size := by
  obtain ⟨name, hn⟩ := (g.isFree_eq_true_iff v).mp h
  exact lt_size_of_node? hn

/-! ### Adding and binding -/

lemma keeps_add (g : Graph) (n : Node) : g.Keeps (g.add n).2 := by
  intro r m hm
  rw [node?_add, if_neg (lt_size_of_node? hm).ne, hm]

lemma extends_bind (ty : TypeRef) (hv : g.isFree v = true) :
    g.Extends (g.setBinding v (some ty)) := by
  intro r n hn
  by_cases hr : r = v
  · subst hr
    obtain ⟨name, hn', hbound⟩ := node?_bind ty hv
    cases hn.symm.trans hn'
    exact ⟨_, hbound, .bind name ty⟩
  · exact ⟨n, by rw [node?_setBinding_of_ne g (some ty) hr, hn], .refl n⟩

end Graph

end Unification
