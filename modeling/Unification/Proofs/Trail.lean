import Mathlib.Data.List.Nodup
import Unification.Proofs.Growth

/-!
# The trail

A store advances by new nodes and by bindings, and the trail lists exactly the bindings made on the
way, each once. This is what makes going back exact: `Advances.quiet_rewind` says that after going
back to where it started a store differs from its start by unbound nodes only.
-/

namespace Unification

/-- The node with another binding, if it is a variable. -/
def Node.rebind (binding : Option TypeRef) : Node → Node
  | .var name _ => .var name binding
  | n           => n

/-- The node without its binding. -/
def Node.cleared : Node → Node
  | var name _ => var name none
  | n          => n

lemma Node.rebind_none (n : Node) : n.rebind none = n.cleared := by
  cases n <;> rfl

namespace Graph

variable {g : Graph} {r v x y : TypeRef}

/-- Setting the binding of `v` changes the node at `v` only, and only if it is a variable. -/
lemma node?_setBinding (g : Graph) (v : TypeRef) (binding : Option TypeRef) (r : TypeRef) :
    (g.setBinding v binding).node? r =
      if r = v then (g.node? r).map (Node.rebind binding) else g.node? r := by
  split_ifs with h
  · subst h
    cases hn : g.node? r with
    | none => simp [setBinding, hn]
    | some n =>
      cases n with
      | var name old => simp [node?_setBinding_self g binding hn, Node.rebind]
      | _ => simp [setBinding, hn, Node.rebind]
  · exact node?_setBinding_of_ne g binding h

lemma node?_clear (g : Graph) (v r : TypeRef) :
    (g.setBinding v none).node? r = if r = v then (g.node? r).map Node.cleared else g.node? r := by
  rw [node?_setBinding, funext Node.rebind_none]

/-- Clearing bindings only takes edges away. -/
lemma edge_of_edge_clear (h : (g.setBinding v none).Edge x y) : g.Edge x y := by
  obtain ⟨n, hn, hy⟩ := edge_iff.mp h
  rw [node?_clear] at hn
  split_ifs at hn with hx
  · obtain ⟨m, hm, rfl⟩ := Option.map_eq_some_iff.mp hn
    refine edge_iff.mpr ⟨m, hm, ?_⟩
    cases m <;> simp_all [Node.cleared, Node.children]
  · exact edge_iff.mpr ⟨n, hn, hy⟩

theorem WellFormed.clear (hg : g.WellFormed) (v : TypeRef) : (g.setBinding v none).WellFormed where
  closed x y hxy := by
    rw [size_setBinding]
    exact hg.closed (edge_of_edge_clear hxy)
  acyclic := acyclic_of_rank g.height fun x y hxy =>
    height_lt_of_edge hg.closed hg.acyclic (edge_of_edge_clear hxy)
  applies r n hn t args hargs := by
    rw [node?_clear] at hn
    have happ : g.Applies n := by
      split_ifs at hn with hr
      · obtain ⟨m, hm, rfl⟩ := Option.map_eq_some_iff.mp hn
        cases m with
        | var name binding => cases hargs
        | _ => exact hg.applies hm
      · exact hg.applies hn
    simpa [template?] using happ t args hargs

/-- Clears the bindings of several variables. -/
def clearAll (g : Graph) (vs : List TypeRef) : Graph :=
  vs.foldl (fun g v => g.setBinding v none) g

lemma node?_clearAll (vs : List TypeRef) (g : Graph) (r : TypeRef) :
    (g.clearAll vs).node? r = if r ∈ vs then (g.node? r).map Node.cleared else g.node? r := by
  induction vs generalizing g with
  | nil => simp [clearAll]
  | cons v vs ih =>
    have htwice : Node.cleared ∘ Node.cleared = Node.cleared := by
      funext n
      cases n <;> rfl
    rw [clearAll, List.foldl_cons, ← clearAll, ih, node?_clear]
    by_cases hr : r = v <;> by_cases hmem : r ∈ vs <;> simp [hr, hmem, htwice]

@[simp]
lemma templates_clearAll (vs : List TypeRef) (g : Graph) :
    (g.clearAll vs).templates = g.templates := by
  induction vs generalizing g with
  | nil => rfl
  | cons v vs ih => rw [clearAll, List.foldl_cons, ← clearAll, ih, templates_setBinding]

theorem WellFormed.clearAll (hg : g.WellFormed) (vs : List TypeRef) :
    (g.clearAll vs).WellFormed := by
  induction vs generalizing g with
  | nil => exact hg
  | cons v vs ih => exact ih (hg.clear v)

end Graph

namespace Store

variable {s s' s'' : Store} {v ty : TypeRef}

/-- The second store comes from the first by new nodes and new bindings, and the new bindings are
those on top of its trail. -/
structure Advances (s s' : Store) : Prop where
  graph     : s.graph.Extends s'.graph
  templates : s'.graph.templates = s.graph.templates
  trail     : ∃ new, s'.trail = new ++ s.trail ∧ new.Nodup ∧
    ∀ v, v ∈ new ↔ s.graph.binding? v = none ∧ (s'.graph.binding? v).isSome

/-- The second store comes from the first by new nodes alone, and these are unbound. -/
structure Quiet (s s' : Store) : Prop where
  graph     : s.graph.Keeps s'.graph
  templates : s'.graph.templates = s.graph.templates
  trail     : s'.trail = s.trail
  unbound   : ∀ v, s.graph.binding? v = none → s'.graph.binding? v = none

lemma Quiet.refl (s : Store) : s.Quiet s where
  graph := Graph.Keeps.refl _
  templates := rfl
  trail := rfl
  unbound := fun _ h => h

lemma Quiet.trans (h : s.Quiet s') (h' : s'.Quiet s'') : s.Quiet s'' where
  graph := h.graph.trans h'.graph
  templates := h'.templates.trans h.templates
  trail := h'.trail.trans h.trail
  unbound := fun v hv => h'.unbound v (h.unbound v hv)

lemma Quiet.advances (h : s.Quiet s') : s.Advances s' where
  graph := h.graph.extends
  templates := h.templates
  trail := ⟨[], by simp [h.trail], List.nodup_nil, fun v => by
    constructor
    · simp
    · rintro ⟨hv, hv'⟩
      simp [h.unbound v hv] at hv'⟩

lemma Quiet.size_le (h : s.Quiet s') : s.graph.nodes.size ≤ s'.graph.nodes.size :=
  h.graph.extends.size_le

lemma Advances.refl (s : Store) : s.Advances s :=
  (Quiet.refl s).advances

lemma Advances.size_le (h : s.Advances s') : s.graph.nodes.size ≤ s'.graph.nodes.size :=
  h.graph.size_le

lemma Advances.trans (h : s.Advances s') (h' : s'.Advances s'') : s.Advances s'' := by
  obtain ⟨new, htrail, hnodup, hnew⟩ := h.trail
  obtain ⟨new', htrail', hnodup', hnew'⟩ := h'.trail
  have hkeep : ∀ v, (s.graph.binding? v).isSome → (s'.graph.binding? v).isSome := by
    intro v hv
    obtain ⟨b, hb⟩ := Option.isSome_iff_exists.mp hv
    simp [h.graph.binding? hb]
  have hkeep' : ∀ v, (s'.graph.binding? v).isSome → (s''.graph.binding? v).isSome := by
    intro v hv
    obtain ⟨b, hb⟩ := Option.isSome_iff_exists.mp hv
    simp [h'.graph.binding? hb]
  refine ⟨h.graph.trans h'.graph, h'.templates.trans h.templates, new' ++ new,
    by simp [htrail, htrail'], ?_, ?_⟩
  · -- what was bound first was not free to be bound again
    refine List.nodup_append.mpr ⟨hnodup', hnodup, ?_⟩
    rintro v hv' _ hv rfl
    have hsome := ((hnew v).mp hv).2
    simp [((hnew' v).mp hv').1] at hsome
  · intro v
    rw [List.mem_append, hnew, hnew']
    constructor
    · rintro (⟨hv, hv'⟩ | ⟨hv, hv'⟩)
      · refine ⟨?_, hv'⟩
        by_contra hsome
        have := hkeep v (Option.isSome_iff_ne_none.mpr hsome)
        simp [hv] at this
      · exact ⟨hv, hkeep' v hv'⟩
    · rintro ⟨hv, hv'⟩
      by_cases hmid : s'.graph.binding? v = none
      · exact Or.inl ⟨hmid, hv'⟩
      · exact Or.inr ⟨hv, Option.isSome_iff_ne_none.mpr hmid⟩

/-- Binding a free variable advances the store. -/
lemma advances_bind (hv : s.graph.isFree v = true) : s.Advances (s.bind v ty) where
  graph := Graph.extends_bind ty hv
  templates := by simp [bind]
  trail := by
    obtain ⟨name, hn, hn'⟩ := Graph.node?_bind ty hv
    refine ⟨[v], rfl, List.nodup_singleton v, ?_⟩
    intro w
    by_cases hw : w = v
    · subst hw
      simp [bind, Graph.binding?, hn, hn', Node.binding?]
    · have hsame : (s.bind v ty).graph.binding? w = s.graph.binding? w := by
        simp [bind, Graph.binding?, Graph.node?_setBinding_of_ne s.graph (some ty) hw]
      rw [hsame]
      constructor
      · simp [hw]
      · rintro ⟨hnone, hsome⟩
        simp [hnone] at hsome

/-! ### Going back -/

lemma graph_rewind (s : Store) (k : Nat) : (s.rewind k).graph = s.graph.clearAll (s.boundSince k) :=
  rfl

/-- Going back to any point of the trail keeps the graph well formed. -/
theorem wellFormed_rewind (hs : s.graph.WellFormed) (k : Nat) : (s.rewind k).graph.WellFormed :=
  hs.clearAll _

/-- Going back to the start of an advance undoes it, up to nodes that are left over unbound. -/
theorem Advances.quiet_rewind (h : s.Advances s') : s.Quiet (s'.rewind s.mark) := by
  obtain ⟨new, htrail, -, hnew⟩ := h.trail
  have hsince : s'.boundSince s.mark = new := by
    simp [boundSince, mark, htrail]
  constructor
  · intro r n hn
    rw [graph_rewind, hsince, Graph.node?_clearAll]
    obtain ⟨n', hn', hgrow⟩ := h.graph hn
    split_ifs with hmem
    · -- a variable bound since then was free at the start
      obtain ⟨hnone, hsome⟩ := (hnew r).mp hmem
      cases hgrow with
      | refl => simp [Graph.binding?, hn, hn'] at hnone hsome; simp [hnone] at hsome
      | bind name b => simp [hn', Node.cleared]
    · cases hgrow with
      | refl => exact hn'
      | bind name b =>
        refine absurd ((hnew r).mpr ⟨?_, ?_⟩) hmem
        · simp [Graph.binding?, hn, Node.binding?]
        · simp [Graph.binding?, hn', Node.binding?]
  · rw [graph_rewind, Graph.templates_clearAll, h.templates]
  · simp [rewind, mark, htrail]
  · intro v hv
    rw [graph_rewind, hsince, Graph.binding?, Graph.node?_clearAll]
    split_ifs with hmem
    · cases s'.graph.node? v with
      | none => rfl
      | some n => cases n <;> rfl
    · by_contra hsome
      exact hmem ((hnew v).mpr ⟨hv, Option.isSome_iff_ne_none.mpr hsome⟩)

end Store

end Unification
