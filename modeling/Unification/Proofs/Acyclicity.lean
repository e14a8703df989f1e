import Unification.Proofs.Passage

/-!
# The type graph never runs in circles

Adding a node cannot close a circle, because it points to older nodes. A binding could, and the
occurs check keeps it from doing so. So neither the engines that operations lead to nor the stores
in the midst of a unification have a circle, and every walk through them comes to an end.
-/

namespace Unification

namespace Graph

variable {g : Graph} {r : TypeRef}

/-- Every way to walk through the graph from a type comes to an end. -/
structure Readable (g : Graph) (r : TypeRef) : Prop where
  /-- The chain of bindings ends: the representative is not a bound variable. -/
  chain   : g.binding? (g.rep r) = none
  /-- There is no endless descent from representatives to their arguments and members, which is
  how a type is renewed, ranked and written. -/
  descent : Acc (fun y x => g.Edge (g.rep x) y) r
  /-- The resolved tree, on which these walks are defined, has no level that is cut off. -/
  whole   : ∀ n, g.nodes.size ≤ n → g.unfold n r = g.resolve r

/-- Descending from a representative to a child goes down in the graph. -/
lemma height_lt_of_edge_rep (hg : g.WellFormed) {x y : TypeRef} (h : g.Edge (g.rep x) y) :
    g.height y < g.height x :=
  (height_lt_of_edge hg.closed hg.acyclic h).trans_le (height_le_of_reaches hg (reaches_rep hg x))

theorem WellFormed.readable (hg : g.WellFormed) (hr : r < g.nodes.size) : g.Readable r where
  chain := binding?_rep hg r
  descent := by
    have hsub : Subrelation (fun y x => g.Edge (g.rep x) y) (InvImage (· < ·) g.height) :=
      fun h => height_lt_of_edge_rep hg h
    exact (hsub.wf (InvImage.wf g.height Nat.lt_wfRel.wf)).apply r
  whole := fun _ hn => unfold_eq_resolve hg hr hn

end Graph

namespace Engine

variable {e : Engine}

/-- No reachable engine has a circle in its type graph, and no store does that a unification of its
types passes through; so every walk from every type of such an engine or store comes to an end. -/
theorem acyclic_throughout (he : e.Reachable) :
    (e.graph.Acyclic ∧ ∀ r, e.Has r → e.graph.Readable r) ∧
      ∀ (depth : Nat) (a b : TypeRef) (s : Store), e.Has a → e.Has b →
        Passes depth a b e.store s →
          s.graph.Acyclic ∧ ∀ r < s.graph.nodes.size, s.graph.Readable r := by
  have hwf := he.wellFormed.graph
  refine ⟨⟨hwf.acyclic, fun r hr => hwf.readable hr⟩, ?_⟩
  intro depth a b s ha hb hpass
  obtain ⟨-, hs⟩ := hpass.lawful hwf ha hb
  exact ⟨hs.acyclic, fun r hr => hs.readable hr⟩

/-- A generic overload set is resolved against a terminal. The fresh variable of the trial is
unbound again at the end, the one of the chosen member is bound, and there is no circle. -/
theorem acyclic_throughout_overload :
    let e := ((((new {}).addConstraint none).2.addUnion [2]).2.addTerminal "Int").2
    let s := ((e.store.add (.var none none)).2.add (.var none none)).2.bind 6 4
    Passes 2 3 4 e.store s ∧ s.graph.isFree 5 = true ∧ s.graph.Edge 6 4 ∧ s.graph.Acyclic ∧
      s.graph.Readable 6 := by
  intro e s
  have he : e.Reachable :=
    .next (.next (.next (.new {}) (.addConstraint none)) (.addUnion (by decide)))
      (.addTerminal "Int")
  have hrun : unifier 2 3 4 e.store = .done 4 s := by decide +kernel
  have hpass : Passes 2 3 4 e.store s := .finish (Or.inl ⟨4, hrun⟩)
  obtain ⟨hacyclic, hread⟩ :=
    (acyclic_throughout he).2 2 3 4 s (by decide) (by decide) hpass
  exact ⟨hpass, by decide, List.mem_singleton.mpr rfl, hacyclic, hread 6 (by decide)⟩

end Engine

end Unification
