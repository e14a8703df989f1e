import Unification.Proofs.Inheritance

/-!
# Overload sets inside types

A property of overload sets without free variables cannot be lost: bindings do not reach into such
a set, and renewing a type keeps its overload sets. So if all overload sets inside the two sides of
a unification have the property, then those inside any type that had it before still do, although
variables may have been bound to types with further overload sets.
-/

namespace Unification

namespace Tree

variable {P Q : Tree → Prop} {t : Tree} {ts : List Tree} {θ : TypeRef → Tree}

/-- Every overload set inside the tree, at whatever depth, has the property. -/
inductive EveryUnion (Q : Tree → Prop) : Tree → Prop where
  | terminal (r : TypeRef) (name : String) : EveryUnion Q (.terminal r name)
  | placeholder (p : Placeholder) : EveryUnion Q (.placeholder p)
  | inst {t : TemplateRef} {args : List Tree} : (∀ u ∈ args, EveryUnion Q u) →
      EveryUnion Q (.inst t args)
  | union {r : TypeRef} {members : List Tree} : Q (.union r members) →
      (∀ u ∈ members, EveryUnion Q u) → EveryUnion Q (.union r members)

lemma EveryUnion.mono (h : ∀ t, P t → Q t) (ht : t.EveryUnion P) : t.EveryUnion Q := by
  induction ht with
  | terminal r name => exact .terminal r name
  | placeholder p => exact .placeholder p
  | inst _ ih => exact .inst ih
  | union hP _ ih => exact .union (h _ hP) ih

lemma EveryUnion.of_mem_inst {f : TemplateRef} (h : (Tree.inst f ts).EveryUnion Q) (ht : t ∈ ts) :
    t.EveryUnion Q := by
  cases h with
  | inst h => exact h t ht

lemma EveryUnion.of_mem_union {r : TypeRef} (h : (Tree.union r ts).EveryUnion Q) (ht : t ∈ ts) :
    t.EveryUnion Q := by
  cases h with
  | union _ h => exact h t ht

/-- A substitution brings in the overload sets of what it puts in, and changes none. -/
lemma EveryUnion.subst (hQ : ∀ t, Q t → t.vars = ∅) (ht : t.EveryUnion Q)
    (hθ : ∀ v ∈ t.vars, (θ v).EveryUnion Q) : (t.subst θ).EveryUnion Q := by
  induction ht with
  | terminal r name =>
    rw [subst_terminal]
    exact .terminal r name
  | placeholder p =>
    obtain ⟨r, kind, name⟩ := p
    cases kind with
    | flexible =>
      rw [subst_flexible]
      exact hθ r (by simp [vars, placeholders])
    | rigid =>
      rw [subst_rigid]
      exact .placeholder _
  | inst _ ih =>
    rw [subst_inst]
    apply EveryUnion.inst
    intro _ hmem
    obtain ⟨u, hu, rfl⟩ := List.mem_map.mp hmem
    apply ih u hu
    intro v hv
    exact hθ v (mem_vars_inst.mpr ⟨u, hu, hv⟩)
  | union hq hmembers =>
    rw [subst_of_vars_eq_empty (hQ _ hq)]
    exact .union hq hmembers

/-- Renewing a tree keeps its overload sets. -/
lemma EveryUnion.renew (ht : t.EveryUnion Q) (how : Renewal) (ρ : TypeRef → TypeRef) :
    (t.renew how ρ).EveryUnion Q := by
  rw [Tree.renew]
  induction ht with
  | terminal r name =>
    rw [replace_terminal]
    exact .terminal r name
  | placeholder p =>
    rw [replace_placeholder]
    exact .placeholder _
  | inst _ ih =>
    rw [replace_inst]
    apply EveryUnion.inst
    intro _ hmem
    obtain ⟨u, hu, rfl⟩ := List.mem_map.mp hmem
    exact ih u hu
  | union hq hmembers =>
    rw [replace_union]
    exact .union hq hmembers

/-- A property of overload sets without free variables is handed on by every run. -/
lemma hereditary_everyUnion (hQ : ∀ t, Q t → t.vars = ∅) : Hereditary (EveryUnion Q) where
  flexible r name := .placeholder ⟨r, .flexible, name⟩
  arg _ _ _ h ht := h.of_mem_inst ht
  member _ _ _ h ht := h.of_mem_union ht
  subst _ _ h hθ := h.subst hQ hθ
  instantiate _ ρ h := h.renew .instantiate ρ

end Tree

namespace Graph

variable {g : Graph} {Q : Tree → Prop} {r : TypeRef}

/-- The overload sets inside a resolved tree are those that the type leads to. -/
lemma everyUnion_resolve (hg : g.WellFormed) (hr : r < g.nodes.size)
    (h : ∀ u ms, g.Reaches r u → g.node? u = some (.union ms) → Q (g.resolve u)) :
    (g.resolve r).EveryUnion Q := by
  induction r using Acyclic.induct hg.closed hg.acyclic with
  | step r ih =>
    have hchild : ∀ c, g.Edge r c → (g.resolve c).EveryUnion Q := fun c hc =>
      ih c hc (hg.closed hc) fun u ms hu => h u ms (Relation.ReflTransGen.head hc hu)
    obtain ⟨n, hn⟩ := exists_node? hr
    match n, hn with
    | .terminal name, hn =>
      rw [resolve_terminal hn]
      exact .terminal r name
    | .var name none, hn =>
      rw [resolve_free hn]
      exact .placeholder _
    | .var name (some b), hn =>
      have hb := binding?_eq_some_iff.mpr ⟨name, hn⟩
      rw [resolve_of_binding? hg hb]
      exact hchild b (edge_of_binding? hb)
    | .constraint name, hn =>
      rw [resolve_constraint hn]
      exact .placeholder _
    | .inst t args, hn =>
      rw [resolve_inst hg hn]
      apply Tree.EveryUnion.inst
      intro _ hu
      obtain ⟨c, hc, rfl⟩ := List.mem_map.mp hu
      exact hchild c ((edge_of_node? hn).mpr hc)
    | .union members, hn =>
      have hq := h r members Relation.ReflTransGen.refl hn
      rw [resolve_union hg hn] at hq ⊢
      apply Tree.EveryUnion.union hq
      intro _ hu
      obtain ⟨c, hc, rfl⟩ := List.mem_map.mp hu
      exact hchild c ((edge_of_node? hn).mpr hc)

end Graph

/-! ### Runs -/

open Outcome

variable {unify : Unifier} {Q : Tree → Prop}

lemma unifyAll_cons_eq_done {x y : TypeRef} {xs ys : List TypeRef} {s s' : Store} :
    unifyAll unify (x :: xs) (y :: ys) s = .done () s' ↔
      ∃ r s₁, unify x y s = .done r s₁ ∧ unifyAll unify xs ys s₁ = .done () s' := by
  rw [unifyAll]
  cases unify x y s <;> simp

/-- A successful unification of types whose overload sets have the property gives the property up
for no type. -/
def Unifier.KeepsUnions (Q : Tree → Prop) (unify : Unifier) : Prop :=
  ∀ ⦃a b s r s'⦄, s.graph.WellFormed → a < s.graph.nodes.size → b < s.graph.nodes.size →
    (s.graph.resolve a).EveryUnion Q → (s.graph.resolve b).EveryUnion Q →
    unify a b s = .done r s' →
    ∀ x < s.graph.nodes.size, (s.graph.resolve x).EveryUnion Q → (s'.graph.resolve x).EveryUnion Q

/-- The types are in the store, and every overload set inside them has the property. -/
def Store.AllHave (s : Store) (Q : Tree → Prop) (rs : List TypeRef) : Prop :=
  ∀ r ∈ rs, r < s.graph.nodes.size ∧ (s.graph.resolve r).EveryUnion Q

lemma Store.allHave_args {s : Store} {r : TypeRef} {t : TemplateRef} {args : List TypeRef}
    (hs : s.graph.WellFormed) (hn : s.graph.node? r = some (.inst t args))
    (h : (s.graph.resolve r).EveryUnion Q) : s.AllHave Q args := by
  intro x hx
  rw [Graph.resolve_inst hs hn] at h
  exact ⟨hs.child_lt hn hx, h.of_mem_inst (List.mem_map_of_mem hx)⟩

lemma Store.allHave_members {s : Store} {u : TypeRef} {ms : List TypeRef}
    (hs : s.graph.WellFormed) (hn : s.graph.node? u = some (.union ms))
    (h : (s.graph.resolve u).EveryUnion Q) : s.AllHave Q ms := by
  intro m hm
  rw [Graph.resolve_union hs hn] at h
  exact ⟨hs.child_lt hn hm, h.of_mem_union (List.mem_map_of_mem hm)⟩

/-- After the first pair of two lists is unified, the other types have the property still. -/
lemma Unifier.KeepsUnions.tail (hk : unify.KeepsUnions Q) (hu : unify.Lawful) {x y r : TypeRef}
    {xs ys : List TypeRef} {s s₁ : Store} (hs : s.graph.WellFormed)
    (hxs : s.AllHave Q (x :: xs)) (hys : s.AllHave Q (y :: ys))
    (hxy : unify x y s = .done r s₁) :
    s.Advances s₁ ∧ s₁.graph.WellFormed ∧ s₁.AllHave Q xs ∧ s₁.AllHave Q ys := by
  obtain ⟨hx, hxQ⟩ := hxs x (by simp)
  obtain ⟨hy, hyQ⟩ := hys y (by simp)
  obtain ⟨hadv, hs₁⟩ := hu.advances hs hx hy (Or.inl ⟨r, hxy⟩)
  have hkeep : ∀ z, z < s.graph.nodes.size ∧ (s.graph.resolve z).EveryUnion Q →
      z < s₁.graph.nodes.size ∧ (s₁.graph.resolve z).EveryUnion Q :=
    fun z hz => ⟨hz.1.trans_le hadv.size_le, hk hs hx hy hxQ hyQ hxy z hz.1 hz.2⟩
  exact ⟨hadv, hs₁, fun z hz => hkeep z (hxs z (by simp [hz])),
    fun z hz => hkeep z (hys z (by simp [hz]))⟩

/-- A successful resolution of an overload set is the unification of an instance of a member with
the target. -/
lemma choose_eq_done (hu : unify.Lawful) {s s' : Store} {u target r : TypeRef}
    {ms : List TypeRef} (hs : s.graph.WellFormed) (hn : s.graph.node? u = some (.union ms))
    (ht : target < s.graph.nodes.size) (h : choose unify u ms target s = .done r s') :
    ∃ w ∈ ms, ∃ viable s₁, fitting unify target ms s = .done viable s₁ ∧
      s₁.graph.mostSpecific viable = [w] ∧ s.Quiet s₁ ∧ s₁.graph.WellFormed ∧
      unify (s₁.renew .instantiate w).1 target (s₁.renew .instantiate w).2 = .done r s' := by
  have hms : ∀ m ∈ ms, m < s.graph.nodes.size := fun m hm => hs.child_lt hn hm
  rcases choose_cases (u := u) hu hs hms ht with
    ⟨-, hcut⟩ | ⟨viable, s₁, hfit, hq, hs₁, ⟨e, hfail, -⟩ | ⟨w, hw, hwin, hrun⟩⟩
  · simp [hcut] at h
  · simp [hfail] at h
  · exact ⟨w, hw, viable, s₁, hfit, hwin, hq, hs₁, hrun ▸ h⟩

/-- Every run keeps a property of overload sets without free variables. -/
theorem keepsUnions_unifier (hQ : ∀ t, Q t → t.vars = ∅) (depth : Nat) :
    (unifier depth).KeepsUnions Q :=
  fun _ _ _ r _ hs ha hb haQ hbQ h =>
    inherits_unifier (Tree.hereditary_everyUnion hQ) depth hs ha hb haQ hbQ (Or.inl ⟨r, h⟩)

end Unification
