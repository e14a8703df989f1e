import Unification.Proofs.Run

/-!
# What the trees of a run inherit

A binding puts a tree in the place of a free variable, and a chosen overload brings in an instance
of a member. A property of trees that both respect and that goes over to the parts of a tree is
never lost: if the two sides of a unification have it, then every type that had it before has it
afterwards, whether the unification succeeds or fails.
-/

namespace Unification

open Outcome

/-- A property of trees that free variables have, that goes over to the parts of a tree, and that
substitutions and instances keep. -/
structure Tree.Hereditary (P : Tree → Prop) : Prop where
  flexible    : ∀ r name, P (.placeholder ⟨r, .flexible, name⟩)
  arg         : ∀ ⦃f ts t⦄, P (.inst f ts) → t ∈ ts → P t
  member      : ∀ ⦃r ts t⦄, P (.union r ts) → t ∈ ts → P t
  subst       : ∀ ⦃t θ⦄, P t → (∀ v ∈ t.vars, P (θ v)) → P (t.subst θ)
  instantiate : ∀ ⦃t⦄ ρ, P t → P (t.renew .instantiate ρ)

namespace Graph

variable {g : Graph} {P : Tree → Prop} {r v ty x : TypeRef}

/-! ### Trees after a binding -/

/-- A type without a path to the variable that is bound reads as before. -/
lemma resolve_bind_of_not_reaches (hg : g.WellFormed) (hv : g.isFree v = true)
    (hty : ty < g.nodes.size) (hocc : ¬ g.Reaches ty v) (hx : x < g.nodes.size)
    (hxv : ¬ g.Reaches x v) : (g.setBinding v (some ty)).resolve x = g.resolve x := by
  refine (extends_bind ty hv).resolve_eq_of_free hg (hg.bind hv hty hocc) hx fun w hw => ?_
  obtain ⟨p, hp, hk, rfl⟩ := Tree.mem_vars.mp hw
  obtain ⟨hreach, hnode, -⟩ := mem_placeholders_resolve hg hx hp
  have hne : p.ref ≠ v := fun h => hxv (h ▸ hreach)
  rw [isFree_eq_true_iff, node?_setBinding_of_ne g (some ty) hne]
  exact ⟨_, hnode hk⟩

/-- A free variable reads after a binding as the type, if it is the variable bound, and as itself
otherwise. -/
lemma resolve_bind_free (hg : g.WellFormed) (hv : g.isFree v = true) (hty : ty < g.nodes.size)
    (hocc : ¬ g.Reaches ty v) (hx : g.isFree x = true) :
    (x = v ∧ (g.setBinding v (some ty)).resolve x = g.resolve ty) ∨
      (x ≠ v ∧ (g.setBinding v (some ty)).resolve x = g.resolve x ∧
        (g.setBinding v (some ty)).isFree x = true) := by
  by_cases hxv : x = v
  · subst hxv
    obtain ⟨name, -, hn⟩ := node?_bind ty hv
    refine Or.inl ⟨rfl, ?_⟩
    rw [resolve_of_binding? (hg.bind hv hty hocc) (binding?_eq_some_iff.mpr ⟨name, hn⟩)]
    exact resolve_bind_of_not_reaches hg hv hty hocc hty hocc
  · obtain ⟨name, hn⟩ := (g.isFree_eq_true_iff x).mp hx
    have hn' : (g.setBinding v (some ty)).node? x = some (.var name none) := by
      rw [node?_setBinding_of_ne g (some ty) hxv, hn]
    exact Or.inr ⟨hxv, by rw [resolve_free hn', resolve_free hn],
      (isFree_eq_true_iff _ x).mpr ⟨name, hn'⟩⟩

/-- Binding a variable to a type with the property loses it for no type. -/
lemma hereditary_bind (hP : Tree.Hereditary P) (hg : g.WellFormed) (hv : g.isFree v = true)
    (hty : ty < g.nodes.size) (hocc : ¬ g.Reaches ty v) (htree : P (g.resolve ty))
    (hr : r < g.nodes.size) (h : P (g.resolve r)) :
    P ((g.setBinding v (some ty)).resolve r) := by
  rw [(extends_bind ty hv).resolve_eq hg (hg.bind hv hty hocc)]
  apply hP.subst h
  intro w hw
  have hw' := isFree_of_mem_vars hg hr hw
  rcases resolve_bind_free hg hv hty hocc hw' with ⟨_, heq⟩ | ⟨_, heq, _⟩
  · rw [heq]
    exact htree
  · obtain ⟨name, hn⟩ := (g.isFree_eq_true_iff w).mp hw'
    rw [heq, resolve_free hn]
    exact hP.flexible w name

end Graph

/-! ### Runs -/

variable {unify : Unifier} {P : Tree → Prop} {target u : TypeRef} {ms xs ys : List TypeRef}
  {s s' : Store}

/-- A unification of two types with the property gives it up for no type, however it ends. -/
def Unifier.Inherits (P : Tree → Prop) (unify : Unifier) : Prop :=
  ∀ ⦃a b s s'⦄, s.graph.WellFormed → a < s.graph.nodes.size → b < s.graph.nodes.size →
    P (s.graph.resolve a) → P (s.graph.resolve b) → (unify a b s).EndsIn s' →
    ∀ x < s.graph.nodes.size, P (s.graph.resolve x) → P (s'.graph.resolve x)

lemma unifyAll_inherits (hu : unify.Lawful) (hi : unify.Inherits P) (hs : s.graph.WellFormed)
    (hxs : ∀ x ∈ xs, x < s.graph.nodes.size ∧ P (s.graph.resolve x))
    (hys : ∀ y ∈ ys, y < s.graph.nodes.size ∧ P (s.graph.resolve y))
    (h : (unifyAll unify xs ys s).EndsIn s') :
    ∀ x < s.graph.nodes.size, P (s.graph.resolve x) → P (s'.graph.resolve x) := by
  induction xs generalizing ys s with
  | nil =>
    simp only [unifyAll, endsIn_done] at h
    subst h
    exact fun _ _ hx => hx
  | cons x xs ih =>
    cases ys with
    | nil =>
      simp only [unifyAll, endsIn_done] at h
      subst h
      exact fun _ _ hx => hx
    | cons y ys =>
      obtain ⟨hx, hxP⟩ := hxs x (by simp)
      obtain ⟨hy, hyP⟩ := hys y (by simp)
      rw [unifyAll] at h
      cases hxy : unify x y s with
      | cut => simp [hxy, not_endsIn_cut] at h
      | failed e s₁ =>
        rw [hxy, failed_andThen, endsIn_failed] at h
        subst h
        exact hi hs hx hy hxP hyP (Or.inr ⟨e, hxy⟩)
      | done r s₁ =>
        rw [hxy, done_andThen] at h
        obtain ⟨hadv, hs₁⟩ := hu.advances hs hx hy (Or.inl ⟨r, hxy⟩)
        have hfirst := hi hs hx hy hxP hyP (Or.inl ⟨r, hxy⟩)
        have hlater : ∀ z, z < s.graph.nodes.size ∧ P (s.graph.resolve z) →
            z < s₁.graph.nodes.size ∧ P (s₁.graph.resolve z) := fun z hz =>
          ⟨hz.1.trans_le hadv.size_le, hfirst z hz.1 hz.2⟩
        intro z hz hzP
        exact ih hs₁ (fun w hw => hlater w (hxs w (by simp [hw])))
          (fun w hw => hlater w (hys w (by simp [hw]))) h z (hlater z ⟨hz, hzP⟩).1
          (hfirst z hz hzP)

/-- The store in which the chosen member of an overload set is unified with the target: the types
of before read as before, and the instance as the renewed member. -/
lemma renew_after_quiet {s s₁ : Store} {w : TypeRef} (hq : s.Quiet s₁) (hs : s.graph.WellFormed)
    (hs₁ : s₁.graph.WellFormed) (hw : w < s.graph.nodes.size) :
    s.Quiet (s₁.renew .instantiate w).2 ∧ (s₁.renew .instantiate w).2.graph.WellFormed ∧
      (s₁.renew .instantiate w).1 < (s₁.renew .instantiate w).2.graph.nodes.size ∧
      (∃ ρ, (s₁.renew .instantiate w).2.graph.resolve (s₁.renew .instantiate w).1 =
        (s.graph.resolve w).renew .instantiate ρ) ∧
      ∀ x < s.graph.nodes.size,
        (s₁.renew .instantiate w).2.graph.resolve x = s.graph.resolve x := by
  have hw₁ := hw.trans_le hq.size_le
  have hq₂ := hq.trans (Store.quiet_renew .instantiate hs₁ hw₁)
  have hs₂ := Graph.wellFormed_renew .instantiate hs₁ hw₁
  refine ⟨hq₂, hs₂, Graph.renew_lt_size _ hs₁ hw₁, ?_, fun x hx => hq₂.graph.resolve_eq hs hs₂ hx⟩
  obtain ⟨ρ, hρ⟩ := Graph.resolve_renew .instantiate hs₁ hw₁
  exact ⟨ρ, hρ.trans (by rw [hq.graph.resolve_eq hs hs₁ hw])⟩

lemma choose_inherits (hP : Tree.Hereditary P) (hu : unify.Lawful) (hi : unify.Inherits P)
    (hs : s.graph.WellFormed) (hn : s.graph.node? u = some (.union ms))
    (ht : target < s.graph.nodes.size) (huP : P (s.graph.resolve u))
    (htP : P (s.graph.resolve target)) (h : (choose unify u ms target s).EndsIn s') :
    ∀ x < s.graph.nodes.size, P (s.graph.resolve x) → P (s'.graph.resolve x) := by
  have hms : ∀ m ∈ ms, m < s.graph.nodes.size := fun m hm => hs.child_lt hn hm
  rcases choose_cases (u := u) hu hs hms ht with
    ⟨-, hcut⟩ | ⟨_, s₁, -, hq₁, hs₁, ⟨e, hfail, -⟩ | ⟨w, hw, -, hrun⟩⟩
  · simp [hcut, not_endsIn_cut] at h
  · rw [hfail, endsIn_failed] at h
    subst h
    intro x hx hxP
    rwa [hq₁.graph.resolve_eq hs hs₁ hx]
  · obtain ⟨hq, hs₂, hlt, ⟨ρ, htree⟩, hsame⟩ := renew_after_quiet hq₁ hs hs₁ (hms w hw)
    rw [Graph.resolve_union hs hn] at huP
    have hwP := hP.member huP (List.mem_map_of_mem hw)
    rw [hrun] at h
    intro x hx hxP
    refine hi hs₂ hlt (ht.trans_le hq.size_le) ?_ ?_ h x (hx.trans_le hq.size_le) ?_
    · rw [htree]
      exact hP.instantiate ρ hwP
    · rwa [hsame target ht]
    · rwa [hsame x hx]

/-- One step hands on what the unifier for the parts does. -/
theorem inherits_step (hP : Tree.Hereditary P) (hu : unify.Lawful) (hi : unify.Inherits P) :
    Unifier.Inherits P (step unify) := by
  intro a b s s' hs ha hb haP hbP h
  have ha' := Graph.rep_lt_size hs ha
  have hb' := Graph.rep_lt_size hs hb
  rw [← Graph.resolve_rep hs] at haP hbP
  have hargs : ∀ {r f args}, s.graph.node? r = some (.inst f args) → P (s.graph.resolve r) →
      ∀ x ∈ args, x < s.graph.nodes.size ∧ P (s.graph.resolve x) := by
    intro r f args hn hrP x hx
    rw [Graph.resolve_inst hs hn] at hrP
    exact ⟨hs.child_lt hn hx, hP.arg hrP (List.mem_map_of_mem hx)⟩
  have hsteps := step_stepsTo unify hs ha hb
  generalize step unify a b s = o at hsteps h
  cases hsteps with
  | same =>
    rw [endsIn_done] at h
    subst h
    exact fun _ _ hx => hx
  | bindLeft hfree hocc =>
    rw [endsIn_done] at h
    subst h
    exact fun x hx hxP => Graph.hereditary_bind hP hs hfree hb' hocc hbP hx hxP
  | bindRight hfree hocc =>
    rw [endsIn_done] at h
    subst h
    exact fun x hx hxP => Graph.hereditary_bind hP hs hfree ha' hocc haP hx hxP
  | occursLeft | occursRight | clash =>
    rw [endsIn_failed] at h
    subst h
    exact fun _ _ hx => hx
  | chooseLeft _ hn => exact choose_inherits hP hu hi hs hn hb' haP hbP h
  | chooseRight _ hn => exact choose_inherits hP hu hi hs hn ha' hbP haP h
  | descend _ hx hy =>
    exact unifyAll_inherits hu hi hs (hargs hx haP) (hargs hy hbP) (endsIn_map.mp h)

/-- Every run hands a hereditary property on. -/
theorem inherits_unifier (hP : Tree.Hereditary P) (depth : Nat) :
    (unifier depth).Inherits P := by
  induction depth with
  | zero => exact fun _ _ _ _ _ _ _ _ _ h => absurd h not_endsIn_cut
  | succ depth ih => exact inherits_step hP (lawful_unifier depth) ih

end Unification
