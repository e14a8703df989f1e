import Unification.Proofs.Collapse.Trials

/-!
# Runs in graphs that share more

Where a graph collapses to another, a run that succeeds in the first graph succeeds in the second,
at the same depth, and the graphs that the two runs leave are related again: `reflects_unifier`. The
second run does less. It takes two types for one where the first run has to compare them, and such a
comparison of types that read the same changes nothing.
-/

namespace Unification

open Outcome Collapse

variable {unify : Unifier} {c : Collapse} {g' : Graph} {s s' s₁ : Store}
  {a a' b b' r t t' u : TypeRef} {xs xs' ys ys' ms : List TypeRef} {depth : Nat}

/-! ### Comparing types that read the same -/

/-- The unifier changes nothing if it succeeds on types that read the same and whose overload sets
hold no free variables. -/
def Unifier.Idle (unify : Unifier) : Prop :=
  ∀ ⦃c : Collapse⦄ ⦃g' a b s r s₁⦄, c.Holds s.graph g' → a < s.graph.nodes.size →
    b < s.graph.nodes.size → (s.graph.resolve a).Within c.shared c.live →
    s.graph.resolve a = s.graph.resolve b → unify a b s = .done r s₁ → s.graph.Keeps s₁.graph

lemma unifyAll_idle (hu : unify.Lawful) (hi : unify.Idle) (h : c.Holds s.graph g')
    (hxs : ∀ x ∈ xs, x < s.graph.nodes.size ∧ (s.graph.resolve x).Within c.shared c.live)
    (hys : ∀ y ∈ ys, y < s.graph.nodes.size) (heq : xs.map s.graph.resolve = ys.map s.graph.resolve)
    (hrun : unifyAll unify xs ys s = .done () s₁) : s.graph.Keeps s₁.graph := by
  induction xs generalizing ys s with
  | nil =>
    cases hrun
    exact .refl _
  | cons x xs ih =>
    cases ys with
    | nil => simp at heq
    | cons y ys =>
      obtain ⟨r, s₂, hfirst, hrest⟩ := unifyAll_cons_eq_done.mp hrun
      obtain ⟨⟨hx, hwithin⟩, hxs⟩ := List.forall_mem_cons.mp hxs
      obtain ⟨hy, hys⟩ := List.forall_mem_cons.mp hys
      obtain ⟨hxy, heq⟩ := List.cons.inj heq
      have hkeep := hi h hx hy hwithin hxy hfirst
      obtain ⟨hadv, hs₂⟩ := hu.advances h.left hx hy (Or.inl ⟨r, hfirst⟩)
      have h₂ := h.keeps hkeep (.refl g') hs₂ h.right (h.shares.templates.trans hadv.templates.symm)
      have hread : ∀ z < s.graph.nodes.size, s₂.graph.resolve z = s.graph.resolve z := fun z hz =>
        hkeep.resolve_eq h.left hs₂ hz
      refine hkeep.trans (ih h₂ ?_ ?_ ?_ hrest)
      · intro z hz
        rw [hread z (hxs z hz).1]
        exact ⟨(hxs z hz).1.trans_le hadv.size_le, (hxs z hz).2⟩
      · exact fun z hz => (hys z hz).trans_le hadv.size_le
      · rw [List.map_congr_left fun z hz => hread z (hxs z hz).1,
          List.map_congr_left fun z hz => hread z (hys z hz), heq]

/-- Resolving an overload set without free variables against itself changes nothing. -/
lemma choose_idle (hu : unify.Lawful) (hc : unify.Confined) (h : c.Holds s.graph g')
    (hn : s.graph.node? u = some (.union ms)) (hmem : u ∈ c.shared)
    (hrun : choose unify u ms u s = .done r s₁) : s.graph.Keeps s₁.graph := by
  have hlt := h.shares.lt_size u hmem
  have hregion : s.graph.IsRegion (c.shared ∪ Set.Ici s.graph.nodes.size) := by
    refine ⟨?_, fun x hx => Or.inr hx⟩
    rintro x y (hx | hx) hxy
    · exact Or.inl (h.shares.encloses hx hxy)
    · exact absurd (Graph.lt_size_of_edge hxy) (Nat.not_lt.mpr hx)
  have hends : (choose unify u ms u s).EndsIn s₁ := Or.inl ⟨r, hrun⟩
  have hwrites := choose_confined hu hc h.left hregion hn (Or.inl hmem) (Or.inl hmem) hlt hends
  have hadv := ((choose_lawful hu h.left hn hlt).advances hends).1
  intro x n hx
  by_cases hshared : x ∈ c.shared
  · apply hadv.graph.node? hx
    simpa [Graph.isFree, hx] using h.solid x hshared
  · rw [hwrites.outside ?_, hx]
    rintro (hx' | hx')
    · exact hshared hx'
    · exact absurd (Graph.lt_size_of_node? hx) (Nat.not_lt.mpr hx')

lemma idle_step (hu : unify.Lawful) (hc : unify.Confined) (hi : unify.Idle) :
    Unifier.Idle (step unify) := by
  intro c g' a b s r s₁ h ha hb hwithin heq hrun
  by_cases hrep : s.graph.rep a = s.graph.rep b
  · by_cases hunion : ∃ ms, s.graph.node? (s.graph.rep a) = some (.union ms)
    · obtain ⟨ms, hn⟩ := hunion
      have hmem : s.graph.rep a ∈ c.shared := by
        rw [← Graph.resolve_rep h.left, Graph.resolve_union h.left hn] at hwithin
        cases hwithin with
        | union hover => exact hover.mem_of_union
      have hrule : s.graph.rule (s.graph.rep a) (s.graph.rep a) =
          .choose (s.graph.rep a) ms (s.graph.rep a) := by
        simp only [Graph.rule, hn]
      simp only [step, ← hrep, hrule] at hrun
      exact choose_idle hu hc h hn hmem hrun
    · have hrule := Graph.rule_self fun ms hn => hunion ⟨ms, hn⟩
      simp only [step, ← hrep, hrule] at hrun
      cases hrun
      exact .refl _
  · obtain ⟨f, xs, ys, hx, hy, hargs⟩ :=
      (Graph.rep_eq_or_inst h.left ha hb heq).resolve_left hrep
    have hrule : s.graph.rule (s.graph.rep a) (s.graph.rep b) = .descend xs ys := by
      simp [Graph.rule, hx, hy, hrep]
    simp only [step, hrule, map_eq_done_iff] at hrun
    obtain ⟨_, hrun, -⟩ := hrun
    rw [← Graph.resolve_rep h.left, Graph.resolve_inst h.left hx] at hwithin
    exact unifyAll_idle hu hi h
      (fun x hmem => ⟨h.left.child_lt hx hmem, hwithin.of_mem_inst (List.mem_map_of_mem hmem)⟩)
      (fun y hmem => h.left.child_lt hy hmem) hargs hrun

theorem idle_unifier (depth : Nat) : (unifier depth).Idle := by
  induction depth with
  | zero => exact fun _ _ _ _ _ _ _ _ _ _ _ _ hrun => by cases hrun
  | succ depth ih => exact idle_step (lawful_unifier depth) (confined_unifier depth) ih

/-! ### Runs in both graphs -/

/-- If the unifier succeeds on two types, then it succeeds on their images, and the collapse is
extended to what the two runs leave. -/
def Unifier.Reflects (unify : Unifier) : Prop :=
  ∀ ⦃c : Collapse⦄ ⦃a a' b b' s s' r s₁⦄, c.Holds s.graph s'.graph → c.pairs a a' →
    c.pairs b b' → unify a b s = .done r s₁ →
    ∃ (c₁ : Collapse) (r' : TypeRef) (s₁' : Store), unify a' b' s' = .done r' s₁' ∧ c.Grows c₁ ∧
      c₁.Holds s₁.graph s₁'.graph

lemma unifyAll_reflects (hr : unify.Reflects) (h : c.Holds s.graph s'.graph)
    (hxs : List.Forall₂ c.pairs xs xs') (hys : List.Forall₂ c.pairs ys ys')
    (hrun : unifyAll unify xs ys s = .done () s₁) :
    ∃ (c₁ : Collapse) (s₁' : Store), unifyAll unify xs' ys' s' = .done () s₁' ∧ c.Grows c₁ ∧
      c₁.Holds s₁.graph s₁'.graph := by
  induction xs generalizing c xs' ys ys' s s' with
  | nil =>
    cases hxs
    cases hrun
    exact ⟨c, s', rfl, .refl c, h⟩
  | cons x xs ih =>
    obtain ⟨x', xs', hx, htail, rfl⟩ := List.forall₂_cons_left_iff.mp hxs
    cases hys with
    | nil =>
      cases hrun
      exact ⟨c, s', rfl, .refl c, h⟩
    | cons hy hys =>
      obtain ⟨r, s₂, hfirst, hrest⟩ := unifyAll_cons_eq_done.mp hrun
      obtain ⟨c₂, r', s₂', hfirst', hgrow₂, h₂⟩ := hr h hx hy hfirst
      obtain ⟨c₁, s₁', hrest', hgrow₁, h₁⟩ :=
        ih h₂ (htail.imp hgrow₂.pairs) (hys.imp hgrow₂.pairs) hrest
      exact ⟨c₁, s₁', unifyAll_cons_eq_done.mpr ⟨r', s₂', hfirst', hrest'⟩, hgrow₂.trans hgrow₁, h₁⟩

/-- The same member is chosen in both graphs, and an instance of it is unified with the target in
both. -/
lemma choose_reflects (hr : (unifier depth).Reflects) (h : c.Holds s.graph s'.graph)
    (hn : s.graph.node? u = some (.union ms)) (hu : u ∈ c.shared) (ht : c.pairs t t')
    (hrun : choose (unifier depth) u ms t s = .done r s₁) :
    ∃ (c₁ : Collapse) (r' : TypeRef) (s₁' : Store),
      choose (unifier depth) u ms t' s' = .done r' s₁' ∧ c.Grows c₁ ∧
        c₁.Holds s₁.graph s₁'.graph := by
  obtain ⟨htlt, htlt'⟩ := h.lt_size ht
  have hms : ∀ m ∈ ms, m ∈ c.shared := h.shares.encloses.children hu hn
  obtain ⟨w, hw, viable, s₂, hfit, hbest, hq, hs₂, hrun⟩ :=
    choose_eq_done (lawful_unifier depth) h.left hn htlt hrun
  obtain ⟨s₂', hfit'⟩ := h.fitting hms ht hfit
  obtain ⟨hsub, hq', hs₂'⟩ := fitting_quiet (lawful_unifier depth) h.right
    (fun m hm => (h.shares.lt_sizes m (hms m hm)).2) htlt' hfit'
  have h₂ := h.keeps hq.graph hq'.graph hs₂ hs₂'
    (hq'.templates.trans (h.shares.templates.trans hq.templates.symm))
  have hbest' : s₂'.graph.mostSpecific viable = [w] := by
    have hsame := h₂.shares.relates.mostSpecific hs₂ hs₂' fun m hm => hms m (hsub hm)
    simpa [Renumbering.fixing, hbest] using hsame
  obtain ⟨c₃, hgrow₃, h₃, hinst, -⟩ := h₂.instantiate (hms w hw)
  change c₃.Holds (s₂.renew .instantiate w).2.graph (s₂'.renew .instantiate w).2.graph at h₃
  obtain ⟨c₁, r', s₁', hrun', hgrow₁, h₁⟩ := hr h₃ hinst (hgrow₃.pairs ht) hrun
  refine ⟨c₁, r', s₁', ?_, hgrow₃.trans hgrow₁, h₁⟩
  rw [choose, hfit', done_andThen, hbest']
  exact hrun'

/-- A free variable and its image are bound. -/
lemma assign_reflects (h : c.Holds s.graph s'.graph) (ha : c.pairs a a') (hb : c.pairs b b')
    (hfree : s.graph.isFree (s.graph.rep a) = true)
    (hrun : assign (s.graph.rep a) (s.graph.rep b) s = .done r s₁) :
    ∃ s₁', assign (s'.graph.rep a') (s'.graph.rep b') s' = .done (s'.graph.rep b') s₁' ∧
      c.Holds s₁.graph s₁'.graph := by
  have hblt := Graph.rep_lt_size h.left (h.lt_size hb).1
  have hblt' := Graph.rep_lt_size h.right (h.lt_size hb).2
  rw [assign] at hrun
  split_ifs at hrun with hoccurs
  cases hrun
  rw [Graph.occursIn_eq_true_iff h.left (Graph.binding?_rep h.left a) hblt] at hoccurs
  have hoccurs' := h.not_reaches ha hb hfree hoccurs
  rw [← Graph.occursIn_eq_true_iff h.right (Graph.binding?_rep h.right a') hblt'] at hoccurs'
  exact ⟨s'.bind (s'.graph.rep a') (s'.graph.rep b'), if_neg hoccurs', h.bind ha hb hfree hoccurs⟩

theorem reflects_step (hr : (unifier depth).Reflects) :
    Unifier.Reflects (step (unifier depth)) := by
  intro c a a' b b' s s' r s₁ h ha hb hrun
  have hrules := h.rule ha hb
  simp only [step] at hrun ⊢
  generalize s.graph.rule (s.graph.rep a) (s.graph.rep b) = rule,
    s'.graph.rule (s'.graph.rep a') (s'.graph.rep b') = rule' at hrules hrun ⊢
  cases hrules with
  | same =>
    cases hrun
    exact ⟨c, _, s', rfl, .refl c, h⟩
  | assignLeft hfree =>
    obtain ⟨s₁', hrun', h₁⟩ := assign_reflects h ha hb hfree hrun
    exact ⟨c, _, s₁', hrun', .refl c, h₁⟩
  | assignRight hfree =>
    obtain ⟨s₁', hrun', h₁⟩ := assign_reflects h hb ha hfree hrun
    exact ⟨c, _, s₁', hrun', .refl c, h₁⟩
  | chooseLeft hn hshared => exact choose_reflects hr h hn hshared (h.reps hb) hrun
  | chooseRight hn hshared => exact choose_reflects hr h hn hshared (h.reps ha) hrun
  | descend hxs hys =>
    obtain ⟨_, hrun, -⟩ := map_eq_done_iff.mp hrun
    obtain ⟨c₁, s₁', hrun', hgrow, h₁⟩ := unifyAll_reflects hr h hxs hys hrun
    exact ⟨c₁, _, s₁', map_eq_done_iff.mpr ⟨(), hrun', rfl⟩, hgrow, h₁⟩
  | merged heq hx hy =>
    -- the images are one type, and the comparison in the first graph changes nothing
    obtain ⟨_, hrun, -⟩ := map_eq_done_iff.mp hrun
    have hxs := fun x (hmem : x ∈ _) => h.left.child_lt hx hmem
    have hys := fun y (hmem : y ∈ _) => h.left.child_lt hy hmem
    have hwithin := h.within ha
    rw [← Graph.resolve_rep h.left a, ← Graph.resolve_rep h.left b, Graph.resolve_inst h.left hx,
      Graph.resolve_inst h.left hy] at heq
    rw [← Graph.resolve_rep h.left a, Graph.resolve_inst h.left hx] at hwithin
    have hkeep := unifyAll_idle (lawful_unifier depth) (idle_unifier depth) h
      (fun x hmem => ⟨hxs x hmem, hwithin.of_mem_inst (List.mem_map_of_mem hmem)⟩) hys
      (Tree.inst.inj heq).2 hrun
    obtain ⟨hadv, hs₁⟩ := (unifyAll_lawful (lawful_unifier depth) h.left hxs hys).1 s₁
      (Or.inl ⟨(), hrun⟩)
    exact ⟨c, _, s', rfl, .refl c, h.keeps hkeep (.refl _) hs₁ h.right
      (h.shares.templates.trans hadv.templates.symm)⟩
  | clash => cases hrun

/-- Every run that succeeds in a graph succeeds in each graph to which it collapses. -/
theorem reflects_unifier (depth : Nat) : (unifier depth).Reflects := by
  induction depth with
  | zero => exact fun _ _ _ _ _ _ _ _ _ _ _ _ hrun => by cases hrun
  | succ depth ih => exact reflects_step ih

end Unification
