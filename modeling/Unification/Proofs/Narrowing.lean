import Mathlib.Data.Finset.Union
import Unification.Proofs.Choices
import Unification.Proofs.Unions

/-!
# Which variables a run may bind

A run that resolves no generic overload set makes no new variables that it keeps. It binds only
variables that stand outside the overload sets of its two sides, and what it binds them to has no
other variables outside overload sets. So either it binds nothing at all, or there are fewer
variables left: this is the measure by which unification comes to an end.
-/

namespace Unification

open Outcome

namespace Graph

variable {g : Graph} {r v ty x : TypeRef}

/-- The free variables of a type that do not stand inside an overload set. -/
def outer (g : Graph) (r : TypeRef) : Finset TypeRef :=
  (g.resolve r).outerVars

lemma isFree_of_mem_outer (hg : g.WellFormed) (hr : r < g.nodes.size) (hv : v ∈ g.outer r) :
    g.isFree v = true :=
  isFree_of_mem_vars hg hr (Tree.outerVars_subset_vars _ hv)

lemma outer_rep (hg : g.WellFormed) (r : TypeRef) : g.outer (g.rep r) = g.outer r := by
  rw [outer, resolve_rep hg, outer]

lemma outer_free (hv : g.isFree v = true) : g.outer v = {v} := by
  obtain ⟨name, hn⟩ := (g.isFree_eq_true_iff v).mp hv
  rw [outer, resolve_free hn, Tree.outerVars_flexible]

/-- The variables of an argument are variables of the instance. -/
lemma outer_arg_subset (hg : g.WellFormed) {t : TemplateRef} {args : List TypeRef}
    (hn : g.node? r = some (.inst t args)) (hx : x ∈ args) : g.outer x ⊆ g.outer r := by
  intro v hv
  rw [outer, resolve_inst hg hn]
  exact Tree.mem_outerVars_inst.mpr ⟨_, List.mem_map_of_mem hx, hv⟩

/-- Binding a variable to a type lets only the variables of the type into other types. -/
lemma outer_bind_subset (hg : g.WellFormed) (hv : g.isFree v = true) (hty : ty < g.nodes.size)
    (hocc : ¬ g.Reaches ty v) (hx : x < g.nodes.size) :
    (g.setBinding v (some ty)).outer x ⊆ g.outer x ∪ g.outer ty := by
  intro w hw
  rw [outer, (extends_bind ty hv).resolve_eq hg (hg.bind hv hty hocc)] at hw
  obtain ⟨z, hz, hw⟩ := Tree.exists_of_mem_outerVars_subst hw
  have hfree := isFree_of_mem_outer hg hx hz
  rcases resolve_bind_free hg hv hty hocc hfree with ⟨-, heq⟩ | ⟨-, heq, -⟩
  · rw [heq] at hw
    exact Finset.mem_union_right _ hw
  · rw [heq, ← outer, outer_free hfree, Finset.mem_singleton] at hw
    rw [hw]
    exact Finset.mem_union_left _ hz

lemma not_isFree_bind (hv : g.isFree v = true) : (g.setBinding v (some ty)).isFree v = false := by
  obtain ⟨name, -, hn⟩ := node?_bind ty hv
  simp [isFree, hn, Node.isFree]

end Graph

/-- A store narrows to another one within a set of variables: types get no further variables, and
nothing is bound at all unless one of the set is. -/
structure Store.Narrows (vs : Finset TypeRef) (s s' : Store) : Prop where
  outer : ∀ x < s.graph.nodes.size, s'.graph.outer x ⊆ s.graph.outer x ∪ vs
  bound : s.Quiet s' ∨ ∃ v ∈ vs, s'.graph.isFree v = false

lemma Store.Quiet.outer_eq {s s' : Store} (h : s.Quiet s') (hs : s.graph.WellFormed)
    (hs' : s'.graph.WellFormed) {x : TypeRef} (hx : x < s.graph.nodes.size) :
    s'.graph.outer x = s.graph.outer x := by
  rw [Graph.outer, h.graph.resolve_eq hs hs' hx, Graph.outer]

lemma Store.Narrows.refl (vs : Finset TypeRef) (s : Store) : s.Narrows vs s :=
  ⟨fun _ _ => Finset.subset_union_left, Or.inl (Store.Quiet.refl s)⟩

/-- Narrowing goes on: a variable that was bound stays bound. -/
lemma Store.Narrows.trans {vs : Finset TypeRef} {s s₁ s' : Store} (h : s.Narrows vs s₁)
    (h' : s₁.Narrows vs s') (hadv : s.Advances s₁) (hadv' : s₁.Advances s')
    (hvs : ∀ v ∈ vs, v < s.graph.nodes.size) : s.Narrows vs s' where
  outer x hx := by
    refine (h'.outer x (hx.trans_le hadv.size_le)).trans ?_
    exact Finset.union_subset (h.outer x hx) Finset.subset_union_right
  bound := by
    rcases h.bound with hq | ⟨v, hv, hbound⟩
    · rcases h'.bound with hq' | hbound'
      · exact Or.inl (hq.trans hq')
      · exact Or.inr hbound'
    · refine Or.inr ⟨v, hv, ?_⟩
      by_contra hfree
      have := hadv'.graph.isFree ((hvs v hv).trans_le hadv.size_le) (by simpa using hfree)
      simp [this] at hbound

/-! ### Runs without generic choices -/

/-- A successful unification that counts nothing narrows the store within the variables of its
sides. -/
def Unifier.Narrows (unify : Unifier) (tally : Tally) : Prop :=
  ∀ ⦃a b s r s'⦄, s.graph.WellFormed → a < s.graph.nodes.size → b < s.graph.nodes.size →
    tally a b s = 0 → unify a b s = .done r s' →
    ∀ vs, (∀ v ∈ vs, v < s.graph.nodes.size) → s.graph.outer a ⊆ vs → s.graph.outer b ⊆ vs →
      s.Narrows vs s'

variable {unify : Unifier} {tally : Tally} {a b r target u : TypeRef} {ms xs ys : List TypeRef}
  {s s' : Store} {vs : Finset TypeRef}

lemma unifyAll_narrows (hu : unify.Lawful) (hn : unify.Narrows tally) (hs : s.graph.WellFormed)
    (hxs : ∀ x ∈ xs, x < s.graph.nodes.size ∧ s.graph.outer x ⊆ vs)
    (hys : ∀ y ∈ ys, y < s.graph.nodes.size ∧ s.graph.outer y ⊆ vs)
    (hvs : ∀ v ∈ vs, v < s.graph.nodes.size) (hcount : tallyAll unify tally xs ys s = 0)
    (h : unifyAll unify xs ys s = .done () s') : s.Narrows vs s' := by
  induction xs generalizing ys s with
  | nil =>
    simp only [unifyAll, done.injEq, true_and] at h
    subst h
    exact .refl vs s
  | cons x xs ih =>
    cases ys with
    | nil =>
      simp only [unifyAll, done.injEq, true_and] at h
      subst h
      exact .refl vs s
    | cons y ys =>
      obtain ⟨r, s₁, hxy, hrest⟩ := unifyAll_cons_eq_done.mp h
      obtain ⟨hx, hxvs⟩ := hxs x (by simp)
      obtain ⟨hy, hyvs⟩ := hys y (by simp)
      simp only [tallyAll, hxy, after, Nat.add_eq_zero_iff] at hcount
      obtain ⟨hadv, hs₁⟩ := hu.advances hs hx hy (Or.inl ⟨r, hxy⟩)
      have hfirst := hn hs hx hy hcount.1 hxy vs hvs hxvs hyvs
      have hkeep : ∀ z, z < s.graph.nodes.size ∧ s.graph.outer z ⊆ vs →
          z < s₁.graph.nodes.size ∧ s₁.graph.outer z ⊆ vs := by
        rintro z ⟨hz, hzvs⟩
        exact ⟨hz.trans_le hadv.size_le,
          (hfirst.outer z hz).trans (Finset.union_subset hzvs (Finset.Subset.refl _))⟩
      have hxs₁ : ∀ z ∈ xs, z < s₁.graph.nodes.size ∧ s₁.graph.outer z ⊆ vs :=
        fun z hz => hkeep z (hxs z (by simp [hz]))
      have hys₁ : ∀ z ∈ ys, z < s₁.graph.nodes.size ∧ s₁.graph.outer z ⊆ vs :=
        fun z hz => hkeep z (hys z (by simp [hz]))
      have hadv' := ((unifyAll_lawful hu hs₁ (fun z hz => (hxs₁ z hz).1)
        fun z hz => (hys₁ z hz).1).1 s' (Or.inl ⟨(), hrest⟩)).1
      exact hfirst.trans
        (ih hs₁ hxs₁ hys₁ (fun v hv => (hvs v hv).trans_le hadv.size_le) hcount.2 hrest)
        hadv hadv' hvs

/-- The chosen member of an overload set without placeholders has no variables. -/
lemma choose_narrows (hu : unify.Lawful) (hnar : unify.Narrows tally) (hs : s.graph.WellFormed)
    (hn : s.graph.node? u = some (.union ms)) (ht : target < s.graph.nodes.size)
    (hvs : ∀ v ∈ vs, v < s.graph.nodes.size) (htvs : s.graph.outer target ⊆ vs)
    (hcount : tallyChoice unify tally u ms target s = 0)
    (h : choose unify u ms target s = .done r s') : s.Narrows vs s' := by
  obtain ⟨w, hw, viable, s₁, hfit, hwin, hq₁, hs₁, hrun⟩ := choose_eq_done hu hs hn ht h
  obtain ⟨hq, hs₂, hi, ⟨ρ, htree⟩, -⟩ := renew_after_quiet hq₁ hs hs₁ (hs.child_lt hn hw)
  simp only [tallyChoice, hfit, after, tallyWinner, hwin, Nat.add_eq_zero_iff] at hcount
  obtain ⟨⟨hground, -⟩, hcount⟩ := hcount
  have hmember : (s.graph.resolve w).placeholders = [] := by
    have hset : (s.graph.resolve u).placeholders = [] := by
      simpa [Graph.isGeneric] using hground
    rw [Graph.resolve_union hs hn] at hset
    exact Tree.placeholders_eq_nil_of_mem_union hset (List.mem_map_of_mem hw)
  have hinst : (s₁.renew .instantiate w).2.graph.outer (s₁.renew .instantiate w).1 ⊆ vs := by
    rw [Graph.outer, htree, Tree.renew, Tree.replace_of_placeholders_eq_nil hmember,
      Tree.outerVars_of_placeholders_eq_nil hmember]
    exact Finset.empty_subset vs
  have hnarrow := hnar hs₂ hi (ht.trans_le hq.size_le) hcount hrun vs
    (fun v hv => (hvs v hv).trans_le hq.size_le) hinst (by rwa [hq.outer_eq hs hs₂ ht])
  refine ⟨fun x hx => ?_, hnarrow.bound.imp_left hq.trans⟩
  rw [← hq.outer_eq hs hs₂ hx]
  exact hnarrow.outer x (hx.trans_le hq.size_le)

/-- Binding a variable of the set to a type with variables in the set. -/
lemma narrows_bind {v ty : TypeRef} (hs : s.graph.WellFormed) (hv : s.graph.isFree v = true)
    (hty : ty < s.graph.nodes.size) (hocc : ¬ s.graph.Reaches ty v) (hvvs : s.graph.outer v ⊆ vs)
    (htvs : s.graph.outer ty ⊆ vs) : s.Narrows vs (s.bind v ty) where
  outer x hx := by
    refine (Graph.outer_bind_subset hs hv hty hocc hx).trans ?_
    exact Finset.union_subset_union (Finset.Subset.refl _) htvs
  bound := by
    rw [Graph.outer_free hv, Finset.singleton_subset_iff] at hvvs
    exact Or.inr ⟨v, hvvs, Graph.not_isFree_bind hv⟩

/-- One step narrows if the unifier for the parts does. -/
lemma narrows_step (hu : unify.Lawful) (hnar : unify.Narrows tally) :
    Unifier.Narrows (step unify) (tallyStep unify tally) := by
  intro a b s r s' hs ha hb hcount h vs hvs havs hbvs
  have ha' := Graph.rep_lt_size hs ha
  have hb' := Graph.rep_lt_size hs hb
  rw [← Graph.outer_rep hs] at havs hbvs
  have hsteps := step_stepsTo unify hs ha hb
  rw [h] at hsteps
  simp only [tallyStep] at hcount
  generalize ho : (Outcome.done r s' : Outcome Store TypeRef) = o at hsteps
  cases hsteps with
  | same =>
    cases ho
    exact .refl vs s
  | bindLeft hfree hocc =>
    cases ho
    exact narrows_bind hs hfree hb' hocc havs hbvs
  | bindRight hfree hocc =>
    cases ho
    exact narrows_bind hs hfree ha' hocc hbvs havs
  | occursLeft | occursRight | clash => cases ho
  | chooseLeft hrule hn =>
    rw [hrule] at hcount
    exact choose_narrows hu hnar hs hn hb' hvs hbvs hcount ho.symm
  | chooseRight hrule hn =>
    rw [hrule] at hcount
    exact choose_narrows hu hnar hs hn ha' hvs havs hcount ho.symm
  | descend hrule hx hy =>
    rw [hrule] at hcount
    obtain ⟨_, hrun, -⟩ := map_eq_done_iff.mp ho.symm
    exact unifyAll_narrows hu hnar hs
      (fun z hz => ⟨hs.child_lt hx hz, (Graph.outer_arg_subset hs hx hz).trans havs⟩)
      (fun z hz => ⟨hs.child_lt hy hz, (Graph.outer_arg_subset hs hy hz).trans hbvs⟩)
      hvs hcount hrun

/-- Every run that resolves no generic overload set narrows the store. -/
theorem narrows_unifier (depth : Nat) : (unifier depth).Narrows (genericChoices depth) := by
  induction depth with
  | zero =>
    intro a b s r s' _ _ _ _ h
    cases h
  | succ depth ih => exact narrows_step (lawful_unifier depth) ih

end Unification
