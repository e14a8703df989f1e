import Unification.Proofs.Depth
import Unification.Proofs.Reachable
import Unification.Proofs.Unions

/-!
# Soundness of overload resolution

With overload sets a successful unification does not make the two sides equal: a set stays a set,
whichever member was chosen for it. It makes them match, in the sense of `Tree.Matches`, provided
that no free variable stands inside an overload set. The proof is about all valuations of the graph
in which the run ends: a later binding only leaves fewer of them, so a match is never lost.
-/

namespace Unification

open Outcome

namespace Tree

variable {t u : Tree}

/-- The tree with its constraints outside overload sets replaced. -/
def specialize (σ : TypeRef → Tree) (t : Tree) : Tree :=
  t.replace fun p =>
    match p.kind with
    | .rigid    => σ p.ref
    | .flexible => .placeholder p

/-- Two trees match: they are equal, or instances of one template whose arguments match, or one of
them is an overload set and the other matches what a member of it can be specialized to. -/
inductive Matches : Tree → Tree → Prop where
  | refl (t : Tree) : Matches t t
  | inst {f : TemplateRef} {xs ys : List Tree} : xs.length = ys.length →
      (∀ p ∈ xs.zip ys, Matches p.1 p.2) → Matches (.inst f xs) (.inst f ys)
  | left {r : TypeRef} {members : List Tree} {m t : Tree} (σ : TypeRef → Tree) : m ∈ members →
      Matches (m.specialize σ) t → Matches (.union r members) t
  | right {r : TypeRef} {members : List Tree} {m t : Tree} (σ : TypeRef → Tree) : m ∈ members →
      Matches (m.specialize σ) t → Matches t (.union r members)

/-- An instance of a tree without free variables reads as a specialization of the tree. -/
lemma subst_renew_instantiate {θ : TypeRef → Tree} {ρ : TypeRef → TypeRef} (h : t.vars = ∅) :
    (t.renew .instantiate ρ).subst θ = t.specialize fun r => θ (ρ r) := by
  have hrigid : ∀ p ∈ t.placeholders, p.kind ≠ .flexible := by
    intro p hp hk
    have hmem : p.ref ∈ t.vars := mem_vars.mpr ⟨p, hp, hk, rfl⟩
    simp [h] at hmem
  clear h
  rw [renew, specialize]
  induction t with
  | terminal r name => simp
  | placeholder p =>
    obtain ⟨r, kind, name⟩ := p
    cases kind with
    | flexible => exact absurd rfl (hrigid ⟨r, .flexible, name⟩ (by simp [placeholders]))
    | rigid => simp [Renewal.rename, Renewal.replacement]
  | inst f args ih =>
    simp only [replace_inst, subst_inst, List.map_map]
    congr 1
    apply List.map_congr_left
    intro u hu
    exact ih u hu fun p hp => hrigid p (mem_placeholders_inst.mpr ⟨u, hu, hp⟩)
  | union r members =>
    rw [replace_union, replace_union]
    exact subst_eq_self fun p hp hk => absurd hk (hrigid p hp)

end Tree

variable {unify : Unifier} {a b r target u : TypeRef} {ms xs ys : List TypeRef} {s s' : Store}
  {θ : TypeRef → Tree}

/-- No free variable stands inside an overload set of the tree. -/
def Tree.Sealed (t : Tree) : Prop :=
  t.EveryUnion fun u => u.vars = ∅

/-- A successful unification of types without free variables inside overload sets makes them match,
however the free variables are read that are left. -/
def Unifier.Sound (unify : Unifier) : Prop :=
  ∀ ⦃a b s r s'⦄, s.graph.WellFormed → a < s.graph.nodes.size → b < s.graph.nodes.size →
    (s.graph.resolve a).Sealed → (s.graph.resolve b).Sealed → unify a b s = .done r s' →
    ∀ θ, s'.graph.IsValuation θ → (θ a).Matches (θ b)

/-- Arguments that were unified in pairs match in pairs. A pair that was unified early matches
still, because the valuations of the last graph are valuations of all graphs before it. -/
lemma unifyAll_sound (hu : unify.Lawful) (hk : unify.KeepsUnions fun t => t.vars = ∅)
    (hsound : unify.Sound) (hs : s.graph.WellFormed)
    (hxs : s.AllHave (fun t => t.vars = ∅) xs) (hys : s.AllHave (fun t => t.vars = ∅) ys)
    (h : unifyAll unify xs ys s = .done () s') (hθ : s'.graph.IsValuation θ) :
    ∀ p ∈ (xs.map θ).zip (ys.map θ), p.1.Matches p.2 := by
  induction xs generalizing ys s with
  | nil => simp
  | cons x xs ih =>
    cases ys with
    | nil => simp
    | cons y ys =>
      obtain ⟨r, s₁, hxy, hrest⟩ := unifyAll_cons_eq_done.mp h
      obtain ⟨hx, hxQ⟩ := hxs x (by simp)
      obtain ⟨hy, hyQ⟩ := hys y (by simp)
      obtain ⟨-, hs₁, hxs₁, hys₁⟩ := hk.tail hu hs hxs hys hxy
      obtain ⟨hadv', -⟩ := (unifyAll_lawful hu hs₁ (fun z hz => (hxs₁ z hz).1)
        fun z hz => (hys₁ z hz).1).1 s' (Or.inl ⟨(), hrest⟩)
      simp only [List.map_cons, List.zip_cons_cons, List.mem_cons, forall_eq_or_imp]
      exact ⟨hsound hs hx hy hxQ hyQ hxy θ (hadv'.graph.isValuation hθ), ih hs₁ hxs₁ hys₁ hrest⟩

/-- The target matches a specialization of the member that was chosen. -/
lemma choose_sound (hu : unify.Lawful) (hsound : unify.Sound) (hs : s.graph.WellFormed)
    (hn : s.graph.node? u = some (.union ms)) (ht : target < s.graph.nodes.size)
    (huQ : (s.graph.resolve u).Sealed) (htQ : (s.graph.resolve target).Sealed)
    (h : choose unify u ms target s = .done r s') (hθ : s'.graph.IsValuation θ) :
    θ u = .union u (ms.map θ) ∧
      ∃ w ∈ ms, ∃ σ, ((θ w).specialize σ).Matches (θ target) := by
  obtain ⟨w, hw, _, s₁, -, -, hq₁, hs₁, hrun⟩ := choose_eq_done hu hs hn ht h
  obtain ⟨hq, hs₂, hi, ⟨ρ, htree⟩, hsame⟩ := renew_after_quiet hq₁ hs hs₁ (hs.child_lt hn hw)
  obtain ⟨hadv, -⟩ := hu.advances hs₂ hi (ht.trans_le hq.size_le) (Or.inl ⟨r, hrun⟩)
  have hθ₂ := hadv.graph.isValuation hθ
  have hθs := hq.graph.extends.isValuation hθ₂
  have hwQ := (Store.allHave_members hs hn huQ w hw).2
  -- the member has no free variables, so every valuation reads it as it is
  have hvars : (s.graph.resolve w).vars = ∅ := by
    rw [Graph.resolve_union hs hn] at huQ
    cases huQ with
    | union hset _ => exact Tree.vars_eq_empty_of_mem_union hset (List.mem_map_of_mem hw)
  have hmember : θ w = s.graph.resolve w := by
    rw [hθs.eq_subst hs, Tree.subst_of_vars_eq_empty hvars]
  have hinst : θ (s₁.renew .instantiate w).1 = (θ w).specialize fun x => θ (ρ x) := by
    rw [hθ₂.eq_subst hs₂, htree, Tree.subst_renew_instantiate hvars, hmember]
  refine ⟨hθs hn, w, hw, fun x => θ (ρ x), ?_⟩
  rw [← hinst]
  refine hsound hs₂ hi (ht.trans_le hq.size_le) ?_ ?_ hrun θ hθ
  · rw [htree]
    exact hwQ.renew _ ρ
  · rwa [hsame target ht]

/-- One step is sound if the unifier for the parts is. -/
theorem sound_step (hu : unify.Lawful) (hk : unify.KeepsUnions fun t => t.vars = ∅)
    (hsound : unify.Sound) : Unifier.Sound (step unify) := by
  intro a b s r s' hs ha hb haQ hbQ h θ hθ
  have ha' := Graph.rep_lt_size hs ha
  have hb' := Graph.rep_lt_size hs hb
  obtain ⟨hadv, -⟩ := (lawful_step hu).advances hs ha hb (Or.inl ⟨r, h⟩)
  have hθs := hadv.graph.isValuation hθ
  rw [← hθs.rep hs a, ← hθs.rep hs b]
  rw [← Graph.resolve_rep hs] at haQ hbQ
  have hsteps := step_stepsTo unify hs ha hb
  rw [h] at hsteps
  generalize ho : (Outcome.done r s' : Outcome Store TypeRef) = o at hsteps
  cases hsteps with
  | same hab =>
    rw [hab]
    exact .refl _
  | bindLeft hfree hocc =>
    cases ho
    obtain ⟨name, -, hn⟩ := Graph.node?_bind (s.graph.rep b) hfree
    rw [hθ hn]
    exact .refl _
  | bindRight hfree hocc =>
    cases ho
    obtain ⟨name, -, hn⟩ := Graph.node?_bind (s.graph.rep a) hfree
    rw [hθ hn]
    exact .refl _
  | occursLeft | occursRight | clash => cases ho
  | chooseLeft _ hn =>
    obtain ⟨hset, w, hw, σ, hmatch⟩ := choose_sound hu hsound hs hn hb' haQ hbQ ho.symm hθ
    rw [hset]
    exact .left σ (List.mem_map_of_mem hw) hmatch
  | chooseRight _ hn =>
    obtain ⟨hset, w, hw, σ, hmatch⟩ := choose_sound hu hsound hs hn ha' hbQ haQ ho.symm hθ
    rw [hset]
    exact .right σ (List.mem_map_of_mem hw) hmatch
  | descend _ hx hy =>
    obtain ⟨_, hrun, -⟩ := map_eq_done_iff.mp ho.symm
    rw [hθs hx, hθs hy]
    apply Tree.Matches.inst
    · simpa using hs.length_eq hx hy
    · exact unifyAll_sound hu hk hsound hs (Store.allHave_args hs hx haQ)
        (Store.allHave_args hs hy hbQ) hrun hθ

/-- Every run is sound. -/
theorem sound_unifier (depth : Nat) : (unifier depth).Sound := by
  induction depth with
  | zero =>
    intro a b s r s' _ _ _ _ _ h
    cases h
  | succ depth ih =>
    exact sound_step (lawful_unifier depth) (keepsUnions_unifier (fun _ h => h) depth) ih

namespace Engine

variable {e e' : Engine} {a b r : TypeRef} {depth : Nat}

/-- If no free variable can be reached from an overload set of the two types, then a successful
unification makes them match. -/
theorem unify_matches (he : e.Reachable) (ha : e.Has a) (hb : e.Has b)
    (hsealed : ∀ u, e.graph.Reaches a u ∨ e.graph.Reaches b u →
      ∀ ms, e.graph.node? u = some (.union ms) →
        ∀ v, e.graph.Reaches u v → e.graph.isFree v = false)
    (h : e.unify depth a b = .done r e') :
    (e'.graph.resolve a).Matches (e'.graph.resolve b) := by
  have hs := he.wellFormed.graph
  have hset : ∀ u, e.graph.Reaches a u ∨ e.graph.Reaches b u → e.Has u →
      ∀ ms, e.graph.node? u = some (.union ms) → (e.graph.resolve u).vars = ∅ := by
    intro u hreach hu ms hn
    rw [Finset.eq_empty_iff_forall_notMem]
    intro v hv
    have hfree := Graph.isFree_of_mem_vars hs hu hv
    obtain ⟨p, hp, -, rfl⟩ := Tree.mem_vars.mp hv
    simp [hsealed u hreach ms hn p.ref (Graph.mem_placeholders_resolve hs hu hp).1] at hfree
  have haQ : (e.graph.resolve a).Sealed := Graph.everyUnion_resolve hs ha fun u ms hu hn =>
    hset u (Or.inl hu) (hu.lt_size hs.closed ha) ms hn
  have hbQ : (e.graph.resolve b).Sealed := Graph.everyUnion_resolve hs hb fun u ms hu hn =>
    hset u (Or.inr hu) (hu.lt_size hs.closed hb) ms hn
  obtain ⟨s, hrun, hgraph⟩ := unify_eq_done h
  obtain ⟨-, hs'⟩ := (lawful_unifier depth).advances hs ha hb (Or.inl ⟨r, hrun⟩)
  rw [hgraph]
  exact sound_unifier depth hs ha hb haQ hbQ hrun _ (Graph.isValuation_resolve hs')

/-- The overload set with the member `Function<c, c>` is unified with `Function<Int, v>`. Afterwards
`v` stands for `Int`, and the set matches `Function<Int, Int>`. -/
theorem unify_matches_identity :
    let e := (((new {}).addConstraint none).2.addFunction [2] 2).2
    let e := (((e.addUnion [3]).2.addTerminal "Int").2.addVar none).2
    let e := (e.addFunction [5] 6).2
    ∃ r e', e.unify 4 4 7 = .done r e' ∧ e'.rep 6 = 5 ∧
      (e'.graph.resolve 4).Matches (e'.graph.resolve 7) := by
  intro e₀ e₁ e
  have he : e.Reachable := by
    refine .next (.next (.next (.next (.next (.next (.new {}) (.addConstraint _))
      (.addFunction ?_ ?_)) (.addUnion ?_)) (.addTerminal _)) (.addVar _)) (.addFunction ?_ ?_)
    all_goals decide
  have hsealed : ∀ u, e.graph.Reaches 4 u ∨ e.graph.Reaches 7 u →
      ∀ ms, e.graph.node? u = some (.union ms) →
        ∀ v, e.graph.Reaches u v → e.graph.isFree v = false := by
    intro u _ ms hn v hv
    have hu : u < 8 := Graph.lt_size_of_node? hn
    have honly : ∀ u < 8, (e.graph.node? u).any Node.isUnion = true → u = 4 := by decide
    obtain rfl := honly u hu (by simp [hn, Node.isUnion])
    have hmem := (Graph.mem_reachable_iff he.wellFormed.graph.closed hu).mpr hv
    have hnone : ∀ v ∈ e.graph.reachable 4, e.graph.isFree v = false := by decide
    exact hnone v hmem
  obtain ⟨r, e', hrun, hint⟩ : ∃ r e', e.unify 4 4 7 = .done r e' ∧ e'.rep 6 = 5 := by
    decide +kernel
  exact ⟨r, e', hrun, hint, unify_matches he (by decide) (by decide) hsealed hrun⟩

end Engine

end Unification
