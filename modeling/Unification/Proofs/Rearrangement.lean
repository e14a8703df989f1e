import Mathlib.Data.List.Forall2
import Mathlib.Data.Set.Function
import Unification.Proofs.MostGeneral

/-!
# The order of unifications

Unifying several pairs of types without overload sets one after another leaves those valuations that
read each pair alike. That says nothing about the order of the pairs or of the two sides of a pair,
so another order succeeds as well, and ends in a graph with the same valuations. Two such graphs
read every type alike up to one renaming of the free variables.
-/

namespace Unification

open Outcome

namespace Tree

variable {t : Tree} {θ θ' : TypeRef → Tree}

/-- Substitutions that agree on the free variables of a tree make the same of it. -/
lemma subst_congr (h : ∀ v ∈ t.vars, θ v = θ' v) : t.subst θ = t.subst θ' := by
  induction t with
  | terminal r name => simp
  | placeholder p =>
    obtain ⟨r, kind, name⟩ := p
    cases kind with
    | flexible => simpa using h r (by simp [vars, placeholders])
    | rigid => simp
  | inst f args ih =>
    simp only [subst_inst]
    congr 1
    apply List.map_congr_left
    intro u hu
    apply ih u hu
    intro v hv
    exact h v (mem_vars_inst.mpr ⟨u, hu, hv⟩)
  | union r members ih =>
    simp only [subst_union]
    congr 1
    apply List.map_congr_left
    intro u hu
    apply ih u hu
    intro v hv
    exact h v (mem_vars_union.mpr ⟨u, hu, hv⟩)

/-- Only a free variable is turned into a free variable. -/
lemma eq_flexible_of_subst {v : TypeRef} {name : Option String}
    (h : t.subst θ = placeholder ⟨v, .flexible, name⟩) :
    ∃ w name', t = placeholder ⟨w, .flexible, name'⟩ ∧
      θ w = placeholder ⟨v, .flexible, name⟩ := by
  cases t with
  | terminal r name => simp at h
  | placeholder p =>
    obtain ⟨r, kind, name'⟩ := p
    cases kind with
    | flexible => exact ⟨r, name', rfl, by simpa using h⟩
    | rigid => simp at h
  | inst f args => simp at h
  | union r members => simp at h

/-- The tree with its free variables renamed, which then have the names of the graph. -/
def renameVars (g : Graph) (ρ : TypeRef → TypeRef) (t : Tree) : Tree :=
  t.subst fun v => .placeholder ⟨ρ v, .flexible, (g.node? (ρ v)).bind Node.name?⟩

end Tree

namespace Graph

variable {g g' : Graph}

/-- If one graph has the valuations of another, then a free variable of the first is read by the
second as a free variable, which the first reads as the variable itself. -/
lemma resolve_free_of_valuations (hg : g.WellFormed) (hg' : g'.WellFormed)
    (hsize : g.nodes.size = g'.nodes.size) (h : ∀ θ, g.IsValuation θ → g'.IsValuation θ)
    {v : TypeRef} (hv : g.isFree v = true) :
    g'.isFree (g'.rep v) = true ∧ g.rep (g'.rep v) = v := by
  obtain ⟨name, hn⟩ := (g.isFree_eq_true_iff v).mp hv
  have hlt : v < g'.nodes.size := hsize ▸ lt_size_of_node? hn
  have hread := (h _ (isValuation_resolve hg)).eq_subst hg' v
  rw [resolve_free hn] at hread
  obtain ⟨w, name', hw, hback⟩ := Tree.eq_flexible_of_subst hread.symm
  obtain ⟨rfl, hn'⟩ := rep_of_resolve_eq_flexible hg' hlt hw
  have hlt' : g'.rep v < g.nodes.size := hsize ▸ lt_size_of_node? hn'
  exact ⟨(g'.isFree_eq_true_iff _).mpr ⟨name', hn'⟩,
    (rep_of_resolve_eq_flexible hg hlt' hback).1⟩

/-- Two graphs with the same valuations read every type alike, up to a renaming of the free
variables of the one to those of the other. -/
theorem exists_renameVars (hg : g.WellFormed) (hg' : g'.WellFormed)
    (hsize : g.nodes.size = g'.nodes.size) (h : ∀ θ, g.IsValuation θ ↔ g'.IsValuation θ) :
    ∃ ρ : TypeRef → TypeRef, Set.BijOn ρ {v | g.isFree v = true} {v | g'.isFree v = true} ∧
      ∀ r < g.nodes.size, g'.resolve r = (g.resolve r).renameVars g' ρ := by
  have hto := fun v hv => resolve_free_of_valuations (v := v) hg hg' hsize (fun θ => (h θ).mp) hv
  have hfrom := fun v hv =>
    resolve_free_of_valuations (v := v) hg' hg hsize.symm (fun θ => (h θ).mpr) hv
  refine ⟨g'.rep, ⟨fun v hv => (hto v hv).1, ?_, ?_⟩, ?_⟩
  · intro v hv v' hv' heq
    rw [← (hto v hv).2, ← (hto v' hv').2, heq]
  · intro w hw
    exact ⟨g.rep w, (hfrom w hw).1, (hfrom w hw).2⟩
  · intro r hr
    rw [((h _).mpr (isValuation_resolve hg')).eq_subst hg r]
    apply Tree.subst_congr
    intro v hv
    obtain ⟨name, hn⟩ := (g'.isFree_eq_true_iff _).mp (hto v (isFree_of_mem_vars hg hr hv)).1
    rw [← resolve_rep hg' v, resolve_free hn, hn]
    rfl

end Graph

/-! ### Types without overload sets need no new nodes -/

/-- A successful unification of types without overload sets adds no node. -/
def Unifier.AddsNothing (unify : Unifier) : Prop :=
  ∀ ⦃a b s r s'⦄, s.graph.WellFormed → a < s.graph.nodes.size → b < s.graph.nodes.size →
    (s.graph.resolve a).Plain → (s.graph.resolve b).Plain → unify a b s = .done r s' →
    s'.graph.nodes.size = s.graph.nodes.size

lemma unifyAll_size {unify : Unifier} {xs ys : List TypeRef} {s s' : Store} (hu : unify.Lawful)
    (hk : unify.KeepsUnions fun _ => False) (hsize : unify.AddsNothing) (hs : s.graph.WellFormed)
    (hxs : s.AllHave (fun _ => False) xs) (hys : s.AllHave (fun _ => False) ys)
    (h : unifyAll unify xs ys s = .done () s') :
    s'.graph.nodes.size = s.graph.nodes.size := by
  induction xs generalizing ys s with
  | nil =>
    simp only [unifyAll, done.injEq, true_and] at h
    rw [h]
  | cons x xs ih =>
    cases ys with
    | nil =>
      simp only [unifyAll, done.injEq, true_and] at h
      rw [h]
    | cons y ys =>
      obtain ⟨r, s₁, hxy, hrest⟩ := unifyAll_cons_eq_done.mp h
      obtain ⟨-, hs₁, hxs₁, hys₁⟩ := hk.tail hu hs hxs hys hxy
      obtain ⟨hx, hxP⟩ := hxs x (by simp)
      obtain ⟨hy, hyP⟩ := hys y (by simp)
      rw [ih hs₁ hxs₁ hys₁ hrest, hsize hs hx hy hxP hyP hxy]

theorem addsNothing_unifier (depth : Nat) : (unifier depth).AddsNothing := by
  induction depth with
  | zero => exact fun _ _ _ _ _ _ _ _ _ _ h => by cases h
  | succ depth ih =>
    intro a b s r s' hs ha hb haP hbP h
    rw [← Graph.resolve_rep hs] at haP hbP
    have hsteps := step_stepsTo (unifier depth) hs ha hb
    rw [show step (unifier depth) a b s = .done r s' from h] at hsteps
    generalize ho : (Outcome.done r s' : Outcome Store TypeRef) = o at hsteps
    cases hsteps with
    | same =>
      cases ho
      rfl
    | bindLeft | bindRight =>
      cases ho
      simp [Store.bind]
    | occursLeft | occursRight | clash => cases ho
    | chooseLeft _ hn => exact absurd haP (not_plain_of_union hs hn)
    | chooseRight _ hn => exact absurd hbP (not_plain_of_union hs hn)
    | descend _ hx hy =>
      obtain ⟨_, hrun, -⟩ := map_eq_done_iff.mp ho.symm
      exact unifyAll_size (lawful_unifier depth) (keepsUnions_unifier (by simp) depth) ih hs
        (Store.allHave_args hs hx haP) (Store.allHave_args hs hy hbP) hrun

namespace Engine

variable {e e₁ e' : Engine} {ps ps' : List (TypeRef × TypeRef)} {p : TypeRef × TypeRef}
  {θ : TypeRef → Tree}

/-- The pairs can be unified one after another, all with success, and this leads to the second
engine. -/
inductive UnifiesAll : Engine → List (TypeRef × TypeRef) → Engine → Prop where
  | nil (e : Engine) : UnifiesAll e [] e
  | cons {e e₁ e' : Engine} {p : TypeRef × TypeRef} {ps : List (TypeRef × TypeRef)} {depth : Nat}
      {r : TypeRef} : e.unify depth p.1 p.2 = .done r e₁ → UnifiesAll e₁ ps e' →
      UnifiesAll e (p :: ps) e'

/-- The pairs are of types of the engine without overload sets. -/
def PlainPairs (e : Engine) (ps : List (TypeRef × TypeRef)) : Prop :=
  ∀ p ∈ ps, e.store.AllHave (fun _ => False) [p.1, p.2]

/-- Both types of each pair are read alike. -/
def ReadsAlike (θ : TypeRef → Tree) (ps : List (TypeRef × TypeRef)) : Prop :=
  ∀ p ∈ ps, θ p.1 = θ p.2

/-- A unification of a pair without overload sets succeeds if some valuation reads the pair
alike. -/
lemma exists_unify_of_valuation (he : e.WellFormed) (hp : e.PlainPairs (p :: ps))
    (hθ : e.graph.IsValuation θ) (heq : θ p.1 = θ p.2) :
    ∃ depth r e₁, e.unify depth p.1 p.2 = .done r e₁ := by
  obtain ⟨ha, haP⟩ := hp p (by simp) p.1 (by simp)
  obtain ⟨hb, hbP⟩ := hp p (by simp) p.2 (by simp)
  obtain ⟨depth, hend⟩ := returns_iff.mpr (returns_of_everyUnion he.graph ha hb
    (haP.mono fun _ => False.elim) (hbP.mono fun _ => False.elim))
  cases hrun : e.unify depth p.1 p.2 with
  | cut => simp [hrun, finished] at hend
  | done r e₁ => exact ⟨depth, r, e₁, hrun⟩
  | failed err e₁ =>
    obtain ⟨s, hfail⟩ := unify_eq_failed hrun
    have hrefuted := (solves_unifier depth).failed he.graph ha hb haP hbP hfail
    exact absurd heq (hrefuted.unsolvable θ hθ)

/-- After the first pair was unified, the other pairs are without overload sets still, the graph has
as many nodes, and the valuations left are those that read the pair alike. -/
lemma unify_pair_lawful (he : e.WellFormed) (hp : e.PlainPairs (p :: ps)) {depth : Nat}
    {r : TypeRef} (h : e.unify depth p.1 p.2 = .done r e₁) :
    e₁.WellFormed ∧ e₁.PlainPairs ps ∧ e₁.graph.nodes.size = e.graph.nodes.size ∧
      ∀ θ, e₁.graph.IsValuation θ ↔ e.graph.IsValuation θ ∧ θ p.1 = θ p.2 := by
  obtain ⟨ha, haP⟩ := hp p (by simp) p.1 (by simp)
  obtain ⟨hb, hbP⟩ := hp p (by simp) p.2 (by simp)
  have hwf := he.unify ha hb (Or.inl ⟨r, h⟩)
  obtain ⟨s, hrun, hgraph⟩ := unify_eq_done h
  have hsize := addsNothing_unifier depth he.graph ha hb haP hbP hrun
  have hkeep := keepsUnions_unifier (Q := fun _ => False) (by simp) depth he.graph ha hb haP hbP
    hrun
  refine ⟨hwf, fun p' hp' x hx => ?_, by rwa [hgraph], fun θ => ?_⟩
  · obtain ⟨hlt, hplain⟩ := hp p' (by simp [hp']) x hx
    change x < e₁.graph.nodes.size ∧ (e₁.graph.resolve x).EveryUnion _
    rw [hgraph]
    exact ⟨hsize ▸ hlt, hkeep x hlt hplain⟩
  · rw [hgraph]
    exact ((solves_unifier depth).done he.graph ha hb haP hbP hrun).valuation θ

/-- Pairs that were unified with success leave the valuations that read each of them alike. -/
lemma UnifiesAll.lawful (h : e.UnifiesAll ps e') (he : e.WellFormed) (hps : e.PlainPairs ps) :
    e'.WellFormed ∧ e'.graph.nodes.size = e.graph.nodes.size ∧
      ∀ θ, e'.graph.IsValuation θ ↔ e.graph.IsValuation θ ∧ ReadsAlike θ ps := by
  induction h with
  | nil e => exact ⟨he, rfl, by simp [ReadsAlike]⟩
  | cons hrun _ ih =>
    obtain ⟨hwf, hps₁, hsize, hval⟩ := unify_pair_lawful he hps hrun
    obtain ⟨hwf', hsize', hval'⟩ := ih hwf hps₁
    refine ⟨hwf', hsize'.trans hsize, fun θ => ?_⟩
    rw [hval', hval]
    simp [ReadsAlike, and_assoc]

/-- Pairs that some valuation reads alike can all be unified. -/
lemma exists_unifiesAll (he : e.WellFormed) (hps : e.PlainPairs ps) (hθ : e.graph.IsValuation θ)
    (halike : ReadsAlike θ ps) : ∃ e', e.UnifiesAll ps e' := by
  induction ps generalizing e with
  | nil => exact ⟨e, .nil e⟩
  | cons p ps ih =>
    have heq := halike p (by simp)
    obtain ⟨depth, r, e₁, hrun⟩ := exists_unify_of_valuation he hps hθ heq
    obtain ⟨hwf, hps₁, -, hval⟩ := unify_pair_lawful he hps hrun
    obtain ⟨e', hrest⟩ := ih hwf hps₁ ((hval θ).mpr ⟨hθ, heq⟩) fun p' hp' =>
      halike p' (by simp [hp'])
    exact ⟨e', .cons hrun hrest⟩

/-- Unifying pairs without overload sets succeeds exactly if some valuation reads all of them
alike. -/
theorem exists_unifiesAll_iff (he : e.WellFormed) (hps : e.PlainPairs ps) :
    (∃ e', e.UnifiesAll ps e') ↔ ∃ θ, e.graph.IsValuation θ ∧ ReadsAlike θ ps := by
  constructor
  · rintro ⟨e', h⟩
    obtain ⟨hwf, -, hval⟩ := h.lawful he hps
    exact ⟨_, (hval _).mp (Graph.isValuation_resolve hwf.graph)⟩
  · rintro ⟨θ, hθ, halike⟩
    exact exists_unifiesAll he hps hθ halike

/-! ### Rearranged pairs -/

/-- The second list has the pairs of the first in any order, each of them as it is or with its sides
swapped. -/
def Rearranges (ps ps' : List (TypeRef × TypeRef)) : Prop :=
  ∃ l, ps.Perm l ∧ List.Forall₂ (fun p p' => p' = p ∨ p' = p.swap) l ps'

/-- What does not depend on the sides of a pair and holds of one list of pairs holds of the
other. -/
lemma Rearranges.forall_iff (h : Rearranges ps ps') {P : TypeRef × TypeRef → Prop}
    (hswap : ∀ p, P p.swap ↔ P p) : (∀ p ∈ ps, P p) ↔ ∀ p ∈ ps', P p := by
  obtain ⟨l, hperm, hforall⟩ := h
  have hl : (∀ p ∈ ps, P p) ↔ ∀ p ∈ l, P p := by simp [hperm.mem_iff]
  rw [hl]
  clear hl hperm
  induction hforall with
  | nil => simp
  | cons hpp' _ ih =>
    rcases hpp' with rfl | rfl
    · simp only [List.forall_mem_cons, ih]
    · simp only [List.forall_mem_cons, hswap, ih]

/-- Pairs of types without overload sets can all be unified in one order exactly if they can be in
any other, with the sides of any pairs swapped. The engines to which this leads read every type
alike, up to one renaming of the free variables. -/
theorem unifiesAll_rearranged (he : e.Reachable) (hps : ∀ p ∈ ps, e.Has p.1 ∧ e.Has p.2)
    (hplain : ∀ p ∈ ps, ∀ u, e.graph.Reaches p.1 u ∨ e.graph.Reaches p.2 u →
      ∀ ms, e.graph.node? u ≠ some (.union ms))
    (h : Rearranges ps ps') :
    ((∃ e₁, e.UnifiesAll ps e₁) ↔ ∃ e₂, e.UnifiesAll ps' e₂) ∧
      ∀ e₁ e₂, e.UnifiesAll ps e₁ → e.UnifiesAll ps' e₂ →
        ∃ ρ : TypeRef → TypeRef,
          Set.BijOn ρ {v | e₁.graph.isFree v = true} {v | e₂.graph.isFree v = true} ∧
          ∀ r, e.Has r → e₂.graph.resolve r = (e₁.graph.resolve r).renameVars e₂.graph ρ := by
  have hwf := he.wellFormed
  have hpairs : e.PlainPairs ps := by
    intro p hp
    have hleft : (e.graph.resolve p.1).Plain := Graph.everyUnion_resolve hwf.graph (hps p hp).1
      fun u ms hu hn => hplain p hp u (Or.inl hu) ms hn
    have hright : (e.graph.resolve p.2).Plain := Graph.everyUnion_resolve hwf.graph (hps p hp).2
      fun u ms hu hn => hplain p hp u (Or.inr hu) ms hn
    simpa [Store.AllHave] using ⟨⟨(hps p hp).1, hleft⟩, (hps p hp).2, hright⟩
  have hpairs' : e.PlainPairs ps' := by
    refine (h.forall_iff fun p => ?_).mp hpairs
    simp [Store.AllHave, and_comm]
  have halike : ∀ θ, ReadsAlike θ ps ↔ ReadsAlike θ ps' := fun θ =>
    h.forall_iff fun _ => eq_comm
  constructor
  · rw [exists_unifiesAll_iff hwf hpairs, exists_unifiesAll_iff hwf hpairs']
    simp only [halike]
  · intro e₁ e₂ h₁ h₂
    obtain ⟨hwf₁, hsize₁, hval₁⟩ := h₁.lawful hwf hpairs
    obtain ⟨hwf₂, hsize₂, hval₂⟩ := h₂.lawful hwf hpairs'
    obtain ⟨ρ, hbij, htrees⟩ := Graph.exists_renameVars hwf₁.graph hwf₂.graph
      (hsize₁.trans hsize₂.symm) fun θ => by rw [hval₁, hval₂, halike]
    exact ⟨ρ, hbij, fun r hr => htrees r (hsize₁ ▸ hr)⟩

/-- Three variables are made equal in two orders. In the first the variable `z` is left, in the
second whichever it is, and a renaming takes the one to the other. -/
theorem unifiesAll_rearranged_chain :
    let e := ((((new {}).addVar (some "x")).2.addVar (some "y")).2.addVar (some "z")).2
    ∃ e₁ e₂ ρ, e.UnifiesAll [(2, 3), (3, 4)] e₁ ∧ e.UnifiesAll [(4, 3), (2, 3)] e₂ ∧
      Set.BijOn ρ {v | e₁.graph.isFree v = true} {v | e₂.graph.isFree v = true} ∧
      e₂.graph.resolve 2 = (e₁.graph.resolve 2).renameVars e₂.graph ρ := by
  intro e
  have he : e.Reachable :=
    .next (.next (.next (.new {}) (.addVar _)) (.addVar _)) (.addVar _)
  have hplain : ∀ u ms, e.graph.node? u ≠ some (.union ms) := by
    intro u ms hn
    have hnone : ∀ n ∈ e.graph.nodes, n.isUnion = false := by decide
    simpa [Node.isUnion] using hnone _ (Array.mem_of_getElem? hn)
  have hperm : Rearranges [(2, 3), (3, 4)] [(4, 3), (2, 3)] :=
    ⟨[(3, 4), (2, 3)], by decide, .cons (Or.inr rfl) (.cons (Or.inl rfl) .nil)⟩
  obtain ⟨hiff, hrename⟩ := unifiesAll_rearranged he (by decide) (fun _ _ u _ => hplain u) hperm
  let e' : Engine := { e with store := { graph := (e.store.bind 2 3).graph } }
  let e₁ : Engine := { e with store := { graph := (e'.store.bind 3 4).graph } }
  have hfirst : e.unify 1 2 3 = .done 3 e' := rfl
  have hsecond : e'.unify 1 3 4 = .done 4 e₁ := rfl
  have h₁ : e.UnifiesAll [(2, 3), (3, 4)] e₁ := .cons hfirst (.cons hsecond (.nil e₁))
  obtain ⟨e₂, h₂⟩ := hiff.mp ⟨e₁, h₁⟩
  obtain ⟨ρ, hbij, htrees⟩ := hrename e₁ e₂ h₁ h₂
  exact ⟨e₁, e₂, ρ, h₁, h₂, hbij, htrees 2 (by decide)⟩

end Engine

end Unification
