import Unification.Proofs.Reachable
import Unification.Proofs.Shallow

/-!
# Most general unifiers

Without overload sets, unification is first-order unification. The proof looks at all valuations of
the graph at once: a successful run leaves exactly those valuations that read the two sides alike,
and a run that fails shows that there are none. That the bindings are a most general unifier is then
a matter of reading valuations as substitutions.
-/

namespace Unification

open Outcome

/-- The substitution makes the two trees equal. -/
def Unifies (θ : TypeRef → Tree) (t u : Tree) : Prop :=
  t.subst θ = u.subst θ

/-- There is no overload set in the tree. -/
def Tree.Plain (t : Tree) : Prop :=
  t.EveryUnion fun _ => False

/-- The substitution unifies the two trees, and every other one that does so factors through it on
the free variables of the graph. -/
structure Graph.IsMostGeneral (g : Graph) (σ : TypeRef → Tree) (t u : Tree) : Prop where
  unifies : Unifies σ t u
  factors : ∀ θ, Unifies θ t u → ∃ δ, ∀ v, g.isFree v = true → θ v = (σ v).subst δ

/-- The error says that two first-order types cannot be made equal. -/
def TypeError.IsMismatch (e : TypeError) : Prop :=
  (∃ left right, e = .incompatible left right) ∨ ∃ var ty, e = .infiniteType var ty

/-! ### Valuations -/

namespace Graph

variable {g : Graph} {a b v ty x y : TypeRef} {θ : TypeRef → Tree}

/-- Binding a variable to a type leaves the valuations that read both alike. -/
lemma isValuation_bind_iff (hv : g.isFree v = true) :
    (g.setBinding v (some ty)).IsValuation θ ↔ g.IsValuation θ ∧ θ v = θ ty := by
  obtain ⟨name, hn, hn'⟩ := node?_bind ty hv
  constructor
  · exact fun hθ => ⟨(extends_bind ty hv).isValuation hθ, hθ hn'⟩
  · rintro ⟨hθ, heq⟩ r n hr
    by_cases hrv : r = v
    · subst hrv
      cases hr.symm.trans hn'
      exact heq
    · rw [node?_setBinding_of_ne g (some ty) hrv] at hr
      exact hθ hr

/-- What a type points to is read as no larger than the type, and as smaller unless the type is a
bound variable. -/
lemma IsValuation.size_le_of_edge (hθ : g.IsValuation θ) (h : g.Edge x y) :
    (θ y).size ≤ (θ x).size ∧ (g.binding? x = none → (θ y).size < (θ x).size) := by
  obtain ⟨n, hn, hy⟩ := edge_iff.mp h
  match n, hn, hy with
  | .var name (some b), hn, hy =>
    rw [Node.children, Option.toList_some, List.mem_singleton] at hy
    rw [hθ hn, hy]
    exact ⟨le_rfl, by simp [binding?, hn, Node.binding?]⟩
  | .inst t args, hn, hy =>
    rw [hθ hn, Node.read]
    have hlt : (θ y).size < (Tree.inst t (args.map θ)).size :=
      Tree.size_lt_inst (List.mem_map_of_mem hy)
    exact ⟨hlt.le, fun _ => hlt⟩
  | .union members, hn, hy =>
    rw [hθ hn, Node.read]
    have hlt : (θ y).size < (Tree.union x (members.map θ)).size :=
      Tree.size_lt_union (List.mem_map_of_mem hy)
    exact ⟨hlt.le, fun _ => hlt⟩

/-- A type is not read as something that is strictly inside it. -/
lemma IsValuation.ne_of_reaches (hθ : g.IsValuation θ) (hb : g.binding? b = none) (hne : a ≠ b)
    (h : g.Reaches b a) : θ a ≠ θ b := by
  have hle : ∀ z, g.Reaches z a → (θ a).size ≤ (θ z).size := by
    intro z hz
    induction hz using Relation.ReflTransGen.head_induction_on with
    | refl => exact le_rfl
    | head hxy _ ih => exact ih.trans (hθ.size_le_of_edge hxy).1
  rcases h.cases_head with rfl | ⟨c, hbc, hca⟩
  · exact absurd rfl hne
  · intro heq
    have hlt := (hle c hca).trans_lt ((hθ.size_le_of_edge hbc).2 hb)
    exact (heq ▸ hlt).false

/-- Different nodes that are neither variables nor overload sets nor instances of one template are
never read alike. -/
lemma IsValuation.ne_of_clash (hθ : g.IsValuation θ) (hne : a ≠ b) {m n : Node}
    (hm : g.node? a = some m) (hn : g.node? b = some n)
    (hclash : (m.isVar = false ∧ m.isUnion = false) ∧ (n.isVar = false ∧ n.isUnion = false) ∧
      ∀ t xs u ys, m = .inst t xs → n = .inst u ys → t ≠ u) : θ a ≠ θ b := by
  obtain ⟨⟨hmv, hmu⟩, ⟨hnv, hnu⟩, hinst⟩ := hclash
  rw [hθ hm, hθ hn]
  cases m with
  | var | union => simp_all [Node.isVar, Node.isUnion]
  | terminal | constraint => cases n <;> simp_all [Node.read, Node.isVar, Node.isUnion]
  | inst t xs =>
    cases n with
    | var | union => simp_all [Node.isVar, Node.isUnion]
    | terminal | constraint => simp [Node.read]
    | inst u ys =>
      have htu := hinst t xs u ys rfl rfl
      simp [Node.read, htu]

end Graph

/-! ### What a run finds out -/

variable {unify : Unifier} {a b r : TypeRef} {xs ys : List TypeRef} {s s' : Store} {e : TypeError}

/-- The run has made the two types equal and nothing else: the valuations that are left are those
that read them alike. -/
structure Solved (a b r : TypeRef) (s s' : Store) : Prop where
  valuation : ∀ θ, s'.graph.IsValuation θ ↔ s.graph.IsValuation θ ∧ θ a = θ b
  rep       : s'.graph.rep r = r
  result    : ∀ θ, s'.graph.IsValuation θ → θ r = θ a

/-- No valuation reads the two types alike, and the error says so. -/
structure Refuted (a b : TypeRef) (e : TypeError) (s : Store) : Prop where
  unsolvable : ∀ θ, s.graph.IsValuation θ → θ a ≠ θ b
  error      : e.IsMismatch

/-- On types without overload sets the unifier finds out whether they can be made equal, and makes
them equal if so. -/
structure Unifier.Solves (unify : Unifier) : Prop where
  done   : ∀ ⦃a b s r s'⦄, s.graph.WellFormed → a < s.graph.nodes.size → b < s.graph.nodes.size →
    (s.graph.resolve a).Plain → (s.graph.resolve b).Plain → unify a b s = .done r s' →
    Solved a b r s s'
  failed : ∀ ⦃a b s e s'⦄, s.graph.WellFormed → a < s.graph.nodes.size → b < s.graph.nodes.size →
    (s.graph.resolve a).Plain → (s.graph.resolve b).Plain → unify a b s = .failed e s' →
    Refuted a b e s

/-- A valuation may be asked about the representatives instead of the types. -/
lemma Solved.of_rep (hs : s.graph.WellFormed)
    (h : Solved (s.graph.rep a) (s.graph.rep b) r s s') : Solved a b r s s' where
  valuation θ := by
    rw [h.valuation θ]
    refine and_congr_right fun hθ => ?_
    rw [hθ.rep hs, hθ.rep hs]
  rep := h.rep
  result θ hθ := by
    rw [h.result θ hθ, ((h.valuation θ).mp hθ).1.rep hs]

lemma Refuted.of_rep (hs : s.graph.WellFormed)
    (h : Refuted (s.graph.rep a) (s.graph.rep b) e s) : Refuted a b e s where
  unsolvable θ hθ := by
    rw [← hθ.rep hs a, ← hθ.rep hs b]
    exact h.unsolvable θ hθ
  error := h.error

/-- Lists of types are unified in pairs: the valuations that are left read all pairs alike. -/
lemma unifyAll_solves (hu : unify.Lawful) (hk : unify.KeepsUnions fun _ => False)
    (hsolve : unify.Solves) (hs : s.graph.WellFormed) (hlen : xs.length = ys.length)
    (hxs : s.AllHave (fun _ => False) xs) (hys : s.AllHave (fun _ => False) ys) :
    (∀ s', unifyAll unify xs ys s = .done () s' → ∀ θ, s'.graph.IsValuation θ ↔
        s.graph.IsValuation θ ∧ xs.map θ = ys.map θ) ∧
      ∀ e s', unifyAll unify xs ys s = .failed e s' → e.IsMismatch ∧
        ∀ θ, s.graph.IsValuation θ → xs.map θ ≠ ys.map θ := by
  induction xs generalizing ys s with
  | nil =>
    obtain rfl := List.length_eq_zero_iff.mp hlen.symm
    refine ⟨fun s' h θ => ?_, fun e s' h => by simp [unifyAll] at h⟩
    simp only [unifyAll, done.injEq, true_and] at h
    simp [h]
  | cons x xs ih =>
    cases ys with
    | nil => simp at hlen
    | cons y ys =>
      obtain ⟨hx, hxP⟩ := hxs x (by simp)
      obtain ⟨hy, hyP⟩ := hys y (by simp)
      rw [unifyAll]
      cases hxy : unify x y s with
      | cut => simp
      | failed e s₁ =>
        have hfail := hsolve.failed hs hx hy hxP hyP hxy
        refine ⟨by simp, ?_⟩
        rintro _ _ ⟨⟩
        refine ⟨hfail.error, fun θ hθ heq => hfail.unsolvable θ hθ ?_⟩
        simp only [List.map_cons, List.cons.injEq] at heq
        exact heq.1
      | done r s₁ =>
        obtain ⟨-, hs₁, hxs₁, hys₁⟩ := hk.tail hu hs hxs hys hxy
        have hval := (hsolve.done hs hx hy hxP hyP hxy).valuation
        obtain ⟨hdone, hfail⟩ := ih hs₁ (Nat.succ.inj hlen) hxs₁ hys₁
        simp only [done_andThen, List.map_cons, ne_eq, List.cons.injEq]
        refine ⟨fun s' h θ => ?_, fun e s' h => ?_⟩
        · rw [hdone s' h θ, hval θ, and_assoc]
        · obtain ⟨herr, hne⟩ := hfail e s' h
          exact ⟨herr, fun θ hθ heq => hne θ ((hval θ).mpr ⟨hθ, heq.1⟩) heq.2⟩

lemma not_plain_of_union {u : TypeRef} {ms : List TypeRef} (hs : s.graph.WellFormed)
    (hn : s.graph.node? u = some (.union ms)) : ¬ (s.graph.resolve u).Plain := by
  rw [Graph.resolve_union hs hn]
  rintro (_ | _ | _ | ⟨hfalse, _⟩)
  exact hfalse

/-- A free variable is bound to the other side. -/
lemma solved_bind {v ty : TypeRef} (hv : s.graph.isFree v = true) (hne : v ≠ ty)
    (hty : s.graph.binding? ty = none) : Solved v ty ty s (s.bind v ty) where
  valuation _ := Graph.isValuation_bind_iff hv
  rep := by
    apply Graph.rep_of_binding?_eq_none
    rw [Store.bind, Graph.binding?, Graph.node?_setBinding_of_ne _ _ hne.symm]
    exact hty
  result _ hθ := ((Graph.isValuation_bind_iff hv).mp hθ).2.symm

lemma Solved.symm (h : Solved a b r s s') : Solved b a r s s' where
  valuation θ := by
    rw [h.valuation θ]
    exact and_congr_right fun _ => eq_comm
  rep := h.rep
  result θ hθ := (h.result θ hθ).trans ((h.valuation θ).mp hθ).2

lemma Refuted.symm (h : Refuted a b e s) : Refuted b a e s :=
  ⟨fun θ hθ heq => h.unsolvable θ hθ heq.symm, h.error⟩

/-- Two instances of one template are read alike if their arguments are. -/
lemma map_eq_iff_of_inst {t : TemplateRef} {θ : TypeRef → Tree} (hθ : s.graph.IsValuation θ)
    (hx : s.graph.node? a = some (.inst t xs)) (hy : s.graph.node? b = some (.inst t ys)) :
    θ a = θ b ↔ xs.map θ = ys.map θ := by
  rw [hθ hx, hθ hy]
  simp [Node.read]

/-- What a step does with two representatives settles whether they can be made equal, if it settles
this for their arguments. -/
lemma StepsTo.solves (hu : unify.Lawful) (hk : unify.KeepsUnions fun _ => False)
    (hsolve : unify.Solves) {o : Outcome Store TypeRef} (h : StepsTo unify s a b o)
    (hs : s.graph.WellFormed) (ha : a < s.graph.nodes.size) (hb : b < s.graph.nodes.size)
    (haU : s.graph.binding? a = none) (hbU : s.graph.binding? b = none)
    (haP : (s.graph.resolve a).Plain) (hbP : (s.graph.resolve b).Plain) :
    (∀ r s', o = .done r s' → Solved a b r s s') ∧
      ∀ e s', o = .failed e s' → Refuted a b e s := by
  cases h with
  | same hab =>
    refine ⟨?_, by simp⟩
    rintro _ _ ⟨⟩
    exact ⟨fun θ => by simp [hab], Graph.rep_of_binding?_eq_none haU, fun _ _ => rfl⟩
  | bindLeft hfree hocc =>
    refine ⟨?_, by simp⟩
    rintro _ _ ⟨⟩
    exact solved_bind hfree (fun heq => hocc (heq ▸ Relation.ReflTransGen.refl)) hbU
  | bindRight hfree hocc =>
    refine ⟨?_, by simp⟩
    rintro _ _ ⟨⟩
    exact (solved_bind hfree (fun heq => hocc (heq ▸ Relation.ReflTransGen.refl)) haU).symm
  | occursLeft hfree hne hreach =>
    constructor
    · simp
    · rintro _ _ ⟨⟩
      exact ⟨fun θ hθ => hθ.ne_of_reaches hbU hne hreach, Or.inr ⟨_, _, rfl⟩⟩
  | occursRight hfree hne hreach =>
    constructor
    · simp
    · rintro _ _ ⟨⟩
      exact Refuted.symm ⟨fun θ hθ => hθ.ne_of_reaches haU hne.symm hreach, Or.inr ⟨_, _, rfl⟩⟩
  | chooseLeft _ hn => exact absurd haP (not_plain_of_union hs hn)
  | chooseRight _ hn => exact absurd hbP (not_plain_of_union hs hn)
  | descend _ hx hy =>
    obtain ⟨hdone, hfail⟩ := unifyAll_solves hu hk hsolve hs (hs.length_eq hx hy)
      (Store.allHave_args hs hx haP) (Store.allHave_args hs hy hbP)
    refine ⟨fun r s' h => ?_, fun e s' h => ?_⟩
    · obtain ⟨_, hrun, rfl⟩ := map_eq_done_iff.mp h
      refine ⟨fun θ => ?_, ?_, fun _ _ => rfl⟩
      · rw [hdone s' hrun θ]
        exact and_congr_right fun hθ => (map_eq_iff_of_inst hθ hx hy).symm
      · -- an instance is not a variable, so it still represents itself
        obtain ⟨hadv, -⟩ := (unifyAll_lawful hu hs (fun z hz => hs.child_lt hx hz)
          fun z hz => hs.child_lt hy hz).1 s' (Or.inl ⟨_, hrun⟩)
        apply Graph.rep_of_binding?_eq_none
        rw [Graph.binding?, hadv.graph.node? hx rfl]
        rfl
    · obtain ⟨herr, hne⟩ := hfail e s' (map_eq_failed_iff.mp h)
      exact ⟨fun θ hθ heq => hne θ hθ ((map_eq_iff_of_inst hθ hx hy).mp heq), herr⟩
  | clash hne hnodes =>
    constructor
    · simp
    · rintro _ _ ⟨⟩
      obtain ⟨m, hm⟩ := Graph.exists_node? ha
      obtain ⟨n, hn⟩ := Graph.exists_node? hb
      exact ⟨fun θ hθ => hθ.ne_of_clash hne hm hn (hnodes m n hm hn), Or.inl ⟨_, _, rfl⟩⟩

/-- Every run that ends settles whether two types without overload sets can be made equal. -/
theorem solves_unifier (depth : Nat) : (unifier depth).Solves := by
  induction depth with
  | zero => exact ⟨by simp [unifier], by simp [unifier]⟩
  | succ depth ih =>
    have hsteps : ∀ ⦃a b s⦄, s.graph.WellFormed → a < s.graph.nodes.size →
        b < s.graph.nodes.size → (s.graph.resolve a).Plain → (s.graph.resolve b).Plain →
        (∀ r s', step (unifier depth) a b s = .done r s' → Solved a b r s s') ∧
          ∀ e s', step (unifier depth) a b s = .failed e s' → Refuted a b e s := by
      intro a b s hs ha hb haP hbP
      rw [← Graph.resolve_rep hs] at haP hbP
      obtain ⟨hdone, hfail⟩ := (step_stepsTo (unifier depth) hs ha hb).solves (lawful_unifier depth)
        (keepsUnions_unifier (by simp) depth) ih hs (Graph.rep_lt_size hs ha)
        (Graph.rep_lt_size hs hb) (Graph.binding?_rep hs a) (Graph.binding?_rep hs b) haP hbP
      exact ⟨fun r s' h => (hdone r s' h).of_rep hs, fun e s' h => (hfail e s' h).of_rep hs⟩
    exact ⟨fun a b s r s' hs ha hb haP hbP => (hsteps hs ha hb haP hbP).1 r s',
      fun a b s e s' hs ha hb haP hbP => (hsteps hs ha hb haP hbP).2 e s'⟩

/-! ### Unifiers of the resolved trees -/

/-- A unifier of two resolved trees gives a valuation that reads the types alike. -/
lemma Unifies.isValuation {g : Graph} {θ : TypeRef → Tree} (hg : g.WellFormed)
    (h : Unifies θ (g.resolve a) (g.resolve b)) :
    g.IsValuation (fun r => (g.resolve r).subst θ) ∧
      (g.resolve a).subst θ = (g.resolve b).subst θ :=
  ⟨Graph.isValuation_subst hg θ, h⟩

/-- What the types read as after a run that made two of them equal is a most general unifier of what
the two read as before. -/
lemma Solved.isMostGeneral (h : Solved a b r s s') (hs : s.graph.WellFormed)
    (hs' : s'.graph.WellFormed) :
    s.graph.IsMostGeneral s'.graph.resolve (s.graph.resolve a) (s.graph.resolve b) where
  unifies := by
    obtain ⟨hval, heq⟩ := (h.valuation _).mp (Graph.isValuation_resolve hs')
    rw [Unifies, ← hval.eq_subst hs, ← hval.eq_subst hs, heq]
  factors θ hθ := by
    -- the unifier as a valuation, of the graph before and hence of the graph after
    obtain ⟨hval, heq⟩ := hθ.isValuation hs
    have hval' := (h.valuation _).mpr ⟨hval, heq⟩
    refine ⟨_, fun v hv => Eq.trans ?_ (hval'.eq_subst hs' v)⟩
    obtain ⟨name, hn⟩ := (s.graph.isFree_eq_true_iff v).mp hv
    rw [Graph.resolve_free hn, Tree.subst_flexible]

lemma Refuted.not_unifies (h : Refuted a b e s) (hs : s.graph.WellFormed) :
    ¬ ∃ θ, Unifies θ (s.graph.resolve a) (s.graph.resolve b) := by
  rintro ⟨θ, hθ⟩
  obtain ⟨hval, heq⟩ := hθ.isValuation hs
  exact h.unsolvable _ hval heq

namespace Engine

variable {e : Engine} {a b : TypeRef}

/-- The unification of two types without overload sets returns. It succeeds exactly when their
resolved trees have a unifier. Then both types and the result, which represents itself, read alike,
and the bindings are a most general unifier. An error is a clash or an infinite type. -/
theorem unify_mostGeneral (he : e.Reachable) (ha : e.Has a) (hb : e.Has b)
    (hplain : ∀ u, e.graph.Reaches a u ∨ e.graph.Reaches b u →
      ∀ ms, e.graph.node? u ≠ some (.union ms)) :
    e.Returns a b ∧
      ((∃ depth r e', e.unify depth a b = .done r e') ↔
        ∃ θ, Unifies θ (e.graph.resolve a) (e.graph.resolve b)) ∧
      (∀ depth r e', e.unify depth a b = .done r e' →
        e'.graph.resolve a = e'.graph.resolve b ∧ e'.graph.resolve r = e'.graph.resolve a ∧
        e'.rep r = r ∧
        e.graph.IsMostGeneral e'.graph.resolve (e.graph.resolve a) (e.graph.resolve b)) ∧
      ∀ depth err e', e.unify depth a b = .failed err e' → err.IsMismatch := by
  have hs := he.wellFormed.graph
  have haP : (e.graph.resolve a).Plain := Graph.everyUnion_resolve hs ha fun u ms hu hn =>
    hplain u (Or.inl hu) ms hn
  have hbP : (e.graph.resolve b).Plain := Graph.everyUnion_resolve hs hb fun u ms hu hn =>
    hplain u (Or.inr hu) ms hn
  have hreturns : e.Returns a b := returns_iff.mpr
    (returns_of_everyUnion hs ha hb (haP.mono fun _ => False.elim) (hbP.mono fun _ => False.elim))
  have hdone : ∀ depth r e', e.unify depth a b = .done r e' →
      ∃ s, e'.graph = s.graph ∧ Solved a b r e.store s ∧ s.graph.WellFormed := by
    intro depth r e' h
    obtain ⟨s, hrun, hgraph⟩ := unify_eq_done h
    exact ⟨s, hgraph, (solves_unifier depth).done hs ha hb haP hbP hrun,
      ((lawful_unifier depth).advances hs ha hb (Or.inl ⟨r, hrun⟩)).2⟩
  have hfailed : ∀ depth err e', e.unify depth a b = .failed err e' → Refuted a b err e.store := by
    intro depth err e' h
    obtain ⟨s, hrun⟩ := unify_eq_failed h
    exact (solves_unifier depth).failed hs ha hb haP hbP hrun
  refine ⟨hreturns, ⟨?_, ?_⟩, ?_, fun depth err e' h => (hfailed depth err e' h).error⟩
  · rintro ⟨depth, r, e', h⟩
    obtain ⟨s, -, hsolved, hs'⟩ := hdone depth r e' h
    exact ⟨_, (hsolved.isMostGeneral hs hs').unifies⟩
  · intro hunifies
    obtain ⟨depth, hend⟩ := hreturns
    cases hrun : e.unify depth a b with
    | cut => simp [hrun, finished] at hend
    | failed err e' => exact absurd hunifies ((hfailed depth err e' hrun).not_unifies hs)
    | done r e' => exact ⟨depth, r, e', hrun⟩
  · intro depth r e' h
    obtain ⟨s, hgraph, hsolved, hs'⟩ := hdone depth r e' h
    have hval := Graph.isValuation_resolve hs'
    rw [rep, hgraph]
    exact ⟨((hsolved.valuation _).mp hval).2, hsolved.result _ hval, hsolved.rep,
      hsolved.isMostGeneral hs hs'⟩

/-- The types `Function<x, Int>` and `Function<Int, y>` have a unifier, so their unification
succeeds and finds a most general one. -/
theorem unify_mostGeneral_function :
    let e := (((new {}).addVar (some "x")).2.addTerminal "Int").2
    let e := (((e.addFunction [2] 3).2.addVar (some "y")).2.addFunction [3] 5).2
    ∃ depth r e', e.unify depth 4 6 = .done r e' ∧
      e'.graph.resolve 4 = e'.graph.resolve 6 ∧ e'.rep r = r ∧
      e.graph.IsMostGeneral e'.graph.resolve (e.graph.resolve 4) (e.graph.resolve 6) := by
  intro e₀ e
  have he : e.Reachable := by
    refine .next (.next (.next (.next (.next (.new {}) (.addVar _)) (.addTerminal _))
      (.addFunction ?_ ?_)) (.addVar _)) (.addFunction ?_ ?_)
    all_goals decide
  have hplain : ∀ u ms, e.graph.node? u ≠ some (.union ms) := by
    intro u ms hn
    have hmem := Array.mem_of_getElem? hn
    have hnone : ∀ n ∈ e.graph.nodes, n.isUnion = false := by decide
    simpa [Node.isUnion] using hnone _ hmem
  obtain ⟨-, hsucceeds, hdone, -⟩ := unify_mostGeneral (a := 4) (b := 6) he (by decide)
    (by decide) fun u _ ms => hplain u ms
  obtain ⟨depth, r, e', hrun⟩ := hsucceeds.mpr ⟨fun _ => .terminal 3 "Int", rfl⟩
  obtain ⟨heq, -, hrep, hmost⟩ := hdone depth r e' hrun
  exact ⟨depth, r, e', hrun, heq, hrep, hmost⟩

end Engine

end Unification
