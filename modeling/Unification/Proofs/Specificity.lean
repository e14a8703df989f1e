import Unification.Proofs.Integrity
import Unification.Proofs.Locality
import Unification.Proofs.Replacement
import Unification.Proofs.Selection

/-!
# Specificity ranks by instantiation

Putting trees in for the placeholders of a tree adds their concrete nodes and takes none away:
`Tree.specificity_replace`. So renewing a type does not change how specific it is, binding variables
does not make a type less specific, and an instance that has something concrete for a placeholder is
more specific than what it is an instance of. That is why resolving an overload set by specificity
never passes over a member for one that it is such an instance of: `Engine.specificity_ranks`.
-/

namespace Unification

open Relation Outcome

/-! ### Instances of a tree -/

namespace Tree

variable {t u : Tree} {ts : List Tree} {f : Placeholder → Tree}

lemma specificityAll_append (ts us : List Tree) :
    specificityAll (ts ++ us) = specificityAll ts + specificityAll us := by
  induction ts with
  | nil => simp [specificityAll]
  | cons t ts ih => rw [List.cons_append, specificityAll, specificityAll, ih, Nat.add_assoc]

/-- A tree without concrete nodes is a placeholder. -/
lemma specificity_eq_zero_iff : t.specificity = 0 ↔ ∃ p, t = placeholder p := by
  cases t <;> simp [specificity]

lemma specificityAll_eq_zero_iff : specificityAll ts = 0 ↔ ∀ t ∈ ts, ∃ p, t = placeholder p := by
  induction ts with
  | nil => simp [specificityAll]
  | cons t ts ih =>
    rw [specificityAll, Nat.add_eq_zero_iff, specificity_eq_zero_iff, ih, List.forall_mem_cons]

/-- An instance of a tree has the concrete nodes of the tree and, for each place of a placeholder,
those of what is put in there. -/
theorem specificity_replace (f : Placeholder → Tree) (t : Tree) :
    (t.replace f).specificity = t.specificity + specificityAll (t.outerPlaceholders.map f) := by
  induction t with
  | terminal r name => simp [specificityAll]
  | placeholder p => simp [specificity, specificityAll]
  | inst r args ih =>
    have hargs : specificityAll (args.map (replace f)) =
        specificityAll args + specificityAll ((args.flatMap outerPlaceholders).map f) := by
      induction args with
      | nil => rfl
      | cons u us ihs =>
        have hrest := ihs fun v hv => ih v (by simp [hv])
        rw [List.map_cons, specificityAll, specificityAll, ih u (by simp), hrest, List.flatMap_cons,
          List.map_append, specificityAll_append]
        omega
    rw [replace_inst, outerPlaceholders_inst, specificity, specificity, hargs, Nat.add_assoc]
  | union r members => simp [specificityAll]

/-- Only something concrete in the place of a placeholder makes an instance more specific. -/
lemma specificity_lt_replace_iff : t.specificity < (t.replace f).specificity ↔
    ∃ p ∈ t.outerPlaceholders, ∀ q, f p ≠ placeholder q := by
  rw [specificity_replace, Nat.lt_add_right_iff_pos, Nat.pos_iff_ne_zero, Ne,
    specificityAll_eq_zero_iff]
  simp

lemma specificity_le_replace : t.specificity ≤ (t.replace f).specificity := by
  rw [specificity_replace]
  exact Nat.le_add_right _ _

lemma specificity_relabel (f : Placeholder → Placeholder) (t : Tree) :
    (t.relabel f).specificity = t.specificity := by
  rw [relabel, specificity_replace, specificityAll_eq_zero_iff.mpr (by simp), Nat.add_zero]

/-- For counting concrete nodes, a substitution puts trees in for the variables outside overload
sets. -/
lemma specificity_subst (θ : TypeRef → Tree) (t : Tree) :
    (t.subst θ).specificity = (t.replace fun p => (placeholder p).subst θ).specificity := by
  induction t with
  | terminal r name => simp
  | placeholder p => simp
  | inst r args ih =>
    rw [subst_inst, replace_inst, specificity, specificity, specificityAll_map_congr ih]
  | union r members => simp [specificity]

/-- The tree is an instance of the other one, the same placeholder always replaced by the same tree,
and has something concrete for one of the placeholders. -/
def MoreConcrete (u t : Tree) : Prop :=
  ∃ f, u = t.replace f ∧ ∃ p ∈ t.outerPlaceholders, ∀ q, f p ≠ placeholder q

lemma MoreConcrete.specificity_lt (h : u.MoreConcrete t) : t.specificity < u.specificity := by
  obtain ⟨f, rfl, hconcrete⟩ := h
  exact specificity_lt_replace_iff.mpr hconcrete

end Tree

/-! ### The member that is chosen -/

section Trials

variable {unify : Unifier} {a b m target target' w : TypeRef} {ms fitted viable : List TypeRef}
  {s s₀ s₁ s₂ : Store} {depth i : Nat}

/-- The first step on `a` and `b` comes to try the member `m` against `target`, and it fits. -/
def Finds (depth : Nat) (a b : TypeRef) (s : Store) (m target : TypeRef) : Prop :=
  ∃ s₀ s₁, Tries depth a b s m target s₀ ∧ fits (unifier depth) target m s₀ = .done true s₁

/-- A member that fits when its turn comes is one of those that fit in the end. -/
lemma mem_of_fitting (hrun : fitting unify target ms s = .done viable s₁) (hm : ms[i]? = some m)
    (hbefore : fitting unify target (ms.take i) s = .done fitted s₀)
    (hfit : fits unify target m s₀ = .done true s₂) : m ∈ viable := by
  induction ms generalizing i s viable fitted with
  | nil => simp at hm
  | cons m' ms ih =>
    rw [fitting] at hrun
    cases hfit' : fits unify target m' s with
    | failed err s' => simp [hfit'] at hrun
    | cut => simp [hfit'] at hrun
    | done fit s' =>
      rw [hfit', done_andThen, map_eq_done_iff] at hrun
      obtain ⟨rest, hrest, rfl⟩ := hrun
      cases i with
      | zero =>
        obtain rfl : m' = m := by simpa using hm
        cases hbefore
        obtain rfl : true = fit := by
          rw [hfit, Outcome.done.injEq] at hfit'
          exact hfit'.1
        exact List.mem_cons_self
      | succ i =>
        rw [List.take_succ_cons, fitting, hfit', done_andThen, map_eq_done_iff] at hbefore
        obtain ⟨fitted', hbefore', -⟩ := hbefore
        have hmem := ih hrest (by simpa using hm) hbefore'
        split_ifs
        · exact List.mem_cons_of_mem _ hmem
        · exact hmem

/-- No member that fits is more specific than the one that is chosen. -/
lemma Settles.specificity_le (hset : Settles depth a b s w target s₁)
    (hfind : Finds depth a b s m target') (hs : s.graph.WellFormed) (ha : a < s.graph.nodes.size)
    (hb : b < s.graph.nodes.size) : s.graph.specificity m ≤ s.graph.specificity w := by
  obtain ⟨u, ms, viable, hrule, hrun, hw⟩ := hset
  obtain ⟨s₀, s₂, ⟨u', ms', i, fitted, hrule', hm, hbefore⟩, hfit⟩ := hfind
  rw [hrule, Rule.choose.injEq] at hrule'
  obtain ⟨rfl, rfl, rfl⟩ := hrule'
  have hviable : m ∈ viable := mem_of_fitting hrun hm hbefore hfit
  obtain ⟨hms, ht⟩ := choose_lt_size hs ha hb hrule
  obtain ⟨hsub, hq, hs₁⟩ := fitting_quiet (lawful_unifier depth) hs hms ht hrun
  -- the trials leave no binding behind, so the members read as before them
  have hread : ∀ r ∈ viable, s₁.graph.specificity r = s.graph.specificity r := fun r hr => by
    rw [Graph.specificity, hq.graph.resolve_eq hs hs₁ (hms r (hsub hr)), Graph.specificity]
  have hbest : w ∈ s₁.graph.mostSpecific viable := by simp [hw]
  rw [Graph.mostSpecific_eq_filter, List.mem_filter, decide_eq_true_iff] at hbest
  obtain ⟨hwv, hmax⟩ := hbest
  rw [← hread m hviable, ← hread w hwv]
  exact hmax m hviable

end Trials

namespace Engine

variable {e e' : Engine} {r : TypeRef}

/-! ### Types of an engine -/

lemma specificity_renew (he : e.WellFormed) (how : Renewal) (hr : e.Has r) :
    (e.renew how r).2.specificity (e.renew how r).1 = e.specificity r := by
  obtain ⟨ρ, hrenews⟩ := Graph.exists_renewsTo how he.graph hr
  show ((e.renew how r).2.graph.resolve (e.renew how r).1).specificity = _
  rw [show (e.renew how r).2.graph.resolve (e.renew how r).1 = _ from hrenews.tree,
    Tree.specificity_relabel]
  rfl

/-- Binding variables makes no type less specific. -/
lemma specificity_le_of_extends (h : e.graph.Extends e'.graph) (he : e.WellFormed)
    (he' : e'.WellFormed) (r : TypeRef) : e.specificity r ≤ e'.specificity r := by
  show (e.graph.resolve r).specificity ≤ (e'.graph.resolve r).specificity
  rw [h.resolve_eq he.graph he'.graph r, Tree.specificity_subst]
  exact Tree.specificity_le_replace

/-- No run of operations makes a type less specific. -/
lemma Runs.specificity_le {ops : List Operation} (h : Runs e ops e') (he : e.Reachable)
    (r : TypeRef) : e.specificity r ≤ e'.specificity r := by
  induction h with
  | nil => exact le_rfl
  | cons depth hop hperform _ ih =>
    have hnext := he.perform depth _ hop hperform
    have hext := extends_perform he.wellFormed hop hperform
    exact (specificity_le_of_extends hext he.wellFormed hnext.wellFormed r).trans (ih hnext)

/-- How specificity ranks the types of an engine. -/
structure Ranks (e : Engine) : Prop where
  /-- A renewed type is as specific as the type itself, which stays as specific as it was. -/
  renewed   : ∀ how r, e.Has r →
    (e.renew how r).2.specificity (e.renew how r).1 = e.specificity r ∧
      (e.renew how r).2.specificity r = e.specificity r
  /-- No run of operations makes a type less specific. -/
  grows     : ∀ ops e', Runs e ops e' → ∀ r, e.Has r → e.specificity r ≤ e'.specificity r
  /-- An instance of a type is at least as specific, and more specific exactly if it has something
  else than a placeholder for one of the placeholders. -/
  instances : ∀ r r' f, e.graph.resolve r' = (e.graph.resolve r).replace f →
    e.specificity r ≤ e.specificity r' ∧
      (e.specificity r < e.specificity r' ↔
        ∃ p ∈ (e.graph.resolve r).outerPlaceholders, ∀ q, f p ≠ .placeholder q)
  /-- Wherever a query resolves an overload set, a member is not chosen if a more concrete instance
  of it is a member that fits. -/
  passed    : ∀ q : Query, (∀ r ∈ q.types, e.Has r) → ∀ depth d a b s,
    ReflTransGen Question.Raises (e.question q depth) ⟨d + 1, a, b, s⟩ →
      ∀ m w target, Finds d a b s m target →
        (s.graph.resolve m).MoreConcrete (s.graph.resolve w) → ∀ s₁, ¬ Settles d a b s w target s₁

/-- In a reachable engine specificity ranks types by instantiation, so a member of an overload set
is never chosen while a more concrete instance of it fits as well. -/
theorem specificity_ranks (he : e.Reachable) : e.Ranks where
  renewed how r hr := by
    have hwf := he.wellFormed
    have hkeeps : e.graph.Keeps (e.renew how r).2.graph :=
      (Graph.appends_renew how hwf.graph hr).keeps
    refine ⟨specificity_renew hwf how hr, ?_⟩
    show ((e.renew how r).2.graph.resolve r).specificity = _
    rw [hkeeps.resolve_eq hwf.graph (hwf.renew how hr).graph hr]
    rfl
  grows ops e' hrun r _ := hrun.specificity_le he r
  instances r r' f hinstance := by
    rw [specificity, specificity, Graph.specificity, Graph.specificity, hinstance]
    exact ⟨Tree.specificity_le_replace, Tree.specificity_lt_replace_iff⟩
  passed q hq depth d a b s hraised m w target hfind hconcrete s₁ hset := by
    obtain ⟨-, hwf, hleft, hright, -⟩ := sides_lawful he.wellFormed hq
    have hstart : (e.question q depth).Proper := ⟨hwf.graph, hleft, hright⟩
    obtain ⟨hs, ha, hb⟩ := hstart.asks hraised
    exact Nat.not_lt.mpr (hset.specificity_le hfind hs ha hb) hconcrete.specificity_lt

/-- The engine with a constraint `c`, the terminal `Int`, the types `c -> c` and `Int -> Int`, the
overload set of the two, and the type `Int -> Int` once more. -/
def graded : Engine :=
  let e := (((new {}).addConstraint none).2.addTerminal "Int").2
  let e := ((e.addFunction [2] 2).2.addFunction [3] 3).2
  ((e.addUnion [4, 5]).2.addFunction [3] 3).2

lemma reachable_graded : graded.Reachable := by
  refine .next (.next (.next (.next (.next (.next (.new {}) (.addConstraint _)) (.addTerminal _))
    (.addFunction ?_ ?_)) (.addFunction ?_ ?_)) (.addUnion ?_)) (.addFunction ?_ ?_)
  all_goals decide

/-- Both members fit `Int -> Int`. The type `Int -> Int` is a more concrete instance of `c -> c`, so
it is more specific and `c -> c` is not chosen. -/
theorem specificity_ranks_graded :
    Finds 2 6 7 graded.store 4 7 ∧ Finds 2 6 7 graded.store 5 7 ∧
      graded.specificity 4 < graded.specificity 5 ∧
      ∀ s₁, ¬ Settles 2 6 7 graded.store 4 7 s₁ := by
  have hranks := specificity_ranks reachable_graded
  let s₀ := (fits (unifier 2) 7 4 graded.store).state?.getD graded.store
  let s₁ := (fits (unifier 2) 7 5 s₀).state?.getD s₀
  have hrule : graded.store.graph.rule (graded.store.graph.rep 6) (graded.store.graph.rep 7) =
      .choose 6 [4, 5] 7 := by decide +kernel
  have hgeneric : fits (unifier 2) 7 4 graded.store = .done true s₀ := by decide +kernel
  have hbefore : fitting (unifier 2) 7 [4] graded.store = .done [4] s₀ := by decide +kernel
  have hconcrete : fits (unifier 2) 7 5 s₀ = .done true s₁ := by decide +kernel
  have hfinds : Finds 2 6 7 graded.store 5 7 :=
    ⟨s₀, s₁, ⟨6, [4, 5], 1, [4], hrule, rfl, hbefore⟩, hconcrete⟩
  have hinstance : graded.graph.resolve 5 =
      (graded.graph.resolve 4).replace fun _ => .terminal 3 "Int" := rfl
  have hplace : ∃ p ∈ (graded.graph.resolve 4).outerPlaceholders,
      ∀ q, Tree.terminal 3 "Int" ≠ .placeholder q := ⟨⟨2, .rigid, none⟩, .head _, by simp⟩
  refine ⟨⟨graded.store, s₀, ⟨6, [4, 5], 0, [], hrule, rfl, rfl⟩, hgeneric⟩, hfinds,
    (hranks.instances 4 5 _ hinstance).2.mpr hplace, ?_⟩
  exact hranks.passed (.unify 6 7) (by decide) 3 2 6 7 graded.store .refl 5 4 7 hfinds
    ⟨_, hinstance, hplace⟩

end Engine

end Unification
