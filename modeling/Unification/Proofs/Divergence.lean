import Unification.Proofs.Reachable
import Unification.Proofs.Shallow

/-!
# A unification that never returns

Let `U` be the overload set with the one member `F<c, F<c, c>>` for a constraint `c`, and unify it
with `F<U, U>`. The member is instantiated to `F<v, F<v, v>>`; then `v` is bound to `U`, and what is
left to do is to unify `F<v, v>` with `U`, which is the same question again. So the run is cut short
at every depth, and `Engine.unify_returns_iff` says that all unifications that never return are of
this kind: they resolve generic overload sets over and over.
-/

namespace Unification

open Outcome

/-! ### The same question again -/

namespace Tree

/-- The tree `f<t, f<t, t>>`. -/
def twice (f : TemplateRef) (t : Tree) : Tree :=
  .inst f [t, .inst f [t, t]]

/-- The overload set with the member `f<c, f<c, c>>`. -/
def twiceSet (f : TemplateRef) (u c : TypeRef) (name : Option String) : Tree :=
  .union u [twice f (.placeholder ⟨c, .rigid, name⟩)]

variable {f : TemplateRef} {u c : TypeRef} {name : Option String}

lemma vars_twiceSet : (twiceSet f u c name).vars = ∅ := by
  simp [twiceSet, twice, vars, placeholders, placeholdersAll]

end Tree

variable {f : TemplateRef} {u c x y : TypeRef} {name : Option String} {s : Store}

/-- The first type reads as the overload set `U`, and the second as `f<U, U>`. -/
structure Recurs (f : TemplateRef) (u c : TypeRef) (name : Option String) (x y : TypeRef)
    (s : Store) : Prop where
  graph  : s.graph.WellFormed
  left   : x < s.graph.nodes.size
  right  : y < s.graph.nodes.size
  set    : s.graph.resolve x = .twiceSet f u c name
  target : s.graph.resolve y = .inst f [.twiceSet f u c name, .twiceSet f u c name]

lemma exists_pair_of_map_eq {g : TypeRef → Tree} {rs : List TypeRef} {t t' : Tree}
    (h : rs.map g = [t, t']) : ∃ r r', rs = [r, r'] ∧ g r = t ∧ g r' = t' := by
  match rs with
  | [] | [_] | _ :: _ :: _ :: _ => simp at h
  | [r, r'] => simpa using h

/-- A free variable is bound to a type without free variables. -/
lemma unifier_bind {v : TypeRef} {t : Tree} (d : Nat) (hs : s.graph.WellFormed)
    (hx : x < s.graph.nodes.size) (hy : y < s.graph.nodes.size)
    (hvar : s.graph.resolve x = .placeholder ⟨v, .flexible, name⟩) (htree : s.graph.resolve y = t)
    (ht : t.vars = ∅) :
    unifier (d + 1) x y s = .done (s.graph.rep y) (s.bind v (s.graph.rep y)) ∧
      s.graph.isFree v = true ∧ ¬ s.graph.Reaches (s.graph.rep y) v := by
  obtain ⟨rfl, hn⟩ := Graph.rep_of_resolve_eq_flexible hs hx hvar
  have hfree : s.graph.isFree (s.graph.rep x) = true := (s.graph.isFree_eq_true_iff _).mpr ⟨_, hn⟩
  have hocc : ¬ s.graph.Reaches (s.graph.rep y) (s.graph.rep x) := by
    intro hreach
    have := Graph.mem_vars_resolve_of_reaches hs hreach hfree
    simp [Graph.resolve_rep hs, htree, ht] at this
  have hne : s.graph.rep x ≠ s.graph.rep y := fun heq =>
    hocc (heq ▸ Relation.ReflTransGen.refl)
  have hcheck : s.graph.occursIn (s.graph.rep x) (s.graph.rep y) = false := by
    rw [← Bool.not_eq_true, Graph.occursIn_eq_true_iff hs (Graph.binding?_rep hs x)
      (Graph.rep_lt_size hs hy)]
    exact hocc
  refine ⟨?_, hfree, hocc⟩
  simp [unifier, step, Graph.rule, hn, hne, assign, hcheck]

/-- The question is asked with the instance of the member on one side: a variable is bound to the
overload set, and the question is asked again. -/
lemma recurs_of_instance {i p v : TypeRef} {d : Nat}
    (ih : ∀ d' < d, ∀ x y s, Recurs f u c name x y s → unifier d' y x s = .cut)
    (hs : s.graph.WellFormed) (hi : i < s.graph.nodes.size) (hp : p < s.graph.nodes.size)
    (hleft : s.graph.resolve i = .twice f (.placeholder ⟨v, .flexible, name⟩))
    (hright : s.graph.resolve p = .inst f [.twiceSet f u c name, .twiceSet f u c name]) :
    unifier d i p s = .cut := by
  cases d with
  | zero => rfl
  | succ d =>
    obtain ⟨xs, hxs, hxtrees⟩ := Graph.node?_rep_of_resolve_eq_inst hs hi hleft
    obtain ⟨ys, hys, hytrees⟩ := Graph.node?_rep_of_resolve_eq_inst hs hp hright
    obtain ⟨x₁, x₂, rfl, hx₁, hx₂⟩ : ∃ x₁ x₂, xs = [x₁, x₂] ∧
        s.graph.resolve x₁ = .placeholder ⟨v, .flexible, name⟩ ∧
        s.graph.resolve x₂ = .inst f [.placeholder ⟨v, .flexible, name⟩,
          .placeholder ⟨v, .flexible, name⟩] := exists_pair_of_map_eq hxtrees
    obtain ⟨y₁, y₂, rfl, hy₁, hy₂⟩ := exists_pair_of_map_eq hytrees
    have hx₁' := hs.child_lt hxs (x := x₁) (by simp [Node.children])
    have hx₂' := hs.child_lt hxs (x := x₂) (by simp [Node.children])
    have hy₁' := hs.child_lt hys (x := y₁) (by simp [Node.children])
    have hy₂' := hs.child_lt hys (x := y₂) (by simp [Node.children])
    have hne : s.graph.rep i ≠ s.graph.rep p := by
      intro heq
      have htrees : s.graph.resolve i = s.graph.resolve p := by
        rw [← Graph.resolve_rep hs i, heq, Graph.resolve_rep hs p]
      simp [hleft, hright, Tree.twice, Tree.twiceSet] at htrees
    have hfirst : unifier d x₁ y₁ s = .cut ∨
        unifier d x₁ y₁ s = .done (s.graph.rep y₁) (s.bind v (s.graph.rep y₁)) := by
      cases d with
      | zero => exact Or.inl rfl
      | succ d => exact Or.inr (unifier_bind d hs hx₁' hy₁' hx₁ hy₁ Tree.vars_twiceSet).1
    obtain ⟨-, hfree, hocc⟩ := unifier_bind d hs hx₁' hy₁' hx₁ hy₁ Tree.vars_twiceSet
    have hy₁'' := Graph.rep_lt_size hs hy₁'
    have hs' := hs.bind hfree hy₁'' hocc
    have hgrow := Graph.extends_bind (s.graph.rep y₁) hfree
    have hv : (s.bind v (s.graph.rep y₁)).graph.resolve v = .twiceSet f u c name := by
      rcases Graph.resolve_bind_free hs hfree hy₁'' hocc hfree with ⟨-, heq⟩ | ⟨hne, -⟩
      · exact heq.trans (by rw [Graph.resolve_rep hs, hy₁])
      · exact absurd rfl hne
    have hagain : Recurs f u c name y₂ x₂ (s.bind v (s.graph.rep y₁)) := by
      refine ⟨hs', by simpa [Store.bind] using hy₂', by simpa [Store.bind] using hx₂', ?_, ?_⟩
      · refine (hgrow.resolve_eq hs hs' y₂).trans ?_
        rw [hy₂, Tree.subst_of_vars_eq_empty Tree.vars_twiceSet]
      · refine (hgrow.resolve_eq hs hs' x₂).trans ?_
        simp only [hx₂, Tree.subst_inst, List.map_cons, List.map_nil, Tree.subst_flexible]
        rw [← hv]
        rfl
    have hsecond := ih d (Nat.lt_succ_self d) _ _ _ hagain
    simp only [unifier, step, Graph.rule, hxs, hys, hne, if_false, if_true, unifyAll]
    rcases hfirst with hcut | hdone
    · simp [hcut, map]
    · simp [hdone, hsecond, map]

/-- The question leads back to itself, so no depth is enough. -/
theorem Recurs.unifier_eq_cut (h : Recurs f u c name x y s) (d : Nat) :
    unifier d x y s = .cut ∧ unifier d y x s = .cut := by
  induction d using Nat.strong_induction_on generalizing x y s with
  | _ d ih =>
    cases d with
    | zero => exact ⟨rfl, rfl⟩
    | succ d =>
      have hs := h.graph
      obtain ⟨ms, hset, hms⟩ := Graph.node?_rep_of_resolve_eq_union hs h.left h.set
      obtain ⟨args, htarget, -⟩ := Graph.node?_rep_of_resolve_eq_inst hs h.right h.target
      obtain ⟨m, rfl, hm⟩ : ∃ m, ms = [m] ∧
          s.graph.resolve m = .twice f (.placeholder ⟨c, .rigid, name⟩) := by
        simpa [List.map_eq_singleton_iff] using hms
      have hm' := hs.child_lt hset (List.mem_singleton.mpr rfl)
      have hy' := Graph.rep_lt_size hs h.right
      obtain ⟨-, hs₂, hi, hp⟩ := trial_lawful hs hm' hy'
      obtain ⟨⟨ρ, hleft⟩, ρ', hright⟩ := trial_trees hs hm' hy'
      rw [hm] at hleft
      rw [Graph.resolve_rep hs, h.target] at hright
      have hcut := recurs_of_instance (d := d)
        (fun d' hd' x y s h => (ih d' (by omega) h).2) hs₂ hi hp
        (by simpa [Tree.twice, Tree.renew, Renewal.rename, Renewal.replacement] using hleft)
        (by simpa [Tree.twiceSet, Tree.renew] using hright)
      have hchoose : choose (unifier d) (s.graph.rep x) [m] (s.graph.rep y) s = .cut := by
        simp [choose, fitting, fits_eq_verdict, hcut, verdict]
      constructor
      · simp only [unifier, step, Graph.rule, hset, htarget, hchoose]
      · simp only [unifier, step, Graph.rule, hset, htarget, hchoose]

namespace Engine

variable {e : Engine} {a b : TypeRef}

/-- A unification of types of a reachable engine returns if and only if there is a bound on the
number of resolutions of generic overload sets that its runs start. In particular it returns if no
generic overload set stands inside an instance. -/
theorem unify_returns_iff (he : e.Reachable) (ha : e.Has a) (hb : e.Has b) :
    (e.Returns a b ↔ ∃ n, ∀ depth, genericChoices depth a b e.store ≤ n) ∧
      ((e.graph.resolve a).Shallow → (e.graph.resolve b).Shallow → e.Returns a b) := by
  have hs := he.wellFormed.graph
  rw [returns_iff]
  exact ⟨returns_iff_bounded hs ha hb, returns_of_shallow hs ha hb⟩

/-- A generic overload set is resolved against a terminal: the set stands at the top, so the
unification returns, and the number of resolutions is bounded. -/
theorem unify_returns_iff_top :
    let e := ((((new {}).addConstraint none).2.addUnion [2]).2.addTerminal "Int").2
    e.Returns 3 4 ∧ ∃ n, ∀ depth, genericChoices depth 3 4 e.store ≤ n := by
  intro e
  have he : e.Reachable :=
    .next (.next (.next (.new {}) (.addConstraint none)) (.addUnion (by decide)))
      (.addTerminal "Int")
  have hset : e.graph.resolve 3 = .union 3 [.placeholder ⟨2, .rigid, none⟩] := rfl
  have hterminal : e.graph.resolve 4 = .terminal 4 "Int" := rfl
  obtain ⟨hiff, hshallow⟩ := unify_returns_iff (a := 3) (b := 4) he (by decide) (by decide)
  have hreturns : e.Returns 3 4 := by
    apply hshallow
    · rw [hset]
      refine .union fun t ht => ?_
      rw [List.mem_singleton.mp ht]
      exact .plain (.placeholder _)
    · rw [hterminal]
      exact .plain (.terminal _ _)
  exact ⟨hreturns, hiff.mp hreturns⟩

/-- The engine with a constraint `c`, the type `m = Function<c, Function<c, c>>`, the overload set
`U` of `m` alone and the type `Function<U, U>`, in this order. -/
def endless : Engine :=
  let e := ((new {}).addConstraint none).2
  let e := (e.addFunction [2, 2] 2).2
  let e := (e.addUnion [4]).2
  (e.addFunction [5] 5).2

lemma reachable_endless : endless.Reachable := by
  refine .next (.next (.next (.next (.new {}) (.addConstraint none)) (.addFunction ?_ ?_))
    (.addUnion ?_)) (.addFunction ?_ ?_)
  all_goals decide

/-- Unifying the overload set `U` with `Function<U, U>` never returns. -/
theorem not_returns_endless : endless.Reachable ∧ endless.Has 5 ∧ endless.Has 6 ∧
    ¬ endless.Returns 5 6 := by
  have hrecurs : Recurs functionTemplate 5 2 none 5 6 endless.store :=
    ⟨reachable_endless.wellFormed.graph, by decide, by decide, rfl, rfl⟩
  refine ⟨reachable_endless, hrecurs.left, hrecurs.right, ?_⟩
  rintro ⟨depth, h⟩
  exact finished_unify_iff.mp h (hrecurs.unifier_eq_cut depth).1

end Engine

end Unification
