import Unification.Proofs.Selection

/-!
# Ranking the members that fit

The most specific of some types are defined by a maximum. They can as well be found by ranking: the
types are sorted stably, the more specific ones first, and the first is compared with the second.
Both ways give the same types in the same order, `Graph.mostSpecific_eq_leaders`, so an overload set
is resolved by ranking the members that fit: `choose_eq_chooseRanked`.
-/

namespace Unification

open Outcome

namespace Graph

variable {g : Graph}

/-- The first type is at least as specific as the second. -/
def atLeast (g : Graph) (x y : TypeRef) : Bool :=
  g.specificity y ≤ g.specificity x

lemma atLeast_iff {x y : TypeRef} : g.atLeast x y = true ↔ g.specificity y ≤ g.specificity x := by
  rw [atLeast, decide_eq_true_iff]

lemma atLeast_trans (x y z : TypeRef) (hxy : g.atLeast x y = true) (hyz : g.atLeast y z = true) :
    g.atLeast x z = true :=
  atLeast_iff.mpr ((atLeast_iff.mp hyz).trans (atLeast_iff.mp hxy))

lemma atLeast_total (x y : TypeRef) : (g.atLeast x y || g.atLeast y x) = true := by
  rw [Bool.or_eq_true, atLeast_iff, atLeast_iff]
  exact le_total _ _

/-- The types of a list with the more specific ones first. Types that are equally specific stay in
the order in which they were given. -/
def ranked (g : Graph) (rs : List TypeRef) : List TypeRef :=
  rs.mergeSort g.atLeast

lemma pairwise_ranked (g : Graph) (rs : List TypeRef) :
    (g.ranked rs).Pairwise fun x y => g.specificity y ≤ g.specificity x :=
  (List.pairwise_mergeSort atLeast_trans atLeast_total rs).imp atLeast_iff.mp

/-- Ranking keeps the order of the types of one degree of specificity. -/
lemma filter_ranked (g : Graph) (rs : List TypeRef) (k : Nat) :
    (g.ranked rs).filter (fun r => g.specificity r == k) =
      rs.filter fun r => g.specificity r == k := by
  have hsorted : (rs.filter fun r => g.specificity r == k).Pairwise fun x y =>
      g.atLeast x y = true := by
    apply List.pairwise_of_forall_mem_list
    intro x hx y hy
    rw [List.mem_filter, beq_iff_eq] at hx hy
    rw [atLeast_iff, hx.2, hy.2]
  -- the sort is stable, so it leaves in order what was in order
  have hsub := (List.sublist_mergeSort atLeast_trans atLeast_total hsorted
    List.filter_sublist).filter fun r => g.specificity r == k
  simp only [List.filter_filter, Bool.and_self] at hsub
  have hlength := ((List.mergeSort_perm rs g.atLeast).filter
    fun r => g.specificity r == k).length_eq
  exact (hsub.eq_of_length hlength.symm).symm

/-- The types that lead a ranked list: the first alone if it is more specific than the second, and
otherwise all that are as specific as the first. -/
def leaders (g : Graph) : List TypeRef → List TypeRef
  | []                     => []
  | [only]                 => [only]
  | best :: second :: rest =>
    if g.specificity second < g.specificity best then
      [best]
    else
      (best :: second :: rest).filter fun r => g.specificity r == g.specificity best

/-- Those that lead a ranked list are those that are as specific as its first. -/
lemma leaders_cons {best : TypeRef} {rest : List TypeRef}
    (h : (best :: rest).Pairwise fun x y => g.specificity y ≤ g.specificity x) :
    g.leaders (best :: rest) =
      (best :: rest).filter fun r => g.specificity r == g.specificity best := by
  cases rest with
  | nil => simp [leaders]
  | cons second rest =>
    rw [leaders]
    split_ifs with hlt
    · obtain ⟨-, hrest⟩ := List.pairwise_cons.mp h
      have hless : ∀ r ∈ second :: rest, g.specificity r ≠ g.specificity best := by
        intro r hr
        rcases List.mem_cons.mp hr with rfl | hr
        · exact hlt.ne
        · exact (((List.pairwise_cons.mp hrest).1 r hr).trans_lt hlt).ne
      have hnone : (second :: rest).filter (fun r => g.specificity r == g.specificity best) = [] :=
        List.filter_eq_nil_iff.mpr fun r hr => by simpa using hless r hr
      rw [List.filter_cons, if_pos (by simp), hnone]
    · rfl

/-- The most specific types of a list are those that lead it when it is ranked. -/
theorem mostSpecific_eq_leaders (g : Graph) (rs : List TypeRef) :
    g.mostSpecific rs = g.leaders (g.ranked rs) := by
  have hperm : (g.ranked rs).Perm rs := List.mergeSort_perm rs g.atLeast
  have hsorted := g.pairwise_ranked rs
  have hfilter := g.filter_ranked rs
  generalize g.ranked rs = ranking at hperm hsorted hfilter ⊢
  cases ranking with
  | nil => rw [List.nil_perm.mp hperm, leaders, mostSpecific, List.filter_nil]
  | cons best rest =>
    have hbest : best ∈ rs := hperm.subset List.mem_cons_self
    have htop : ∀ r ∈ rs, g.specificity r ≤ g.specificity best := by
      intro r hr
      rcases List.mem_cons.mp (hperm.symm.subset hr) with rfl | hr
      · exact le_rfl
      · exact (List.pairwise_cons.mp hsorted).1 r hr
    rw [leaders_cons hsorted, hfilter, mostSpecific_eq_filter]
    apply List.filter_congr
    intro r hr
    rw [Bool.eq_iff_iff, beq_iff_eq, decide_eq_true_iff]
    exact ⟨fun h => le_antisymm (htop r hr) (h best hbest), fun h => h ▸ htop⟩

end Graph

/-- Resolves an overload set by ranking the members that fit. It fails if there are none, takes the
first if it is the only one or more specific than the second, and otherwise fails with all that are
as specific as the first. -/
def chooseRanked (unify : Unifier) (union : TypeRef) (members : List TypeRef) (target : TypeRef)
    (s : Store) : Outcome Store TypeRef :=
  (fitting unify target members s).andThen fun viable s =>
    let settle := fun w => unify (s.renew .instantiate w).1 target (s.renew .instantiate w).2
    match s.graph.ranked viable with
    | []                     => .failed (s.graph.noMatch target union) s
    | [only]                 => settle only
    | best :: second :: rest =>
      if s.graph.specificity second < s.graph.specificity best then
        settle best
      else
        .failed (s.graph.ambiguous target union ((best :: second :: rest).filter fun r =>
          s.graph.specificity r == s.graph.specificity best)) s

/-- Resolving an overload set by ranking comes to the same as by taking a maximum. -/
theorem choose_eq_chooseRanked (unify : Unifier) (u : TypeRef) (ms : List TypeRef)
    (target : TypeRef) (s : Store) :
    choose unify u ms target s = chooseRanked unify u ms target s := by
  rw [choose, chooseRanked]
  congr 1
  funext viable s
  have hsorted := s.graph.pairwise_ranked viable
  rw [Graph.mostSpecific_eq_leaders]
  generalize s.graph.ranked viable = ranking at hsorted ⊢
  rcases ranking with _ | ⟨best, _ | ⟨second, rest⟩⟩
  · rfl
  · rfl
  · simp only [Graph.leaders]
    split_ifs with hlt
    · rfl
    · -- the second is as specific as the first, so there are two at least
      have hle := (List.pairwise_cons.mp hsorted).1 second List.mem_cons_self
      have hequal : s.graph.specificity second = s.graph.specificity best :=
        le_antisymm hle (Nat.le_of_not_lt hlt)
      simp [hequal]

end Unification
