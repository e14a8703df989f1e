import Mathlib.Data.List.TakeWhile
import Unification.Proofs.Reading

/-!
# The search of the occurs check

The occurs check searches the graph with a stack of references that it has still to look at and a
list of the representatives that it has seen. What is seen has its children on the stack or seen in
turn, so when the stack is used up, nothing is left out. Each round sees a node more, so the search
comes to an end: `search_eq_occursIn`. Representatives are never bound variables, so it finds
exactly the types that are not bound and lie on a path: `occursIn_iff`.
-/

namespace Unification.Graph

open Relation

variable {g : Graph} {r v x : TypeRef} {seen stack rest : List TypeRef}

/-- How far a search from `r` has come. What is on the stack lies on a path from `r`; the start, and
whatever a node that was seen points to, was seen in turn or is on the stack. -/
structure Searches (g : Graph) (r : TypeRef) (seen stack : List TypeRef) : Prop where
  paths : ∀ x ∈ stack, g.Reaches r x
  start : g.rep r ∈ seen ∨ r ∈ stack
  edges : ∀ ⦃x y⦄, x ∈ seen → g.Edge x y → g.rep y ∈ seen ∨ y ∈ stack

/-- At first there is only the start. -/
lemma searches_start (g : Graph) (r : TypeRef) : g.Searches r [] [r] where
  paths x hx := by
    rw [List.mem_singleton.mp hx]
    exact ReflTransGen.refl
  start := Or.inr (by simp)
  edges x y hx := by simp at hx

/-- References whose representatives were seen may be taken off the stack. -/
lemma Searches.drop (h : g.Searches r seen stack) :
    g.Searches r seen (stack.dropWhile fun x => g.rep x ∈ seen) := by
  have hkept : ∀ y, g.rep y ∈ seen ∨ y ∈ stack →
      g.rep y ∈ seen ∨ y ∈ stack.dropWhile fun x => g.rep x ∈ seen := by
    rintro y (hy | hy)
    · exact Or.inl hy
    · rw [← List.takeWhile_append_dropWhile (p := fun x => g.rep x ∈ seen) (l := stack),
        List.mem_append] at hy
      refine hy.imp_left fun hy => ?_
      simpa using List.mem_takeWhile_imp hy
  exact ⟨fun x hx => h.paths x ((List.dropWhile_sublist _).subset hx), hkept r h.start,
    fun x y hx hxy => hkept y (h.edges hx hxy)⟩

/-- The reference on top of the stack may be exchanged for the children of its representative, which
is then seen. -/
lemma Searches.see (hg : g.WellFormed) (h : g.Searches r seen (x :: rest)) :
    g.Searches r (g.rep x :: seen) (g.children (g.rep x) ++ rest) := by
  have hkept : ∀ y, g.rep y ∈ seen ∨ y ∈ x :: rest →
      g.rep y ∈ g.rep x :: seen ∨ y ∈ g.children (g.rep x) ++ rest := by
    rintro y (hy | hy)
    · exact Or.inl (List.mem_cons_of_mem _ hy)
    · rcases List.mem_cons.mp hy with rfl | hy
      · exact Or.inl (by simp)
      · exact Or.inr (List.mem_append_right _ hy)
  refine ⟨fun y hy => ?_, hkept r h.start, fun z y hz hzy => ?_⟩
  · rcases List.mem_append.mp hy with hy | hy
    · exact ((h.paths x (by simp)).trans (reaches_rep hg x)).tail hy
    · exact h.paths y (List.mem_cons_of_mem _ hy)
  · rcases List.mem_cons.mp hz with rfl | hz
    · exact Or.inr (List.mem_append_left _ hzy)
    · exact hkept y (h.edges hz hzy)

/-- When the stack is used up, everything unbound that lies on a path was seen. -/
lemma Searches.mem_of_reaches (hg : g.WellFormed) (h : g.Searches r seen [])
    (hv : g.binding? v = none) (hrv : g.Reaches r v) : v ∈ seen := by
  have hstart : g.rep r ∈ seen := h.start.resolve_right (by simp)
  have hedges : ∀ x y, x ∈ seen → g.Edge x y → g.rep y ∈ seen := fun x y hx hxy =>
    (h.edges hx hxy).resolve_right (by simp)
  clear h
  induction hrv using ReflTransGen.head_induction_on with
  | refl => rwa [rep_of_binding?_eq_none hv] at hstart
  | @head x y hxy _ ih =>
    apply ih
    cases hb : g.binding? x with
    | none =>
      rw [rep_of_binding?_eq_none hb] at hstart
      exact hedges x y hstart hxy
    | some b =>
      -- the only child of a bound variable has the same representative
      obtain ⟨name, hn⟩ := binding?_eq_some_iff.mp hb
      obtain rfl : y = b := by simpa [edge_of_node? hn, Node.children, eq_comm] using hxy
      rwa [← rep_of_binding? hg hb]

/-- A search that has not come upon `v` yet and may make more rounds than there are unseen nodes
gives an answer, and the answer is whether `v` is unbound and lies on a path from the start. -/
theorem Searches.exists_search_eq (hg : g.WellFormed) (hr : r < g.nodes.size)
    (h : g.Searches r seen stack) (hv : v ∉ seen) {n : Nat} (hn : (g.unseen seen).card < n) :
    ∃ found, g.search v n seen stack = some found ∧
      (found = true ↔ g.binding? v = none ∧ g.Reaches r v) := by
  induction n generalizing seen stack with
  | zero => omega
  | succ n ih =>
    have hdrop := h.drop
    rw [search]
    cases hstack : stack.dropWhile fun x => g.rep x ∈ seen with
    | nil =>
      rw [hstack] at hdrop
      refine ⟨false, rfl, iff_of_false (by simp) ?_⟩
      rintro ⟨hunbound, hrv⟩
      exact hv (hdrop.mem_of_reaches hg hunbound hrv)
    | cons x rest =>
      rw [hstack] at hdrop
      have hx := hdrop.paths x (by simp)
      have hnew : g.rep x ∉ seen := by
        have hhead := List.head?_dropWhile_not (fun x => g.rep x ∈ seen) stack
        simpa [hstack] using hhead
      dsimp only
      split_ifs with hxv
      · subst hxv
        exact ⟨true, rfl, iff_of_true rfl ⟨binding?_rep hg x, hx.trans (reaches_rep hg x)⟩⟩
      · have hlt := card_unseen_cons_lt (rep_lt_size hg (hx.lt_size hg.closed hr)) hnew
        exact ih (hdrop.see hg) (by simp [hv, Ne.symm hxv]) (by omega)

lemma exists_search_eq (hg : g.WellFormed) (hr : r < g.nodes.size) (v : TypeRef) {n : Nat}
    (hn : g.nodes.size < n) :
    ∃ found, g.search v n [] [r] = some found ∧
      (found = true ↔ g.binding? v = none ∧ g.Reaches r v) :=
  (searches_start g r).exists_search_eq hg hr (by simp) (by simpa [unseen] using hn)

/-- The occurs check finds what is unbound and lies on a path. -/
theorem occursIn_iff (hg : g.WellFormed) (hr : r < g.nodes.size) :
    g.occursIn v r = true ↔ g.binding? v = none ∧ g.Reaches r v := by
  obtain ⟨found, hsearch, hfound⟩ := exists_search_eq hg hr v (Nat.lt_succ_self _)
  rw [occursIn, hsearch, Option.getD_some, hfound]

/-- A search that may make more rounds than there are nodes gives the answer of the occurs check. -/
theorem search_eq_occursIn (hg : g.WellFormed) (hr : r < g.nodes.size) (v : TypeRef) {n : Nat}
    (hn : g.nodes.size < n) : g.search v n [] [r] = some (g.occursIn v r) := by
  obtain ⟨found, hsearch, hfound⟩ := exists_search_eq hg hr v hn
  rw [hsearch, Option.some.injEq, Bool.eq_iff_iff, hfound, occursIn_iff hg hr]

/-- The occurs check of an unbound type decides whether there is a path to it. -/
theorem occursIn_eq_true_iff (hg : g.WellFormed) (hv : g.binding? v = none)
    (hr : r < g.nodes.size) : g.occursIn v r = true ↔ g.Reaches r v := by
  rw [occursIn_iff hg hr, and_iff_right hv]

end Unification.Graph
