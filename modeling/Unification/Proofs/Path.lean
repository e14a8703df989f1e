import Mathlib.Data.Finset.Card
import Mathlib.Data.Finset.Range
import Mathlib.Logic.Relation
import Unification.Graph.Reach

/-!
# Paths in the type graph

A type points to its binding, its arguments or its members. This file has the paths along these
edges, the height of a type in a graph without circles, and the fact that a walk through the graph
comes to exactly what lies on a path: `mem_reachable_iff`.
-/

namespace Unification.Graph

open Relation

variable {g : Graph} {r v x y : TypeRef}

/-- One type points to another: as its binding, an argument or a member. -/
def Edge (g : Graph) (x y : TypeRef) : Prop :=
  y ∈ g.children x

/-- There is a path from one type to another, which may be empty. -/
def Reaches (g : Graph) : TypeRef → TypeRef → Prop :=
  ReflTransGen g.Edge

/-- No type lies on a path that comes back to it. -/
def Acyclic (g : Graph) : Prop :=
  ∀ r, ¬ TransGen g.Edge r r

/-- Every reference that a node holds is a reference to a node. -/
def Closed (g : Graph) : Prop :=
  ∀ ⦃x y⦄, g.Edge x y → y < g.nodes.size

/-! ### Edges -/

lemma edge_iff : g.Edge x y ↔ ∃ n, g.node? x = some n ∧ y ∈ n.children := by
  rw [Edge, children]
  cases g.node? x <;> simp

lemma edge_of_node? {n : Node} (h : g.node? x = some n) : g.Edge x y ↔ y ∈ n.children := by
  simp [Edge, children, h]

lemma lt_size_of_node? {n : Node} (h : g.node? r = some n) : r < g.nodes.size := by
  simp only [node?, Array.getElem?_eq_some_iff] at h
  exact h.1

lemma exists_node? (h : r < g.nodes.size) : ∃ n, g.node? r = some n :=
  ⟨g.nodes[r], by simp [node?, h]⟩

lemma node?_eq_none_iff : g.node? r = none ↔ g.nodes.size ≤ r := by
  simp [node?]

lemma lt_size_of_edge (h : g.Edge x y) : x < g.nodes.size := by
  obtain ⟨n, hn, _⟩ := edge_iff.mp h
  exact lt_size_of_node? hn

/-- A variable points to what it is bound to. -/
lemma edge_of_binding? {b : TypeRef} (h : g.binding? r = some b) : g.Edge r b := by
  rw [binding?] at h
  cases hn : g.node? r with
  | none => simp [hn] at h
  | some n =>
    rw [edge_of_node? hn]
    cases n <;> simp_all [Node.binding?, Node.children]

lemma Reaches.lt_size (hc : g.Closed) (hx : x < g.nodes.size) (h : g.Reaches x y) :
    y < g.nodes.size := by
  induction h with
  | refl => exact hx
  | tail _ h _ => exact hc h

/-! ### Height -/

/-- A graph whose edges all go down in some ranking has no circle. -/
lemma acyclic_of_rank (rank : TypeRef → Nat) (h : ∀ x y, g.Edge x y → rank y < rank x) :
    g.Acyclic := by
  have hdown : ∀ x y, TransGen g.Edge x y → rank y < rank x := by
    intro x y hxy
    induction hxy with
    | single hxy => exact h _ _ hxy
    | tail _ hyz ih => exact (h _ _ hyz).trans ih
  exact fun r hr => (hdown r r hr).false

open Classical in
/-- The number of types below a type. -/
noncomputable def height (g : Graph) (r : TypeRef) : Nat :=
  ((Finset.range g.nodes.size).filter (TransGen g.Edge r)).card

/-- An edge goes down: what is below the lower end is below the upper end, and so is the lower end
itself. -/
lemma height_lt_of_edge (hc : g.Closed) (ha : g.Acyclic) (h : g.Edge x y) :
    g.height y < g.height x := by
  classical
  refine Finset.card_lt_card ⟨?_, ?_⟩
  · apply Finset.monotone_filter_right
    intro z _ hyz
    exact TransGen.head h hyz
  · intro hsub
    have hy : y ∈ (Finset.range g.nodes.size).filter (TransGen g.Edge x) :=
      Finset.mem_filter.mpr ⟨Finset.mem_range.mpr (hc h), TransGen.single h⟩
    exact ha y (Finset.mem_filter.mp (hsub hy)).2

/-- A type is not below itself, so there are more types than types below it. -/
lemma height_lt_size (ha : g.Acyclic) (h : r < g.nodes.size) : g.height r < g.nodes.size := by
  classical
  have hlt : ((Finset.range g.nodes.size).filter (TransGen g.Edge r)).card <
      (Finset.range g.nodes.size).card := by
    refine Finset.card_lt_card ⟨Finset.filter_subset _ _, ?_⟩
    intro hsub
    exact ha r (Finset.mem_filter.mp (hsub (Finset.mem_range.mpr h))).2
  simpa [height] using hlt

/-- Induction from the leaves of a graph without circles. -/
theorem Acyclic.induct (hc : g.Closed) (ha : g.Acyclic) {P : TypeRef → Prop}
    (step : ∀ x, (∀ y, g.Edge x y → P y) → P x) (r : TypeRef) : P r := by
  induction hn : g.height r using Nat.strong_induction_on generalizing r with
  | _ n ih =>
    subst hn
    exact step r fun y hy => ih _ (height_lt_of_edge hc ha hy) y rfl

/-! ### Walks -/

/-- The nodes that a walk has not seen yet. -/
def unseen (g : Graph) (seen : List TypeRef) : Finset TypeRef :=
  Finset.range g.nodes.size \ seen.toFinset

lemma card_unseen_le {seen seen' : List TypeRef} (h : seen ⊆ seen') :
    (g.unseen seen').card ≤ (g.unseen seen).card := by
  refine Finset.card_le_card (Finset.sdiff_subset_sdiff (Finset.Subset.refl _) ?_)
  intro x hx
  exact List.mem_toFinset.mpr (h (List.mem_toFinset.mp hx))

lemma card_unseen_cons_lt {seen : List TypeRef} (hr : r < g.nodes.size) (h : r ∉ seen) :
    (g.unseen (r :: seen)).card < (g.unseen seen).card := by
  have hmem : r ∈ g.unseen seen := by simp [unseen, hr, h]
  have hsub : g.unseen (r :: seen) ⊆ (g.unseen seen).erase r := by
    intro x hx
    simp only [unseen, List.toFinset_cons, Finset.mem_sdiff, Finset.mem_range, Finset.mem_insert,
      List.mem_toFinset, Finset.mem_erase, not_or] at hx ⊢
    exact ⟨hx.2.1, hx.1, hx.2.2⟩
  exact (Finset.card_le_card hsub).trans_lt (Finset.card_erase_lt_of_mem hmem)

/-- What a walk adds to `seen` is complete: with every type it also has what the type points to. -/
structure Completes (g : Graph) (seen found : List TypeRef) : Prop where
  subset : seen ⊆ found
  edges  : ∀ ⦃x y⦄, x ∈ found → x ∉ seen → g.Edge x y → y ∈ found

lemma Completes.trans {a b c : List TypeRef} (hab : g.Completes a b) (hbc : g.Completes b c) :
    g.Completes a c where
  subset := fun _ hx => hbc.subset (hab.subset hx)
  edges x y hx hxa hxy := by
    by_cases hxb : x ∈ b
    · exact hbc.subset (hab.edges hxb hxa hxy)
    · exact hbc.edges hx hxb hxy

/-- A walk that may go as deep as there are unseen nodes leaves nothing out. -/
lemma completes_visit (hc : g.Closed) (n : Nat) (seen : List TypeRef) (hr : r < g.nodes.size)
    (hn : (g.unseen seen).card ≤ n) :
    g.Completes seen (g.visit n seen r) ∧ r ∈ g.visit n seen r := by
  induction n generalizing seen r with
  | zero =>
    -- nothing is unseen, so the start was seen
    have hmem : r ∈ seen := by
      by_contra h
      have := card_unseen_cons_lt hr h
      omega
    exact ⟨⟨fun _ hx => hx, fun x y hx hxs _ => absurd hx hxs⟩, hmem⟩
  | succ n ih =>
    have hfold : ∀ (cs seen' : List TypeRef), (∀ c ∈ cs, c < g.nodes.size) →
        (g.unseen seen').card ≤ n →
        g.Completes seen' (cs.foldl (g.visit n) seen') ∧
          ∀ c ∈ cs, c ∈ cs.foldl (g.visit n) seen' := by
      intro cs
      induction cs with
      | nil => exact fun _ _ _ => ⟨⟨fun _ hx => hx, fun x y hx hxs _ => absurd hx hxs⟩, by simp⟩
      | cons c cs ihcs =>
        intro seen' hcs hle
        obtain ⟨hstep, hmem⟩ := ih seen' (hcs c (by simp)) hle
        obtain ⟨hrest, hmems⟩ := ihcs (g.visit n seen' c) (fun d hd => hcs d (by simp [hd]))
          ((card_unseen_le hstep.subset).trans hle)
        refine ⟨hstep.trans hrest, ?_⟩
        intro d hd
        rcases List.mem_cons.mp hd with rfl | hd
        · exact hrest.subset hmem
        · exact hmems d hd
    rw [visit]
    split
    · next hmem => exact ⟨⟨fun _ hx => hx, fun x y hx hxs _ => absurd hx hxs⟩, hmem⟩
    · next hmem =>
      have hlt := card_unseen_cons_lt hr hmem
      obtain ⟨hcomp, hall⟩ := hfold (g.children r) (r :: seen) (fun c hrc => hc hrc) (by omega)
      refine ⟨⟨fun x hx => hcomp.subset (by simp [hx]), ?_⟩, hcomp.subset (by simp)⟩
      intro x y hx hxs hxy
      by_cases hxr : x = r
      · subst hxr
        exact hall y hxy
      · exact hcomp.edges hx (by simp [hxr, hxs]) hxy

/-- A walk finds only what there is a path to. -/
lemma mem_or_reaches_of_mem_visit (n : Nat) (seen : List TypeRef) (h : x ∈ g.visit n seen r) :
    x ∈ seen ∨ g.Reaches r x := by
  induction n generalizing seen r with
  | zero => exact Or.inl h
  | succ n ih =>
    have hfold : ∀ (cs seen' : List TypeRef), x ∈ cs.foldl (g.visit n) seen' →
        x ∈ seen' ∨ ∃ c ∈ cs, g.Reaches c x := by
      intro cs
      induction cs with
      | nil => exact fun _ hx => Or.inl hx
      | cons c cs ihcs =>
        intro seen' hx
        rcases ihcs _ hx with hx | ⟨d, hd, hdx⟩
        · rcases ih seen' hx with hx | hcx
          · exact Or.inl hx
          · exact Or.inr ⟨c, by simp, hcx⟩
        · exact Or.inr ⟨d, by simp [hd], hdx⟩
    rw [visit] at h
    split at h
    · exact Or.inl h
    · rcases hfold _ _ h with hx | ⟨c, hrc, hcx⟩
      · rcases List.mem_cons.mp hx with rfl | hx
        · exact Or.inr ReflTransGen.refl
        · exact Or.inl hx
      · exact Or.inr (ReflTransGen.head hrc hcx)

/-- The reachable types are those at the end of a path. -/
theorem mem_reachable_iff (hc : g.Closed) (hr : r < g.nodes.size) :
    x ∈ g.reachable r ↔ g.Reaches r x := by
  simp only [reachable, List.mem_reverse]
  constructor
  · intro h
    simpa using mem_or_reaches_of_mem_visit _ _ h
  · intro h
    obtain ⟨hcomp, hmem⟩ := completes_visit hc g.nodes.size [] hr (by simp [unseen])
    induction h with
    | refl => exact hmem
    | tail _ hyz ih => exact hcomp.edges ih (by simp) hyz

end Unification.Graph
