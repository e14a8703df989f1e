import Mathlib.Data.Set.Function
import Unification.Proofs.Region

/-!
# Renumbering types

A type is known by the number of its node, but nothing that unification asks about a type depends on
that number. This file has renumberings of some types and templates, graphs that are related by one,
and the first half of that statement: in related graphs representatives, paths, resolved trees and
the rule for two types correspond.
-/

namespace Unification

/-- New numbers for a set of types and a set of templates. Different types get different
numbers. -/
structure Renumbering where
  types      : Set TypeRef
  templates  : Set TemplateRef
  type       : TypeRef → TypeRef
  template   : TemplateRef → TemplateRef
  type_injOn : Set.InjOn type types

namespace Renumbering

variable {φ : Renumbering} {g g' : Graph} {a b r t u v x y : TypeRef}

lemma type_eq_iff (hx : x ∈ φ.types) (hy : y ∈ φ.types) : φ.type x = φ.type y ↔ x = y :=
  φ.type_injOn.eq_iff hx hy

/-- Different templates stay different. -/
def Separates (φ : Renumbering) : Prop :=
  Set.InjOn φ.template φ.templates

/-- Function types stay function types, and no other instances become function types. -/
def KeepsFunctions (φ : Renumbering) : Prop :=
  ∀ t ∈ φ.templates, φ.template t = functionTemplate ↔ t = functionTemplate

/-! ### Nodes and trees -/

/-- The node with all references in it renumbered. -/
def node (φ : Renumbering) : Node → Node
  | .terminal name    => .terminal name
  | .var name binding => .var name (binding.map φ.type)
  | .constraint name  => .constraint name
  | .inst t args      => .inst (φ.template t) (args.map φ.type)
  | .union members    => .union (members.map φ.type)

lemma children_node (φ : Renumbering) (n : Node) :
    (φ.node n).children = n.children.map φ.type := by
  cases n with
  | var name binding => cases binding <;> rfl
  | _ => rfl

lemma binding?_node (φ : Renumbering) (n : Node) :
    (φ.node n).binding? = n.binding?.map φ.type := by
  cases n <;> rfl

/-- The placeholder with its reference renumbered. -/
def placeholder (φ : Renumbering) (p : Placeholder) : Placeholder :=
  { p with ref := φ.type p.ref }

mutual

/-- The tree with all references in it renumbered. -/
def tree (φ : Renumbering) : Tree → Tree
  | .terminal r name => .terminal (φ.type r) name
  | .placeholder p   => .placeholder (φ.placeholder p)
  | .inst t args     => .inst (φ.template t) (treeAll φ args)
  | .union r members => .union (φ.type r) (treeAll φ members)

/-- The trees of a list with all references in them renumbered. -/
def treeAll (φ : Renumbering) : List Tree → List Tree
  | []      => []
  | t :: ts => tree φ t :: treeAll φ ts

end

lemma treeAll_eq_map (φ : Renumbering) (ts : List Tree) : φ.treeAll ts = ts.map φ.tree := by
  induction ts with
  | nil => rfl
  | cons t ts ih => rw [treeAll, ih, List.map_cons]

@[simp]
lemma tree_terminal {name : String} : φ.tree (.terminal r name) = .terminal (φ.type r) name := by
  rw [tree]

@[simp]
lemma tree_placeholder {p : Placeholder} :
    φ.tree (.placeholder p) = .placeholder (φ.placeholder p) := by
  rw [tree]

@[simp]
lemma tree_inst {args : List Tree} :
    φ.tree (.inst t args) = .inst (φ.template t) (args.map φ.tree) := by
  rw [tree, treeAll_eq_map]

@[simp]
lemma tree_union {members : List Tree} :
    φ.tree (.union r members) = .union (φ.type r) (members.map φ.tree) := by
  rw [tree, treeAll_eq_map]

lemma placeholders_tree (φ : Renumbering) (t : Tree) :
    (φ.tree t).placeholders = t.placeholders.map φ.placeholder := by
  induction t with
  | terminal r name => rw [tree_terminal, Tree.placeholders, Tree.placeholders, List.map_nil]
  | placeholder p => simp [Tree.placeholders]
  | inst f args ih =>
    rw [tree_inst, Tree.placeholders, Tree.placeholders, Tree.placeholdersAll_map ih]
  | union r members ih =>
    rw [tree_union, Tree.placeholders, Tree.placeholders, Tree.placeholdersAll_map ih]

lemma specificity_tree (φ : Renumbering) (t : Tree) : (φ.tree t).specificity = t.specificity := by
  induction t with
  | terminal r name => rw [tree_terminal, Tree.specificity, Tree.specificity]
  | placeholder p => rw [tree_placeholder, Tree.specificity, Tree.specificity]
  | inst f args ih =>
    have hall := Tree.specificityAll_map_congr (h := id) ih
    rw [List.map_id] at hall
    rw [tree_inst, Tree.specificity, Tree.specificity, hall]
  | union r members => rw [tree_union, Tree.specificity, Tree.specificity]

/-! ### Related graphs -/

/-- The second graph has the types of the first that are renumbered, with all that they lead to: the
same nodes under new numbers, made of templates with the same names and arities. What else the two
graphs have does not matter. -/
structure Relates (φ : Renumbering) (g g' : Graph) : Prop where
  encloses : g.Encloses φ.types
  applied  : ∀ x ∈ φ.types, ∀ t args, g.node? x = some (.inst t args) → t ∈ φ.templates
  node     : ∀ x ∈ φ.types, g'.node? (φ.type x) = (g.node? x).map φ.node
  name     : ∀ t ∈ φ.templates,
    (g'.template? (φ.template t)).map Template.name = (g.template? t).map Template.name
  arity    : ∀ t ∈ φ.templates,
    (g'.template? (φ.template t)).map Template.arity = (g.template? t).map Template.arity

lemma Relates.lt_size_iff (h : φ.Relates g g') (hx : x ∈ φ.types) :
    φ.type x < g'.nodes.size ↔ x < g.nodes.size := by
  rw [← not_le, ← not_le, ← Graph.node?_eq_none_iff, ← Graph.node?_eq_none_iff, h.node x hx,
    Option.map_eq_none_iff]

lemma Relates.binding? (h : φ.Relates g g') (hx : x ∈ φ.types) :
    g'.binding? (φ.type x) = (g.binding? x).map φ.type := by
  rw [Graph.binding?, Graph.binding?, h.node x hx]
  cases g.node? x with
  | none => rfl
  | some n => exact binding?_node φ n

/-- What a renumbered type points to is what the type points to, renumbered. -/
lemma Relates.edge_iff (h : φ.Relates g g') (hx : x ∈ φ.types) :
    g'.Edge (φ.type x) y ↔ ∃ z, g.Edge x z ∧ φ.type z = y := by
  rw [Graph.Edge, Graph.children, h.node x hx]
  cases hn : g.node? x with
  | none => simp [Graph.Edge, Graph.children, hn]
  | some n => simp [Graph.edge_of_node? hn, children_node]

lemma Relates.reaches (h : φ.Relates g g') (hx : x ∈ φ.types) (hxy : g.Reaches x y) :
    g'.Reaches (φ.type x) (φ.type y) := by
  induction hxy with
  | refl => exact Relation.ReflTransGen.refl
  | tail hxy hyz ih =>
    exact ih.tail ((h.edge_iff (h.encloses.reaches hx hxy)).mpr ⟨_, hyz, rfl⟩)

/-- A path from a renumbered type follows a path from the type. -/
lemma Relates.exists_reaches (h : φ.Relates g g') (hx : x ∈ φ.types)
    (hxy : g'.Reaches (φ.type x) y) : ∃ z, g.Reaches x z ∧ φ.type z = y := by
  induction hxy with
  | refl => exact ⟨x, Relation.ReflTransGen.refl, rfl⟩
  | tail _ hyz ih =>
    obtain ⟨w, hxw, rfl⟩ := ih
    obtain ⟨z, hwz, rfl⟩ := (h.edge_iff (h.encloses.reaches hx hxw)).mp hyz
    exact ⟨z, hxw.tail hwz, rfl⟩

lemma Relates.reaches_iff (h : φ.Relates g g') (hx : x ∈ φ.types) (hy : y ∈ φ.types) :
    g'.Reaches (φ.type x) (φ.type y) ↔ g.Reaches x y := by
  refine ⟨fun hxy => ?_, h.reaches hx⟩
  obtain ⟨z, hxz, heq⟩ := h.exists_reaches hx hxy
  rwa [← (type_eq_iff (h.encloses.reaches hx hxz) hy).mp heq]

/-- The occurs check gives the same answer. -/
lemma Relates.occursIn (h : φ.Relates g g') (hg : g.WellFormed) (hg' : g'.WellFormed)
    (hv : v ∈ φ.types) (hr : r ∈ φ.types) (hlt : r < g.nodes.size) :
    g'.occursIn (φ.type v) (φ.type r) = g.occursIn v r := by
  have hlt' := (h.lt_size_iff hr).mpr hlt
  rw [Bool.eq_iff_iff, Graph.occursIn_iff hg' hlt', Graph.occursIn_iff hg hlt, h.binding? hv,
    Option.map_eq_none_iff, h.reaches_iff hr hv]

lemma Relates.rep (h : φ.Relates g g') (hg : g.WellFormed) (hg' : g'.WellFormed)
    (hr : r ∈ φ.types) : g'.rep (φ.type r) = φ.type (g.rep r) := by
  induction r using Graph.rep_induct hg with
  | none r hb =>
    rw [Graph.rep_of_binding?_eq_none hb]
    exact Graph.rep_of_binding?_eq_none (by rw [h.binding? hr, hb, Option.map_none])
  | some r b hb ih =>
    have hb' : g'.binding? (φ.type r) = some (φ.type b) := by
      rw [h.binding? hr, hb, Option.map_some]
    rw [Graph.rep_of_binding? hg hb, Graph.rep_of_binding? hg' hb',
      ih (h.encloses hr (Graph.edge_of_binding? hb))]

/-- A renumbered type reads as the type, renumbered. -/
theorem Relates.resolve (h : φ.Relates g g') (hg : g.WellFormed) (hg' : g'.WellFormed)
    (hr : r ∈ φ.types) : g'.resolve (φ.type r) = φ.tree (g.resolve r) := by
  induction r using Graph.Acyclic.induct hg.closed hg.acyclic with
  | step r ih =>
    have hnode := h.node r hr
    have hmap : ∀ cs : List TypeRef, (∀ c ∈ cs, g.Edge r c) →
        (cs.map φ.type).map g'.resolve = (cs.map g.resolve).map φ.tree := by
      intro cs hcs
      simp only [List.map_map]
      apply List.map_congr_left
      intro c hc
      exact ih c (hcs c hc) (h.encloses hr (hcs c hc))
    cases hn : g.node? r with
    | none =>
      rw [hn, Option.map_none] at hnode
      rw [Graph.resolve_of_node?_eq_none hn, Graph.resolve_of_node?_eq_none hnode]
      simp [placeholder]
    | some n =>
      rw [hn, Option.map_some] at hnode
      match n, hn, hnode with
      | .terminal name, hn, hnode =>
        rw [Graph.resolve_terminal hn, Graph.resolve_terminal hnode, tree_terminal]
      | .var name none, hn, hnode =>
        rw [Graph.resolve_free hn, Graph.resolve_free hnode, tree_placeholder]
        rfl
      | .var name (some b), hn, hnode =>
        have hb := Graph.binding?_eq_some_iff.mpr ⟨name, hn⟩
        have hb' := Graph.binding?_eq_some_iff.mpr ⟨name, hnode⟩
        have hedge := Graph.edge_of_binding? hb
        rw [Graph.resolve_of_binding? hg hb, Graph.resolve_of_binding? hg' hb',
          ih b hedge (h.encloses hr hedge)]
      | .constraint name, hn, hnode =>
        rw [Graph.resolve_constraint hn, Graph.resolve_constraint hnode, tree_placeholder]
        rfl
      | .inst t args, hn, hnode =>
        rw [Graph.resolve_inst hg hn, Graph.resolve_inst hg' hnode, tree_inst,
          hmap args fun c hc => (Graph.edge_of_node? hn).mpr hc]
      | .union members, hn, hnode =>
        rw [Graph.resolve_union hg hn, Graph.resolve_union hg' hnode, tree_union,
          hmap members fun c hc => (Graph.edge_of_node? hn).mpr hc]

lemma Relates.over_resolve (h : φ.Relates g g') (hg : g.WellFormed) (hr : r ∈ φ.types) :
    (g.resolve r).Over φ.types φ.templates :=
  h.encloses.over_resolve hg h.applied hr

lemma Relates.specificity (h : φ.Relates g g') (hg : g.WellFormed) (hg' : g'.WellFormed)
    (hr : r ∈ φ.types) : g'.specificity (φ.type r) = g.specificity r := by
  rw [Graph.specificity, h.resolve hg hg' hr, specificity_tree, Graph.specificity]

/-- The most specific types of a list stay the most specific ones. -/
lemma Relates.mostSpecific (h : φ.Relates g g') (hg : g.WellFormed) (hg' : g'.WellFormed)
    {rs : List TypeRef} (hrs : ∀ r ∈ rs, r ∈ φ.types) :
    g'.mostSpecific (rs.map φ.type) = (g.mostSpecific rs).map φ.type := by
  have hscore : ∀ r ∈ rs, g'.specificity (φ.type r) = g.specificity r := fun r hr =>
    h.specificity hg hg' (hrs r hr)
  have htop : ∀ n, (rs.map φ.type).foldl (fun n r => max n (g'.specificity r)) n =
      rs.foldl (fun n r => max n (g.specificity r)) n := by
    clear hrs
    induction rs with
    | nil => exact fun _ => rfl
    | cons r rs ih =>
      intro n
      rw [List.map_cons, List.foldl_cons, List.foldl_cons, hscore r (by simp),
        ih fun r' hr' => hscore r' (by simp [hr'])]
  simp only [Graph.mostSpecific, htop, List.filter_map]
  congr 1
  apply List.filter_congr
  intro r hr
  simp [hscore r hr]

/-! ### The rule for two types -/

/-- The rule with all references in it renumbered. -/
def rule (φ : Renumbering) : Rule → Rule
  | .same                  => .same
  | .assign v ty           => .assign (φ.type v) (φ.type ty)
  | .choose u ms target    => .choose (φ.type u) (ms.map φ.type) (φ.type target)
  | .descend lefts rights  => .descend (lefts.map φ.type) (rights.map φ.type)
  | .clash                 => .clash

/-- The same rule applies to renumbered types. -/
lemma Relates.rule (h : φ.Relates g g') (hsep : φ.Separates) (ha : a ∈ φ.types)
    (hb : b ∈ φ.types) : g'.rule (φ.type a) (φ.type b) = φ.rule (g.rule a b) := by
  have hinst : ∀ t xs u ys, g.node? a = some (.inst t xs) → g.node? b = some (.inst u ys) →
      (φ.template t = φ.template u ↔ t = u) := fun t xs u ys hna hnb =>
    hsep.eq_iff (h.applied a ha t xs hna) (h.applied b hb u ys hnb)
  simp only [Graph.rule, h.node a ha, h.node b hb, type_eq_iff ha hb]
  generalize g.node? a = m, g.node? b = n at hinst
  by_cases hab : a = b <;> rcases m with _ | (_ | _ | _ | ⟨t, xs⟩ | _) <;>
    rcases n with _ | (_ | _ | _ | ⟨u, ys⟩ | _) <;>
    simp [Renumbering.node, Renumbering.rule, hab, hinst]
  -- two instances are left, which may be of one template or of two
  split_ifs <;> rfl

end Renumbering

end Unification
