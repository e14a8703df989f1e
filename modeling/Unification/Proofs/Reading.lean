import Unification.Proofs.Tree
import Unification.Proofs.WellFormed

/-!
# Reading a type

In a well-formed graph every chain of bindings ends, and the resolved tree of a type follows its
node: nothing is cut off. The resolved trees are one way to read all types of the graph at once;
a valuation is any such way, with the free variables read as one likes. Valuations are what a
unifier is about: `IsValuation.eq_subst` says that a valuation is a substitution into the resolved
trees, and `isValuation_subst` that every substitution is one.
-/

namespace Unification

/-- What a node at a reference reads as when its children are read by `θ`. A free variable may be
read as anything. -/
def Node.read (θ : TypeRef → Tree) (r : TypeRef) : Node → Tree
  | terminal name    => .terminal r name
  | var _ none       => θ r
  | var _ (some b)   => θ b
  | constraint name  => .placeholder ⟨r, .rigid, name⟩
  | inst t args      => .inst t (args.map θ)
  | union members    => .union r (members.map θ)

namespace Graph

open Relation

variable {g : Graph} {b r x y : TypeRef} {θ σ : TypeRef → Tree}

/-! ### Chains of bindings -/

lemma height_le_of_reaches (hg : g.WellFormed) (h : g.Reaches x y) : g.height y ≤ g.height x := by
  induction h with
  | refl => exact le_rfl
  | tail _ hyz ih => exact (height_lt_of_edge hg.closed hg.acyclic hyz).le.trans ih

/-- Following bindings longer than the type is high changes nothing. -/
lemma follow_eq_follow (hg : g.WellFormed) {n m : Nat} (hn : g.height r < n) (hm : g.height r < m) :
    g.follow n r = g.follow m r := by
  induction n generalizing m r with
  | zero => omega
  | succ n ih =>
    obtain ⟨m, rfl⟩ := Nat.exists_eq_add_of_lt hm
    simp only [follow]
    cases hb : g.binding? r with
    | none => rfl
    | some b =>
      have hlt := height_lt_of_edge hg.closed hg.acyclic (edge_of_binding? hb)
      exact ih (by omega) (by omega)

lemma rep_of_binding?_eq_none (h : g.binding? r = none) : g.rep r = r :=
  follow_of_binding?_eq_none g _ h

/-- A bound variable has the representative of what it is bound to. -/
lemma rep_of_binding? (hg : g.WellFormed) (h : g.binding? r = some b) : g.rep r = g.rep b := by
  have hedge := edge_of_binding? h
  have hlt := height_lt_of_edge hg.closed hg.acyclic hedge
  have hr := height_lt_size hg.acyclic (lt_size_of_edge hedge)
  obtain ⟨n, hn⟩ := Nat.exists_eq_add_of_lt (Nat.zero_lt_of_lt hr)
  have hstep : g.rep r = g.follow n b := by
    simp [rep, hn, follow, h]
  rw [hstep, rep]
  exact follow_eq_follow hg (by omega) (by omega)

/-- Induction along a chain of bindings. -/
lemma rep_induct (hg : g.WellFormed) {P : TypeRef → Prop} (none : ∀ r, g.binding? r = none → P r)
    (some : ∀ r b, g.binding? r = some b → P b → P r) (r : TypeRef) : P r := by
  induction r using Acyclic.induct hg.closed hg.acyclic with
  | step r ih =>
    cases hb : g.binding? r with
    | none => exact none r hb
    | some b => exact some r b hb (ih b (edge_of_binding? hb))

/-- The representative of a type is not a bound variable. -/
theorem binding?_rep (hg : g.WellFormed) (r : TypeRef) : g.binding? (g.rep r) = none := by
  induction r using rep_induct hg with
  | none r h => rwa [rep_of_binding?_eq_none h]
  | some r b h ih => rwa [rep_of_binding? hg h]

lemma rep_rep (hg : g.WellFormed) (r : TypeRef) : g.rep (g.rep r) = g.rep r :=
  rep_of_binding?_eq_none (binding?_rep hg r)

lemma reaches_rep (hg : g.WellFormed) (r : TypeRef) : g.Reaches r (g.rep r) := by
  induction r using rep_induct hg with
  | none r h =>
    rw [rep_of_binding?_eq_none h]
    exact ReflTransGen.refl
  | some r b h ih =>
    rw [rep_of_binding? hg h]
    exact ReflTransGen.head (edge_of_binding? h) ih

lemma rep_lt_size (hg : g.WellFormed) (hr : r < g.nodes.size) : g.rep r < g.nodes.size :=
  (reaches_rep hg r).lt_size hg.closed hr

/-- The variable that represents a type is free. -/
lemma isFree_rep (hg : g.WellFormed) {name : Option String} {binding : Option TypeRef}
    (h : g.node? (g.rep r) = some (.var name binding)) : g.isFree (g.rep r) = true := by
  have hb := binding?_rep hg r
  simp only [binding?, h, Option.bind_some, Node.binding?] at hb
  subst hb
  exact (g.isFree_eq_true_iff _).mpr ⟨name, h⟩

/-! ### Resolved trees -/

/-- Unfolding a type deeper than it is high changes nothing. -/
lemma unfold_eq_unfold (hg : g.WellFormed) {n m : Nat} (hn : g.height r < n)
    (hm : g.height r < m) : g.unfold n r = g.unfold m r := by
  induction n generalizing m r with
  | zero => omega
  | succ n ih =>
    obtain ⟨m, rfl⟩ := Nat.exists_eq_add_of_lt hm
    have hrep := height_le_of_reaches hg (reaches_rep hg r)
    have hmap : ∀ ns : List TypeRef, (∀ c ∈ ns, g.Edge (g.rep r) c) →
        ns.map (g.unfold n) = ns.map (g.unfold (g.height r + m)) := by
      intro ns hns
      apply List.map_congr_left
      intro c hc
      have hlt := height_lt_of_edge hg.closed hg.acyclic (hns c hc)
      exact ih (by omega) (by omega)
    simp only [unfold]
    cases hnode : g.node? (g.rep r) with
    | none => rfl
    | some node =>
      cases node with
      | terminal name => rfl
      | var name binding => rfl
      | constraint name => rfl
      | inst t args => simp only [hmap args fun c hc => (edge_of_node? hnode).mpr hc]
      | union members => simp only [hmap members fun c hc => (edge_of_node? hnode).mpr hc]

/-- Unfolding at least as many levels as there are nodes gives the resolved tree. -/
theorem unfold_eq_resolve (hg : g.WellFormed) (hr : r < g.nodes.size) {n : Nat}
    (hn : g.nodes.size ≤ n) : g.unfold n r = g.resolve r := by
  have hlt := height_lt_size hg.acyclic hr
  exact unfold_eq_unfold hg (by omega) (by omega)

lemma resolve_of_node?_eq_none (h : g.node? r = none) :
    g.resolve r = .placeholder ⟨r, .flexible, none⟩ := by
  have hrep : g.rep r = r := rep_of_binding?_eq_none (by simp [binding?, h])
  rw [resolve]
  cases g.nodes.size with
  | zero => rfl
  | succ n => simp [unfold, hrep, h]

/-- A type is resolved as its representative. -/
lemma resolve_rep (hg : g.WellFormed) (r : TypeRef) : g.resolve (g.rep r) = g.resolve r := by
  by_cases hr : r < g.nodes.size
  · obtain ⟨n, hn⟩ := Nat.exists_eq_add_of_lt (Nat.zero_lt_of_lt hr)
    simp only [resolve, hn, unfold, rep_rep hg]
  · have hnone := node?_eq_none_iff.mpr (Nat.le_of_not_lt hr)
    rw [rep_of_binding?_eq_none (by simp [binding?, hnone])]

lemma resolve_of_binding? (hg : g.WellFormed) (h : g.binding? r = some b) :
    g.resolve r = g.resolve b := by
  rw [← resolve_rep hg r, rep_of_binding? hg h, resolve_rep hg b]

lemma resolve_terminal {name : String} (h : g.node? r = some (.terminal name)) :
    g.resolve r = .terminal r name := by
  have hrep : g.rep r = r := rep_of_binding?_eq_none (by simp [binding?, h, Node.binding?])
  obtain ⟨n, hn⟩ := Nat.exists_eq_add_of_lt (Nat.zero_lt_of_lt (lt_size_of_node? h))
  simp [resolve, hn, unfold, hrep, h]

lemma resolve_constraint {name : Option String} (h : g.node? r = some (.constraint name)) :
    g.resolve r = .placeholder ⟨r, .rigid, name⟩ := by
  have hrep : g.rep r = r := rep_of_binding?_eq_none (by simp [binding?, h, Node.binding?])
  obtain ⟨n, hn⟩ := Nat.exists_eq_add_of_lt (Nat.zero_lt_of_lt (lt_size_of_node? h))
  simp [resolve, hn, unfold, hrep, h]

lemma resolve_free {name : Option String} (h : g.node? r = some (.var name none)) :
    g.resolve r = .placeholder ⟨r, .flexible, name⟩ := by
  have hrep : g.rep r = r := rep_of_binding?_eq_none (by simp [binding?, h, Node.binding?])
  obtain ⟨n, hn⟩ := Nat.exists_eq_add_of_lt (Nat.zero_lt_of_lt (lt_size_of_node? h))
  simp [resolve, hn, unfold, hrep, h]

lemma resolve_inst (hg : g.WellFormed) {t : TemplateRef} {args : List TypeRef}
    (h : g.node? r = some (.inst t args)) : g.resolve r = .inst t (args.map g.resolve) := by
  have hrep : g.rep r = r := rep_of_binding?_eq_none (by simp [binding?, h, Node.binding?])
  rw [← unfold_eq_resolve hg (lt_size_of_node? h) (Nat.le_succ _)]
  simp only [unfold, hrep, h]
  rfl

lemma resolve_union (hg : g.WellFormed) {members : List TypeRef}
    (h : g.node? r = some (.union members)) :
    g.resolve r = .union r (members.map g.resolve) := by
  have hrep : g.rep r = r := rep_of_binding?_eq_none (by simp [binding?, h, Node.binding?])
  rw [← unfold_eq_resolve hg (lt_size_of_node? h) (Nat.le_succ _)]
  simp only [unfold, hrep, h]
  rfl

/-- What a representative is, and how the type is resolved accordingly. -/
inductive Reads (g : Graph) (a : TypeRef) : Tree → Prop where
  | terminal {name : String} : g.node? a = some (.terminal name) → Reads g a (.terminal a name)
  | flexible {name : Option String} : g.node? a = some (.var name none) →
      Reads g a (.placeholder ⟨a, .flexible, name⟩)
  | rigid {name : Option String} : g.node? a = some (.constraint name) →
      Reads g a (.placeholder ⟨a, .rigid, name⟩)
  | inst {t : TemplateRef} {args : List TypeRef} : g.node? a = some (.inst t args) →
      Reads g a (.inst t (args.map g.resolve))
  | union {members : List TypeRef} : g.node? a = some (.union members) →
      Reads g a (.union a (members.map g.resolve))

lemma reads_rep (hg : g.WellFormed) (hr : r < g.nodes.size) : g.Reads (g.rep r) (g.resolve r) := by
  rw [← resolve_rep hg]
  obtain ⟨n, hn⟩ := exists_node? (rep_lt_size hg hr)
  match n, hn with
  | .terminal name, hn =>
    rw [resolve_terminal hn]
    exact .terminal hn
  | .var name binding, hn =>
    obtain ⟨name', hn'⟩ := (g.isFree_eq_true_iff _).mp (isFree_rep hg hn)
    rw [resolve_free hn']
    exact .flexible hn'
  | .constraint name, hn =>
    rw [resolve_constraint hn]
    exact .rigid hn
  | .inst t args, hn =>
    rw [resolve_inst hg hn]
    exact .inst hn
  | .union members, hn =>
    rw [resolve_union hg hn]
    exact .union hn

/-- A type that reads as an instance is represented by one. -/
lemma node?_rep_of_resolve_eq_inst (hg : g.WellFormed) (hr : r < g.nodes.size) {t : TemplateRef}
    {ts : List Tree} (h : g.resolve r = .inst t ts) :
    ∃ args, g.node? (g.rep r) = some (.inst t args) ∧ args.map g.resolve = ts := by
  have hreads := reads_rep hg hr
  rw [h] at hreads
  cases hreads with
  | inst hn => exact ⟨_, hn, rfl⟩

/-- A type that reads as an overload set is represented by it. -/
lemma node?_rep_of_resolve_eq_union (hg : g.WellFormed) (hr : r < g.nodes.size) {u : TypeRef}
    {ts : List Tree} (h : g.resolve r = .union u ts) :
    ∃ members, g.node? (g.rep r) = some (.union members) ∧ members.map g.resolve = ts := by
  have hreads := reads_rep hg hr
  rw [h] at hreads
  cases hreads with
  | union hn => exact ⟨_, hn, rfl⟩

/-- A type that reads as a free variable is represented by it. -/
lemma rep_of_resolve_eq_flexible (hg : g.WellFormed) (hr : r < g.nodes.size) {v : TypeRef}
    {name : Option String} (h : g.resolve r = .placeholder ⟨v, .flexible, name⟩) :
    g.rep r = v ∧ g.node? v = some (.var name none) := by
  have hreads := reads_rep hg hr
  rw [h] at hreads
  cases hreads with
  | flexible hn => exact ⟨rfl, hn⟩

/-- An argument is smaller than the instance. -/
lemma size_arg_lt (hg : g.WellFormed) {t : TemplateRef} {args : List TypeRef}
    (h : g.node? r = some (.inst t args)) (hx : x ∈ args) :
    (g.resolve x).size < (g.resolve r).size := by
  rw [resolve_inst hg h]
  exact Tree.size_lt_inst (List.mem_map_of_mem hx)

/-- A member is smaller than the overload set. -/
lemma size_member_lt (hg : g.WellFormed) {members : List TypeRef}
    (h : g.node? r = some (.union members)) (hx : x ∈ members) :
    (g.resolve x).size < (g.resolve r).size := by
  rw [resolve_union hg h]
  exact Tree.size_lt_union (List.mem_map_of_mem hx)

/-! ### Valuations -/

/-- A way to read every type of the graph as a tree, in agreement with the nodes. -/
def IsValuation (g : Graph) (θ : TypeRef → Tree) : Prop :=
  ∀ ⦃r n⦄, g.node? r = some n → θ r = n.read θ r

lemma binding?_eq_some_iff :
    g.binding? r = some b ↔ ∃ name, g.node? r = some (.var name (some b)) := by
  rw [binding?]
  cases g.node? r with
  | none => simp
  | some n => cases n <;> simp [Node.binding?]

/-- Every substitution for the free variables gives a valuation. -/
theorem isValuation_subst (hg : g.WellFormed) (σ : TypeRef → Tree) :
    g.IsValuation fun r => (g.resolve r).subst σ := by
  intro r n hn
  match n, hn with
  | .terminal name, hn => simp [resolve_terminal hn, Node.read]
  | .var name none, hn => rfl
  | .var name (some b), hn =>
    simp [resolve_of_binding? hg (binding?_eq_some_iff.mpr ⟨name, hn⟩), Node.read]
  | .constraint name, hn => simp [resolve_constraint hn, Node.read]
  | .inst t args, hn => simp [resolve_inst hg hn, Node.read]
  | .union members, hn => simp [resolve_union hg hn, Node.read]

/-- The resolved trees are a valuation. -/
theorem isValuation_resolve (hg : g.WellFormed) : g.IsValuation g.resolve := by
  intro r n hn
  match n, hn with
  | .terminal name, hn => exact resolve_terminal hn
  | .var name none, hn => rfl
  | .var name (some b), hn => exact resolve_of_binding? hg (binding?_eq_some_iff.mpr ⟨name, hn⟩)
  | .constraint name, hn => exact resolve_constraint hn
  | .inst t args, hn => exact resolve_inst hg hn
  | .union members, hn => exact resolve_union hg hn

/-- A valuation reads a type as its resolved tree, with the free variables substituted. -/
theorem IsValuation.eq_subst (hg : g.WellFormed) (hθ : g.IsValuation θ) (r : TypeRef) :
    θ r = (g.resolve r).subst θ := by
  induction r using Acyclic.induct hg.closed hg.acyclic with
  | step r ih =>
    cases hn : g.node? r with
    | none => simp [resolve_of_node?_eq_none hn]
    | some n =>
      match n, hn with
      | .terminal name, hn => simp [hθ hn, resolve_terminal hn, Node.read]
      | .var name none, hn => simp [resolve_free hn]
      | .var name (some b), hn =>
        have hb := binding?_eq_some_iff.mpr ⟨name, hn⟩
        rw [resolve_of_binding? hg hb, ← ih b (edge_of_binding? hb)]
        exact hθ hn
      | .constraint name, hn => simp [hθ hn, resolve_constraint hn, Node.read]
      | .inst t args, hn =>
        have hargs : args.map θ = args.map (Tree.subst θ ∘ g.resolve) :=
          List.map_congr_left fun c hc => ih c ((edge_of_node? hn).mpr hc)
        simp [hθ hn, resolve_inst hg hn, Node.read, hargs]
      | .union members, hn =>
        have hmembers : members.map θ = members.map (Tree.subst θ ∘ g.resolve) :=
          List.map_congr_left fun c hc => ih c ((edge_of_node? hn).mpr hc)
        simp [hθ hn, resolve_union hg hn, Node.read, hmembers]

/-- A valuation reads a type as it reads its representative. -/
lemma IsValuation.rep (hg : g.WellFormed) (hθ : g.IsValuation θ) (r : TypeRef) :
    θ (g.rep r) = θ r := by
  rw [hθ.eq_subst hg (g.rep r), hθ.eq_subst hg r, resolve_rep hg]

/-! ### Placeholders of a resolved tree -/

/-- A free variable that a type leads to stands in its resolved tree. -/
theorem mem_vars_resolve_of_reaches (hg : g.WellFormed) {v : TypeRef} (h : g.Reaches r v)
    (hv : g.isFree v = true) : v ∈ (g.resolve r).vars := by
  induction h using ReflTransGen.head_induction_on with
  | refl =>
    obtain ⟨name, hn⟩ := (g.isFree_eq_true_iff v).mp hv
    simp [resolve_free hn, Tree.vars, Tree.placeholders]
  | @head x y hxy _ ih =>
    obtain ⟨p, hp, hk, rfl⟩ := Tree.mem_vars.mp ih
    obtain ⟨n, hn, hy⟩ := edge_iff.mp hxy
    refine Tree.mem_vars.mpr ⟨p, ?_, hk, rfl⟩
    cases n with
    | terminal name | constraint name => simp [Node.children] at hy
    | var name binding =>
      rw [Node.children, Option.mem_toList] at hy
      rw [hy] at hn
      rw [resolve_of_binding? hg (binding?_eq_some_iff.mpr ⟨name, hn⟩)]
      exact hp
    | inst t args =>
      rw [resolve_inst hg hn, Tree.mem_placeholders_inst]
      exact ⟨_, List.mem_map_of_mem hy, hp⟩
    | union members =>
      rw [resolve_union hg hn, Tree.mem_placeholders_union]
      exact ⟨_, List.mem_map_of_mem hy, hp⟩

/-- A placeholder of a resolved tree is a free variable or a constraint that the type leads to. -/
theorem mem_placeholders_resolve (hg : g.WellFormed) {p : Placeholder} (hr : r < g.nodes.size)
    (hp : p ∈ (g.resolve r).placeholders) :
    g.Reaches r p.ref ∧
      (p.kind = .flexible → g.node? p.ref = some (.var p.name none)) ∧
      (p.kind = .rigid → g.node? p.ref = some (.constraint p.name)) := by
  induction r using Acyclic.induct hg.closed hg.acyclic with
  | step r ih =>
    -- the placeholders of an argument or a member are one edge further away
    have hchild : ∀ c, g.Edge r c → p ∈ (g.resolve c).placeholders → _ := fun c hc hpc =>
      (ih c hc (hg.closed hc) hpc).imp_left (ReflTransGen.head hc)
    obtain ⟨n, hn⟩ := exists_node? hr
    match n, hn with
    | .terminal name, hn => simp [resolve_terminal hn, Tree.placeholders] at hp
    | .var name none, hn =>
      simp only [resolve_free hn, Tree.placeholders, List.mem_singleton] at hp
      subst hp
      exact ⟨ReflTransGen.refl, fun _ => hn, by simp⟩
    | .var name (some b), hn =>
      have hb := binding?_eq_some_iff.mpr ⟨name, hn⟩
      rw [resolve_of_binding? hg hb] at hp
      exact hchild b (edge_of_binding? hb) hp
    | .constraint name, hn =>
      simp only [resolve_constraint hn, Tree.placeholders, List.mem_singleton] at hp
      subst hp
      exact ⟨ReflTransGen.refl, by simp, fun _ => hn⟩
    | .inst t args, hn =>
      simp only [resolve_inst hg hn, Tree.mem_placeholders_inst, List.mem_map] at hp
      obtain ⟨_, ⟨c, hc, rfl⟩, hpc⟩ := hp
      exact hchild c ((edge_of_node? hn).mpr hc) hpc
    | .union members, hn =>
      simp only [resolve_union hg hn, Tree.mem_placeholders_union, List.mem_map] at hp
      obtain ⟨_, ⟨c, hc, rfl⟩, hpc⟩ := hp
      exact hchild c ((edge_of_node? hn).mpr hc) hpc

end Graph

end Unification
