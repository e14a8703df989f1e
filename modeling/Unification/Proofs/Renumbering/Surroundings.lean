import Unification.Proofs.Inheritance
import Unification.Proofs.Operation
import Unification.Proofs.Rearrangement
import Unification.Proofs.Renumbering.Engine

/-!
# What surrounds the types does not matter

Two graphs may share some types, with all that they lead to, and differ in everything else: one of
them has nodes that an earlier run has left behind. A run on shared types gives the same answer in
both. Only the variables that it creates have other numbers, so afterwards the shared types read the
same up to a renaming of these: `Graph.AgreeOn`. No other new node is ever seen in a shared type,
since a run puts nothing into an old type but instances, old leaves and new variables.

The same is true of the trail: no run looks at what was bound before it began.
-/

namespace Unification

open Outcome

/-! ### Trees with old leaves -/

namespace Tree

variable {n : Nat} {t : Tree} {T : Set TypeRef} {U : Set TemplateRef}

/-- All references of the tree are below `n`, apart from those of free variables. -/
inductive Rooted (n : Nat) : Tree → Prop where
  | terminal {r : TypeRef} {name : String} : r < n → Rooted n (.terminal r name)
  | flexible {r : TypeRef} {name : Option String} : Rooted n (.placeholder ⟨r, .flexible, name⟩)
  | rigid {r : TypeRef} {name : Option String} : r < n →
      Rooted n (.placeholder ⟨r, .rigid, name⟩)
  | inst {t : TemplateRef} {args : List Tree} : (∀ u ∈ args, Rooted n u) → Rooted n (.inst t args)
  | union {r : TypeRef} {members : List Tree} : r < n → (∀ u ∈ members, Rooted n u) →
      Rooted n (.union r members)

lemma Over.rooted (h : t.Over T U) (hT : ∀ x ∈ T, x < n) : t.Rooted n := by
  induction h with
  | terminal hr => exact .terminal (hT _ hr)
  | @placeholder p hp =>
    obtain ⟨r, kind, name⟩ := p
    cases kind with
    | flexible => exact .flexible
    | rigid => exact .rigid (hT r hp)
  | inst _ _ ih => exact .inst ih
  | union hr _ ih => exact .union (hT _ hr) ih

lemma Rooted.mono {m : Nat} (h : t.Rooted n) (hnm : n ≤ m) : t.Rooted m := by
  induction h with
  | terminal hr => exact .terminal (hr.trans_le hnm)
  | flexible => exact .flexible
  | rigid hr => exact .rigid (hr.trans_le hnm)
  | inst _ ih => exact .inst ih
  | union hr _ ih => exact .union (hr.trans_le hnm) ih

lemma Rooted.subst {θ : TypeRef → Tree} (h : t.Rooted n) (hθ : ∀ v ∈ t.vars, (θ v).Rooted n) :
    (t.subst θ).Rooted n := by
  induction h with
  | terminal hr =>
    rw [subst_terminal]
    exact .terminal hr
  | @flexible r name =>
    rw [subst_flexible]
    exact hθ r (by simp [vars, placeholders])
  | rigid hr =>
    rw [subst_rigid]
    exact .rigid hr
  | inst _ ih =>
    rw [subst_inst]
    refine .inst fun _ hmem => ?_
    obtain ⟨u, hu, rfl⟩ := List.mem_map.mp hmem
    exact ih u hu fun v hv => hθ v (mem_vars_inst.mpr ⟨u, hu, hv⟩)
  | union hr _ ih =>
    rw [subst_union]
    refine .union hr fun _ hmem => ?_
    obtain ⟨u, hu, rfl⟩ := List.mem_map.mp hmem
    exact ih u hu fun v hv => hθ v (mem_vars_union.mpr ⟨u, hu, hv⟩)

/-- An instance has free variables in the place of constraints. -/
lemma Rooted.instantiate (h : t.Rooted n) (ρ : TypeRef → TypeRef) :
    (t.renew .instantiate ρ).Rooted n := by
  rw [Tree.renew]
  induction h with
  | terminal hr =>
    rw [replace_terminal]
    exact .terminal hr
  | flexible | rigid =>
    rw [replace_placeholder]
    exact .flexible
  | inst _ ih =>
    rw [replace_inst]
    refine .inst fun _ hmem => ?_
    obtain ⟨u, hu, rfl⟩ := List.mem_map.mp hmem
    exact ih u hu
  | union hr hmembers =>
    rw [replace_union]
    exact .union hr hmembers

lemma hereditary_rooted (n : Nat) : Hereditary (Rooted n) where
  flexible _ _ := .flexible
  arg f ts t h ht := by
    cases h with
    | inst h => exact h t ht
  member r ts t h ht := by
    cases h with
    | union _ h => exact h t ht
  subst _ _ h hθ := h.subst hθ
  instantiate _ ρ h := h.instantiate ρ

end Tree

namespace Graph

variable {g g' : Graph} {T T' : Set TypeRef} {n n' : Nat} {r : TypeRef}

/-- The tree of a type has references of the graph only. -/
lemma rooted_resolve (hg : g.WellFormed) (hr : r < g.nodes.size) :
    (g.resolve r).Rooted g.nodes.size := by
  have hT : g.Encloses {x | x < g.nodes.size} := fun _ _ _ hxy => hg.closed hxy
  have hover := hT.over_resolve (U := Set.univ) hg (fun _ _ _ _ _ => Set.mem_univ _) hr
  exact hover.rooted fun _ hx => hx

/-- The renaming makes the trees of some types in the one graph into their trees in the other. It
keeps the variables below `n`, and takes different variables from `n` on to different ones from `n'`
on, with the same names. -/
structure RenamesTo (g g' : Graph) (T : Set TypeRef) (n n' : Nat) (ρ : TypeRef → TypeRef) :
    Prop where
  old  : ∀ v < n, ρ v = v
  new  : ∀ v, n ≤ v → n' ≤ ρ v
  inj  : Set.InjOn ρ {v | ∃ x ∈ T, v ∈ (g.resolve x).vars}
  node : ∀ x ∈ T, ∀ v ∈ (g.resolve x).vars, g'.node? (ρ v) = g.node? v
  tree : ∀ x ∈ T, g'.resolve x = (g.resolve x).renameVars g' ρ

/-- The types of the set read the same in both graphs, up to a renaming of the free variables that
are new: from `n` on in the first graph, from `n'` on in the second. -/
def AgreeOn (T : Set TypeRef) (n n' : Nat) (g g' : Graph) : Prop :=
  ∃ ρ, g.RenamesTo g' T n n' ρ

lemma AgreeOn.mono (h : AgreeOn T n n' g g') (hT : T' ⊆ T) : AgreeOn T' n n' g g' := by
  obtain ⟨ρ, h⟩ := h
  refine ⟨ρ, h.old, h.new, h.inj.mono ?_, fun x hx => h.node x (hT hx),
    fun x hx => h.tree x (hT hx)⟩
  rintro v ⟨x, hx, hv⟩
  exact ⟨x, hT hx, hv⟩

/-- It is enough to look at the variables from a later number on. -/
lemma AgreeOn.of_le {m m' k : Nat} (h : AgreeOn T m m' g g') (hm : k ≤ m) (hm' : k ≤ m') :
    AgreeOn T k k g g' := by
  obtain ⟨ρ, h⟩ := h
  refine ⟨ρ, fun v hv => h.old v (hv.trans_le hm), fun v hv => ?_, h.inj, h.node, h.tree⟩
  by_cases hvm : v < m
  · rwa [h.old v hvm]
  · exact hm'.trans (h.new v (Nat.le_of_not_lt hvm))

end Graph

/-! ### Types that keep their numbers -/

namespace Renumbering

variable {T : Set TypeRef} {n n' : Nat} {g g' : Graph} {s s' : Store} {r x : TypeRef}

/-- Keeps the types of the set as they are. -/
def fixing (T : Set TypeRef) : Renumbering where
  types := T
  templates := Set.univ
  type := id
  template := id
  type_injOn := Set.injOn_id T

lemma node_fixing (m : Node) : (fixing T).node m = m := by
  cases m <;> simp [node, fixing]

/-- Keeps the types of the set as they are, and takes the types from `n` on to those from `n'` on,
in order. -/
def shift (T : Set TypeRef) (n n' : Nat) (hT : ∀ x ∈ T, x < n ∧ x < n') : Renumbering :=
  (fixing T).extend n n' hT

section Shift

variable {hT : ∀ x ∈ T, x < n ∧ x < n'}

lemma extends_shift : (fixing T).Extends (shift T n n' hT) n n' :=
  extends_extend hT

lemma mem_shift (hx : x ∈ T) : x ∈ (shift T n n' hT).types :=
  Or.inl hx

lemma type_shift_of_lt (hx : x < n) : (shift T n n' hT).type x = x :=
  if_pos hx

lemma type_shift_of_mem (hx : x ∈ T) : (shift T n n' hT).type x = x :=
  type_shift_of_lt (hT x hx).1

lemma le_type_shift (hx : n ≤ x) : n' ≤ (shift T n n' hT).type x := by
  simp [shift, extend, Nat.not_lt.mpr hx]

lemma separates_shift : (shift T n n' hT).Separates :=
  Set.injOn_id _

/-- All templates are kept, so errors have the same texts. -/
lemma eq_of_sameError_shift {e e' : TypeError} (h : (shift T n n' hT).SameError e e') : e = e' :=
  (h.2 fun _ _ => Iff.rfl).symm

/-- A tree whose references are old, apart from those of free variables, is only renamed. -/
lemma tree_shift {t : Tree} (ht : t.Rooted n)
    (hvars : ∀ p ∈ t.placeholders, p.kind = .flexible →
      g'.node? ((shift T n n' hT).type p.ref) = some (.var p.name none)) :
    (shift T n n' hT).tree t = t.renameVars g' (shift T n n' hT).type := by
  rw [Tree.renameVars]
  induction ht with
  | terminal hr => rw [tree_terminal, type_shift_of_lt hr, Tree.subst_terminal]
  | @flexible r name =>
    have hnode := hvars ⟨r, .flexible, name⟩ (by simp [Tree.placeholders]) rfl
    rw [tree_placeholder, Tree.subst_flexible, hnode]
    rfl
  | rigid hr =>
    rw [tree_placeholder, Tree.subst_rigid, placeholder, type_shift_of_lt hr]
  | inst _ ih =>
    rw [tree_inst, Tree.subst_inst]
    congr 1
    exact List.map_congr_left fun u hu => ih u hu fun p hp =>
      hvars p (Tree.mem_placeholders_inst.mpr ⟨u, hu, hp⟩)
  | union hr _ ih =>
    rw [tree_union, Tree.subst_union, type_shift_of_lt hr]
    congr 1
    exact List.map_congr_left fun u hu => ih u hu fun p hp =>
      hvars p (Tree.mem_placeholders_union.mpr ⟨u, hu, hp⟩)

/-- Types that keep their numbers read the same up to the new variables. -/
lemma Relates.agreeOn (h : (shift T n n' hT).Relates g g') (hg : g.WellFormed)
    (hg' : g'.WellFormed) (hlt : ∀ x ∈ T, x < g.nodes.size ∧ (g.resolve x).Rooted n) :
    Graph.AgreeOn T n n' g g' := by
  have hfree : ∀ x ∈ T, ∀ p ∈ (g.resolve x).placeholders, p.kind = .flexible →
      p.ref ∈ (shift T n n' hT).types ∧ g.node? p.ref = some (.var p.name none) := by
    intro x hx p hp hk
    obtain ⟨hreach, hnode, -⟩ := Graph.mem_placeholders_resolve hg (hlt x hx).1 hp
    exact ⟨h.encloses.reaches (mem_shift hx) hreach, hnode hk⟩
  have hnode : ∀ x ∈ T, ∀ p ∈ (g.resolve x).placeholders, p.kind = .flexible →
      g'.node? ((shift T n n' hT).type p.ref) = some (.var p.name none) := by
    intro x hx p hp hk
    obtain ⟨hmem, hn⟩ := hfree x hx p hp hk
    rw [h.node p.ref hmem, hn]
    rfl
  refine ⟨(shift T n n' hT).type, fun v => type_shift_of_lt, fun v => le_type_shift, ?_, ?_, ?_⟩
  · refine (shift T n n' hT).type_injOn.mono ?_
    rintro v ⟨x, hx, hv⟩
    obtain ⟨p, hp, hk, rfl⟩ := Tree.mem_vars.mp hv
    exact (hfree x hx p hp hk).1
  · intro x hx v hv
    obtain ⟨p, hp, hk, rfl⟩ := Tree.mem_vars.mp hv
    rw [hnode x hx p hp hk, (hfree x hx p hp hk).2]
  · intro x hx
    have hread := h.resolve hg hg' (mem_shift hx)
    rw [type_shift_of_mem hx] at hread
    rw [hread]
    exact tree_shift (hlt x hx).2 (hnode x hx)

end Shift

end Renumbering

/-! ### Stores that share types -/

namespace Store

variable {T : Set TypeRef} {s s' : Store}

/-- Both stores have the types of the set, with all that they lead to and with the same templates.
What else they have does not matter. -/
structure Shares (T : Set TypeRef) (s s' : Store) : Prop where
  left      : s.graph.WellFormed
  right     : s'.graph.WellFormed
  encloses  : s.graph.Encloses T
  lt_size   : ∀ x ∈ T, x < s.graph.nodes.size
  node      : ∀ x ∈ T, s'.graph.node? x = s.graph.node? x
  templates : s'.graph.templates = s.graph.templates

lemma Shares.lt_sizes (h : s.Shares T s') :
    ∀ x ∈ T, x < s.graph.nodes.size ∧ x < s'.graph.nodes.size := by
  intro x hx
  obtain ⟨n, hn⟩ := Graph.exists_node? (h.lt_size x hx)
  exact ⟨h.lt_size x hx, Graph.lt_size_of_node? ((h.node x hx).trans hn)⟩

/-- The renumbering between two stores that share types: it keeps the shared types, and takes those
that the one store will add to those that the other will add. -/
def Shares.shift (h : s.Shares T s') : Renumbering :=
  .shift T s.graph.nodes.size s'.graph.nodes.size h.lt_sizes

lemma Shares.mem_shift (h : s.Shares T s') {x : TypeRef} (hx : x ∈ T) : x ∈ h.shift.types :=
  Renumbering.mem_shift hx

lemma Shares.type_shift (h : s.Shares T s') {x : TypeRef} (hx : x ∈ T) : h.shift.type x = x :=
  Renumbering.type_shift_of_mem hx

lemma Shares.separates (h : s.Shares T s') : h.shift.Separates :=
  Renumbering.separates_shift

lemma Shares.relates (h : s.Shares T s') :
    (Renumbering.fixing T).Relates s.graph s'.graph where
  encloses := h.encloses
  applied _ _ _ _ _ := Set.mem_univ _
  node x hx := by
    rw [funext (Renumbering.node_fixing (T := T)), Option.map_id']
    exact h.node x hx
  name t _ := by simp [Renumbering.fixing, Graph.template?, h.templates]
  arity t _ := by simp [Renumbering.fixing, Graph.template?, h.templates]

/-- Stores that share types and have empty trails are related. -/
lemma Shares.tracks (h : s.Shares T s') (ht : s.trail = []) (ht' : s'.trail = []) :
    h.shift.TracksStore s s' where
  graph := h.relates.tracks Renumbering.extends_shift
  left := h.left
  right := h.right
  trail := by simp [ht, ht']
  bound := by simp [ht]

/-- Stores that both have all nodes of a graph share the types of that graph. -/
lemma shares_of_keeps {g : Graph} (hg : g.WellFormed) (hs : s.graph.WellFormed)
    (hs' : s'.graph.WellFormed) (h : g.Keeps s.graph) (h' : g.Keeps s'.graph)
    (htemplates : s'.graph.templates = s.graph.templates) :
    s.Shares {x | x < g.nodes.size} s' where
  left := hs
  right := hs'
  encloses x y hx hxy := by
    obtain ⟨n, hn⟩ := Graph.exists_node? hx
    rw [Graph.edge_of_node? (h hn), ← Graph.edge_of_node? hn] at hxy
    exact hg.closed hxy
  lt_size x hx := Nat.lt_of_lt_of_le hx h.extends.size_le
  node x hx := by
    obtain ⟨n, hn⟩ := Graph.exists_node? hx
    rw [h hn, h' hn]
  templates := htemplates

end Store

/-! ### The trail below the start of a run -/

namespace Store

variable {s : Store} {base : List TypeRef}

/-- The store with further variables at the end of its trail. -/
def onto (s : Store) (base : List TypeRef) : Store :=
  { s with trail := s.trail ++ base }

@[simp]
lemma graph_onto : (s.onto base).graph = s.graph := rfl

@[simp]
lemma renew_onto (how : Renewal) (r : TypeRef) :
    (s.onto base).renew how r = ((s.renew how r).1, (s.renew how r).2.onto base) := rfl

lemma mark_onto : (s.onto base).mark = s.mark + base.length := by
  simp [mark, onto]

/-- Going back stops before the further variables. -/
lemma rewind_onto (k : Nat) : (s.onto base).rewind (k + base.length) = (s.rewind k).onto base := by
  have hlen : s.trail.length + base.length - (k + base.length) = s.trail.length - k := by omega
  have hle : s.trail.length - k ≤ s.trail.length := Nat.sub_le _ _
  simp only [rewind, boundSince, onto, List.length_append, hlen, List.take_append_of_le_length hle,
    List.drop_append_of_le_length hle]

end Store

section Onto

variable {unify : Unifier} {base : List TypeRef}

/-- The unifier does not look at variables that were bound before it began. -/
def Unifier.Ignores (base : List TypeRef) (unify : Unifier) : Prop :=
  ∀ a b s, (unify a b s).Alike Eq Eq (fun s₁ s₁' => s₁' = s₁.onto base) (unify a b (s.onto base))

lemma unifyAll_onto (h : unify.Ignores base) (xs ys : List TypeRef) (s : Store) :
    (unifyAll unify xs ys s).Alike Eq Eq (fun s₁ s₁' => s₁' = s₁.onto base)
      (unifyAll unify xs ys (s.onto base)) := by
  induction xs generalizing ys s with
  | nil => exact .done rfl rfl
  | cons x xs ih =>
    cases ys with
    | nil => exact .done rfl rfl
    | cons y ys =>
      rw [unifyAll, unifyAll]
      refine (h x y s).andThen ?_
      rintro _ _ s₁ _ - - rfl
      exact ih ys s₁

lemma trial_onto (target m : TypeRef) (s : Store) :
    trial target m (s.onto base) = ((trial target m s).1, (trial target m s).2.onto base) := rfl

lemma fits_onto (h : unify.Ignores base) (target m : TypeRef) (s : Store) :
    (fits unify target m s).Alike Eq Eq (fun s₁ s₁' => s₁' = s₁.onto base)
      (fits unify target m (s.onto base)) := by
  have hrun := h (trial target m s).1.1 (trial target m s).1.2 (trial target m s).2
  rw [fits_eq_verdict, fits_eq_verdict, Store.mark_onto, trial_onto]
  generalize unify (trial target m s).1.1 (trial target m s).1.2 (trial target m s).2 = o,
    unify (trial target m s).1.1 (trial target m s).1.2 ((trial target m s).2.onto base) = o'
    at hrun ⊢
  cases hrun with
  | cut => exact .cut
  | done _ hs =>
    subst hs
    exact .done rfl (Store.rewind_onto _)
  | failed he hs =>
    subst he hs
    simp only [verdict, Store.rewind_onto]
    split_ifs
    · exact .done rfl rfl
    · exact .failed rfl rfl

lemma fitting_onto (h : unify.Ignores base) (target : TypeRef) (ms : List TypeRef) (s : Store) :
    (fitting unify target ms s).Alike Eq Eq (fun s₁ s₁' => s₁' = s₁.onto base)
      (fitting unify target ms (s.onto base)) := by
  induction ms generalizing s with
  | nil => exact .done rfl rfl
  | cons m ms ih =>
    rw [fitting, fitting]
    refine (fits_onto h target m s).andThen ?_
    rintro fit _ s₁ _ - rfl rfl
    exact (ih s₁).map fun _ _ hrest => by rw [hrest]

lemma choose_onto (h : unify.Ignores base) (u : TypeRef) (ms : List TypeRef) (target : TypeRef)
    (s : Store) :
    (choose unify u ms target s).Alike Eq Eq (fun s₁ s₁' => s₁' = s₁.onto base)
      (choose unify u ms target (s.onto base)) := by
  rw [choose, choose]
  refine (fitting_onto h target ms s).andThen ?_
  rintro viable _ s₁ _ - rfl rfl
  simp only [Store.graph_onto, Store.renew_onto]
  split
  · exact .failed rfl rfl
  · exact h _ _ _
  · exact .failed rfl rfl

lemma ignores_step (h : unify.Ignores base) : Unifier.Ignores base (step unify) := by
  intro a b s
  simp only [step, Store.graph_onto]
  cases s.graph.rule (s.graph.rep a) (s.graph.rep b) with
  | same => exact .done rfl rfl
  | assign v ty =>
    change (assign v ty s).Alike Eq Eq _ (assign v ty (s.onto base))
    rw [assign, assign, Store.graph_onto]
    split_ifs
    · exact .failed rfl rfl
    · exact .done rfl rfl
  | choose u ms target => exact choose_onto h u ms target s
  | descend xs ys => exact (unifyAll_onto h xs ys s).map fun _ _ _ => rfl
  | clash => exact .failed rfl rfl

/-- No run looks at what was bound before it began. -/
theorem ignores_unifier (base : List TypeRef) (depth : Nat) : (unifier depth).Ignores base := by
  induction depth with
  | zero => exact fun _ _ _ => .cut
  | succ depth ih => exact ignores_step ih

end Onto

/-! ### Unifications -/

namespace Engine

variable {e e' : Engine} {T : Set TypeRef} {P : Tree → Prop} {a b : TypeRef} {depth : Nat}

/-- A unification hands on what its run does, also if it takes its bindings back. -/
lemma unify_inherits (hP : Tree.Hereditary P) (he : e.WellFormed) (ha : e.Has a) (hb : e.Has b)
    (haP : P (e.graph.resolve a)) (hbP : P (e.graph.resolve b))
    (h : (e.unify depth a b).EndsIn e') (x : TypeRef) (hx : e.Has x) (hxP : P (e.graph.resolve x)) :
    P (e'.graph.resolve x) := by
  obtain ⟨s, hrun, rfl | rfl⟩ := unify_endsIn h
  · exact inherits_unifier hP depth he.graph ha hb haP hbP hrun x hx hxP
  · -- what is left after going back reads as before
    obtain ⟨hadv, hs⟩ := (lawful_unifier depth).advances he.graph ha hb hrun
    have hread := hadv.quiet_rewind.graph.resolve_eq he.graph (Store.wellFormed_rewind hs _) hx
    exact hread.symm ▸ hxP

end Engine

end Unification
