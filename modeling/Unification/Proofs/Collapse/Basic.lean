import Unification.Proofs.Collapse.Tree
import Unification.Proofs.OverloadOrder
import Unification.Proofs.StructuralEquality

/-!
# Graphs that share more

A type and a copy of it read the same up to the references of their placeholders, but they are not
the same graph: what the type holds once, at several places, the copy holds as often as it occurs. A
collapse relates the types of such a copy to those of the graph that they were copied from. This
file has the relation between two graphs, and shows that the rules for two types and their images
agree, except that types which are two in the first graph may be one in the second. The relation
stays when a variable and its image are bound, and when both graphs get new nodes.
-/

namespace Unification

/-! ### Representatives -/

namespace Graph

variable {g g' : Graph} {r v x ty : TypeRef}

lemma Keeps.rep_eq (h : g.Keeps g') (hg : g.WellFormed) (hg' : g'.WellFormed)
    (hr : r < g.nodes.size) : g'.rep r = g.rep r := by
  induction r using rep_induct hg with
  | none r hb =>
    obtain ⟨n, hn⟩ := exists_node? hr
    rw [rep_of_binding?_eq_none hb]
    apply rep_of_binding?_eq_none
    rwa [binding?, h hn, ← hn]
  | some r b hb ih =>
    rw [rep_of_binding? hg hb, rep_of_binding? hg' (h.extends.binding? hb),
      ih (hg.closed (edge_of_binding? hb))]

lemma binding?_bind_of_ne (ty : TypeRef) (h : x ≠ v) :
    (g.setBinding v (some ty)).binding? x = g.binding? x := by
  rw [binding?, node?_setBinding_of_ne g (some ty) h, binding?]

/-- What a variable represented is represented by what the variable is bound to. -/
lemma rep_bind (hg : g.WellFormed) (hv : g.isFree v = true) (hty : ty < g.nodes.size)
    (hrep : g.binding? ty = none) (hocc : ¬ g.Reaches ty v) (x : TypeRef) :
    (g.setBinding v (some ty)).rep x = if g.rep x = v then ty else g.rep x := by
  have hg₁ := hg.bind hv hty hocc
  have hne : ty ≠ v := by
    rintro rfl
    exact hocc Relation.ReflTransGen.refl
  induction x using rep_induct hg with
  | none x hb =>
    rw [rep_of_binding?_eq_none hb]
    by_cases hx : x = v
    · obtain ⟨name, -, hn⟩ := node?_bind ty hv
      rw [if_pos hx, hx, rep_of_binding? hg₁ (binding?_eq_some_iff.mpr ⟨name, hn⟩)]
      exact rep_of_binding?_eq_none (by rwa [binding?_bind_of_ne ty hne])
    · rw [if_neg hx]
      exact rep_of_binding?_eq_none (by rwa [binding?_bind_of_ne ty hx])
  | some x b hb ih =>
    have hx : x ≠ v := by
      rintro rfl
      obtain ⟨name, hn⟩ := (g.isFree_eq_true_iff x).mp hv
      simp [binding?, hn, Node.binding?] at hb
    rw [rep_of_binding? hg hb, rep_of_binding? hg₁ (by rwa [binding?_bind_of_ne ty hx]), ih]

end Graph

/-! ### Collapses -/

/-- How a graph that shares less is related to one that shares more. -/
structure Collapse where
  /-- Types that the graphs have in common, with all that they lead to. -/
  shared : Set TypeRef
  /-- The placeholders of the first graph that may occur in related types. -/
  live   : Set Placeholder
  /-- The placeholder of the second graph that stands for one of the first. -/
  image  : TypeRef → TypeRef
  /-- The types of the second graph that stand for types of the first. -/
  pairs  : TypeRef → TypeRef → Prop

namespace Collapse

variable {c c' : Collapse} {g g' g₁ g₁' : Graph} {a a' b b' x x' y y' : TypeRef}

/-- The references of the live placeholders. -/
def refs (c : Collapse) : Set TypeRef :=
  Placeholder.ref '' c.live

/-- The first graph collapses to the second. Related types read the same up to the references of
their placeholders, which correspond one to one, and are made of related types. Types that are one
in the first graph are one in the second, and what the graphs have in common stays itself. It holds
no free variables. -/
structure Holds (c : Collapse) (g g' : Graph) : Prop where
  shares  : Store.Shares c.shared ⟨g, []⟩ ⟨g', []⟩
  solid   : ∀ x ∈ c.shared, g.isFree x = false
  injOn   : Set.InjOn c.image c.refs
  live_lt : ∀ r ∈ c.refs, r < g.nodes.size ∧ c.image r < g'.nodes.size
  lt_size : ∀ ⦃x x'⦄, c.pairs x x' → x < g.nodes.size ∧ x' < g'.nodes.size
  within  : ∀ ⦃x x'⦄, c.pairs x x' → (g.resolve x).Within c.shared c.live
  tree    : ∀ ⦃x x'⦄, c.pairs x x' → g'.resolve x' = (g.resolve x).renumber c.image
  reps    : ∀ ⦃x x'⦄, c.pairs x x' → c.pairs (g.rep x) (g'.rep x')
  args    : ∀ ⦃x x' t t' xs xs'⦄, c.pairs x x' → g.node? x = some (.inst t xs) →
    g'.node? x' = some (.inst t' xs') → List.Forall₂ c.pairs xs xs'
  merges  : ∀ ⦃x x' y y'⦄, c.pairs x x' → c.pairs y y' → g.rep x = g.rep y → g'.rep x' = g'.rep y'
  fixes   : ∀ ⦃x x'⦄, c.pairs x x' → g.rep x ∈ c.shared → g'.rep x' = g.rep x

lemma Holds.left (h : c.Holds g g') : g.WellFormed :=
  h.shares.left

lemma Holds.right (h : c.Holds g g') : g'.WellFormed :=
  h.shares.right

/-- The second collapse relates all that the first relates, in the same way. -/
structure IsPart (c c' : Collapse) : Prop where
  shared : c'.shared = c.shared
  live   : c.live ⊆ c'.live
  image  : Set.EqOn c'.image c.image c.refs
  pairs  : ∀ ⦃x x'⦄, c.pairs x x' → c'.pairs x x'

lemma IsPart.refs (h : c.IsPart c') : c.refs ⊆ c'.refs :=
  Set.image_mono h.live

lemma IsPart.renumber_eq (h : c.IsPart c') {t : Tree} (ht : t.Within c.shared c.live) :
    t.renumber c'.image = t.renumber c.image := by
  apply Tree.relabel_congr
  intro p hp
  rw [h.image ⟨p, ht.mem hp, rfl⟩]

/-- The second collapse relates more, but it has no other constraints. -/
structure Grows (c c' : Collapse) : Prop extends c.IsPart c' where
  rigid : ∀ p ∈ c'.live, p.kind = .rigid → p ∈ c.live

lemma Grows.refl (c : Collapse) : c.Grows c :=
  ⟨⟨rfl, Set.Subset.rfl, fun _ _ => rfl, fun _ _ h => h⟩, fun _ h _ => h⟩

lemma Grows.trans {c'' : Collapse} (h : c.Grows c') (h' : c'.Grows c'') : c.Grows c'' where
  shared := h'.shared.trans h.shared
  live := h.live.trans h'.live
  image _ hr := (h'.image (h.refs hr)).trans (h.image hr)
  pairs _ _ hx := h'.pairs (h.pairs hx)
  rigid p hp hk := h.rigid p (h'.rigid p hp hk) hk

/-! ### Related types -/

/-- What two related representatives are. -/
inductive Faces (c : Collapse) (g g' : Graph) (a a' : TypeRef) : Prop where
  | terminal {name : String} : g.node? a = some (.terminal name) →
      g'.node? a' = some (.terminal name) → Faces c g g' a a'
  | flexible {name : Option String} : g.node? a = some (.var name none) →
      g'.node? a' = some (.var name none) → Faces c g g' a a'
  | rigid {name : Option String} : g.node? a = some (.constraint name) →
      g'.node? a' = some (.constraint name) → Faces c g g' a a'
  | inst {t : TemplateRef} {xs xs' : List TypeRef} : g.node? a = some (.inst t xs) →
      g'.node? a' = some (.inst t xs') → List.Forall₂ c.pairs xs xs' → Faces c g g' a a'
  | union {ms : List TypeRef} : g.node? a = some (.union ms) → g'.node? a' = some (.union ms) →
      a ∈ c.shared → a' = a → Faces c g g' a a'

lemma Holds.faces (h : c.Holds g g') (hx : c.pairs x x') :
    c.Faces g g' (g.rep x) (g'.rep x') := by
  obtain ⟨hlt, hlt'⟩ := h.lt_size hx
  have hreads := Graph.reads_rep h.left hlt
  have hreads' := Graph.reads_rep h.right hlt'
  have hwithin := h.within hx
  have hargs : ∀ {t t' xs xs'}, g.node? (g.rep x) = some (.inst t xs) →
      g'.node? (g'.rep x') = some (.inst t' xs') → List.Forall₂ c.pairs xs xs' :=
    fun hn hn' => h.args (h.reps hx) hn hn'
  rw [h.tree hx] at hreads'
  generalize g.resolve x = tree, g.rep x = a, g'.rep x' = a' at *
  cases hreads with
  | terminal hn =>
    rw [Tree.renumber_terminal] at hreads'
    cases hreads' with
    | terminal hn' => exact .terminal hn hn'
  | flexible hn =>
    rw [Tree.renumber_placeholder] at hreads'
    cases hreads' with
    | flexible hn' => exact .flexible hn hn'
  | rigid hn =>
    rw [Tree.renumber_placeholder] at hreads'
    cases hreads' with
    | rigid hn' => exact .rigid hn hn'
  | inst hn =>
    rw [Tree.renumber_inst] at hreads'
    generalize htree : Tree.inst _ _ = tree at hreads'
    cases hreads' with
    | inst hn' =>
      obtain ⟨rfl, -⟩ := Tree.inst.inj htree
      exact .inst hn hn' (hargs hn hn')
    | _ => cases htree
  | @union ms hn =>
    cases hwithin with
    | union hover =>
      have hshared := hover.mem_of_union
      rw [Tree.renumber_union] at hreads'
      generalize htree : Tree.union _ _ = tree at hreads'
      cases hreads' with
      | union hn' =>
        obtain ⟨rfl, -⟩ := Tree.union.inj htree
        exact .union hn ((h.shares.node _ hshared).trans hn) hshared rfl
      | _ => cases htree

/-- Types with one image read the same. -/
lemma Holds.resolve_eq (h : c.Holds g g') (hx : c.pairs x x') (hy : c.pairs y y')
    (heq : g'.rep x' = g'.rep y') : g.resolve x = g.resolve y := by
  apply Tree.Within.renumber_inj h.injOn (h.within hx) (h.within hy)
  rw [← h.tree hx, ← h.tree hy, ← Graph.resolve_rep h.right, heq, Graph.resolve_rep h.right]

/-- Types with one image that are not instances are one. -/
lemma Holds.rep_eq (h : c.Holds g g') (hx : c.pairs x x') (hy : c.pairs y y')
    (heq : g'.rep x' = g'.rep y') (hinst : ∀ t xs, g.node? (g.rep x) ≠ some (.inst t xs)) :
    g.rep x = g.rep y := by
  rcases Graph.rep_eq_or_inst h.left (h.lt_size hx).1 (h.lt_size hy).1 (h.resolve_eq hx hy heq) with
    hrep | ⟨t, xs, -, hn, -⟩
  · exact hrep
  · exact absurd hn (hinst t xs)

/-- The rules for two types and for their images. -/
inductive Rules (c : Collapse) (g g' : Graph) (a a' b b' : TypeRef) : Rule → Rule → Prop where
  | same : Rules c g g' a a' b b' .same .same
  | assignLeft : g.isFree (g.rep a) = true →
      Rules c g g' a a' b b' (.assign (g.rep a) (g.rep b)) (.assign (g'.rep a') (g'.rep b'))
  | assignRight : g.isFree (g.rep b) = true →
      Rules c g g' a a' b b' (.assign (g.rep b) (g.rep a)) (.assign (g'.rep b') (g'.rep a'))
  | chooseLeft {ms : List TypeRef} : g.node? (g.rep a) = some (.union ms) → g.rep a ∈ c.shared →
      Rules c g g' a a' b b' (.choose (g.rep a) ms (g.rep b)) (.choose (g.rep a) ms (g'.rep b'))
  | chooseRight {ms : List TypeRef} : g.node? (g.rep b) = some (.union ms) → g.rep b ∈ c.shared →
      Rules c g g' a a' b b' (.choose (g.rep b) ms (g.rep a)) (.choose (g.rep b) ms (g'.rep a'))
  | descend {xs xs' ys ys' : List TypeRef} : List.Forall₂ c.pairs xs xs' →
      List.Forall₂ c.pairs ys ys' →
      Rules c g g' a a' b b' (.descend xs ys) (.descend xs' ys')
  | merged {t : TemplateRef} {xs ys : List TypeRef} : g.resolve a = g.resolve b →
      g.node? (g.rep a) = some (.inst t xs) → g.node? (g.rep b) = some (.inst t ys) →
      Rules c g g' a a' b b' (.descend xs ys) .same
  | clash {rule : Rule} : Rules c g g' a a' b b' .clash rule

/-- The rule for two types also applies to their images, unless these are one type. -/
theorem Holds.rule (h : c.Holds g g') (ha : c.pairs a a') (hb : c.pairs b b') :
    c.Rules g g' a a' b b' (g.rule (g.rep a) (g.rep b)) (g'.rule (g'.rep a') (g'.rep b')) := by
  have hmerge := h.merges ha hb
  have hrep := h.rep_eq ha hb
  have hfa := h.faces ha
  have hfb := h.faces hb
  by_cases heq : g.rep a = g.rep b
  · cases hfa with
    | @union ms hn hn' hshared himage =>
      have hrule : g.rule (g.rep a) (g.rep b) = .choose (g.rep a) ms (g.rep b) := by
        simp only [Graph.rule, ← heq, hn]
      have hrule' : g'.rule (g'.rep a') (g'.rep b') = .choose (g.rep a) ms (g'.rep b') := by
        simp only [Graph.rule, ← hmerge heq, hn']
        rw [himage]
      rw [hrule, hrule']
      exact .chooseLeft hn hshared
    | terminal hn hn' | flexible hn hn' | rigid hn hn' | inst hn hn' _ =>
      rw [← heq, ← hmerge heq, Graph.rule_self (by simp [hn]), Graph.rule_self (by simp [hn'])]
      exact .same
  cases hfa with
  | flexible hn hn' =>
    have hne : g'.rep a' ≠ g'.rep b' := fun h => heq (hrep h (by simp [hn]))
    simp only [Graph.rule, hn, hn', heq, hne, if_false]
    exact .assignLeft (Graph.isFree_rep h.left hn)
  | union hn hn' hshared himage =>
    cases hfb with
    | flexible hm hm' =>
      simp only [Graph.rule, hn, hn', hm, hm']
      exact .assignRight (Graph.isFree_rep h.left hm)
    | terminal hm hm' | rigid hm hm' | inst hm hm' _ | union hm hm' _ _ =>
      simp only [Graph.rule, hn, hn', hm, hm']
      rw [himage]
      exact .chooseLeft hn hshared
  | inst hn hn' hargs =>
    cases hfb with
    | flexible hm hm' =>
      simp only [Graph.rule, hn, hn', hm, hm']
      exact .assignRight (Graph.isFree_rep h.left hm)
    | union hm hm' hshared himage =>
      simp only [Graph.rule, hn, hn', hm, hm']
      rw [himage]
      exact .chooseRight hm hshared
    | terminal hm hm' | rigid hm hm' =>
      simp only [Graph.rule, hn, hn', hm, hm', heq, if_false]
      exact .clash
    | inst hm hm' hargs' =>
      simp only [Graph.rule, hn, hn', hm, hm', heq, if_false]
      split_ifs with htemplate heq' heq'
      · subst htemplate
        exact .merged (h.resolve_eq ha hb heq') hn hm
      · exact .descend hargs hargs'
      · exact .clash
      · exact .clash
  | terminal hn hn' | rigid hn hn' =>
    cases hfb with
    | flexible hm hm' =>
      simp only [Graph.rule, hn, hn', hm, hm']
      exact .assignRight (Graph.isFree_rep h.left hm)
    | union hm hm' hshared himage =>
      simp only [Graph.rule, hn, hn', hm, hm']
      rw [himage]
      exact .chooseRight hm hshared
    | terminal hm hm' | rigid hm hm' | inst hm hm' _ =>
      simp only [Graph.rule, hn, hn', hm, hm', heq, if_false]
      exact .clash

/-! ### Growth of both graphs -/

/-- Types without free variables stay as they are. -/
lemma shares_of_extends {C : Set TypeRef} (h : Store.Shares C ⟨g, []⟩ ⟨g', []⟩)
    (hsolid : ∀ x ∈ C, g.isFree x = false) (hext : g.Extends g₁) (hext' : g'.Extends g₁')
    (hg₁ : g₁.WellFormed) (hg₁' : g₁'.WellFormed) (htemplates : g₁'.templates = g₁.templates) :
    Store.Shares C ⟨g₁, []⟩ ⟨g₁', []⟩ ∧ ∀ x ∈ C, g₁.isFree x = false := by
  have hnode : ∀ x ∈ C, ∃ n, g.node? x = some n ∧ g₁.node? x = some n ∧ g₁'.node? x = some n := by
    intro x hx
    obtain ⟨n, hn⟩ := Graph.exists_node? (h.lt_size x hx)
    have hfree : n.isFree = false := by
      simpa [Graph.isFree, hn] using hsolid x hx
    exact ⟨n, hn, hext.node? hn hfree, hext'.node? ((h.node x hx).trans hn) hfree⟩
  refine ⟨⟨hg₁, hg₁', ?_, ?_, ?_, htemplates⟩, ?_⟩
  · intro x y hx hxy
    obtain ⟨n, hn, hn₁, -⟩ := hnode x hx
    rw [Graph.edge_of_node? hn₁, ← Graph.edge_of_node? hn] at hxy
    exact h.encloses hx hxy
  · exact fun x hx => (h.lt_size x hx).trans_le hext.size_le
  · intro x hx
    obtain ⟨n, -, hn₁, hn₁'⟩ := hnode x hx
    exact hn₁'.trans hn₁.symm
  · intro x hx
    obtain ⟨n, hn, hn₁, -⟩ := hnode x hx
    rw [Graph.isFree, hn₁, ← hn]
    exact hsolid x hx

/-- New nodes in either graph do not matter. -/
lemma Holds.keeps (h : c.Holds g g') (hkeep : g.Keeps g₁) (hkeep' : g'.Keeps g₁')
    (hg₁ : g₁.WellFormed) (hg₁' : g₁'.WellFormed) (htemplates : g₁'.templates = g₁.templates) :
    c.Holds g₁ g₁' := by
  obtain ⟨hshares, hsolid⟩ := shares_of_extends h.shares h.solid hkeep.extends hkeep'.extends hg₁
    hg₁' htemplates
  have hle := hkeep.extends.size_le
  have hle' := hkeep'.extends.size_le
  have hread : ∀ {x x'}, c.pairs x x' →
      g₁.resolve x = g.resolve x ∧ g₁'.resolve x' = g'.resolve x' :=
    fun hx => ⟨hkeep.resolve_eq h.left hg₁ (h.lt_size hx).1,
      hkeep'.resolve_eq h.right hg₁' (h.lt_size hx).2⟩
  have hrep : ∀ {x x'}, c.pairs x x' → g₁.rep x = g.rep x ∧ g₁'.rep x' = g'.rep x' :=
    fun hx => ⟨hkeep.rep_eq h.left hg₁ (h.lt_size hx).1,
      hkeep'.rep_eq h.right hg₁' (h.lt_size hx).2⟩
  have hnode : ∀ {g g₁ : Graph} {x n}, g.Keeps g₁ → x < g.nodes.size → g₁.node? x = some n →
      g.node? x = some n := by
    intro g g₁ x n hk hx hn
    obtain ⟨m, hm⟩ := Graph.exists_node? hx
    rw [hm, ← hk hm, hn]
  refine ⟨hshares, hsolid, h.injOn, ?_, ?_, ?_, ?_, ?_, ?_, ?_, ?_⟩
  · exact fun r hr => (h.live_lt r hr).imp (·.trans_le hle) (·.trans_le hle')
  · exact fun x x' hx => (h.lt_size hx).imp (·.trans_le hle) (·.trans_le hle')
  · intro x x' hx
    rw [(hread hx).1]
    exact h.within hx
  · intro x x' hx
    rw [(hread hx).1, (hread hx).2]
    exact h.tree hx
  · intro x x' hx
    rw [(hrep hx).1, (hrep hx).2]
    exact h.reps hx
  · intro x x' t t' xs xs' hx hn hn'
    exact h.args hx (hnode hkeep (h.lt_size hx).1 hn) (hnode hkeep' (h.lt_size hx).2 hn')
  · intro x x' y y' hx hy heq
    rw [(hrep hx).1, (hrep hy).1] at heq
    rw [(hrep hx).2, (hrep hy).2]
    exact h.merges hx hy heq
  · intro x x' hx hmem
    rw [(hrep hx).1] at hmem ⊢
    rw [(hrep hx).2]
    exact h.fixes hx hmem

/-! ### Binding a variable and its image -/

/-- The image of a free variable is a free variable, and is known by its reference. -/
lemma Holds.rep_of_flexible (h : c.Holds g g') (ha : c.pairs a a')
    (hfree : g.isFree (g.rep a) = true) :
    g'.isFree (g'.rep a') = true ∧ g'.rep a' = c.image (g.rep a) ∧ g.rep a ∈ c.refs := by
  obtain ⟨name, hn⟩ := (g.isFree_eq_true_iff _).mp hfree
  have htree : g.resolve a = .placeholder ⟨g.rep a, .flexible, name⟩ := by
    rw [← Graph.resolve_rep h.left, Graph.resolve_free hn]
  have htree' := h.tree ha
  have hwithin := h.within ha
  rw [htree, Tree.renumber_placeholder] at htree'
  rw [htree] at hwithin
  obtain ⟨hrep, hn'⟩ := Graph.rep_of_resolve_eq_flexible h.right (h.lt_size ha).2 htree'
  refine ⟨?_, hrep, ?_⟩
  · rw [hrep]
    exact (g'.isFree_eq_true_iff _).mpr ⟨name, hn'⟩
  · cases hwithin with
    | placeholder hp => exact ⟨_, hp, rfl⟩

/-- A free variable that does not occur in a type has an image that does not occur in the image of
the type. -/
lemma Holds.not_reaches (h : c.Holds g g') (ha : c.pairs a a') (hb : c.pairs b b')
    (hfree : g.isFree (g.rep a) = true) (hocc : ¬ g.Reaches (g.rep b) (g.rep a)) :
    ¬ g'.Reaches (g'.rep b') (g'.rep a') := by
  obtain ⟨hfree', himage, hmem⟩ := h.rep_of_flexible ha hfree
  intro hreach
  have hvar := Graph.mem_vars_resolve_of_reaches h.right hreach hfree'
  rw [Graph.resolve_rep h.right, h.tree hb, himage] at hvar
  obtain ⟨_, hp, -, href⟩ := ((h.within hb).renumber c.image).exists_outer hvar
  rw [Tree.outerPlaceholders_renumber, List.mem_map] at hp
  obtain ⟨p, hp, rfl⟩ := hp
  have heq : p.ref = g.rep a := h.injOn ⟨p, (h.within hb).mem hp, rfl⟩ hmem href
  rw [← Graph.resolve_rep h.left] at hp
  have hlt := Graph.rep_lt_size h.left (h.lt_size hb).1
  obtain ⟨hreach, -⟩ := Graph.mem_placeholders_resolve h.left hlt
    (Tree.outerPlaceholders_subset _ hp)
  exact hocc (heq ▸ hreach)

/-- After a variable and its image are bound, two related types have representatives that were
representatives of related types before. -/
lemma Holds.exists_rep_bind (h : c.Holds g g') (ha : c.pairs a a') (hb : c.pairs b b')
    (hfree : g.isFree (g.rep a) = true) (hocc : ¬ g.Reaches (g.rep b) (g.rep a))
    (hx : c.pairs x x') :
    ∃ y y', c.pairs y y' ∧ (g.setBinding (g.rep a) (some (g.rep b))).rep x = g.rep y ∧
      (g'.setBinding (g'.rep a') (some (g'.rep b'))).rep x' = g'.rep y' := by
  obtain ⟨hfree', -⟩ := h.rep_of_flexible ha hfree
  have hocc' := h.not_reaches ha hb hfree hocc
  rw [Graph.rep_bind h.left hfree (Graph.rep_lt_size h.left (h.lt_size hb).1)
      (Graph.binding?_rep h.left b) hocc,
    Graph.rep_bind h.right hfree' (Graph.rep_lt_size h.right (h.lt_size hb).2)
      (Graph.binding?_rep h.right b') hocc']
  by_cases heq : g.rep x = g.rep a
  · have heq' := h.merges hx ha heq
    exact ⟨b, b', hb, by rw [if_pos heq], by rw [if_pos heq']⟩
  · have heq' : g'.rep x' ≠ g'.rep a' := by
      intro h'
      obtain ⟨name, hn⟩ := (g.isFree_eq_true_iff _).mp hfree
      exact heq (h.rep_eq ha hx h'.symm (by simp [hn])).symm
    exact ⟨x, x', hx, by rw [if_neg heq], by rw [if_neg heq']⟩

/-- Related types still read the same after a variable and its image are bound. -/
lemma Holds.tree_bind (h : c.Holds g g') (ha : c.pairs a a') (hb : c.pairs b b')
    (hfree : g.isFree (g.rep a) = true) (hocc : ¬ g.Reaches (g.rep b) (g.rep a))
    (hx : c.pairs x x') :
    ((g.setBinding (g.rep a) (some (g.rep b))).resolve x).Within c.shared c.live ∧
      (g'.setBinding (g'.rep a') (some (g'.rep b'))).resolve x' =
        ((g.setBinding (g.rep a) (some (g.rep b))).resolve x).renumber c.image := by
  obtain ⟨hfree', himage, hmem⟩ := h.rep_of_flexible ha hfree
  have hocc' := h.not_reaches ha hb hfree hocc
  have hlt := Graph.rep_lt_size h.left (h.lt_size hb).1
  have hlt' := Graph.rep_lt_size h.right (h.lt_size hb).2
  rw [(Graph.extends_bind _ hfree).resolve_eq h.left (h.left.bind hfree hlt hocc),
    (Graph.extends_bind _ hfree').resolve_eq h.right (h.right.bind hfree' hlt' hocc'), h.tree hx]
  -- a variable reads as what it is bound to, or as itself
  have hvar : ∀ p ∈ (g.resolve x).outerPlaceholders, p.kind = .flexible →
      ((g.setBinding (g.rep a) (some (g.rep b))).resolve p.ref).Within c.shared c.live ∧
        (g'.setBinding (g'.rep a') (some (g'.rep b'))).resolve (c.image p.ref) =
          ((g.setBinding (g.rep a) (some (g.rep b))).resolve p.ref).renumber c.image := by
    intro p hp hk
    have hlive := (h.within hx).mem hp
    have hp' : ({ p with ref := c.image p.ref } : Placeholder) ∈
        (g'.resolve x').outerPlaceholders := by
      rw [h.tree hx, Tree.outerPlaceholders_renumber]
      exact List.mem_map_of_mem hp
    have hpfree := Graph.isFree_of_mem_vars h.left (h.lt_size hx).1
      (Tree.mem_vars.mpr ⟨p, Tree.outerPlaceholders_subset _ hp, hk, rfl⟩)
    have hpfree' := Graph.isFree_of_mem_vars h.right (h.lt_size hx).2
      (Tree.mem_vars.mpr ⟨_, Tree.outerPlaceholders_subset _ hp', hk, rfl⟩)
    rcases Graph.resolve_bind_free h.left hfree hlt hocc hpfree with ⟨heq, hread⟩ | ⟨hne, hread, -⟩
    · have heq' : c.image p.ref = g'.rep a' := by rw [heq, himage]
      rcases Graph.resolve_bind_free h.right hfree' hlt' hocc' hpfree' with
        ⟨-, hread'⟩ | ⟨hne', -⟩
      · rw [hread, hread', Graph.resolve_rep h.left, Graph.resolve_rep h.right]
        exact ⟨h.within hb, h.tree hb⟩
      · exact absurd heq' hne'
    · have hne' : c.image p.ref ≠ g'.rep a' := by
        rw [himage]
        exact fun heq => hne (h.injOn ⟨p, hlive, rfl⟩ hmem heq)
      rcases Graph.resolve_bind_free h.right hfree' hlt' hocc' hpfree' with
        ⟨heq', -⟩ | ⟨-, hread', -⟩
      · exact absurd heq' hne'
      · have hshow := Graph.shows_of_mem_outerPlaceholders h.left (h.lt_size hx).1 hp
        have hshow' := Graph.shows_of_mem_outerPlaceholders h.right (h.lt_size hx).2 hp'
        rw [hread, hread', hshow.resolve_placeholder, hshow'.resolve_placeholder,
          Tree.renumber_placeholder]
        exact ⟨.placeholder hlive, rfl⟩
  exact ⟨(h.within hx).subst fun p hp hk => (hvar p hp hk).1,
    (h.within hx).subst_renumber fun p hp hk => (hvar p hp hk).2⟩

/-- The graphs are still related after a variable and its image are bound. -/
theorem Holds.bind (h : c.Holds g g') (ha : c.pairs a a') (hb : c.pairs b b')
    (hfree : g.isFree (g.rep a) = true) (hocc : ¬ g.Reaches (g.rep b) (g.rep a)) :
    c.Holds (g.setBinding (g.rep a) (some (g.rep b)))
      (g'.setBinding (g'.rep a') (some (g'.rep b'))) := by
  obtain ⟨hfree', -⟩ := h.rep_of_flexible ha hfree
  have hg₁ := h.left.bind hfree (Graph.rep_lt_size h.left (h.lt_size hb).1) hocc
  have hg₁' := h.right.bind hfree' (Graph.rep_lt_size h.right (h.lt_size hb).2)
    (h.not_reaches ha hb hfree hocc)
  obtain ⟨hshares, hsolid⟩ := shares_of_extends h.shares h.solid (Graph.extends_bind _ hfree)
    (Graph.extends_bind _ hfree') hg₁ hg₁' (by simpa using h.shares.templates)
  have hrep := fun x x' (hx : c.pairs x x') => h.exists_rep_bind ha hb hfree hocc hx
  have htree := fun x x' (hx : c.pairs x x') => h.tree_bind ha hb hfree hocc hx
  -- a variable that got a binding is no instance
  have hinst : ∀ {g : Graph} {v w x t xs}, g.isFree v = true →
      (g.setBinding v (some w)).node? x = some (.inst t xs) → g.node? x = some (.inst t xs) := by
    intro g v w x t xs hv hn
    by_cases hxv : x = v
    · obtain ⟨name, -, hn'⟩ := Graph.node?_bind w hv
      rw [hxv, hn'] at hn
      cases hn
    · rwa [Graph.node?_setBinding_of_ne g (some w) hxv] at hn
  refine ⟨hshares, hsolid, h.injOn, ?_, ?_, ?_, ?_, ?_, ?_, ?_, ?_⟩
  · simpa using h.live_lt
  · simpa using h.lt_size
  · exact fun x x' hx => (htree x x' hx).1
  · exact fun x x' hx => (htree x x' hx).2
  · intro x x' hx
    obtain ⟨y, y', hy, hxy, hxy'⟩ := hrep x x' hx
    rw [hxy, hxy']
    exact h.reps hy
  · exact fun x x' t t' xs xs' hx hn hn' => h.args hx (hinst hfree hn) (hinst hfree' hn')
  · intro x₁ x₁' x₂ x₂' hx₁ hx₂ heq
    obtain ⟨y₁, y₁', hy₁, hxy₁, hxy₁'⟩ := hrep x₁ x₁' hx₁
    obtain ⟨y₂, y₂', hy₂, hxy₂, hxy₂'⟩ := hrep x₂ x₂' hx₂
    rw [hxy₁, hxy₂] at heq
    rw [hxy₁', hxy₂']
    exact h.merges hy₁ hy₂ heq
  · intro x x' hx hmem
    obtain ⟨y, y', hy, hxy, hxy'⟩ := hrep x x' hx
    rw [hxy] at hmem ⊢
    rw [hxy']
    exact h.fixes hy hmem

/-! ### Two collapses at once -/

open Classical in
/-- Relates what either collapse relates. -/
noncomputable def join (c d : Collapse) : Collapse where
  shared := c.shared
  live := c.live ∪ d.live
  image r := if r ∈ d.refs then d.image r else c.image r
  pairs x x' := c.pairs x x' ∨ d.pairs x x'

variable {d : Collapse}

lemma refs_join (c d : Collapse) : (c.join d).refs = c.refs ∪ d.refs :=
  Set.image_union _ _ _

lemma isPart_join_left (hrefs : ∀ r ∈ c.refs, r ∉ d.refs) : c.IsPart (c.join d) where
  shared := rfl
  live := Set.subset_union_left
  image r hr := if_neg (hrefs r hr)
  pairs _ _ := Or.inl

lemma isPart_join_right (hshared : d.shared = c.shared) : d.IsPart (c.join d) where
  shared := hshared.symm
  live := Set.subset_union_right
  image _ hr := if_pos hr
  pairs _ _ := Or.inr

/-- Two collapses hold together if they are about different placeholders, and if a type that both
relate is one that the graphs have in common. -/
theorem Holds.join (h : c.Holds g g') (hd : d.Holds g g') (hshared : d.shared = c.shared)
    (hrefs : ∀ r ∈ c.refs, r ∉ d.refs) (himage : ∀ r ∈ c.refs, ∀ q ∈ d.refs, c.image r ≠ d.image q)
    (hcross : ∀ x x' y y', c.pairs x x' → d.pairs y y' → g.rep x = g.rep y →
      g.rep x ∈ c.shared) : (c.join d).Holds g g' := by
  have hc := isPart_join_left hrefs
  have hd' := isPart_join_right hshared
  refine ⟨h.shares, h.solid, ?_, ?_, ?_, ?_, ?_, ?_, ?_, ?_, ?_⟩
  · rw [refs_join, Set.injOn_union (Set.disjoint_left.mpr hrefs)]
    refine ⟨h.injOn.congr hc.image.symm, hd.injOn.congr hd'.image.symm, fun r hr q hq => ?_⟩
    rw [hc.image hr, hd'.image hq]
    exact himage r hr q hq
  · rw [refs_join]
    rintro r (hr | hr)
    · rw [hc.image hr]
      exact h.live_lt r hr
    · rw [hd'.image hr]
      exact hd.live_lt r hr
  · rintro x x' (hx | hx)
    · exact h.lt_size hx
    · exact hd.lt_size hx
  · rintro x x' (hx | hx)
    · exact (h.within hx).mono hc.live
    · exact (hshared ▸ hd.within hx).mono hd'.live
  · rintro x x' (hx | hx)
    · rw [hc.renumber_eq (h.within hx)]
      exact h.tree hx
    · rw [hd'.renumber_eq (hd.within hx)]
      exact hd.tree hx
  · rintro x x' (hx | hx)
    · exact Or.inl (h.reps hx)
    · exact Or.inr (hd.reps hx)
  · rintro x x' t t' xs xs' (hx | hx) hn hn'
    · exact (h.args hx hn hn').imp hc.pairs
    · exact (hd.args hx hn hn').imp hd'.pairs
  · have hmixed : ∀ {x x' y y'}, c.pairs x x' → d.pairs y y' → g.rep x = g.rep y →
        g'.rep x' = g'.rep y' := by
      intro x x' y y' hx hy heq
      have hmem := hcross x x' y y' hx hy heq
      rw [h.fixes hx hmem, heq, hd.fixes hy (by rwa [hshared, ← heq])]
    rintro x x' y y' (hx | hx) (hy | hy) heq
    · exact h.merges hx hy heq
    · exact hmixed hx hy heq
    · exact (hmixed hy hx heq.symm).symm
    · exact hd.merges hx hy heq
  · rintro x x' (hx | hx) hmem
    · exact h.fixes hx hmem
    · exact hd.fixes hx (hshared ▸ hmem)

end Collapse

end Unification
