import Unification.Proofs.MostGeneral
import Unification.Proofs.Renumbering.Text
import Unification.Proofs.Replacement

/-!
# Generalizing and instantiating undo each other

A type without constraints that is generalized and then instantiated is the type again, with other
variables in place of its own; and so is a type without variables that is instantiated and then
generalized, with other constraints. Doing either twice is the same as doing it once. Overload sets
are left out of all this: they stay as they are. Since a text does not show references, a copy of a
type without overload sets has the text of the type.
-/

namespace Unification

/-! ### Variants -/

namespace Tree

variable {t : Tree} {ρ : TypeRef → TypeRef}

/-- The tree with other references for its placeholders outside overload sets. -/
def renumber (ρ : TypeRef → TypeRef) (t : Tree) : Tree :=
  t.relabel fun p => { p with ref := ρ p.ref }

lemma outerRefs_renumber (ρ : TypeRef → TypeRef) (t : Tree) :
    (t.renumber ρ).outerRefs = ρ '' t.outerRefs := by
  ext x
  simp [outerRefs, renumber, outerPlaceholders_relabel]

/-- The second tree is the first one with other references for its placeholders outside overload
sets. The placeholders keep their kinds and their names, and the references correspond one to
one. -/
def Variant (t u : Tree) : Prop :=
  ∃ ρ : TypeRef → TypeRef, Set.BijOn ρ t.outerRefs u.outerRefs ∧ u = t.renumber ρ

lemma variant_renumber (h : Set.InjOn ρ t.outerRefs) : t.Variant (t.renumber ρ) := by
  refine ⟨ρ, ?_, rfl⟩
  rw [outerRefs_renumber]
  exact h.bijOn_image

end Tree

/-! ### One renewal after another -/

namespace Graph

variable {g g₁ g₂ : Graph} {r r₁ r₂ : TypeRef} {first second : Renewal} {ρ σ : TypeRef → TypeRef}

/-- What is read after two renewals. -/
lemma RenewsTo.tree_trans (h₁ : g.RenewsTo r first ρ g₁ r₁) (h₂ : g₁.RenewsTo r₁ second σ g₂ r₂) :
    g₂.resolve r₂ = (g.resolve r).relabel (second.image σ ∘ first.image ρ) := by
  rw [h₂.tree, h₁.tree, Tree.relabel_relabel]

lemma RenewsTo.outerRefs_eq (h : g.RenewsTo r first ρ g₁ r₁) :
    (g₁.resolve r₁).outerRefs = ρ '' (g.resolve r).outerRefs := by
  ext x
  simp [Tree.outerRefs, h.tree, Tree.outerPlaceholders_relabel, Renewal.image]

/-- Two renewals after which every placeholder has its kind again renumber the placeholders, one for
one. -/
lemma RenewsTo.renumber_trans (h₁ : g.RenewsTo r first ρ g₁ r₁)
    (h₂ : g₁.RenewsTo r₁ second σ g₂ r₂)
    (hkind : ∀ p ∈ (g.resolve r).outerPlaceholders, second.kind (first.kind p.kind) = p.kind) :
    g₂.resolve r₂ = (g.resolve r).renumber (σ ∘ ρ) ∧
      Set.InjOn (σ ∘ ρ) (g.resolve r).outerRefs := by
  constructor
  · rw [h₁.tree_trans h₂]
    apply Tree.relabel_congr
    intro p hp
    simp [Renewal.image, hkind p hp]
  · refine h₂.injOn.comp h₁.injOn ?_
    rw [h₁.outerRefs_eq]
    exact Set.mapsTo_image ρ _

/-- A renewal that spares what another one has left changes nothing more. -/
lemma RenewsTo.tree_eq_of_spares (h₁ : g.RenewsTo r first ρ g₁ r₁)
    (h₂ : g₁.RenewsTo r₁ second σ g₂ r₂) (hspares : ∀ k, second.Spares (first.kind k)) :
    g₂.resolve r₂ = g₁.resolve r₁ := by
  rw [h₂.tree]
  apply Tree.relabel_eq_self
  intro p hp
  have hspared : second.Spares p.kind := by
    rw [h₁.tree, Tree.outerPlaceholders_relabel] at hp
    obtain ⟨q, -, rfl⟩ := List.mem_map.mp hp
    exact hspares q.kind
  exact hspared.image_eq (h₂.spared p hp hspared)

/-! ### Texts -/

open Classical in
/-- The renumbering of a graph that gives new references to the placeholders of a type outside
overload sets and keeps all other references. -/
noncomputable def renumberingOf (g : Graph) (r : TypeRef) (ρ : TypeRef → TypeRef)
    (hinj : Set.InjOn ρ (g.resolve r).outerRefs)
    (hfresh : ∀ x ∈ (g.resolve r).outerRefs, g.nodes.size ≤ ρ x) : Renumbering where
  types := {x | x < g.nodes.size}
  templates := Set.univ
  type x := if x ∈ (g.resolve r).outerRefs then ρ x else x
  template := id
  type_injOn := by
    intro x hx y hy heq
    simp only at heq
    split_ifs at heq with hxT hyT hyT
    · exact hinj hxT hyT heq
    · exact absurd (heq ▸ hfresh x hxT) (Nat.not_le.mpr hy)
    · exact absurd (heq ▸ hfresh y hyT) (Nat.not_le.mpr hx)
    · exact heq

/-- On trees without overload sets whose placeholders are those of the type, such a renumbering
concerns the placeholders only. -/
lemma tree_renumberingOf (hg : g.WellFormed) (hr : r < g.nodes.size)
    (hinj : Set.InjOn ρ (g.resolve r).outerRefs)
    (hfresh : ∀ x ∈ (g.resolve r).outerRefs, g.nodes.size ≤ ρ x) {t : Tree} (ht : g.Shows t)
    (hplain : t.Plain) (hsub : t.outerPlaceholders ⊆ (g.resolve r).outerPlaceholders) :
    (g.renumberingOf r ρ hinj hfresh).tree t = t.renumber ρ := by
  rw [Tree.renumber]
  have hplaceholder : ∀ p ∈ (g.resolve r).outerPlaceholders,
      (g.renumberingOf r ρ hinj hfresh).placeholder p = { p with ref := ρ p.ref } := fun p hp => by
    simp [Renumbering.placeholder, renumberingOf, Tree.mem_outerRefs hp]
  induction ht with
  | @terminal x name hn =>
    -- a terminal is no placeholder
    have hx : x ∉ (g.resolve r).outerRefs := by
      rintro ⟨p, hp, rfl⟩
      cases shows_of_mem_outerPlaceholders hg hr hp with
      | flexible hn' => cases hn.symm.trans hn'
      | rigid hn' => cases hn.symm.trans hn'
    simp [renumberingOf, hx]
  | flexible hn | rigid hn =>
    rw [Renumbering.tree_placeholder, Tree.relabel_placeholder, hplaceholder _ (hsub (by simp))]
  | inst _ _ _ ih =>
    rw [Renumbering.tree_inst, Tree.relabel_inst]
    congr 1
    apply List.map_congr_left
    intro u hu
    refine ih u hu (hplain.of_mem_inst hu) fun p hp => hsub ?_
    simpa using ⟨u, hu, hp⟩
  | union hx htree =>
    cases hplain with
    | union h _ => exact absurd h id

/-- New references for its placeholders do not change the text of a type without overload sets. -/
theorem render_eq_of_renumber (hg : g.WellFormed) (hr : r < g.nodes.size)
    (hplain : (g.resolve r).Plain) (htemplates : g₁.templates = g.templates)
    (hinj : Set.InjOn ρ (g.resolve r).outerRefs)
    (hfresh : ∀ x ∈ (g.resolve r).outerRefs, g.nodes.size ≤ ρ x)
    (htree : g₁.resolve r₁ = (g.resolve r).renumber ρ) : g₁.render r₁ = g.render r := by
  set φ := g.renumberingOf r ρ hinj hfresh with hφ
  have hover : (g.resolve r).Over φ.types φ.templates :=
    Encloses.over_resolve (fun _ _ _ hxy => hg.closed hxy) hg (fun _ _ _ _ _ => Set.mem_univ _) hr
  have hlabels := φ.sameLabels_empty.addTree hover.ref_mem
  have hnames : g₁.templateName = g.templateName := by
    funext t
    simp only [templateName, template?, htemplates]
  have hread : g₁.resolve r₁ = φ.tree (g.resolve r) := by
    rw [htree, hφ, tree_renumberingOf hg hr hinj hfresh (shows_resolve hg hr) hplain fun _ h => h]
  simp only [render, renderIn, hread, hnames]
  exact Renumbering.textAfter_tree (fun _ _ => Iff.rfl) (fun _ _ => rfl)
    (fun _ => hlabels.label) hover false

/-- A renewal under which all placeholders become new and keep their kinds keeps the text of a type
without overload sets. -/
lemma RenewsTo.render_eq (h : g.RenewsTo r first ρ g₁ r₁) (hg : g.WellFormed)
    (hr : r < g.nodes.size) (hplain : (g.resolve r).Plain)
    (htemplates : g₁.templates = g.templates)
    (hkind : ∀ p ∈ (g.resolve r).outerPlaceholders,
      ¬ first.Spares p.kind ∧ first.kind p.kind = p.kind) : g₁.render r₁ = g.render r := by
  refine render_eq_of_renumber hg hr hplain htemplates h.injOn ?_ ?_
  · rintro _ ⟨p, hp, rfl⟩
    exact h.fresh p hp (hkind p hp).1
  · rw [h.tree]
    apply Tree.relabel_congr
    intro p hp
    rw [Renewal.image, (hkind p hp).2]

end Graph

/-! ### Renewing a type twice -/

namespace Engine

variable {e : Engine} {r : TypeRef}

/-- Renews a type, and then renews the result. -/
def renewTwice (first second : Renewal) (e : Engine) (r : TypeRef) : TypeRef × Engine :=
  (e.renew first r).2.renew second (e.renew first r).1

lemma exists_renewsTo_twice (he : e.WellFormed) (hr : e.Has r) (first second : Renewal) :
    ∃ ρ σ, e.graph.RenewsTo r first ρ (e.renew first r).2.graph (e.renew first r).1 ∧
      (e.renew first r).2.graph.RenewsTo (e.renew first r).1 second σ
        (e.renewTwice first second r).2.graph (e.renewTwice first second r).1 := by
  obtain ⟨ρ, h₁⟩ := Graph.exists_renewsTo first he.graph hr
  obtain ⟨σ, h₂⟩ := Graph.exists_renewsTo second (he.renew first hr).graph
    (Graph.renew_lt_size first he.graph hr)
  exact ⟨ρ, σ, h₁, h₂⟩

lemma appends_renewTwice (he : e.WellFormed) (hr : e.Has r) (first second : Renewal) :
    e.graph.Appends (e.renewTwice first second r).2.graph :=
  (Graph.appends_renew first he.graph hr).trans (Graph.appends_renew second
    (he.renew first hr).graph (Graph.renew_lt_size first he.graph hr))

/-- Two renewals after which every placeholder has its kind again give a variant of the type. -/
lemma variant_renewTwice (he : e.WellFormed) (hr : e.Has r) {first second : Renewal}
    (hkind : ∀ p ∈ (e.graph.resolve r).outerPlaceholders,
      second.kind (first.kind p.kind) = p.kind) :
    (e.graph.resolve r).Variant
      ((e.renewTwice first second r).2.graph.resolve (e.renewTwice first second r).1) := by
  obtain ⟨ρ, σ, h₁, h₂⟩ := exists_renewsTo_twice he hr first second
  obtain ⟨htree, hinj⟩ := h₁.renumber_trans h₂ hkind
  rw [htree]
  exact Tree.variant_renumber hinj

/-- A renewal that spares what it has left changes nothing the second time. -/
lemma resolve_renewTwice_self (he : e.WellFormed) (hr : e.Has r) {how : Renewal}
    (hspares : ∀ k, how.Spares (how.kind k)) :
    (e.renewTwice how how r).2.graph.resolve (e.renewTwice how how r).1 =
      (e.renew how r).2.graph.resolve (e.renew how r).1 := by
  obtain ⟨ρ, σ, h₁, h₂⟩ := exists_renewsTo_twice he hr how how
  exact h₁.tree_eq_of_spares h₂ hspares

/-- A type without constraints that is generalized and instantiated, and without overload sets, has
its text again. -/
lemma render_generalize_instantiate (he : e.WellFormed) (hr : e.Has r)
    (hplain : (e.graph.resolve r).Plain)
    (hflexible : ∀ p ∈ (e.graph.resolve r).outerPlaceholders, p.kind = .flexible) :
    (e.renewTwice .generalize .instantiate r).2.render
      (e.renewTwice .generalize .instantiate r).1 = e.render r := by
  obtain ⟨ρ, σ, h₁, h₂⟩ := exists_renewsTo_twice he hr .generalize .instantiate
  obtain ⟨htree, hinj⟩ := h₁.renumber_trans h₂ fun p hp => (hflexible p hp).symm
  refine Graph.render_eq_of_renumber he.graph hr hplain
    (appends_renewTwice he hr .generalize .instantiate).templates hinj ?_ htree
  rintro _ ⟨p, hp, rfl⟩
  -- the variable became a constraint, which is not spared
  have hmem : Renewal.generalize.image ρ p ∈
      ((e.renew .generalize r).2.graph.resolve (e.renew .generalize r).1).outerPlaceholders := by
    rw [h₁.tree, Tree.outerPlaceholders_relabel]
    exact List.mem_map_of_mem hp
  have hfresh := h₂.fresh _ hmem (by simp [Renewal.image, Renewal.kind, Renewal.Spares])
  exact (Graph.appends_renew .generalize he.graph hr).keeps.extends.size_le.trans hfresh

/-- A type that has no constraints outside overload sets is, after it is generalized and then
instantiated, the type up to a renaming of variables; one that has no variables there is, after it
is instantiated and then generalized, the type up to a renaming of constraints. To generalize twice,
or to instantiate twice, is the same as to do so once. A copy of a type without overload sets has
its text, and so has the type after it is generalized and instantiated, if it has no constraints. -/
theorem renew_roundTrip (he : e.Reachable) (hr : e.Has r) :
    ((∀ p ∈ (e.graph.resolve r).outerPlaceholders, p.kind = .flexible) →
      (e.graph.resolve r).Variant ((e.renewTwice .generalize .instantiate r).2.graph.resolve
        (e.renewTwice .generalize .instantiate r).1)) ∧
    ((∀ p ∈ (e.graph.resolve r).outerPlaceholders, p.kind = .rigid) →
      (e.graph.resolve r).Variant ((e.renewTwice .instantiate .generalize r).2.graph.resolve
        (e.renewTwice .instantiate .generalize r).1)) ∧
    (∀ how, how = .generalize ∨ how = .instantiate →
      (e.renewTwice how how r).2.graph.resolve (e.renewTwice how how r).1 =
        (e.renew how r).2.graph.resolve (e.renew how r).1) ∧
    ((∀ u, e.graph.Reaches r u → ∀ ms, e.graph.node? u ≠ some (.union ms)) →
      (e.renew .copy r).2.render (e.renew .copy r).1 = e.render r ∧
      ((∀ p ∈ (e.graph.resolve r).outerPlaceholders, p.kind = .flexible) →
        (e.renewTwice .generalize .instantiate r).2.render
          (e.renewTwice .generalize .instantiate r).1 = e.render r)) := by
  have hwf := he.wellFormed
  refine ⟨fun h => variant_renewTwice hwf hr fun p hp => (h p hp).symm,
    fun h => variant_renewTwice hwf hr fun p hp => (h p hp).symm, ?_, fun hplain => ?_⟩
  · rintro how (rfl | rfl)
    · exact resolve_renewTwice_self hwf hr fun _ => rfl
    · exact resolve_renewTwice_self hwf hr fun _ => rfl
  · have hplain' : (e.graph.resolve r).Plain :=
      Graph.everyUnion_resolve hwf.graph hr fun u ms hu hn => hplain u hu ms hn
    obtain ⟨ρ, hcopy⟩ := Graph.exists_renewsTo .copy hwf.graph hr
    exact ⟨hcopy.render_eq hwf.graph hr hplain' (Graph.appends_renew .copy hwf.graph hr).templates
      fun p _ => ⟨id, rfl⟩, render_generalize_instantiate hwf hr hplain'⟩

/-- The type `(x, y) -> x` has variables only. -/
theorem renew_roundTrip_binary :
    let e := (binary.addFunction [2, 3] 2).2
    let back := e.renewTwice .generalize .instantiate 8
    (e.graph.resolve 8).Variant (back.2.graph.resolve back.1) ∧
      back.2.render back.1 = e.render 8 := by
  intro e back
  have he : e.Reachable := .next reachable_binary (.addFunction (by decide) (by decide))
  have hflexible : ∀ p ∈ (e.graph.resolve 8).outerPlaceholders, p.kind = .flexible := by decide
  have hplain : ∀ u, e.graph.Reaches 8 u → ∀ ms, e.graph.node? u ≠ some (.union ms) := by
    intro u _ ms hn
    have hnone : ∀ n ∈ e.graph.nodes, n.isUnion = false := by decide
    simpa [Node.isUnion] using hnone _ (Array.mem_of_getElem? hn)
  obtain ⟨hvariant, -, -, htext⟩ := renew_roundTrip (r := 8) he (by decide)
  exact ⟨hvariant hflexible, (htext hplain).2 hflexible⟩

end Engine

end Unification
