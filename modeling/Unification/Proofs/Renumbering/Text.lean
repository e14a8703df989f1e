import Unification.Proofs.Renumbering.Basic

/-!
# Texts of renumbered types

A text shows a placeholder by a label, and labels are given in reading order, so a text does not
depend on numbers. Only the template of function types is special: a renumbering that keeps it apart
keeps all texts, and with them the errors of the unifier. Any other renumbering still keeps the kind
of an error.
-/

namespace Unification

namespace TypeError

/-- What an error says, without the types that it says it about. -/
inductive Kind where
  | incompatible
  | noMatch
  | ambiguous
  | infiniteType
  | arityMismatch
  | malformedTemplate
  deriving DecidableEq

/-- The kind of an error. -/
def kind : TypeError → Kind
  | .incompatible _ _        => .incompatible
  | .noMatch _ _             => .noMatch
  | .ambiguous _ _ _         => .ambiguous
  | .infiniteType _ _        => .infiniteType
  | .arityMismatch _ _ _     => .arityMismatch
  | .malformedTemplate _ _ _ => .malformedTemplate

/-- Whether an error rejects a member depends on its kind. -/
lemma rejectsMember_eq_of_kind {e e' : TypeError} (h : e'.kind = e.kind) :
    e'.rejectsMember = e.rejectsMember := by
  cases e <;> cases e' <;> simp_all [kind, rejectsMember]

end TypeError

namespace Graph

variable {g : Graph} {a b : TypeRef}

@[simp]
lemma kind_incompatible : (g.incompatible a b).kind = .incompatible := rfl

@[simp]
lemma kind_infiniteType : (g.infiniteType a b).kind = .infiniteType := rfl

@[simp]
lemma kind_noMatch : (g.noMatch a b).kind = .noMatch := rfl

@[simp]
lemma kind_ambiguous {cs : List TypeRef} : (g.ambiguous a b cs).kind = .ambiguous := rfl

end Graph

namespace Tree

/-- The placeholders of a tree over a set are in the set. -/
lemma Over.ref_mem {T : Set TypeRef} {U : Set TemplateRef} {t : Tree} (ht : t.Over T U) :
    ∀ p ∈ t.placeholders, p.ref ∈ T := by
  induction ht with
  | terminal => simp [placeholders]
  | placeholder hp => simpa [placeholders] using hp
  | inst _ _ ih =>
    intro p hp
    obtain ⟨u, hu, hp⟩ := mem_placeholders_inst.mp hp
    exact ih u hu p hp
  | union _ _ ih =>
    intro p hp
    obtain ⟨u, hu, hp⟩ := mem_placeholders_union.mp hp
    exact ih u hu p hp

section

variable {names names' : TemplateRef → String} {label label' : TypeRef → String} {f : Tree → Tree}
  {ts : List Tree}

/-- Trees that are changed without a change of their texts are written as before. -/
lemma textAll_map (separator : String)
    (h : ∀ t ∈ ts, (f t).textAfter names' label' false = t.textAfter names label false) :
    textAll names' label' separator (ts.map f) = textAll names label separator ts := by
  induction ts with
  | nil => rfl
  | cons t ts ih =>
    have hrest := ih fun w hw => h w (by simp [hw])
    cases ts with
    | nil => simpa [textAll] using h t (by simp)
    | cons u us =>
      rw [List.map_cons] at hrest
      simp only [List.map_cons, textAll, h t (by simp), hrest]

lemma textArrow_map (opened : Bool)
    (h : ∀ t ∈ ts, ∀ opened,
      (f t).textAfter names' label' opened = t.textAfter names label opened) :
    textArrow names' label' opened (ts.map f) = textArrow names label opened ts := by
  induction ts generalizing opened with
  | nil => rfl
  | cons t ts ih =>
    have hrest := ih true fun w hw => h w (by simp [hw])
    cases ts with
    | nil => simpa [textArrow] using h t (by simp) true
    | cons u us =>
      rw [List.map_cons] at hrest
      simp only [List.map_cons, textArrow, h t (by simp), hrest]

end

end Tree

namespace Renumbering

variable {φ : Renumbering} {g g' : Graph} {ls ls' : Labels} {a b r : TypeRef} {t : Tree}

/-! ### Labels -/

/-- The second table gives the renumbered placeholders the labels that the first gives them. -/
structure SameLabels (φ : Renumbering) (ls ls' : Labels) : Prop where
  get?  : ∀ r ∈ φ.types, ls'.get? (φ.type r) = ls.get? r
  count : ls'.count = ls.count

lemma sameLabels_empty (φ : Renumbering) : φ.SameLabels {} {} :=
  ⟨fun _ _ => rfl, rfl⟩

lemma SameLabels.label (h : φ.SameLabels ls ls') (hr : r ∈ φ.types) :
    ls'.label (φ.type r) = ls.label r := by
  rw [Labels.label, Labels.label, h.get? r hr]

lemma SameLabels.add (h : φ.SameLabels ls ls') {p : Placeholder} (hp : p.ref ∈ φ.types) :
    φ.SameLabels (ls.add p) (ls'.add (φ.placeholder p)) := by
  have hget : ls'.get? (φ.placeholder p).ref = ls.get? p.ref := h.get? p.ref hp
  have hspell : ls'.spell (φ.placeholder p) = ls.spell p := by
    simp only [Labels.spell, h.count, placeholder]
  rw [Labels.add, Labels.add, hget, hspell]
  cases ls.get? p.ref with
  | some l => exact h
  | none =>
    constructor
    · intro r hr
      have hbeq : (φ.type r == φ.type p.ref) = (r == p.ref) := by
        rw [Bool.eq_iff_iff, beq_iff_eq, beq_iff_eq, type_eq_iff hr hp]
      simp only [Labels.get?, List.lookup_cons, placeholder, hbeq]
      cases r == p.ref with
      | true => rfl
      | false => exact h.get? r hr
    · simpa [Labels.count] using h.count

lemma SameLabels.addTree (h : φ.SameLabels ls ls') (ht : ∀ p ∈ t.placeholders, p.ref ∈ φ.types) :
    φ.SameLabels (ls.addTree t) (ls'.addTree (φ.tree t)) := by
  rw [Labels.addTree, Labels.addTree, placeholders_tree, List.foldl_map]
  generalize t.placeholders = ps at ht
  induction ps generalizing ls ls' with
  | nil => exact h
  | cons p ps ih => exact ih (h.add (ht p (by simp))) fun q hq => ht q (by simp [hq])

/-! ### Texts -/

section
variable {names names' : TemplateRef → String} {label label' : TypeRef → String}

/-- A renumbered tree is spelled as the tree, if names and labels are. -/
lemma textAfter_tree (hfun : φ.KeepsFunctions)
    (hnames : ∀ t ∈ φ.templates, names' (φ.template t) = names t)
    (hlabels : ∀ r ∈ φ.types, label' (φ.type r) = label r)
    (ht : t.Over φ.types φ.templates) (opened : Bool) :
    (φ.tree t).textAfter names' label' opened = t.textAfter names label opened := by
  induction ht generalizing opened with
  | terminal hr => rw [tree_terminal, Tree.textAfter, Tree.textAfter]
  | placeholder hp =>
    rw [tree_placeholder, Tree.textAfter, Tree.textAfter, placeholder, hlabels _ hp]
  | @inst f args hf hargs ih =>
    have harrow := Tree.textArrow_map opened ih
    have hall := Tree.textAll_map ", " fun u hu => ih u hu false
    simp only [tree_inst, Tree.textAfter, List.length_map, hfun f hf, hnames f hf, harrow, hall]
  | union hr hmembers ih =>
    rw [tree_union, Tree.textAfter, Tree.textAfter, Tree.textAll_map "|" fun u hu => ih u hu false]

end

lemma Relates.templateName (h : φ.Relates g g') {f : TemplateRef} (hf : f ∈ φ.templates) :
    g'.templateName (φ.template f) = g.templateName f := by
  have hname : ∀ (g : Graph) (f : TemplateRef),
      g.templateName f = ((g.template? f).map Template.name).getD "" := by
    intro g f
    rw [Graph.templateName]
    cases g.template? f <;> rfl
  rw [hname g, hname g', h.name f hf]

/-- A renumbered type has the same text and gets the same labels. -/
lemma Relates.renderIn (h : φ.Relates g g') (hfun : φ.KeepsFunctions) (hg : g.WellFormed)
    (hg' : g'.WellFormed) (hls : φ.SameLabels ls ls') (hr : r ∈ φ.types) :
    (g'.renderIn ls' (φ.type r)).1 = (g.renderIn ls r).1 ∧
      φ.SameLabels (g.renderIn ls r).2 (g'.renderIn ls' (φ.type r)).2 := by
  have hover := h.over_resolve hg hr
  have hls' := hls.addTree hover.ref_mem
  simp only [Graph.renderIn, h.resolve hg hg' hr, Tree.text]
  exact ⟨textAfter_tree hfun (fun _ => h.templateName) (fun _ => hls'.label) hover false, hls'⟩

lemma Relates.renderAll (h : φ.Relates g g') (hfun : φ.KeepsFunctions) (hg : g.WellFormed)
    (hg' : g'.WellFormed) {rs : List TypeRef} (hls : φ.SameLabels ls ls')
    (hrs : ∀ r ∈ rs, r ∈ φ.types) :
    (g'.renderAll ls' (rs.map φ.type)).1 = (g.renderAll ls rs).1 ∧
      φ.SameLabels (g.renderAll ls rs).2 (g'.renderAll ls' (rs.map φ.type)).2 := by
  induction rs generalizing ls ls' with
  | nil => exact ⟨rfl, hls⟩
  | cons r rs ih =>
    obtain ⟨htext, hls₁⟩ := h.renderIn hfun hg hg' hls (hrs r (by simp))
    obtain ⟨htexts, hls₂⟩ := ih hls₁ fun r hr => hrs r (by simp [hr])
    refine ⟨?_, hls₂⟩
    rw [List.map_cons, Graph.renderAll, Graph.renderAll, htext, htexts]

/-- Two renumbered types that are written one after the other have the same texts. -/
lemma Relates.renderIn_two (h : φ.Relates g g') (hfun : φ.KeepsFunctions) (hg : g.WellFormed)
    (hg' : g'.WellFormed) (hls : φ.SameLabels ls ls') (ha : a ∈ φ.types) (hb : b ∈ φ.types) :
    (g'.renderIn ls' (φ.type a)).1 = (g.renderIn ls a).1 ∧
      (g'.renderIn (g'.renderIn ls' (φ.type a)).2 (φ.type b)).1 =
        (g.renderIn (g.renderIn ls a).2 b).1 := by
  obtain ⟨htext, hls₁⟩ := h.renderIn hfun hg hg' hls ha
  exact ⟨htext, (h.renderIn hfun hg hg' hls₁ hb).1⟩

/-! ### Errors -/

/-- The errors are of one kind, and they are the same if function types stay function types. -/
def SameError (φ : Renumbering) (e e' : TypeError) : Prop :=
  e'.kind = e.kind ∧ (φ.KeepsFunctions → e' = e)

lemma Relates.incompatible (h : φ.Relates g g') (hg : g.WellFormed) (hg' : g'.WellFormed)
    (ha : a ∈ φ.types) (hb : b ∈ φ.types) :
    φ.SameError (g.incompatible a b) (g'.incompatible (φ.type a) (φ.type b)) := by
  refine ⟨by simp, fun hfun => ?_⟩
  obtain ⟨hl, hr⟩ := h.renderIn_two hfun hg hg' φ.sameLabels_empty ha hb
  rw [Graph.incompatible, Graph.incompatible, hl, hr]

lemma Relates.infiniteType (h : φ.Relates g g') (hg : g.WellFormed) (hg' : g'.WellFormed)
    (ha : a ∈ φ.types) (hb : b ∈ φ.types) :
    φ.SameError (g.infiniteType a b) (g'.infiniteType (φ.type a) (φ.type b)) := by
  refine ⟨by simp, fun hfun => ?_⟩
  obtain ⟨hv, ht⟩ := h.renderIn_two hfun hg hg' φ.sameLabels_empty ha hb
  rw [Graph.infiniteType, Graph.infiniteType, hv, ht]

lemma Relates.noMatch (h : φ.Relates g g') (hg : g.WellFormed) (hg' : g'.WellFormed)
    (ha : a ∈ φ.types) (hb : b ∈ φ.types) :
    φ.SameError (g.noMatch a b) (g'.noMatch (φ.type a) (φ.type b)) := by
  refine ⟨by simp, fun hfun => ?_⟩
  obtain ⟨ht, hu⟩ := h.renderIn_two hfun hg hg' φ.sameLabels_empty ha hb
  rw [Graph.noMatch, Graph.noMatch, ht, hu]

lemma Relates.ambiguous (h : φ.Relates g g') (hg : g.WellFormed) (hg' : g'.WellFormed)
    (ha : a ∈ φ.types) (hb : b ∈ φ.types) {cs : List TypeRef} (hcs : ∀ c ∈ cs, c ∈ φ.types) :
    φ.SameError (g.ambiguous a b cs) (g'.ambiguous (φ.type a) (φ.type b) (cs.map φ.type)) := by
  refine ⟨by simp, fun hfun => ?_⟩
  obtain ⟨hc, hls⟩ := h.renderAll hfun hg hg' φ.sameLabels_empty hcs
  obtain ⟨ht, hu⟩ := h.renderIn_two hfun hg hg' hls ha hb
  rw [Graph.ambiguous, Graph.ambiguous, hc, ht, hu]

end Renumbering

end Unification
