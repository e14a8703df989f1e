import Unification.Proofs.Replacement

/-!
# Types renewed together

Types that are renewed one after another in one draft share their replacements, whatever is asked
for each of them. A replacement once recorded stays, and the table of replacements has exactly the
placeholders that were met outside overload sets. So each result reads as the type it was made from
with the replacements of the finished table put in all at once: `Engine.renewEach_simultaneous`.
-/

namespace Unification

namespace Tree

variable {ts : List Tree} {x : TypeRef} {p : Placeholder}

@[simp]
lemma mem_outerRefs_placeholder : x ∈ (placeholder p).outerRefs ↔ x = p.ref := by
  simp [outerRefs, eq_comm]

@[simp]
lemma mem_outerRefs_inst {r : TemplateRef} :
    x ∈ (inst r ts).outerRefs ↔ ∃ t ∈ ts, x ∈ t.outerRefs := by
  constructor
  · rintro ⟨p, hp, rfl⟩
    obtain ⟨t, ht, hp⟩ := List.mem_flatMap.mp (outerPlaceholders_inst ▸ hp)
    exact ⟨t, ht, mem_outerRefs hp⟩
  · rintro ⟨t, ht, p, hp, rfl⟩
    exact mem_outerRefs (by simpa using ⟨t, ht, hp⟩)

end Tree

namespace Draft

variable {how : Renewal} {d d' d'' : Draft} {r x : TypeRef} {t : Tree} {ts : List Tree}
  {rs : List TypeRef} {p : Placeholder} {steps : List (Renewal × TypeRef)}

/-- What stands for a reference: its replacement or, without one, itself. -/
def image (d : Draft) (r : TypeRef) : TypeRef :=
  (d.chosen.get? r).getD r

/-- The tree with all replacements of the draft put in at once. Overload sets stay as they are. -/
def exchange (d : Draft) (t : Tree) : Tree :=
  t.replace fun p => d.graph.resolve (d.image p.ref)

/-- The graph of the draft is well formed, and whatever has a replacement is a placeholder of the
graph and has one of the same name for its replacement. -/
structure Sound (d : Draft) : Prop where
  graph  : d.graph.WellFormed
  chosen : ∀ ⦃r image⦄, d.chosen.get? r = some image → ∃ p k, p.ref = r ∧
    d.graph.Shows (.placeholder p) ∧ d.graph.Shows (.placeholder ⟨image, k, p.name⟩)

/-- A draft without replacements is as good as its graph. -/
lemma sound_start {g : Graph} (hg : g.WellFormed) : Sound { graph := g } :=
  ⟨hg, by simp [Renaming.get?]⟩

lemma image_eq {image : TypeRef} (h : d.chosen.get? r = some image) : d.image r = image := by
  rw [Draft.image, h, Option.getD_some]

/-- A replacement is the same placeholder in every later draft. -/
lemma Grows.image_eq (h : d.Grows d') (hr : (d.chosen.get? r).isSome) : d'.image r = d.image r := by
  obtain ⟨i, hi⟩ := Option.isSome_iff_exists.mp hr
  rw [Draft.image_eq (h.chosen hi), Draft.image_eq hi]

lemma Grows.resolve_eq (h : d.Grows d') (hd : d.Sound) (hd' : d'.Sound)
    (hr : r < d.graph.nodes.size) : d'.graph.resolve r = d.graph.resolve r :=
  h.graph.keeps.resolve_eq hd.graph hd'.graph hr

lemma Sound.image_lt_size (hd : d.Sound) (hr : (d.chosen.get? r).isSome) :
    d.image r < d.graph.nodes.size := by
  obtain ⟨i, hi⟩ := Option.isSome_iff_exists.mp hr
  obtain ⟨p, k, -, -, hshow⟩ := hd.chosen hi
  rw [Draft.image_eq hi]
  exact hshow.ref_lt_size

/-- Exchanging the placeholders of a tree that all have replacements gives the same in every later
draft. -/
lemma Grows.exchange_eq (h : d.Grows d') (hd : d.Sound) (hd' : d'.Sound)
    (hmet : ∀ x ∈ t.outerRefs, (d.chosen.get? x).isSome) : d'.exchange t = d.exchange t := by
  apply Tree.replace_congr
  intro p hp
  have hp' := hmet p.ref (Tree.mem_outerRefs hp)
  rw [h.image_eq hp', h.resolve_eq hd hd' (hd.image_lt_size hp')]

/-! ### Building a tree -/

/-- A tree was built: the draft grew, its table has the placeholders of the tree besides those that
it had, and the result reads as the tree with the replacements put in. -/
structure Yields (d : Draft) (t : Tree) (r : TypeRef) (d' : Draft) : Prop where
  grows   : d.Grows d'
  sound   : d'.Sound
  lt_size : r < d'.graph.nodes.size
  resolve : d'.graph.resolve r = d'.exchange t
  met     : ∀ x, (d'.chosen.get? x).isSome ↔ (d.chosen.get? x).isSome ∨ x ∈ t.outerRefs

/-- Several trees were built one after another. -/
structure YieldsAll (d : Draft) (ts : List Tree) (rs : List TypeRef) (d' : Draft) : Prop where
  grows   : d.Grows d'
  sound   : d'.Sound
  lt_size : ∀ r ∈ rs, r < d'.graph.nodes.size
  resolve : rs.map d'.graph.resolve = ts.map d'.exchange
  met     : ∀ x, (d'.chosen.get? x).isSome ↔
    (d.chosen.get? x).isSome ∨ ∃ t ∈ ts, x ∈ t.outerRefs

/-- What was built reads the same in every later draft. -/
lemma Yields.resolve_later (h : Yields d t r d') (hgrow : d'.Grows d'') (hd : d''.Sound) :
    d''.graph.resolve r = d''.exchange t := by
  rw [hgrow.resolve_eq h.sound hd h.lt_size, h.resolve]
  exact (hgrow.exchange_eq h.sound hd fun x hx => (h.met x).mpr (Or.inr hx)).symm

/-- Adding a node keeps the recorded replacements right. -/
lemma Sound.add (hd : d.Sound) {n : Node} (hc : ∀ c ∈ n.children, c < d.graph.nodes.size)
    (hn : d.graph.Applies n) : (d.add n).2.Sound where
  graph := hd.graph.add hc hn
  chosen r i h := by
    have hkeep : d.graph.Keeps (d.add n).2.graph := Graph.keeps_add d.graph n
    have hshows : ∀ {u}, d.graph.Shows u → (d.add n).2.graph.Shows u := fun hu =>
      hkeep.shows rfl hd.graph (hd.graph.add hc hn) hu
    obtain ⟨p, k, hp, hshow, himage⟩ := hd.chosen h
    exact ⟨p, k, hp, hshows hshow, hshows himage⟩

/-- A placeholder may have any placeholder of its name for its replacement. -/
lemma Sound.record (hd : d.Sound) (hp : d.graph.Shows (.placeholder p)) {image : TypeRef}
    {k : PlaceholderKind} (himage : d.graph.Shows (.placeholder ⟨image, k, p.name⟩)) :
    (d.record p.ref image).Sound where
  graph := hd.graph
  chosen r i h := by
    by_cases hr : r = p.ref
    · subst hr
      simp only [Draft.record, Renaming.get?_insert_self, Option.some.injEq] at h
      subst h
      exact ⟨p, k, rfl, hp, himage⟩
    · exact hd.chosen (by simpa [Draft.record, Renaming.get?_insert_of_ne _ image hr] using h)

/-- Recording the replacement of a placeholder that has none yields it. -/
lemma yields_record (hd : d.Sound) (hget : d.chosen.get? p.ref = none)
    (hp : d.graph.Shows (.placeholder p)) {image : TypeRef} {k : PlaceholderKind}
    (himage : d.graph.Shows (.placeholder ⟨image, k, p.name⟩)) :
    Yields d (.placeholder p) image (d.record p.ref image) where
  grows := grows_record hget
  sound := hd.record hp himage
  lt_size := himage.ref_lt_size
  resolve := by
    have hself : (d.record p.ref image).image p.ref = image := image_eq (by simp [Draft.record])
    rw [exchange, Tree.replace_placeholder, hself]
  met x := by
    by_cases hx : x = p.ref
    · simp [hx, Draft.record]
    · simp [Draft.record, Renaming.get?_insert_of_ne _ image hx, hx]

/-- Replacing a placeholder yields it, whatever renewal has made the replacement. -/
lemma yields_replace (hd : d.Sound) (hp : d.graph.Shows (.placeholder p)) :
    Yields d (.placeholder p) (d.replace how p).1 (d.replace how p).2 := by
  rw [replace]
  cases hget : d.chosen.get? p.ref with
  | some image =>
    have hmet : (d.chosen.get? p.ref).isSome := by simp [hget]
    have himage := image_eq hget
    refine ⟨Grows.refl d, hd, himage ▸ hd.image_lt_size hmet, ?_, fun x => ?_⟩
    · rw [exchange, Tree.replace_placeholder, himage]
    · refine ⟨Or.inl, ?_⟩
      rintro (hx | hx)
      · exact hx
      · rwa [Tree.mem_outerRefs_placeholder.mp hx]
  | none =>
    cases hrep : how.replacement p with
    | none => exact yields_record hd hget hp hp
    | some n =>
      obtain ⟨hchildren, hbinding, happlies, -⟩ := replacement_cases hrep
      have hc : ∀ c ∈ n.children, c < d.graph.nodes.size := by simp [hchildren]
      have hsound := hd.add hc (happlies d.graph)
      have hnode : (d.add n).2.graph.node? d.graph.nodes.size = some n := by
        simp [Draft.add, Graph.node?_add]
      have hshow : (d.add n).2.graph.Shows (.placeholder p) :=
        (Graph.keeps_add d.graph n).shows rfl hd.graph hsound.graph hp
      have hgrow : d.Grows (d.add n).2 := ⟨Graph.appends_add hc hbinding, fun _ _ h => h⟩
      have hyields := yields_record hsound hget hshow (Renewal.shows_image hrep hnode)
      exact ⟨hgrow.trans hyields.grows, hyields.sound, hyields.lt_size, hyields.resolve,
        hyields.met⟩

lemma yields_buildAll (ts : List Tree)
    (build : ∀ t ∈ ts, ∀ d : Draft, d.Sound → d.graph.Shows t →
      Yields d t (d.build how t).1 (d.build how t).2)
    (hd : d.Sound) (hts : ∀ t ∈ ts, d.graph.Shows t) :
    YieldsAll d ts (d.buildAll how ts).1 (d.buildAll how ts).2 := by
  induction ts generalizing d with
  | nil => exact ⟨Grows.refl d, hd, by simp [buildAll], by simp [buildAll], by simp [buildAll]⟩
  | cons t ts ih =>
    have hfirst := build t (by simp) d hd (hts t (by simp))
    have hkeep := hfirst.grows.graph
    have hrest := ih (fun u hu => build u (by simp [hu])) hfirst.sound fun u hu =>
      hkeep.keeps.shows hkeep.templates hd.graph hfirst.sound.graph (hts u (by simp [hu]))
    refine ⟨hfirst.grows.trans hrest.grows, hrest.sound, ?_, ?_, fun x => ?_⟩
    · intro r hr
      rcases List.mem_cons.mp hr with rfl | hr
      · exact hfirst.lt_size.trans_le hrest.grows.graph.keeps.extends.size_le
      · exact hrest.lt_size r hr
    · -- the first tree was finished before the others were begun
      have hhead := hfirst.resolve_later hrest.grows hrest.sound
      simp only [buildAll, List.map_cons, hhead, hrest.resolve]
    · rw [buildAll, hrest.met, hfirst.met]
      simp [or_assoc]

/-- An instance is built from its arguments. -/
lemma YieldsAll.inst {f : TemplateRef} {template : Template} (h : YieldsAll d ts rs d')
    (htemplate : d.graph.template? f = some template) (harity : template.arity = ts.length) :
    Yields d (.inst f ts) (d'.add (.inst f rs)).1 (d'.add (.inst f rs)).2 := by
  have hlength : rs.length = ts.length := by simpa using congrArg List.length h.resolve
  have happlies : d'.graph.Applies (.inst f rs) := by
    rintro _ _ ⟨⟩
    exact ⟨template, by rwa [Graph.template?, h.grows.graph.templates], by rw [hlength, harity]⟩
  have hsound : (d'.add (.inst f rs)).2.Sound := h.sound.add h.lt_size happlies
  have hgrow : d'.Grows (d'.add (.inst f rs)).2 :=
    ⟨Graph.appends_add h.lt_size rfl, fun _ _ h => h⟩
  have hnode : (d'.add (.inst f rs)).2.graph.node? d'.graph.nodes.size = some (.inst f rs) := by
    simp [Draft.add, Graph.node?_add]
  have hargs : rs.map (d'.add (.inst f rs)).2.graph.resolve =
      ts.map (d'.add (.inst f rs)).2.exchange := by
    rw [List.map_congr_left fun c hc => hgrow.resolve_eq h.sound hsound (h.lt_size c hc), h.resolve]
    apply List.map_congr_left
    intro u hu
    exact (hgrow.exchange_eq h.sound hsound fun x hx => (h.met x).mpr (Or.inr ⟨u, hu, hx⟩)).symm
  refine ⟨h.grows.trans hgrow, hsound, Graph.lt_size_of_node? hnode, ?_, fun x => ?_⟩
  · calc (d'.add (.inst f rs)).2.graph.resolve d'.graph.nodes.size
        = .inst f (rs.map (d'.add (.inst f rs)).2.graph.resolve) :=
          Graph.resolve_inst hsound.graph hnode
      _ = (d'.add (.inst f rs)).2.exchange (.inst f ts) := by
          rw [hargs, exchange, Tree.replace_inst]
          rfl
  · rw [Tree.mem_outerRefs_inst]
    exact h.met x

/-- Building a tree of the graph yields it. -/
theorem yields_build (t : Tree) (hd : d.Sound) (ht : d.graph.Shows t) :
    Yields d t (d.build how t).1 (d.build how t).2 := by
  induction t generalizing d with
  | terminal r name =>
    cases ht with
    | terminal hn =>
      refine ⟨Grows.refl d, hd, Graph.lt_size_of_node? hn, ?_, by simp [build, Tree.outerRefs]⟩
      simp [build, Graph.resolve_terminal hn, exchange]
  | placeholder p =>
    rw [build]
    exact yields_replace hd ht
  | inst f args ih =>
    cases ht with
    | inst htemplate harity hargs =>
      rw [build]
      exact (yields_buildAll args (fun u hu d => ih u hu) hd hargs).inst htemplate harity
  | union r members =>
    cases ht with
    | union hr htree =>
      refine ⟨Grows.refl d, hd, hr, ?_, by simp [build, Tree.outerRefs]⟩
      simp [build, htree, exchange]

/-- Renewing a type yields its tree. -/
lemma yields_renew (how : Renewal) (hd : d.Sound) (hr : r < d.graph.nodes.size) :
    Yields d (d.graph.resolve r) (d.renew how r).1 (d.renew how r).2 :=
  yields_build _ hd (Graph.shows_resolve hd.graph hr)

/-! ### One renewal after another -/

/-- Renews types one after another, each as it is asked for. -/
def renewEach (d : Draft) : List (Renewal × TypeRef) → List TypeRef × Draft
  | []               => ([], d)
  | (how, r) :: rest =>
    let first := d.renew how r
    let others := renewEach first.2 rest
    (first.1 :: others.1, others.2)

/-- Each type is in the graph when its turn comes: it was there before, or it was made by an earlier
renewal. -/
def Admits (d : Draft) : List (Renewal × TypeRef) → Prop
  | []               => True
  | (how, r) :: rest => r < d.graph.nodes.size ∧ Admits (d.renew how r).2 rest

instance decidableAdmits (d : Draft) : (steps : List (Renewal × TypeRef)) →
    Decidable (d.Admits steps)
  | []               => inferInstanceAs (Decidable True)
  | (how, r) :: rest =>
    @instDecidableAnd _ _ (inferInstanceAs (Decidable (r < d.graph.nodes.size)))
      (decidableAdmits (d.renew how r).2 rest)

lemma renewEach_append (d : Draft) (before after : List (Renewal × TypeRef)) :
    (d.renewEach (before ++ after)).2 = ((d.renewEach before).2.renewEach after).2 := by
  induction before generalizing d with
  | nil => rfl
  | cons step before ih => exact ih (d.renew step.1 step.2).2

lemma Admits.append {before after : List (Renewal × TypeRef)} (h : d.Admits (before ++ after)) :
    d.Admits before ∧ (d.renewEach before).2.Admits after := by
  induction before generalizing d with
  | nil => exact ⟨trivial, h⟩
  | cons step before ih =>
    obtain ⟨hbefore, hafter⟩ := ih h.2
    exact ⟨⟨h.1, hbefore⟩, hafter⟩

/-- Types were renewed one after another: the draft grew, its table has the placeholders that were
met besides those that it had, and each result reads as its type with the replacements of the
finished table put in. -/
structure Renewed (d : Draft) (steps : List (Renewal × TypeRef)) (rs : List TypeRef)
    (d' : Draft) : Prop where
  grows   : d.Grows d'
  sound   : d'.Sound
  results : List.Forall₂
    (fun step r => d'.graph.resolve r = d'.exchange (d'.graph.resolve step.2)) steps rs
  met     : ∀ x, (d'.chosen.get? x).isSome ↔
    (d.chosen.get? x).isSome ∨ ∃ step ∈ steps, x ∈ (d'.graph.resolve step.2).outerRefs

/-- Every sequence of renewals runs to the end as each of them does. -/
theorem renewed_renewEach (hd : d.Sound) (h : d.Admits steps) :
    Renewed d steps (d.renewEach steps).1 (d.renewEach steps).2 := by
  induction steps generalizing d with
  | nil => exact ⟨Grows.refl d, hd, .nil, by simp [renewEach]⟩
  | cons step rest ih =>
    obtain ⟨how, r⟩ := step
    have hfirst := yields_renew how hd h.1
    have hrest := ih hfirst.sound h.2
    have hsame := (hfirst.grows.trans hrest.grows).resolve_eq hd hrest.sound h.1
    refine ⟨hfirst.grows.trans hrest.grows, hrest.sound, .cons ?_ hrest.results, fun x => ?_⟩
    · change (renewEach _ rest).2.graph.resolve (d.renew how r).1 = _
      rw [hfirst.resolve_later hrest.grows hrest.sound, ← hsame]
      rfl
    · rw [renewEach, hrest.met, hfirst.met, ← hsame]
      simp [or_assoc]

end Draft

namespace Engine

variable {e : Engine} {steps : List (Renewal × TypeRef)}

/-- Let types be renewed one after another in one draft, each by its own kind of renewal and each a
type that was there before or was made by an earlier renewal. Then no node changes, and neither does
a replacement once recorded. In the end exactly the placeholders that were met outside overload sets
have a replacement, which is a placeholder of the same name, and each result reads as its type with
all replacements put in at once. -/
theorem renewEach_simultaneous (he : e.Reachable)
    (h : Draft.Admits { graph := e.graph } steps) :
    let out := Draft.renewEach { graph := e.graph } steps
    let d := out.2
    (∀ before, before <+: steps →
      let d₁ := (Draft.renewEach { graph := e.graph } before).2
      d₁.graph.Keeps d.graph ∧
        ∀ x image, d₁.chosen.get? x = some image → d.chosen.get? x = some image) ∧
    (∀ x, (d.chosen.get? x).isSome ↔ ∃ step ∈ steps, x ∈ (d.graph.resolve step.2).outerRefs) ∧
    (∀ x image, d.chosen.get? x = some image → ∃ p k, p.ref = x ∧
      d.graph.Shows (.placeholder p) ∧ d.graph.Shows (.placeholder ⟨image, k, p.name⟩)) ∧
    List.Forall₂ (fun step r => d.graph.resolve r =
      (d.graph.resolve step.2).replace fun p => d.graph.resolve (d.image p.ref)) steps out.1 := by
  intro out d
  have hstart := Draft.sound_start he.wellFormed.graph
  have hall := Draft.renewed_renewEach hstart h
  refine ⟨?_, fun x => ?_, hall.sound.chosen, hall.results⟩
  · rintro before ⟨after, rfl⟩
    obtain ⟨hbefore, hafter⟩ := h.append
    have hfirst := Draft.renewed_renewEach hstart hbefore
    have hgrow := (Draft.renewed_renewEach hfirst.sound hafter).grows
    rw [← Draft.renewEach_append] at hgrow
    exact ⟨hgrow.graph.keeps, hgrow.chosen⟩
  · have hmet := hall.met x
    rwa [show (Renaming.get? {} x).isSome = false from rfl, Bool.false_eq_true, false_or] at hmet

/-- The type `(x, y) -> c` is copied, then `x` is to be generalized, and then the copy is to be
instantiated. The variable `x` has its copy for its replacement and keeps it, and the constraint of
the copy becomes a variable. -/
theorem renewEach_simultaneous_binary :
    let out := Draft.renewEach { graph := binary.graph }
      [(.copy, 6), (.generalize, 2), (.instantiate, 11)]
    out.1 = [11, 7, 14] ∧ out.2.chosen.get? 2 = some 7 ∧ out.2.chosen.get? 9 = some 12 ∧
      out.2.graph.resolve 14 =
        (out.2.graph.resolve 11).replace fun p => out.2.graph.resolve (out.2.image p.ref) := by
  intro out
  have hsteps : Draft.Admits { graph := binary.graph }
      [(.copy, 6), (.generalize, 2), (.instantiate, 11)] := by decide
  have hresults : out.1 = [11, 7, 14] := by decide
  obtain ⟨-, -, -, htrees⟩ := renewEach_simultaneous reachable_binary hsteps
  change List.Forall₂ _ _ out.1 at htrees
  rw [hresults] at htrees
  refine ⟨hresults, by decide, by decide, ?_⟩
  cases htrees with
  | cons _ hrest =>
    cases hrest with
    | cons _ hlast =>
      cases hlast with
      | cons htree _ => exact htree

end Engine

end Unification
