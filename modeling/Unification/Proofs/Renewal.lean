import Unification.Proofs.Trail

/-!
# Renewed types

Renewing a type adds nodes and changes none. The tree of the result is the tree of the type with
every placeholder outside overload sets renamed, and one renaming serves for all of them:
`Graph.resolve_renew`.
-/

namespace Unification

/-- The placeholder that stands for another one in a renewed tree, when `ρ` gives the new
references. -/
def Renewal.rename (how : Renewal) (ρ : TypeRef → TypeRef) (p : Placeholder) : Placeholder :=
  match how.replacement p with
  | some (.var name _)      => ⟨ρ p.ref, .flexible, name⟩
  | some (.constraint name) => ⟨ρ p.ref, .rigid, name⟩
  | _                       => p

/-- The tree with the placeholders outside overload sets renamed. -/
def Tree.renew (how : Renewal) (ρ : TypeRef → TypeRef) (t : Tree) : Tree :=
  t.replace fun p => .placeholder (how.rename ρ p)

lemma Tree.size_renew (how : Renewal) (ρ : TypeRef → TypeRef) (t : Tree) :
    (t.renew how ρ).size = t.size :=
  size_replace fun _ => by rw [size]

/-- A copy has no more variables than what it is a copy of. -/
lemma Tree.outerVars_renew_copy (ρ : TypeRef → TypeRef) (t : Tree) :
    (t.renew .copy ρ).outerVars ⊆ t.outerVars.image ρ := by
  intro v hv
  rw [renew] at hv
  induction t with
  | terminal r name => simp at hv
  | placeholder p =>
    obtain ⟨r, kind, name⟩ := p
    cases kind <;> simp_all [Renewal.rename, Renewal.replacement]
  | inst f args ih =>
    rw [replace_inst, mem_outerVars_inst] at hv
    obtain ⟨_, hmem, hv⟩ := hv
    obtain ⟨u, hu, rfl⟩ := List.mem_map.mp hmem
    obtain ⟨w, hw, rfl⟩ := Finset.mem_image.mp (ih u hu hv)
    exact Finset.mem_image_of_mem ρ (mem_outerVars_inst.mpr ⟨u, hu, hw⟩)
  | union r members => simp at hv

namespace Graph

variable {g g' : Graph} {r x y : TypeRef} {t : Tree} {p q : Placeholder}

/-- The tree is made of nodes of the graph: its leaves are nodes, an overload set is the tree of
one, and its instances could be nodes. -/
inductive Shows (g : Graph) : Tree → Prop where
  | terminal {r : TypeRef} {name : String} :
      g.node? r = some (.terminal name) → Shows g (.terminal r name)
  | flexible {r : TypeRef} {name : Option String} :
      g.node? r = some (.var name none) → Shows g (.placeholder ⟨r, .flexible, name⟩)
  | rigid {r : TypeRef} {name : Option String} :
      g.node? r = some (.constraint name) → Shows g (.placeholder ⟨r, .rigid, name⟩)
  | inst {t : TemplateRef} {d : Template} {args : List Tree} :
      g.template? t = some d → d.arity = args.length → (∀ u ∈ args, Shows g u) →
      Shows g (.inst t args)
  | union {r : TypeRef} {members : List Tree} :
      r < g.nodes.size → g.resolve r = .union r members → Shows g (.union r members)

/-- A resolved tree is made of nodes of the graph. -/
lemma shows_resolve (hg : g.WellFormed) (hr : r < g.nodes.size) : g.Shows (g.resolve r) := by
  induction r using Acyclic.induct hg.closed hg.acyclic with
  | step r ih =>
    obtain ⟨n, hn⟩ := exists_node? hr
    match n, hn with
    | .terminal name, hn =>
      rw [resolve_terminal hn]
      exact .terminal hn
    | .var name none, hn =>
      rw [resolve_free hn]
      exact .flexible hn
    | .var name (some b), hn =>
      have hb := binding?_eq_some_iff.mpr ⟨name, hn⟩
      rw [resolve_of_binding? hg hb]
      exact ih b (edge_of_binding? hb) (hg.closed (edge_of_binding? hb))
    | .constraint name, hn =>
      rw [resolve_constraint hn]
      exact .rigid hn
    | .inst t args, hn =>
      obtain ⟨d, hd, harity⟩ := hg.applies hn t args rfl
      rw [resolve_inst hg hn]
      apply Shows.inst hd (by simpa using harity)
      intro u hu
      obtain ⟨c, hc, rfl⟩ := List.mem_map.mp hu
      have hedge := (edge_of_node? hn).mpr hc
      exact ih c hedge (hg.closed hedge)
    | .union members, hn =>
      have htree := resolve_union hg hn
      rw [htree]
      exact .union hr htree

/-- The placeholders of a resolved tree, those inside overload sets included, are placeholders of
the graph. -/
lemma shows_of_mem_placeholders (hg : g.WellFormed) (hr : r < g.nodes.size)
    (hp : p ∈ (g.resolve r).placeholders) : g.Shows (.placeholder p) := by
  obtain ⟨-, hflexible, hrigid⟩ := mem_placeholders_resolve hg hr hp
  obtain ⟨ref, k, name⟩ := p
  cases k with
  | flexible => exact .flexible (hflexible rfl)
  | rigid => exact .rigid (hrigid rfl)

lemma Keeps.shows (h : g.Keeps g') (htemplates : g'.templates = g.templates)
    (hg : g.WellFormed) (hg' : g'.WellFormed) (ht : g.Shows t) : g'.Shows t := by
  induction ht with
  | terminal hn => exact .terminal (h hn)
  | flexible hn => exact .flexible (h hn)
  | rigid hn => exact .rigid (h hn)
  | inst hd harity _ ih => exact .inst (by rwa [template?, htemplates]) harity ih
  | union hr htree =>
    apply Shows.union (hr.trans_le h.extends.size_le)
    rw [h.resolve_eq hg hg' hr, htree]

/-- A placeholder of the graph is known by its reference. -/
lemma Shows.placeholder_inj (hp : g.Shows (.placeholder p)) (hq : g.Shows (.placeholder q))
    (h : p.ref = q.ref) : p = q := by
  cases hp with
  | flexible hp =>
    cases hq with
    | flexible hq =>
      simp only at h
      subst h
      cases hp.symm.trans hq
      rfl
    | rigid hq =>
      simp only at h
      subst h
      cases hp.symm.trans hq
  | rigid hp =>
    cases hq with
    | flexible hq =>
      simp only at h
      subst h
      cases hp.symm.trans hq
    | rigid hq =>
      simp only at h
      subst h
      cases hp.symm.trans hq
      rfl

lemma Shows.resolve_placeholder (hp : g.Shows (.placeholder p)) :
    g.resolve p.ref = .placeholder p := by
  cases hp with
  | flexible hn => exact resolve_free hn
  | rigid hn => exact resolve_constraint hn

lemma Shows.ref_lt_size (hp : g.Shows (.placeholder p)) : p.ref < g.nodes.size := by
  cases hp with
  | flexible hn => exact lt_size_of_node? hn
  | rigid hn => exact lt_size_of_node? hn

/-- What the graph shows of a placeholder it showed before it grew. -/
lemma Keeps.shows_placeholder_of_lt (h : g.Keeps g') (hp : g'.Shows (.placeholder p))
    (hr : p.ref < g.nodes.size) : g.Shows (.placeholder p) := by
  obtain ⟨n, hn⟩ := exists_node? hr
  have hn' := h hn
  cases hp with
  | flexible hp =>
    cases hp.symm.trans hn'
    exact .flexible hn
  | rigid hp =>
    cases hp.symm.trans hn'
    exact .rigid hn

/-- The second graph comes from the first by new nodes, which are unbound and point to older
nodes only. -/
structure Appends (g g' : Graph) : Prop where
  keeps     : g.Keeps g'
  templates : g'.templates = g.templates
  unbound   : ∀ v, g.binding? v = none → g'.binding? v = none
  backward  : ∀ ⦃x y⦄, g.nodes.size ≤ x → g'.Edge x y → y < x

lemma Appends.refl (g : Graph) : g.Appends g where
  keeps := Keeps.refl g
  templates := rfl
  unbound := fun _ h => h
  backward := fun _ _ hx hxy => absurd (lt_size_of_edge hxy) (Nat.not_lt_of_le hx)

lemma Appends.trans {g'' : Graph} (h : g.Appends g') (h' : g'.Appends g'') : g.Appends g'' where
  keeps := h.keeps.trans h'.keeps
  templates := h'.templates.trans h.templates
  unbound := fun v hv => h'.unbound v (h.unbound v hv)
  backward x y hx hxy := by
    by_cases hlt : x < g'.nodes.size
    · obtain ⟨n, hn⟩ := exists_node? hlt
      exact h.backward hx ((edge_of_node? hn).mpr ((edge_of_node? (h'.keeps hn)).mp hxy))
    · exact h'.backward (Nat.le_of_not_lt hlt) hxy

lemma appends_add {n : Node} (hc : ∀ c ∈ n.children, c < g.nodes.size) (hb : n.binding? = none) :
    g.Appends (g.add n).2 where
  keeps := keeps_add g n
  templates := rfl
  unbound := by
    intro v hv
    rw [binding?, node?_add]
    split_ifs with h
    · exact hb
    · exact hv
  backward x y hx hxy := by
    rcases edge_add.mp hxy with ⟨rfl, hy⟩ | ⟨_, hxy⟩
    · exact hc y hy
    · exact absurd (lt_size_of_edge hxy) (Nat.not_lt_of_le hx)

end Graph

namespace Draft

variable {how : Renewal} {d d' d'' : Draft} {r : TypeRef} {t : Tree} {p : Placeholder}

/-- The graph of the draft is well formed, and the replacements recorded so far are what the
renewal asks for. -/
structure Valid (how : Renewal) (d : Draft) : Prop where
  graph  : d.graph.WellFormed
  known  : ∀ ⦃r image⦄, d.chosen.get? r = some image →
    r < d.graph.nodes.size ∧ image < d.graph.nodes.size
  chosen : ∀ ⦃p image⦄, d.graph.Shows (.placeholder p) → d.chosen.get? p.ref = some image →
    d.graph.resolve image = .placeholder (how.rename (fun _ => image) p)

/-- The second draft has all that the first has. -/
structure Grows (d d' : Draft) : Prop where
  graph  : d.graph.Appends d'.graph
  chosen : ∀ ⦃r image⦄, d.chosen.get? r = some image → d'.chosen.get? r = some image

lemma Grows.refl (d : Draft) : d.Grows d :=
  ⟨Graph.Appends.refl _, fun _ _ h => h⟩

lemma Grows.trans (h : d.Grows d') (h' : d'.Grows d'') : d.Grows d'' :=
  ⟨h.graph.trans h'.graph, fun _ _ hr => h'.chosen (h.chosen hr)⟩

/-- The references agree with the replacements recorded in the draft. -/
def Agrees (d : Draft) (ρ : TypeRef → TypeRef) : Prop :=
  ∀ ⦃r image⦄, d.chosen.get? r = some image → ρ r = image

lemma Grows.agrees {ρ : TypeRef → TypeRef} (h : d.Grows d') (hρ : d'.Agrees ρ) : d.Agrees ρ :=
  fun _ _ hr => hρ (h.chosen hr)

/-- A tree was built: the draft grew, and the result reads as the renewed tree. -/
structure Built (how : Renewal) (d : Draft) (t : Tree) (r : TypeRef) (d' : Draft) : Prop where
  grows   : d.Grows d'
  valid   : d'.Valid how
  lt_size : r < d'.graph.nodes.size
  resolve : ∀ ρ, d'.Agrees ρ → d'.graph.resolve r = t.renew how ρ

/-- Adding a node keeps the recorded replacements right. -/
lemma Valid.add (hd : d.Valid how) {n : Node} (hc : ∀ c ∈ n.children, c < d.graph.nodes.size)
    (hn : d.graph.Applies n) : (d.add n).2.Valid how where
  graph := hd.graph.add hc hn
  known r image h := by
    obtain ⟨hr, himage⟩ := hd.known h
    have hle := (Graph.keeps_add d.graph n).extends.size_le
    exact ⟨hr.trans_le hle, himage.trans_le hle⟩
  chosen p image hp h := by
    have hkeep : d.graph.Keeps (d.add n).2.graph := Graph.keeps_add d.graph n
    obtain ⟨hr, himage⟩ := hd.known h
    rw [hkeep.resolve_eq hd.graph (hd.graph.add hc hn) himage]
    exact hd.chosen (hkeep.shows_placeholder_of_lt hp hr) h

/-- Recording the replacement of a placeholder of the graph. -/
lemma Valid.record (hd : d.Valid how) (hp : d.graph.Shows (.placeholder p)) {image : TypeRef}
    (himage : image < d.graph.nodes.size)
    (htree : d.graph.resolve image = .placeholder (how.rename (fun _ => image) p)) :
    (d.record p.ref image).Valid how where
  graph := hd.graph
  known r i h := by
    by_cases hr : r = p.ref
    · subst hr
      simp only [Draft.record, Renaming.get?_insert_self, Option.some.injEq] at h
      subst h
      exact ⟨hp.ref_lt_size, himage⟩
    · exact hd.known (by simpa [Draft.record, Renaming.get?_insert_of_ne _ image hr] using h)
  chosen q i hq h := by
    by_cases hr : q.ref = p.ref
    · obtain rfl := hq.placeholder_inj hp hr
      simp only [Draft.record, Renaming.get?_insert_self, Option.some.injEq] at h
      subst h
      exact htree
    · exact hd.chosen hq (by simpa [Draft.record, Renaming.get?_insert_of_ne _ image hr] using h)

lemma grows_record {image : TypeRef} (h : d.chosen.get? p.ref = none) :
    d.Grows (d.record p.ref image) := by
  refine ⟨Graph.Appends.refl _, ?_⟩
  intro r i hr
  have hne : r ≠ p.ref := by
    rintro rfl
    simp [h] at hr
  simpa [Draft.record, Renaming.get?_insert_of_ne _ image hne] using hr

/-- Renaming depends only on the new reference of the placeholder itself. -/
lemma rename_eq {ρ : TypeRef → TypeRef} {image : TypeRef} (h : ρ p.ref = image) :
    how.rename ρ p = how.rename (fun _ => image) p := by
  simp [Renewal.rename, h]

/-- The node that replaces a placeholder is an unbound leaf, and reads as the renamed
placeholder. -/
lemma replacement_cases {n : Node} (h : how.replacement p = some n) :
    n.children = [] ∧ n.binding? = none ∧ (∀ g : Graph, g.Applies n) ∧
      ∀ (g : Graph) (image : TypeRef), g.node? image = some n →
        g.resolve image = .placeholder (how.rename (fun _ => image) p) := by
  have hcases : (∃ name, n = .var name none) ∨ ∃ name, n = .constraint name := by
    obtain ⟨ref, kind, name⟩ := p
    cases how <;> cases kind <;> simp_all [Renewal.replacement] <;> simp [← h]
  rcases hcases with ⟨name, rfl⟩ | ⟨name, rfl⟩
  · refine ⟨rfl, rfl, by simp [Graph.Applies], fun g image hn => ?_⟩
    simp [Graph.resolve_free hn, Renewal.rename, h]
  · refine ⟨rfl, rfl, by simp [Graph.Applies], fun g image hn => ?_⟩
    simp [Graph.resolve_constraint hn, Renewal.rename, h]

/-- The replacement of a placeholder reads as the renamed placeholder. -/
lemma built_replace (hd : d.Valid how) (hp : d.graph.Shows (.placeholder p)) :
    Built how d (.placeholder p) (d.replace how p).1 (d.replace how p).2 := by
  rw [replace]
  cases hget : d.chosen.get? p.ref with
  | some image =>
    refine ⟨Grows.refl d, hd, (hd.known hget).2, fun ρ hρ => ?_⟩
    rw [Tree.renew, Tree.replace_placeholder, rename_eq (hρ hget)]
    exact hd.chosen hp hget
  | none =>
    cases hrep : how.replacement p with
    | none =>
      -- the placeholder stays, and is its own replacement
      have hstay : ∀ ρ, how.rename ρ p = p := by simp [Renewal.rename, hrep]
      have htree := hp.resolve_placeholder
      refine ⟨grows_record hget, hd.record hp hp.ref_lt_size (by rw [htree, hstay]),
        hp.ref_lt_size, fun ρ hρ => ?_⟩
      simp [Draft.record, htree, Tree.renew, hstay]
    | some n =>
      obtain ⟨hchildren, hbinding, happlies, hreads⟩ := replacement_cases hrep
      have hc : ∀ c ∈ n.children, c < d.graph.nodes.size := by simp [hchildren]
      have hkeep := Graph.keeps_add d.graph n
      have hvalid := hd.add hc (happlies d.graph)
      have hshow : (d.add n).2.graph.Shows (.placeholder p) :=
        hkeep.shows rfl hd.graph hvalid.graph hp
      have htree : (d.add n).2.graph.resolve d.graph.nodes.size =
          .placeholder (how.rename (fun _ => d.graph.nodes.size) p) :=
        hreads _ _ (by simp [Draft.add, Graph.node?_add])
      have hlt : d.graph.nodes.size < (d.add n).2.graph.nodes.size := by simp [Draft.add]
      have hgrow : d.Grows (d.add n).2 := ⟨Graph.appends_add hc hbinding, fun _ _ h => h⟩
      refine ⟨hgrow.trans (grows_record hget), hvalid.record hshow hlt htree, hlt, fun ρ hρ => ?_⟩
      have himage : ρ p.ref = d.graph.nodes.size := hρ (by simp [Draft.record, Draft.add])
      rw [Tree.renew, Tree.replace_placeholder, rename_eq himage]
      exact htree

/-- Several trees were built one after another. -/
structure BuiltAll (how : Renewal) (d : Draft) (ts : List Tree) (rs : List TypeRef)
    (d' : Draft) : Prop where
  grows   : d.Grows d'
  valid   : d'.Valid how
  lt_size : ∀ r ∈ rs, r < d'.graph.nodes.size
  resolve : ∀ ρ, d'.Agrees ρ → rs.map d'.graph.resolve = ts.map (Tree.renew how ρ)

lemma built_buildAll (ts : List Tree)
    (build : ∀ t ∈ ts, ∀ d : Draft, d.Valid how → d.graph.Shows t →
      Built how d t (d.build how t).1 (d.build how t).2)
    (hd : d.Valid how) (hts : ∀ t ∈ ts, d.graph.Shows t) :
    BuiltAll how d ts (d.buildAll how ts).1 (d.buildAll how ts).2 := by
  induction ts generalizing d with
  | nil => exact ⟨Grows.refl d, hd, by simp [buildAll], by simp [buildAll]⟩
  | cons t ts ih =>
    have hfirst := build t (by simp) d hd (hts t (by simp))
    have hkeep := hfirst.grows.graph
    have hrest := ih (fun u hu => build u (by simp [hu])) hfirst.valid fun u hu =>
      hkeep.keeps.shows hkeep.templates hd.graph hfirst.valid.graph (hts u (by simp [hu]))
    have hkeep' := hrest.grows.graph.keeps
    refine ⟨hfirst.grows.trans hrest.grows, hrest.valid, ?_, ?_⟩
    · intro r hr
      rcases List.mem_cons.mp hr with rfl | hr
      · exact hfirst.lt_size.trans_le hkeep'.extends.size_le
      · exact hrest.lt_size r hr
    · intro ρ hρ
      -- the first tree was finished before the others were begun
      have hhead := hfirst.resolve ρ (hrest.grows.agrees hρ)
      rw [← hkeep'.resolve_eq hfirst.valid.graph hrest.valid.graph hfirst.lt_size] at hhead
      have htail := hrest.resolve ρ hρ
      simp only [buildAll, List.map_cons, hhead, htail]

lemma BuiltAll.length_eq {ts : List Tree} {rs : List TypeRef} (h : BuiltAll how d ts rs d') :
    rs.length = ts.length := by
  obtain ⟨ρ, hρ⟩ : ∃ ρ, d'.Agrees ρ :=
    ⟨fun r => (d'.chosen.get? r).getD r, fun r i h => by simp [h]⟩
  simpa using congrArg List.length (h.resolve ρ hρ)

/-- An instance is built from its arguments. -/
lemma BuiltAll.inst {ts : List Tree} {rs : List TypeRef} {t : TemplateRef} {template : Template}
    (h : BuiltAll how d ts rs d') (htemplate : d.graph.template? t = some template)
    (harity : template.arity = ts.length) :
    Built how d (.inst t ts) (d'.add (.inst t rs)).1 (d'.add (.inst t rs)).2 := by
  have happlies : d'.graph.Applies (.inst t rs) := by
    rintro _ _ ⟨⟩
    exact ⟨template, by rwa [Graph.template?, h.grows.graph.templates], by rw [h.length_eq, harity]⟩
  have hvalid : (d'.add (.inst t rs)).2.Valid how := h.valid.add h.lt_size happlies
  have hnode : (d'.add (.inst t rs)).2.graph.node? d'.graph.nodes.size = some (.inst t rs) := by
    simp [Draft.add, Graph.node?_add]
  refine ⟨h.grows.trans ⟨Graph.appends_add h.lt_size rfl, fun _ _ h => h⟩, hvalid,
    Graph.lt_size_of_node? hnode, fun ρ hρ => ?_⟩
  have hargs : rs.map (d'.add (.inst t rs)).2.graph.resolve = rs.map d'.graph.resolve :=
    List.map_congr_left fun c hc => (Graph.keeps_add d'.graph _).resolve_eq h.valid.graph
      hvalid.graph (h.lt_size c hc)
  calc (d'.add (.inst t rs)).2.graph.resolve d'.graph.nodes.size
      = .inst t (rs.map (d'.add (.inst t rs)).2.graph.resolve) :=
        Graph.resolve_inst hvalid.graph hnode
    _ = .inst t (ts.map (Tree.renew how ρ)) := by rw [hargs, h.resolve ρ hρ]
    _ = (Tree.inst t ts).renew how ρ := by
      simp only [Tree.renew, Tree.replace_inst]
      rfl

/-- Building a tree of the graph gives a type that reads as the renewed tree. -/
theorem built_build (t : Tree) (hd : d.Valid how) (ht : d.graph.Shows t) :
    Built how d t (d.build how t).1 (d.build how t).2 := by
  induction t generalizing d with
  | terminal r name =>
    cases ht with
    | terminal hn =>
      refine ⟨Grows.refl d, hd, Graph.lt_size_of_node? hn, fun ρ _ => ?_⟩
      simp [build, Graph.resolve_terminal hn, Tree.renew]
  | placeholder p =>
    rw [build]
    exact built_replace hd ht
  | inst t args ih =>
    cases ht with
    | inst htemplate harity hargs =>
      rw [build]
      exact (built_buildAll args (fun u hu d => ih u hu) hd hargs).inst htemplate harity
  | union r members =>
    cases ht with
    | union hr htree =>
      refine ⟨Grows.refl d, hd, hr, fun ρ _ => ?_⟩
      simpa [build, Tree.renew] using htree

end Draft

namespace Graph

variable {g : Graph} {r : TypeRef}

/-- What renewing a type on its own does. -/
theorem built_renew (how : Renewal) (hg : g.WellFormed) (hr : r < g.nodes.size) :
    Draft.Built how { graph := g } (g.resolve r) (Draft.renew how { graph := g } r).1
      (Draft.renew how { graph := g } r).2 :=
  Draft.built_build _ ⟨hg, by simp [Renaming.get?], by simp [Renaming.get?]⟩ (shows_resolve hg hr)

/-- Renewing a type adds nodes that point backward. -/
lemma appends_renew (how : Renewal) (hg : g.WellFormed) (hr : r < g.nodes.size) :
    g.Appends (g.renew how r).2 :=
  (built_renew how hg hr).grows.graph

lemma wellFormed_renew (how : Renewal) (hg : g.WellFormed) (hr : r < g.nodes.size) :
    (g.renew how r).2.WellFormed :=
  (built_renew how hg hr).valid.graph

lemma renew_lt_size (how : Renewal) (hg : g.WellFormed) (hr : r < g.nodes.size) :
    (g.renew how r).1 < (g.renew how r).2.nodes.size :=
  (built_renew how hg hr).lt_size

/-- A renewed type reads as the type with its placeholders renamed. -/
theorem resolve_renew (how : Renewal) (hg : g.WellFormed) (hr : r < g.nodes.size) :
    ∃ ρ, (g.renew how r).2.resolve (g.renew how r).1 = (g.resolve r).renew how ρ := by
  let d := (Draft.renew how { graph := g } r).2
  exact ⟨fun x => (d.chosen.get? x).getD x,
    (built_renew how hg hr).resolve _ fun x i h => by simp [d, h]⟩

end Graph

namespace Store

variable {s : Store} {r : TypeRef}

lemma quiet_of_appends {g : Graph} (h : s.graph.Appends g) : s.Quiet { s with graph := g } where
  graph := h.keeps
  templates := h.templates
  trail := rfl
  unbound := h.unbound

/-- Renewing a type adds unbound nodes and nothing else. -/
lemma quiet_renew (how : Renewal) (hs : s.graph.WellFormed) (hr : r < s.graph.nodes.size) :
    s.Quiet (s.renew how r).2 :=
  quiet_of_appends (Graph.appends_renew how hs hr)

/-- So does adding a node that is not a bound variable. -/
lemma quiet_add {n : Node} (hc : ∀ c ∈ n.children, c < s.graph.nodes.size)
    (hb : n.binding? = none) : s.Quiet (s.add n).2 :=
  quiet_of_appends (Graph.appends_add hc hb)

end Store

end Unification
