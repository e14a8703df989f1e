import Mathlib.Data.Set.Function
import Unification.Proofs.Reachable

/-!
# One new placeholder for each old one

Renewing a type replaces its placeholders outside overload sets one for one: the same placeholder
always by the same one, different ones by different ones, with the same name and the kind that the
renewal asks for. What is replaced becomes new, and what the renewal spares stays itself. So the
places of the renewed type that share a placeholder are those that shared one before:
`Engine.renew_oneToOne`.
-/

namespace Unification

/-! ### Placeholders outside overload sets -/

namespace Tree

variable {t : Tree} {ts : List Tree} {p : Placeholder} {f g : Placeholder → Placeholder}

mutual

/-- The placeholders that do not stand inside an overload set, in the order in which the tree is
read, each as often as it occurs. -/
def outerPlaceholders : Tree → List Placeholder
  | terminal _ _  => []
  | placeholder p => [p]
  | inst _ args   => outerPlaceholdersAll args
  | union _ _     => []

/-- The placeholders of a list of trees that do not stand inside an overload set. -/
def outerPlaceholdersAll : List Tree → List Placeholder
  | []      => []
  | t :: ts => outerPlaceholders t ++ outerPlaceholdersAll ts

end

lemma outerPlaceholdersAll_eq_flatMap : outerPlaceholdersAll ts = ts.flatMap outerPlaceholders := by
  induction ts with
  | nil => rfl
  | cons t ts ih => rw [outerPlaceholdersAll, ih, List.flatMap_cons]

@[simp]
lemma outerPlaceholders_terminal {r : TypeRef} {name : String} :
    (terminal r name).outerPlaceholders = [] := by
  rw [outerPlaceholders]

@[simp]
lemma outerPlaceholders_placeholder : (placeholder p).outerPlaceholders = [p] := by
  rw [outerPlaceholders]

@[simp]
lemma outerPlaceholders_inst {r : TemplateRef} :
    (inst r ts).outerPlaceholders = ts.flatMap outerPlaceholders := by
  rw [outerPlaceholders, outerPlaceholdersAll_eq_flatMap]

@[simp]
lemma outerPlaceholders_union {r : TypeRef} : (union r ts).outerPlaceholders = [] := by
  rw [outerPlaceholders]

lemma outerPlaceholders_subset (t : Tree) : t.outerPlaceholders ⊆ t.placeholders := by
  intro p hp
  induction t with
  | terminal r name => simp at hp
  | placeholder q => simpa [placeholders] using hp
  | inst r args ih =>
    rw [outerPlaceholders_inst, List.mem_flatMap] at hp
    obtain ⟨u, hu, hp⟩ := hp
    exact mem_placeholders_inst.mpr ⟨u, hu, ih u hu hp⟩
  | union r members => simp at hp

/-- The references of the placeholders that do not stand inside an overload set. -/
def outerRefs (t : Tree) : Set TypeRef :=
  {r | ∃ p ∈ t.outerPlaceholders, p.ref = r}

lemma mem_outerRefs (h : p ∈ t.outerPlaceholders) : p.ref ∈ t.outerRefs :=
  ⟨p, h, rfl⟩

/-- The tree with every placeholder outside overload sets replaced by another one. -/
def relabel (f : Placeholder → Placeholder) (t : Tree) : Tree :=
  t.replace fun p => .placeholder (f p)

@[simp]
lemma relabel_terminal {r : TypeRef} {name : String} :
    (terminal r name).relabel f = terminal r name := by
  rw [relabel, replace_terminal]

@[simp]
lemma relabel_placeholder : (placeholder p).relabel f = placeholder (f p) := by
  rw [relabel, replace_placeholder]

@[simp]
lemma relabel_inst {r : TemplateRef} : (inst r ts).relabel f = inst r (ts.map (relabel f)) := by
  rw [relabel, replace_inst]
  rfl

@[simp]
lemma relabel_union {r : TypeRef} : (union r ts).relabel f = union r ts := by
  rw [relabel, replace_union]

/-- Relabelling acts on the placeholders outside overload sets, place by place. -/
lemma outerPlaceholders_relabel (f : Placeholder → Placeholder) (t : Tree) :
    (t.relabel f).outerPlaceholders = t.outerPlaceholders.map f := by
  induction t with
  | terminal r name => simp
  | placeholder p => simp
  | inst r args ih =>
    simp only [relabel_inst, outerPlaceholders_inst, List.flatMap_map, List.map_flatMap]
    exact List.flatMap_congr ih
  | union r members => simp

/-- Only what becomes of the placeholders outside overload sets matters. -/
lemma replace_congr {f g : Placeholder → Tree} (h : ∀ p ∈ t.outerPlaceholders, f p = g p) :
    t.replace f = t.replace g := by
  induction t with
  | terminal r name => simp
  | placeholder p => simpa using h p (by simp)
  | inst r args ih =>
    simp only [replace_inst]
    congr 1
    apply List.map_congr_left
    intro u hu
    apply ih u hu
    intro p hp
    exact h p (by simpa using ⟨u, hu, hp⟩)
  | union r members => simp

lemma relabel_congr (h : ∀ p ∈ t.outerPlaceholders, f p = g p) : t.relabel f = t.relabel g :=
  replace_congr fun p hp => by rw [h p hp]

lemma relabel_relabel (f g : Placeholder → Placeholder) (t : Tree) :
    (t.relabel f).relabel g = t.relabel (g ∘ f) := by
  induction t with
  | terminal r name => simp
  | placeholder p => simp
  | inst r args ih =>
    simp only [relabel_inst, List.map_map]
    congr 1
    exact List.map_congr_left ih
  | union r members => simp

/-- A tree whose placeholders are all kept is kept. -/
lemma relabel_eq_self (h : ∀ p ∈ t.outerPlaceholders, f p = p) : t.relabel f = t := by
  induction t with
  | terminal r name => simp
  | placeholder p => simp [h p (by simp)]
  | inst r args ih =>
    rw [relabel_inst]
    conv_rhs => rw [← List.map_id args]
    congr 1
    apply List.map_congr_left
    intro u hu
    apply ih u hu
    intro p hp
    exact h p (by simpa using ⟨u, hu, hp⟩)
  | union r members => simp

end Tree

/-! ### What a renewal asks for -/

namespace Renewal

variable {how : Renewal} {ρ : TypeRef → TypeRef} {p : Placeholder}

/-- The kind of placeholder that stands for one of the given kind in a renewed type. -/
def kind : Renewal → PlaceholderKind → PlaceholderKind
  | copy,        k => k
  | generalize,  _ => .rigid
  | instantiate, _ => .flexible

/-- Placeholders of this kind stay as they are. -/
def Spares : Renewal → PlaceholderKind → Prop
  | copy,        _ => False
  | generalize,  k => k = .rigid
  | instantiate, k => k = .flexible

instance (how : Renewal) (k : PlaceholderKind) : Decidable (how.Spares k) :=
  match how with
  | copy        => inferInstanceAs (Decidable False)
  | generalize  => inferInstanceAs (Decidable (k = .rigid))
  | instantiate => inferInstanceAs (Decidable (k = .flexible))

/-- The placeholder that stands for another one in a renewed type: it has the reference that `ρ`
gives, the kind that the renewal asks for, and the name that there was. -/
def image (how : Renewal) (ρ : TypeRef → TypeRef) (p : Placeholder) : Placeholder :=
  ⟨ρ p.ref, how.kind p.kind, p.name⟩

/-- A placeholder that is spared has the kind that it should have. -/
lemma Spares.kind_eq {k : PlaceholderKind} (h : how.Spares k) : how.kind k = k := by
  cases how with
  | copy => exact absurd h id
  | generalize | instantiate => exact h.symm

lemma Spares.image_eq (h : how.Spares p.kind) (hρ : ρ p.ref = p.ref) : how.image ρ p = p := by
  rw [image, hρ, h.kind_eq]

lemma replacement_eq_none_iff : how.replacement p = none ↔ how.Spares p.kind := by
  obtain ⟨ref, k, name⟩ := p
  cases how <;> cases k <;> simp [replacement, Spares]

/-- If what is spared is kept, then renaming a placeholder is taking its image. -/
lemma rename_eq_image (h : how.Spares p.kind → ρ p.ref = p.ref) :
    how.rename ρ p = how.image ρ p := by
  obtain ⟨ref, k, name⟩ := p
  cases how <;> cases k <;> simp_all [rename, replacement, image, kind, Spares]

/-- A new node for a placeholder is the image of the placeholder. -/
lemma shows_image {g : Graph} {r : TypeRef} {n : Node} (h : how.replacement p = some n)
    (hn : g.node? r = some n) : g.Shows (.placeholder (how.image (fun _ => r) p)) := by
  obtain ⟨ref, k, name⟩ := p
  cases how <;> cases k <;> simp only [replacement, reduceCtorEq, Option.some.injEq] at h <;>
    subst h
  all_goals first
    | exact .flexible hn
    | exact .rigid hn

end Renewal

/-! ### The replacements recorded in a draft -/

namespace Draft

variable {how : Renewal} {d d' : Draft} {n : Nat} {p : Placeholder} {t : Tree} {ts : List Tree}

/-- The replacements recorded in the draft are one for one. Only placeholders below `n` have one;
what is spared is its own, and all else has one from `n` on that is its image. -/
structure OneToOne (how : Renewal) (n : Nat) (d : Draft) : Prop where
  known : ∀ ⦃r image⦄, d.chosen.get? r = some image → ∃ p, p.ref = r ∧ r < n ∧
    d.graph.Shows (.placeholder p) ∧ d.graph.Shows (.placeholder (how.image (fun _ => image) p)) ∧
    (how.Spares p.kind → image = r) ∧ (¬ how.Spares p.kind → n ≤ image)
  inj   : ∀ ⦃r r' image⦄, d.chosen.get? r = some image → d.chosen.get? r' = some image → r = r'

/-- A replacement is the placeholder itself or new. -/
lemma OneToOne.eq_or_le (h : d.OneToOne how n) {r image : TypeRef}
    (hr : d.chosen.get? r = some image) : image = r ∨ n ≤ image := by
  obtain ⟨p, -, -, -, -, hspared, hfresh⟩ := h.known hr
  by_cases hp : how.Spares p.kind
  · exact Or.inl (hspared hp)
  · exact Or.inr (hfresh hp)

/-- Adding nodes does not concern the replacements. -/
lemma OneToOne.of_appends (h : d.OneToOne how n) (hgraph : d.graph.Appends d'.graph)
    (hchosen : d'.chosen = d.chosen) (hd : d.graph.WellFormed) (hd' : d'.graph.WellFormed) :
    d'.OneToOne how n where
  known r image hr := by
    rw [hchosen] at hr
    obtain ⟨p, hp, hlt, hshow, himage, hcases⟩ := h.known hr
    exact ⟨p, hp, hlt, hgraph.keeps.shows hgraph.templates hd hd' hshow,
      hgraph.keeps.shows hgraph.templates hd hd' himage, hcases⟩
  inj r r' image hr hr' := by
    rw [hchosen] at hr hr'
    exact h.inj hr hr'

/-- A replacement that no other placeholder has may be recorded. -/
lemma OneToOne.record (h : d.OneToOne how n) (hp : d.graph.Shows (.placeholder p))
    (hlt : p.ref < n) {image : TypeRef}
    (himage : d.graph.Shows (.placeholder (how.image (fun _ => image) p)))
    (hspared : how.Spares p.kind → image = p.ref) (hfresh : ¬ how.Spares p.kind → n ≤ image)
    (hnew : ∀ r, d.chosen.get? r ≠ some image) : (d.record p.ref image).OneToOne how n where
  known r i hr := by
    by_cases hrp : r = p.ref
    · subst hrp
      simp only [Draft.record, Renaming.get?_insert_self, Option.some.injEq] at hr
      subst hr
      exact ⟨p, rfl, hlt, hp, himage, hspared, hfresh⟩
    · exact h.known (by simpa [Draft.record, Renaming.get?_insert_of_ne _ image hrp] using hr)
  inj r r' i hr hr' := by
    have hold : ∀ {x}, x ≠ p.ref → (d.record p.ref image).chosen.get? x = some i →
        d.chosen.get? x = some i := fun hx h => by
      simpa [Draft.record, Renaming.get?_insert_of_ne _ image hx] using h
    have hself : ∀ {x}, x = p.ref → (d.record p.ref image).chosen.get? x = some i → image = i := by
      rintro x rfl h
      simpa [Draft.record] using h
    by_cases hrp : r = p.ref <;> by_cases hrp' : r' = p.ref
    · rw [hrp, hrp']
    · exact absurd (hself hrp hr ▸ hold hrp' hr') (hnew r')
    · exact absurd (hself hrp' hr' ▸ hold hrp hr) (hnew r)
    · exact h.inj (hold hrp hr) (hold hrp' hr')

/-- Replacing a placeholder keeps the replacements one for one, and gives it one. -/
lemma OneToOne.replace (hd : d.Valid how) (h : d.OneToOne how n) (hn : n ≤ d.graph.nodes.size)
    (hp : d.graph.Shows (.placeholder p)) (hlt : p.ref < n) :
    (d.replace how p).2.OneToOne how n ∧ ∃ i, (d.replace how p).2.chosen.get? p.ref = some i := by
  rw [Draft.replace]
  cases hget : d.chosen.get? p.ref with
  | some image => exact ⟨h, image, hget⟩
  | none =>
    cases hrep : how.replacement p with
    | none =>
      have hspared := Renewal.replacement_eq_none_iff.mp hrep
      refine ⟨h.record hp hlt ?_ (fun _ => rfl) (absurd hspared) ?_, p.ref, by simp [Draft.record]⟩
      · rwa [hspared.image_eq rfl]
      · -- what has the placeholder for its replacement is the placeholder
        intro r hr
        rcases h.eq_or_le hr with heq | hle
        · rw [heq, hr] at hget
          cases hget
        · exact absurd hlt (Nat.not_lt.mpr hle)
    | some node =>
      obtain ⟨hchildren, hbinding, happlies, -⟩ := replacement_cases hrep
      have hc : ∀ c ∈ node.children, c < d.graph.nodes.size := by simp [hchildren]
      have hvalid := hd.add hc (happlies d.graph)
      have happ := Graph.appends_add hc hbinding
      have hshow := happ.keeps.shows happ.templates hd.graph hvalid.graph hp
      have hnode : (d.add node).2.graph.node? d.graph.nodes.size = some node := by
        simp [Draft.add, Graph.node?_add]
      have hspared : ¬ how.Spares p.kind := by simp [← Renewal.replacement_eq_none_iff, hrep]
      have hadd : (d.add node).2.OneToOne how n := h.of_appends happ rfl hd.graph hvalid.graph
      refine ⟨hadd.record hshow hlt (Renewal.shows_image hrep hnode)
        (fun hs => absurd hs hspared) (fun _ => hn) ?_, ?_⟩
      · -- all recorded replacements are older
        intro r hr
        exact (hd.known hr).2.false
      · exact ⟨d.graph.nodes.size, by simp [Draft.record, Draft.add]⟩

lemma OneToOne.buildAll (ts : List Tree)
    (build : ∀ t ∈ ts, ∀ d : Draft, d.Valid how → d.OneToOne how n → n ≤ d.graph.nodes.size →
      d.graph.Shows t → (∀ p ∈ t.outerPlaceholders, p.ref < n) →
      (d.build how t).2.OneToOne how n ∧
        ∀ p ∈ t.outerPlaceholders, ∃ i, (d.build how t).2.chosen.get? p.ref = some i)
    (hd : d.Valid how) (h : d.OneToOne how n) (hn : n ≤ d.graph.nodes.size)
    (hts : ∀ t ∈ ts, d.graph.Shows t) (hlt : ∀ t ∈ ts, ∀ p ∈ t.outerPlaceholders, p.ref < n) :
    (d.buildAll how ts).2.OneToOne how n ∧
      ∀ t ∈ ts, ∀ p ∈ t.outerPlaceholders,
        ∃ i, (d.buildAll how ts).2.chosen.get? p.ref = some i := by
  induction ts generalizing d with
  | nil => exact ⟨h, by simp⟩
  | cons t ts ih =>
    have hfirst := built_build t hd (hts t (by simp))
    obtain ⟨h₁, hmet⟩ := build t (by simp) d hd h hn (hts t (by simp)) (hlt t (by simp))
    have hkeep := hfirst.grows.graph
    have hshow : ∀ u ∈ ts, (d.build how t).2.graph.Shows u := fun u hu =>
      hkeep.keeps.shows hkeep.templates hd.graph hfirst.valid.graph (hts u (by simp [hu]))
    have hle := hkeep.keeps.extends.size_le
    obtain ⟨h₂, hrest⟩ := ih (fun u hu => build u (by simp [hu])) hfirst.valid h₁ (hn.trans hle)
      hshow fun u hu => hlt u (by simp [hu])
    have hgrow := (built_buildAll ts (fun u _ d => built_build u) hfirst.valid hshow).grows
    refine ⟨h₂, List.forall_mem_cons.mpr ⟨fun p hp => ?_, hrest⟩⟩
    obtain ⟨i, hi⟩ := hmet p hp
    exact ⟨i, hgrow.chosen hi⟩

/-- Building a tree keeps the replacements one for one, and gives every placeholder outside overload
sets a replacement. -/
theorem OneToOne.build (t : Tree) (hd : d.Valid how) (h : d.OneToOne how n)
    (hn : n ≤ d.graph.nodes.size) (ht : d.graph.Shows t)
    (hlt : ∀ p ∈ t.outerPlaceholders, p.ref < n) :
    (d.build how t).2.OneToOne how n ∧
      ∀ p ∈ t.outerPlaceholders, ∃ i, (d.build how t).2.chosen.get? p.ref = some i := by
  induction t generalizing d with
  | terminal r name =>
    rw [Draft.build]
    exact ⟨h, by simp⟩
  | placeholder p =>
    rw [Draft.build]
    simpa using OneToOne.replace hd h hn ht (hlt p (by simp))
  | inst f args ih =>
    cases ht with
    | inst htemplate harity hargs =>
      obtain ⟨h₁, hmet⟩ := OneToOne.buildAll args (fun u hu d => ih u hu) hd h hn hargs
        fun u hu p hp => hlt p (by simpa using ⟨u, hu, hp⟩)
      have hall := built_buildAll args (fun u _ d => built_build u) hd hargs
      have hbuilt := hall.inst htemplate harity
      rw [Draft.build]
      refine ⟨h₁.of_appends (Graph.appends_add hall.lt_size rfl) rfl hall.valid.graph
        hbuilt.valid.graph, fun p hp => ?_⟩
      rw [Tree.outerPlaceholders_inst, List.mem_flatMap] at hp
      obtain ⟨u, hu, hp⟩ := hp
      exact hmet u hu p hp
  | union r members =>
    rw [Draft.build]
    exact ⟨h, by simp⟩

end Draft

/-! ### Renewed types -/

namespace Graph

variable {g : Graph} {r : TypeRef} {p : Placeholder}

lemma shows_of_mem_outerPlaceholders (hg : g.WellFormed) (hr : r < g.nodes.size)
    (hp : p ∈ (g.resolve r).outerPlaceholders) : g.Shows (.placeholder p) :=
  shows_of_mem_placeholders hg hr (Tree.outerPlaceholders_subset _ hp)

/-- In the second graph `r'` is the type `r` of the first graph with its placeholders outside
overload sets replaced one for one. -/
structure RenewsTo (g : Graph) (r : TypeRef) (how : Renewal) (ρ : TypeRef → TypeRef) (g' : Graph)
    (r' : TypeRef) : Prop where
  tree   : g'.resolve r' = (g.resolve r).relabel (how.image ρ)
  injOn  : Set.InjOn ρ (g.resolve r).outerRefs
  spared : ∀ p ∈ (g.resolve r).outerPlaceholders, how.Spares p.kind → ρ p.ref = p.ref
  fresh  : ∀ p ∈ (g.resolve r).outerPlaceholders, ¬ how.Spares p.kind → g.nodes.size ≤ ρ p.ref
  shows  : ∀ p ∈ (g.resolve r).outerPlaceholders, g'.Shows (.placeholder (how.image ρ p))

/-- Renewing a type replaces its placeholders one for one. -/
theorem exists_renewsTo (how : Renewal) (hg : g.WellFormed) (hr : r < g.nodes.size) :
    ∃ ρ, g.RenewsTo r how ρ (g.renew how r).2 (g.renew how r).1 := by
  have hbuilt := built_renew how hg hr
  have hstart : Draft.Valid how { graph := g } := ⟨hg, by simp [Renaming.get?], by
    simp [Renaming.get?]⟩
  obtain ⟨hone, hmet⟩ := Draft.OneToOne.build (n := g.nodes.size) (g.resolve r) hstart
    ⟨by simp [Renaming.get?], by simp [Renaming.get?]⟩ le_rfl (shows_resolve hg hr)
    fun p hp => (shows_of_mem_outerPlaceholders hg hr hp).ref_lt_size
  set d := (Draft.renew how { graph := g } r).2 with hd
  have hchosen : ∀ p ∈ (g.resolve r).outerPlaceholders, ∃ i, d.chosen.get? p.ref = some i ∧
      g.Shows (.placeholder p) ∧ d.graph.Shows (.placeholder (how.image (fun _ => i) p)) ∧
      (how.Spares p.kind → i = p.ref) ∧ (¬ how.Spares p.kind → g.nodes.size ≤ i) := by
    intro p hp
    obtain ⟨i, hi⟩ := hmet p hp
    obtain ⟨q, hq, hlt, hshow, hcases⟩ := hone.known hi
    have hp' := shows_of_mem_outerPlaceholders hg hr hp
    have hpd := hbuilt.grows.graph.keeps.shows hbuilt.grows.graph.templates hg hbuilt.valid.graph
      hp'
    obtain rfl := hshow.placeholder_inj hpd hq
    exact ⟨i, hi, hp', hcases⟩
  have hρ : ∀ {x i}, d.chosen.get? x = some i → (d.chosen.get? x).getD x = i := by
    intro x i h
    simp [h]
  refine ⟨fun x => (d.chosen.get? x).getD x, ?_, ?_, ?_, ?_, ?_⟩
  · -- on what is spared the references are those of before, so images are renamed placeholders
    refine (hbuilt.resolve _ fun x i h => hρ h).trans (Tree.relabel_congr fun p hp => ?_)
    obtain ⟨i, hi, -, -, hspared, -⟩ := hchosen p hp
    exact Renewal.rename_eq_image fun hs => (hρ hi).trans (hspared hs)
  · rintro _ ⟨p, hp, rfl⟩ _ ⟨q, hq, rfl⟩ heq
    obtain ⟨i, hi, -⟩ := hchosen p hp
    obtain ⟨j, hj, -⟩ := hchosen q hq
    simp only [hρ hi, hρ hj] at heq
    exact hone.inj hi (heq ▸ hj)
  · intro p hp hs
    obtain ⟨i, hi, -, -, hspared, -⟩ := hchosen p hp
    exact (hρ hi).trans (hspared hs)
  · intro p hp hs
    obtain ⟨i, hi, -, -, -, hfresh⟩ := hchosen p hp
    exact (hfresh hs).trans_eq (hρ hi).symm
  · intro p hp
    obtain ⟨i, hi, -, himage, -⟩ := hchosen p hp
    show d.graph.Shows _
    simpa only [Renewal.image, hρ hi] using himage

variable {how : Renewal} {ρ : TypeRef → TypeRef} {g' : Graph} {r' : TypeRef}

/-- Different placeholders of the type have different images. -/
lemma RenewsTo.image_injOn (h : g.RenewsTo r how ρ g' r') (hg : g.WellFormed)
    (hr : r < g.nodes.size) :
    Set.InjOn (how.image ρ) {p | p ∈ (g.resolve r).outerPlaceholders} := by
  intro p hp q hq heq
  refine (shows_of_mem_outerPlaceholders hg hr hp).placeholder_inj
    (shows_of_mem_outerPlaceholders hg hr hq) ?_
  exact h.injOn (Tree.mem_outerRefs hp) (Tree.mem_outerRefs hq) (congrArg Placeholder.ref heq)

/-- Two places of the renewed type have the same placeholder if they had the same one before. -/
lemma RenewsTo.getElem?_eq_iff (h : g.RenewsTo r how ρ g' r') (hg : g.WellFormed)
    (hr : r < g.nodes.size) (i j : Nat) :
    (g'.resolve r').outerPlaceholders[i]? = (g'.resolve r').outerPlaceholders[j]? ↔
      (g.resolve r).outerPlaceholders[i]? = (g.resolve r).outerPlaceholders[j]? := by
  have hinj := h.image_injOn hg hr
  have hmem : ∀ {k p}, (g.resolve r).outerPlaceholders[k]? = some p →
      p ∈ (g.resolve r).outerPlaceholders := List.mem_of_getElem?
  rw [h.tree, Tree.outerPlaceholders_relabel, List.getElem?_map, List.getElem?_map]
  cases hi : (g.resolve r).outerPlaceholders[i]? <;>
    cases hj : (g.resolve r).outerPlaceholders[j]? <;> simp
  exact ⟨fun heq => hinj (hmem hi) (hmem hj) heq, congrArg _⟩

end Graph

namespace Engine

variable {e : Engine} {r : TypeRef}

/-- Copying, generalizing or instantiating a type changes no node, and gives the type with its
placeholders outside overload sets renamed by some `ρ`. The placeholders keep their names, and
different ones get different references. What the renewal spares stays itself; all else becomes a
new placeholder of the kind that the renewal asks for. So two places share a placeholder afterwards
exactly if they shared one before. -/
theorem renew_oneToOne (he : e.Reachable) (hr : e.Has r) (how : Renewal) :
    e.graph.Keeps (e.renew how r).2.graph ∧
      ∃ ρ : TypeRef → TypeRef,
        (e.renew how r).2.graph.resolve (e.renew how r).1 =
            (e.graph.resolve r).relabel (how.image ρ) ∧
          Set.InjOn ρ (e.graph.resolve r).outerRefs ∧
          (∀ p ∈ (e.graph.resolve r).outerPlaceholders,
            if how.Spares p.kind then ρ p.ref = p.ref
            else ¬ e.Has (ρ p.ref) ∧
              (e.renew how r).2.graph.Shows (.placeholder (how.image ρ p))) ∧
          ∀ i j : Nat,
            ((e.renew how r).2.graph.resolve (e.renew how r).1).outerPlaceholders[i]? =
                ((e.renew how r).2.graph.resolve (e.renew how r).1).outerPlaceholders[j]? ↔
              (e.graph.resolve r).outerPlaceholders[i]? =
                (e.graph.resolve r).outerPlaceholders[j]? := by
  have hg := he.wellFormed.graph
  obtain ⟨ρ, h⟩ := Graph.exists_renewsTo how hg hr
  refine ⟨(Graph.appends_renew how hg hr).keeps, ρ, h.tree, h.injOn, fun p hp => ?_,
    h.getElem?_eq_iff hg hr⟩
  split_ifs with hs
  · exact h.spared p hp hs
  · exact ⟨Nat.not_lt.mpr (h.fresh p hp hs), h.shows p hp⟩

/-- The engine with variables `x` and `y`, a constraint, and the type `(x, y) -> c`. -/
def binary : Engine :=
  let e := (((new {}).addVar (some "x")).2.addVar (some "y")).2
  ((e.addConstraint none).2.addFunction [2, 3] 4).2

lemma reachable_binary : binary.Reachable := by
  refine .next (.next (.next (.next (.new {}) (.addVar _)) (.addVar _)) (.addConstraint _))
    (.addFunction ?_ ?_)
  all_goals decide

/-- After `y` is bound to `x`, a copy of `(x, y) -> c` has one new placeholder at its first two
places and another one at the third. -/
theorem renew_oneToOne_binary :
    ∃ r e, binary.unify 1 3 2 = .done r e ∧
      let copy := (e.renew .copy 6).2.graph.resolve (e.renew .copy 6).1
      copy.outerPlaceholders[0]? = copy.outerPlaceholders[1]? ∧
        copy.outerPlaceholders[0]? ≠ copy.outerPlaceholders[2]? := by
  obtain ⟨r, e, hrun, hhas, hfirst, hthird⟩ : ∃ r e, binary.unify 1 3 2 = .done r e ∧ e.Has 6 ∧
      (e.graph.resolve 6).outerPlaceholders[0]? = (e.graph.resolve 6).outerPlaceholders[1]? ∧
      (e.graph.resolve 6).outerPlaceholders[0]? ≠ (e.graph.resolve 6).outerPlaceholders[2]? := by
    decide +kernel
  have he : e.Reachable :=
    .next reachable_binary (.unify (by decide) (by decide) (Or.inl ⟨r, hrun⟩))
  obtain ⟨-, ρ, -, -, -, hshare⟩ := renew_oneToOne he hhas .copy
  exact ⟨r, e, hrun, (hshare 0 1).mpr hfirst, fun h => hthird ((hshare 0 2).mp h)⟩

end Engine

end Unification
