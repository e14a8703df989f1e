import Unification.Proofs.Calls
import Unification.Proofs.Replacement

/-!
# Calls in stages

A call of a callee without overload sets says one thing about the types before it: read as a tree,
the callee becomes the function type from the arguments to the result when its constraints are
replaced suitably. Calling it with some of the arguments first and calling what comes of that with
the others says the same, so either both ways succeed or neither does, and afterwards all types read
alike up to a renaming of the free variables: `Engine.call_in_stages`.
-/

namespace Unification

namespace Tree

variable {t : Tree} {ts us : List Tree} {θ τ : TypeRef → Tree}

/-! ### Function types -/

/-- The function type from parameters to a result. -/
def arrows (params : List Tree) (result : Tree) : Tree :=
  params.foldr (fun input output => .inst functionTemplate [input, output]) result

/-- A function of more parameters is a function of the first ones whose result is a function of the
others. -/
lemma arrows_append : arrows (ts ++ us) t = arrows ts (arrows us t) := by
  rw [arrows, arrows, arrows, List.foldr_append]

/-- A function type has what its parts have and a function type of parts with it has. -/
lemma arrows_of {P : Tree → Prop} (hP : ∀ u w, P u → P w → P (.inst functionTemplate [u, w]))
    (hts : ∀ u ∈ ts, P u) (ht : P t) : P (arrows ts t) := by
  induction ts with
  | nil => exact ht
  | cons u us ih => exact hP u _ (hts u (by simp)) (ih fun w hw => hts w (by simp [hw]))

/-! ### First-order trees -/

/-- The tree is made of terminals, free variables and instances. -/
inductive FirstOrder : Tree → Prop where
  | terminal (r : TypeRef) (name : String) : FirstOrder (.terminal r name)
  | flexible (r : TypeRef) (name : Option String) : FirstOrder (.placeholder ⟨r, .flexible, name⟩)
  | inst {f : TemplateRef} {args : List Tree} : (∀ u ∈ args, FirstOrder u) →
      FirstOrder (.inst f args)

lemma FirstOrder.plain (h : t.FirstOrder) : t.Plain := by
  induction h with
  | terminal r name => exact .terminal r name
  | flexible r name => exact .placeholder _
  | inst _ ih => exact .inst ih

/-- A tree without overload sets becomes first-order when its placeholders do. -/
lemma Plain.firstOrder_replace {f : Placeholder → Tree} (h : t.Plain)
    (hf : ∀ p ∈ t.outerPlaceholders, (f p).FirstOrder) : (t.replace f).FirstOrder := by
  induction h with
  | terminal r name =>
    rw [replace_terminal]
    exact .terminal r name
  | placeholder p =>
    rw [replace_placeholder]
    exact hf p (by simp)
  | inst _ ih =>
    rw [replace_inst]
    refine .inst fun _ hmem => ?_
    obtain ⟨u, hu, rfl⟩ := List.mem_map.mp hmem
    exact ih u hu fun p hp => hf p (by simpa using ⟨u, hu, hp⟩)
  | union hfalse => exact absurd hfalse id

/-- A tree without overload sets is first-order if it has no constraints. -/
lemma Plain.firstOrder (h : t.Plain) (hk : ∀ p ∈ t.placeholders, p.kind = .flexible) :
    t.FirstOrder := by
  induction h with
  | terminal r name => exact .terminal r name
  | placeholder p =>
    obtain ⟨r, kind, name⟩ := p
    obtain rfl : kind = .flexible := hk ⟨r, kind, name⟩ (by simp [placeholders])
    exact .flexible r name
  | inst _ ih =>
    exact .inst fun u hu => ih u hu fun p hp => hk p (mem_placeholders_inst.mpr ⟨u, hu, hp⟩)
  | union hfalse => exact absurd hfalse id

lemma FirstOrder.subst (h : t.FirstOrder) (hθ : ∀ v ∈ t.vars, (θ v).FirstOrder) :
    (t.subst θ).FirstOrder := by
  induction h with
  | terminal r name =>
    rw [subst_terminal]
    exact .terminal r name
  | flexible r name =>
    rw [subst_flexible]
    exact hθ r (by simp [vars, placeholders])
  | inst _ ih =>
    rw [subst_inst]
    refine .inst fun _ hmem => ?_
    obtain ⟨u, hu, rfl⟩ := List.mem_map.mp hmem
    exact ih u hu fun v hv => hθ v (mem_vars_inst.mpr ⟨u, hu, hv⟩)

lemma hereditary_firstOrder : Hereditary FirstOrder where
  flexible := .flexible
  arg f ts t h ht := by
    cases h with
    | inst h => exact h t ht
  member r ts t h ht := by cases h
  subst _ _ h hθ := h.subst hθ
  instantiate t ρ h := by
    refine h.plain.firstOrder_replace fun p _ => ?_
    obtain ⟨r, kind, name⟩ := p
    cases kind <;> exact .flexible _ _

/-! ### Filling in -/

/-- The tree with its free variables and its constraints replaced. -/
def fill (θ τ : TypeRef → Tree) (t : Tree) : Tree :=
  t.replace fun p =>
    match p.kind with
    | .flexible => θ p.ref
    | .rigid    => τ p.ref

lemma fill_congr {θ' τ' : TypeRef → Tree}
    (hθ : ∀ p ∈ t.outerPlaceholders, p.kind = .flexible → θ p.ref = θ' p.ref)
    (hτ : ∀ p ∈ t.outerPlaceholders, p.kind = .rigid → τ p.ref = τ' p.ref) :
    t.fill θ τ = t.fill θ' τ' := by
  refine replace_congr fun p hp => ?_
  cases hk : p.kind with
  | flexible => exact hθ p hp hk
  | rigid => exact hτ p hp hk

/-- There are no constraints to fill in. -/
lemma FirstOrder.fill_eq (h : t.FirstOrder) : t.fill θ τ = t.subst θ := by
  rw [fill]
  induction h with
  | terminal r name => rw [replace_terminal, subst_terminal]
  | flexible r name => rw [replace_placeholder, subst_flexible]
  | inst _ ih =>
    rw [replace_inst, subst_inst]
    congr 1
    exact List.map_congr_left ih

lemma Plain.subst_relabel {f : Placeholder → Placeholder} (h : t.Plain) :
    (t.relabel f).subst θ = t.replace fun p => (placeholder (f p)).subst θ := by
  induction h with
  | terminal r name => simp
  | placeholder p => simp
  | inst _ ih =>
    simp only [relabel_inst, subst_inst, replace_inst, List.map_map]
    congr 1
    exact List.map_congr_left ih
  | union hfalse => exact absurd hfalse id

/-- An instance of a tree is read as the tree with its constraints filled in. -/
lemma Plain.subst_instantiate {ρ : TypeRef → TypeRef} (h : t.Plain)
    (hρ : ∀ p ∈ t.outerPlaceholders, p.kind = .flexible → ρ p.ref = p.ref) :
    (t.relabel (Renewal.instantiate.image ρ)).subst θ = t.fill θ (θ ∘ ρ) := by
  rw [h.subst_relabel]
  refine replace_congr fun p hp => ?_
  have hspared := hρ p hp
  obtain ⟨r, kind, name⟩ := p
  cases kind with
  | flexible => simp [Renewal.image, Renewal.kind, hspared rfl]
  | rigid => simp [Renewal.image, Renewal.kind]

/-! ### Trees that are instances of each other -/

/-- A substitution that keeps a tree keeps its free variables. -/
lemma eq_placeholder_of_subst_eq_self (h : t.subst θ = t) {p : Placeholder}
    (hp : p ∈ t.placeholders) (hk : p.kind = .flexible) : θ p.ref = placeholder p := by
  have hmap : ∀ {ts : List Tree}, ts.map (Tree.subst θ) = ts → ∀ u ∈ ts, u.subst θ = u := by
    intro ts hts u hu
    exact List.map_inj_left.mp (hts.trans (List.map_id ts).symm) u hu
  induction t with
  | terminal r name => simp [placeholders] at hp
  | placeholder q =>
    obtain rfl : p = q := by simpa [placeholders] using hp
    obtain ⟨r, kind, name⟩ := p
    obtain rfl : kind = .flexible := hk
    simpa using h
  | inst f args ih =>
    obtain ⟨u, hu, hp⟩ := mem_placeholders_inst.mp hp
    rw [subst_inst, inst.injEq] at h
    exact ih u hu (hmap h.2 u hu) hp
  | union r members ih =>
    obtain ⟨u, hu, hp⟩ := mem_placeholders_union.mp hp
    rw [subst_union, union.injEq] at h
    exact ih u hu (hmap h.2 u hu) hp

/-- A free variable that is put in for another one stands in the result. -/
lemma mem_placeholders_subst {p q : Placeholder} (hp : p ∈ t.placeholders) (hk : p.kind = .flexible)
    (hθ : θ p.ref = placeholder q) : q ∈ (t.subst θ).placeholders := by
  induction t with
  | terminal r name => simp [placeholders] at hp
  | placeholder p' =>
    obtain rfl : p = p' := by simpa [placeholders] using hp
    obtain ⟨r, kind, name⟩ := p
    obtain rfl : kind = .flexible := hk
    rw [subst_flexible, hθ]
    simp [placeholders]
  | inst f args ih =>
    obtain ⟨u, hu, hp⟩ := mem_placeholders_inst.mp hp
    rw [subst_inst, mem_placeholders_inst]
    exact ⟨_, List.mem_map_of_mem hu, ih u hu hp⟩
  | union r members ih =>
    obtain ⟨u, hu, hp⟩ := mem_placeholders_union.mp hp
    rw [subst_union, mem_placeholders_union]
    exact ⟨_, List.mem_map_of_mem hu, ih u hu hp⟩

end Tree

/-! ### Valuations of larger graphs -/

namespace Graph

variable {g g' : Graph} {θ σ τ : TypeRef → Tree} {T : Set TypeRef} {v : TypeRef}

/-- A valuation goes over to a graph with more nodes, whatever the new free variables are read
as. -/
lemma Keeps.exists_valuation (h : g.Keeps g') (hg : g.WellFormed) (hg' : g'.WellFormed)
    (hθ : g.IsValuation θ) (σ : TypeRef → Tree) :
    ∃ θ', g'.IsValuation θ' ∧ (∀ x < g.nodes.size, θ' x = θ x) ∧
      ∀ v, g.nodes.size ≤ v → g'.isFree v = true → θ' v = σ v := by
  let both : TypeRef → Tree := fun v => if v < g.nodes.size then θ v else σ v
  refine ⟨fun x => (g'.resolve x).subst both, isValuation_subst hg' both, fun x hx => ?_, ?_⟩
  · show (g'.resolve x).subst both = θ x
    rw [h.resolve_eq hg hg' hx, hθ.eq_subst hg x]
    refine Tree.subst_congr fun v hv => ?_
    exact if_pos (lt_size_of_isFree (isFree_of_mem_vars hg hx hv))
  · intro v hv hfree
    obtain ⟨name, hn⟩ := (g'.isFree_eq_true_iff v).mp hfree
    show (g'.resolve v).subst both = σ v
    rw [resolve_free hn, Tree.subst_flexible]
    exact if_neg (Nat.not_lt.mpr hv)

/-- The free variables in the trees of some types. -/
def varsOf (g : Graph) (T : Set TypeRef) : Set TypeRef :=
  {v | ∃ x ∈ T, v ∈ (g.resolve x).vars}

/-- If the trees of some types in two graphs are instances of each other, then a free variable in
one of them becomes a free variable. -/
lemma exists_var_of_instances (hg' : g'.WellFormed) (hT : ∀ x ∈ T, x < g'.nodes.size)
    (hto : ∀ x ∈ T, g'.resolve x = (g.resolve x).subst τ)
    (hfrom : ∀ x ∈ T, g.resolve x = (g'.resolve x).subst σ) (hv : v ∈ g.varsOf T) :
    ∃ w ∈ g'.varsOf T, τ v = .placeholder ⟨w, .flexible, (g'.node? w).bind Node.name?⟩ ∧
      ∃ name, σ w = .placeholder ⟨v, .flexible, name⟩ := by
  obtain ⟨x, hx, hv⟩ := hv
  obtain ⟨⟨_, _, name⟩, hp, hk, rfl⟩ := Tree.mem_vars.mp hv
  obtain rfl := hk
  have hround : (g.resolve x).subst (fun v => (τ v).subst σ) = g.resolve x := by
    rw [← Tree.subst_subst, ← hto x hx, ← hfrom x hx]
  obtain ⟨w, name', hτ, hσ⟩ :=
    Tree.eq_flexible_of_subst (Tree.eq_placeholder_of_subst_eq_self hround hp rfl)
  have hw : ⟨w, .flexible, name'⟩ ∈ (g'.resolve x).placeholders := by
    rw [hto x hx]
    exact Tree.mem_placeholders_subst hp rfl hτ
  have hnode := (mem_placeholders_resolve hg' (hT x hx) hw).2.1 rfl
  refine ⟨w, ⟨x, hx, Tree.mem_vars.mpr ⟨_, hw, rfl, rfl⟩⟩, ?_, name, hσ⟩
  rw [hτ, hnode]
  rfl

/-- Types whose trees in two graphs are instances of each other read alike up to a renaming of their
free variables. -/
theorem exists_renameVars_of_instances (hg : g.WellFormed) (hg' : g'.WellFormed)
    (hT : ∀ x ∈ T, x < g.nodes.size) (hT' : ∀ x ∈ T, x < g'.nodes.size)
    (hto : ∀ x ∈ T, g'.resolve x = (g.resolve x).subst τ)
    (hfrom : ∀ x ∈ T, g.resolve x = (g'.resolve x).subst σ) :
    ∃ ρ : TypeRef → TypeRef, Set.BijOn ρ (g.varsOf T) (g'.varsOf T) ∧
      ∀ x ∈ T, g'.resolve x = (g.resolve x).renameVars g' ρ := by
  have hvar := fun v (hv : v ∈ g.varsOf T) => exists_var_of_instances hg' hT' hto hfrom hv
  choose! ρ hρ hτ hσ using hvar
  refine ⟨ρ, ⟨hρ, ?_, ?_⟩, fun x hx => ?_⟩
  · intro v hv v' hv' heq
    obtain ⟨name, hback⟩ := hσ v hv
    obtain ⟨name', hback'⟩ := hσ v' hv'
    rw [heq, hback'] at hback
    cases hback
    rfl
  · intro w hw
    obtain ⟨v, hv, -, name, hback⟩ := exists_var_of_instances hg hT hfrom hto hw
    refine ⟨v, hv, ?_⟩
    have himage := (hτ v hv).symm.trans hback
    cases himage
    rfl
  · rw [hto x hx]
    exact Tree.subst_congr fun v hv => hτ v ⟨x, hx, hv⟩

end Graph

/-! ### What a call says about the types before it -/

namespace Engine

variable {e e' e₀ e₁ e₂ : Engine} {θ : TypeRef → Tree} {callee r v : TypeRef}
  {args xs ys : List TypeRef}

/-- The call succeeds and leads to the second engine. -/
def CallsTo (e : Engine) (callee : TypeRef) (args : List TypeRef) (r : TypeRef) (e' : Engine) :
    Prop :=
  ∃ depth t, e.call depth callee args r = .done t e'

/-- The callee, with its constraints filled in, is the function type from the arguments to the
result. -/
def CallFits (e : Engine) (callee : TypeRef) (args : List TypeRef) (r : TypeRef)
    (θ : TypeRef → Tree) : Prop :=
  ∃ τ, (e.graph.resolve callee).fill θ τ = Tree.arrows (args.map θ) (θ r)

/-- The types of a call are types of the engine without overload sets. -/
def PlainCall (e : Engine) (callee : TypeRef) (args : List TypeRef) (r : TypeRef) : Prop :=
  ∀ x ∈ callee :: r :: args, e.Has x ∧ (e.graph.resolve x).Plain

/-- A function type is read as the function type from its parameters to its result. -/
lemma valuation_addFunction (hθ : (e.addFunction args r).2.graph.IsValuation θ) :
    θ (e.addFunction args r).1 = Tree.arrows (args.map θ) (θ r) := by
  induction args with
  | nil => rfl
  | cons x args ih =>
    have hnode : (e.addFunction (x :: args) r).2.graph.node? (e.addFunction (x :: args) r).1 =
        some (.inst functionTemplate [x, (e.addFunction args r).1]) :=
      (Graph.node?_add _ _ _).trans (if_pos rfl)
    have hrest := ih ((Graph.keeps_add _ _).extends.isValuation hθ)
    rw [hθ hnode]
    simp only [Node.read, List.map_cons, List.map_nil, hrest]
    rfl

/-- What the two sides of a call are: the instance of the callee has, by `ρ`, a new free variable
for each constraint, and the other side is the function type from the arguments to the result. -/
structure Prepares (e : Engine) (callee : TypeRef) (args : List TypeRef) (r : TypeRef)
    (s : (TypeRef × TypeRef) × Engine) (ρ : TypeRef → TypeRef) : Prop where
  quiet      : e.Quiet s.2
  wellFormed : s.2.WellFormed
  has        : s.2.Has s.1.1 ∧ s.2.Has s.1.2
  injOn      : Set.InjOn ρ (e.graph.resolve callee).outerRefs
  fresh      : ∀ p ∈ (e.graph.resolve callee).outerPlaceholders, p.kind = .rigid →
    e.graph.nodes.size ≤ ρ p.ref ∧ s.2.graph.isFree (ρ p.ref) = true
  tree       : s.2.graph.resolve s.1.1 =
    (e.graph.resolve callee).relabel (Renewal.instantiate.image ρ)
  callee     : ∀ θ, s.2.graph.IsValuation θ → θ s.1.1 = (e.graph.resolve callee).fill θ (θ ∘ ρ)
  shape      : ∀ θ, s.2.graph.IsValuation θ → θ s.1.2 = Tree.arrows (args.map θ) (θ r)

lemma exists_prepares (he : e.WellFormed) (hcall : e.PlainCall callee args r) :
    ∃ ρ, e.Prepares callee args r (e.sides (.call callee args r)) ρ := by
  obtain ⟨hquiet, hwf, hinst, hother, -⟩ :=
    sides_lawful (q := .call callee args r) he fun x hx => (hcall x hx).1
  obtain ⟨hcallee, hplain⟩ := hcall callee (by simp)
  have hargs : ∀ x ∈ args, e.Has x := fun x hx => (hcall x (by simp [hx])).1
  obtain ⟨hshape, -, hkeeps⟩ := he.addFunction hargs (hcall r (by simp)).1
  have hcallee' := hcallee.trans_le hkeeps.extends.size_le
  obtain ⟨ρ, htree, hinj, hspared, hfresh, hshows⟩ :=
    Graph.exists_renewsTo .instantiate hshape.graph hcallee'
  rw [hkeeps.resolve_eq he.graph hshape.graph hcallee] at htree hinj hspared hfresh hshows
  refine ⟨ρ, hquiet, hwf, ⟨hinst, hother⟩, hinj, fun p hp hk => ?_, htree, fun θ hθ => ?_,
    fun θ hθ => ?_⟩
  · refine ⟨hkeeps.extends.size_le.trans (hfresh p hp (by simp [hk, Renewal.Spares])), ?_⟩
    have hshow := hshows p hp
    rw [Renewal.image, Renewal.kind] at hshow
    cases hshow with
    | flexible hn => exact (Graph.isFree_eq_true_iff _ _).mpr ⟨_, hn⟩
  · refine (hθ.eq_subst hwf.graph _).trans ?_
    exact (congrArg (Tree.subst θ) htree).trans (hplain.subst_instantiate hspared)
  · exact valuation_addFunction
      ((Graph.appends_renew .instantiate hshape.graph hcallee').keeps.extends.isValuation hθ)

variable {s : (TypeRef × TypeRef) × Engine} {ρ : TypeRef → TypeRef}

/-- Reading the two sides alike is reading the call as fitting. -/
lemma Prepares.callFits (h : e.Prepares callee args r s ρ) (hθ : s.2.graph.IsValuation θ)
    (heq : θ s.1.1 = θ s.1.2) : e.CallFits callee args r θ :=
  ⟨θ ∘ ρ, by rw [← h.callee θ hθ, heq, h.shape θ hθ]⟩

/-- Where a call fits, its two sides can be read alike. -/
lemma Prepares.exists_valuation (h : e.Prepares callee args r s ρ) (he : e.WellFormed)
    (hcall : e.PlainCall callee args r) (hθ : e.graph.IsValuation θ)
    (hfits : e.CallFits callee args r θ) :
    ∃ θ', s.2.graph.IsValuation θ' ∧ θ' s.1.1 = θ' s.1.2 ∧ ∀ x, e.Has x → θ' x = θ x := by
  obtain ⟨τ, hfits⟩ := hfits
  -- each new variable is read as what fills in for its constraint
  obtain ⟨θ', hθ', hagree, hnew⟩ := h.quiet.store.graph.exists_valuation he.graph
    h.wellFormed.graph hθ fun w => τ (Function.invFunOn ρ (e.graph.resolve callee).outerRefs w)
  refine ⟨θ', hθ', ?_, hagree⟩
  have hargs : args.map θ' = args.map θ :=
    List.map_congr_left fun x hx => hagree x (hcall x (by simp [hx])).1
  rw [h.callee θ' hθ', h.shape θ' hθ', hargs, hagree r (hcall r (by simp)).1, ← hfits]
  have hcallee := (hcall callee (by simp)).1
  refine Tree.fill_congr (fun p hp _ => ?_) fun p hp hk => ?_
  · exact hagree p.ref (Graph.shows_of_mem_outerPlaceholders he.graph hcallee hp).ref_lt_size
  · obtain ⟨hfresh, hfree⟩ := h.fresh p hp hk
    rw [Function.comp_apply, hnew _ hfresh hfree,
      h.injOn.leftInvOn_invFunOn (Tree.mem_outerRefs hp)]

lemma Prepares.resolve_eq (h : e.Prepares callee args r s ρ) (he : e.WellFormed) {x : TypeRef}
    (hx : e.Has x) : s.2.graph.resolve x = e.graph.resolve x :=
  h.quiet.store.graph.resolve_eq he.graph h.wellFormed.graph hx

/-- The sides of a call have a property that the instances of the callee have and the function type
from the arguments to the result. -/
lemma Prepares.sides_have {P : Tree → Prop} (h : e.Prepares callee args r s ρ) (he : e.WellFormed)
    (hcall : e.PlainCall callee args r)
    (hinst : ∀ ρ, P ((e.graph.resolve callee).relabel (Renewal.instantiate.image ρ)))
    (harrows : P (Tree.arrows (args.map e.graph.resolve) (e.graph.resolve r))) :
    P (s.2.graph.resolve s.1.1) ∧ P (s.2.graph.resolve s.1.2) := by
  constructor
  · rw [h.tree]
    exact hinst ρ
  · rw [h.shape _ (Graph.isValuation_resolve h.wellFormed.graph),
      h.resolve_eq he (hcall r (by simp)).1,
      List.map_congr_left fun x hx => h.resolve_eq he (hcall x (by simp [hx])).1]
    exact harrows

/-- An instance of the callee and the function type of a call are without overload sets. -/
lemma PlainCall.sides_plain (hcall : e.PlainCall callee args r) :
    (∀ ρ, ((e.graph.resolve callee).relabel (Renewal.instantiate.image ρ)).Plain) ∧
      (Tree.arrows (args.map e.graph.resolve) (e.graph.resolve r)).Plain := by
  constructor
  · intro ρ
    exact ((hcall callee (by simp)).2.firstOrder_replace fun _ _ => .flexible _ _).plain
  · refine Tree.arrows_of (fun u w hu hw => .inst (by simpa using ⟨hu, hw⟩)) ?_
      (hcall r (by simp)).2
    exact List.forall_mem_map.mpr fun x hx => (hcall x (by simp [hx])).2

lemma Prepares.plainPairs (h : e.Prepares callee args r s ρ) (he : e.WellFormed)
    (hcall : e.PlainCall callee args r) : s.2.PlainPairs [s.1] := by
  obtain ⟨hleft, hright⟩ := h.sides_have he hcall hcall.sides_plain.1 hcall.sides_plain.2
  simpa [PlainPairs, Store.AllHave] using ⟨⟨h.has.1, hleft⟩, h.has.2, hright⟩

/-- On the types of the first engine the second has exactly those valuations of the first that have
the property. -/
structure Leaves (e : Engine) (P : (TypeRef → Tree) → Prop) (e' : Engine) : Prop where
  wellFormed : e'.WellFormed
  size_le    : e.graph.nodes.size ≤ e'.graph.nodes.size
  sound      : ∀ θ, e'.graph.IsValuation θ → e.graph.IsValuation θ ∧ P θ
  complete   : ∀ θ, e.graph.IsValuation θ → P θ →
    ∃ θ', e'.graph.IsValuation θ' ∧ ∀ x, e.Has x → θ' x = θ x

/-- A successful call leaves the valuations under which it fits. -/
lemma call_leaves (he : e.WellFormed) (hcall : e.PlainCall callee args r)
    (h : e.CallsTo callee args r e') : e.Leaves (e.CallFits callee args r) e' := by
  obtain ⟨depth, t, h⟩ := h
  obtain ⟨ρ, hprep⟩ := exists_prepares he hcall
  obtain ⟨hwf', -, hsize, hval⟩ := unify_pair_lawful hprep.wellFormed (hprep.plainPairs he hcall)
    ((answer_eq_unify e (.call callee args r) depth).symm.trans h)
  refine ⟨hwf', hprep.quiet.store.size_le.trans hsize.ge, fun θ hθ => ?_, fun θ hθ hfits => ?_⟩
  · obtain ⟨hθ, heq⟩ := (hval θ).mp hθ
    exact ⟨hprep.quiet.store.graph.extends.isValuation hθ, hprep.callFits hθ heq⟩
  · obtain ⟨θ', hθ', heq, hagree⟩ := hprep.exists_valuation he hcall hθ hfits
    exact ⟨θ', (hval θ').mpr ⟨hθ', heq⟩, hagree⟩

lemma Leaves.exists_valuation {P : (TypeRef → Tree) → Prop} (h : e.Leaves P e') :
    ∃ θ, e.graph.IsValuation θ ∧ P θ :=
  ⟨_, h.sound _ (Graph.isValuation_resolve h.wellFormed.graph)⟩

/-- A call succeeds exactly if it fits under some valuation. -/
theorem exists_callsTo_iff (he : e.WellFormed) (hcall : e.PlainCall callee args r) :
    (∃ e', e.CallsTo callee args r e') ↔
      ∃ θ, e.graph.IsValuation θ ∧ e.CallFits callee args r θ := by
  constructor
  · rintro ⟨e', h⟩
    exact (call_leaves he hcall h).exists_valuation
  · rintro ⟨θ, hθ, hfits⟩
    obtain ⟨ρ, hprep⟩ := exists_prepares he hcall
    obtain ⟨θ', hθ', heq, -⟩ := hprep.exists_valuation he hcall hθ hfits
    obtain ⟨depth, t, e', h⟩ :=
      exists_unify_of_valuation hprep.wellFormed (hprep.plainPairs he hcall) hθ' heq
    exact ⟨e', depth, t, (answer_eq_unify e (.call callee args r) depth).trans h⟩

/-- A call hands on a hereditary property that its two sides have. -/
lemma call_inherits {P : Tree → Prop} (hP : Tree.Hereditary P) (he : e.WellFormed)
    (hcall : e.PlainCall callee args r)
    (hinst : ∀ ρ, P ((e.graph.resolve callee).relabel (Renewal.instantiate.image ρ)))
    (harrows : P (Tree.arrows (args.map e.graph.resolve) (e.graph.resolve r)))
    (h : e.CallsTo callee args r e') {x : TypeRef} (hx : e.Has x)
    (hxP : P (e.graph.resolve x)) : P (e'.graph.resolve x) := by
  obtain ⟨depth, t, h⟩ := h
  obtain ⟨ρ, hprep⟩ := exists_prepares he hcall
  obtain ⟨hleft, hright⟩ := hprep.sides_have he hcall hinst harrows
  refine unify_inherits hP hprep.wellFormed hprep.has.1 hprep.has.2 hleft hright (.inl ⟨t, h⟩) x
    (hprep.quiet.has hx) ?_
  rwa [hprep.resolve_eq he hx]

/-! ### Two stages -/

/-- A callee without constraints is taken as it is. -/
lemma callFits_iff_of_firstOrder (he : e.WellFormed)
    (hfirst : (e.graph.resolve callee).FirstOrder) (hθ : e.graph.IsValuation θ) :
    e.CallFits callee args r θ ↔ θ callee = Tree.arrows (args.map θ) (θ r) := by
  simp only [CallFits, hfirst.fill_eq, ← hθ.eq_subst he.graph]
  exact ⟨fun ⟨_, h⟩ => h, fun h => ⟨θ, h⟩⟩

/-- Engines that leave the same valuations of an engine read its types alike, up to a renaming of
free variables. -/
lemma Leaves.exists_renameVars {P : (TypeRef → Tree) → Prop} (h₁ : e.Leaves P e₁)
    (h₂ : e.Leaves P e₂) :
    ∃ ρ : TypeRef → TypeRef,
      Set.BijOn ρ (e₁.graph.varsOf {x | e.Has x}) (e₂.graph.varsOf {x | e.Has x}) ∧
      ∀ x, e.Has x → e₂.graph.resolve x = (e₁.graph.resolve x).renameVars e₂.graph ρ := by
  -- the trees of one engine are a valuation, which the other engine has as well
  have hinstance : ∀ {e₁ e₂ : Engine}, e.Leaves P e₁ → e.Leaves P e₂ →
      ∃ τ, ∀ x, e.Has x → e₂.graph.resolve x = (e₁.graph.resolve x).subst τ := by
    intro e₁ e₂ h₁ h₂
    obtain ⟨hval, hP⟩ := h₂.sound _ (Graph.isValuation_resolve h₂.wellFormed.graph)
    obtain ⟨τ, hτ, hagree⟩ := h₁.complete _ hval hP
    exact ⟨τ, fun x hx => (hagree x hx).symm.trans (hτ.eq_subst h₁.wellFormed.graph x)⟩
  obtain ⟨τ, hto⟩ := hinstance h₁ h₂
  obtain ⟨σ, hfrom⟩ := hinstance h₂ h₁
  exact Graph.exists_renameVars_of_instances h₁.wellFormed.graph h₂.wellFormed.graph
    (fun x hx => hx.trans_le h₁.size_le) (fun x hx => hx.trans_le h₂.size_le) hto hfrom

/-- The second engine has the nodes of the first and a new free variable. -/
structure AddsVar (e : Engine) (v : TypeRef) (e₀ : Engine) : Prop where
  wellFormed : e₀.WellFormed
  keeps      : e.graph.Keeps e₀.graph
  fresh      : e.graph.nodes.size ≤ v
  isFree     : e₀.graph.isFree v = true

lemma addsVar_addVar (he : e.WellFormed) (name : Option String) :
    e.AddsVar (e.addVar name).1 (e.addVar name).2 where
  wellFormed := he.next (.addVar name)
  keeps := Graph.keeps_add _ _
  fresh := le_rfl
  isFree := (Graph.isFree_eq_true_iff _ _).mpr
    ⟨name, (Graph.node?_add _ _ _).trans (if_pos rfl)⟩

lemma AddsVar.has (h : e.AddsVar v e₀) {x : TypeRef} (hx : e.Has x) : e₀.Has x :=
  hx.trans_le h.keeps.extends.size_le

lemma AddsVar.resolve_eq (h : e.AddsVar v e₀) (he : e.WellFormed) {x : TypeRef} (hx : e.Has x) :
    e₀.graph.resolve x = e.graph.resolve x :=
  h.keeps.resolve_eq he.graph h.wellFormed.graph hx

lemma AddsVar.firstOrder (h : e.AddsVar v e₀) : (e₀.graph.resolve v).FirstOrder := by
  obtain ⟨name, hn⟩ := (Graph.isFree_eq_true_iff _ _).mp h.isFree
  rw [Graph.resolve_free hn]
  exact .flexible v name

section

variable (hv : e.AddsVar v e₀) (he : e.WellFormed) (hcall : e.PlainCall callee (xs ++ ys) r)
include hv he hcall

/-- The first stage is a call of types without overload sets. -/
lemma AddsVar.plainCall : e₀.PlainCall callee xs v := by
  have hold : ∀ x ∈ callee :: r :: (xs ++ ys), e₀.Has x ∧ (e₀.graph.resolve x).Plain := by
    intro x hx
    obtain ⟨hhas, hplain⟩ := hcall x hx
    rw [hv.resolve_eq he hhas]
    exact ⟨hv.has hhas, hplain⟩
  intro x hx
  rcases List.mem_cons.mp hx with rfl | hx
  · exact hold x (by simp)
  · rcases List.mem_cons.mp hx with rfl | hx
    · exact ⟨Graph.lt_size_of_isFree hv.isFree, hv.firstOrder.plain⟩
    · exact hold x (by simp [hx])

/-- Where the whole call fits, the first stage fits when its result is read as the function type
from the other arguments to the result. -/
lemma AddsVar.exists_valuation (hθ : e.graph.IsValuation θ)
    (hfits : e.CallFits callee (xs ++ ys) r θ) :
    ∃ θ₀, e₀.graph.IsValuation θ₀ ∧ e₀.CallFits callee xs v θ₀ ∧
      θ₀ v = Tree.arrows (ys.map θ) (θ r) ∧ ∀ x, e.Has x → θ₀ x = θ x := by
  obtain ⟨θ₀, hθ₀, hagree, hnew⟩ := hv.keeps.exists_valuation he.graph hv.wellFormed.graph hθ
    fun _ => Tree.arrows (ys.map θ) (θ r)
  have hresult := hnew v hv.fresh hv.isFree
  refine ⟨θ₀, hθ₀, ?_, hresult, hagree⟩
  obtain ⟨τ, hτ⟩ := hfits
  have hcallee := (hcall callee (by simp)).1
  have hxs : xs.map θ₀ = xs.map θ :=
    List.map_congr_left fun x hx => hagree x (hcall x (by simp [hx])).1
  refine ⟨τ, ?_⟩
  rw [hv.resolve_eq he hcallee, hresult, hxs, ← Tree.arrows_append, ← List.map_append, ← hτ]
  refine Tree.fill_congr (fun p hp _ => hagree p.ref ?_) fun _ _ _ => rfl
  exact (Graph.shows_of_mem_outerPlaceholders he.graph hcallee hp).ref_lt_size

variable (hfirst : ∀ x ∈ xs, (e.graph.resolve x).FirstOrder)
  (h₁ : e₀.CallsTo callee xs v e₁)
include hfirst h₁

/-- After the first stage its result has no constraints, and the second stage is a call of types
without overload sets. -/
lemma AddsVar.second_stage : e₁.PlainCall v ys r ∧ (e₁.graph.resolve v).FirstOrder := by
  have hcall₀ := hv.plainCall he hcall
  have hsize := (call_leaves hv.wellFormed hcall₀ h₁).size_le
  have hvfirst : (e₁.graph.resolve v).FirstOrder := by
    refine call_inherits Tree.hereditary_firstOrder hv.wellFormed hcall₀ ?_ ?_ h₁
      (hcall₀ v (by simp)).1 hv.firstOrder
    · intro ρ
      exact (hcall₀ callee (by simp)).2.firstOrder_replace fun _ _ => .flexible _ _
    · refine Tree.arrows_of (fun u w hu hw => .inst (by simpa using ⟨hu, hw⟩)) ?_ hv.firstOrder
      refine List.forall_mem_map.mpr fun x hx => ?_
      rw [hv.resolve_eq he (hcall x (by simp [hx])).1]
      exact hfirst x hx
  have hplain : ∀ x ∈ callee :: r :: (xs ++ ys), e₁.Has x ∧ (e₁.graph.resolve x).Plain := by
    intro x hx
    obtain ⟨hhas, hplain⟩ := hcall x hx
    refine ⟨(hv.has hhas).trans_le hsize, ?_⟩
    refine call_inherits (Tree.hereditary_everyUnion (by simp)) hv.wellFormed hcall₀
      hcall₀.sides_plain.1 hcall₀.sides_plain.2 h₁ (hv.has hhas) ?_
    rwa [hv.resolve_eq he hhas]
  refine ⟨fun x hx => ?_, hvfirst⟩
  rcases List.mem_cons.mp hx with rfl | hx
  · exact ⟨(hcall₀ x (by simp)).1.trans_le hsize, hvfirst.plain⟩
  · exact hplain x (by rcases List.mem_cons.mp hx with rfl | hx <;> simp [*])

/-- Where the whole call fits, the second stage fits after the first. -/
lemma AddsVar.exists_valuation_after (hθ : e.graph.IsValuation θ)
    (hfits : e.CallFits callee (xs ++ ys) r θ) :
    ∃ θ₁, e₁.graph.IsValuation θ₁ ∧ e₁.CallFits v ys r θ₁ ∧ ∀ x, e.Has x → θ₁ x = θ x := by
  obtain ⟨-, hvfirst⟩ := hv.second_stage he hcall hfirst h₁
  have hleaves := call_leaves hv.wellFormed (hv.plainCall he hcall) h₁
  obtain ⟨θ₀, hθ₀, hfits₀, hresult, hagree₀⟩ := hv.exists_valuation he hcall hθ hfits
  obtain ⟨θ₁, hθ₁, hagree₁⟩ := hleaves.complete θ₀ hθ₀ hfits₀
  have hagree : ∀ x, e.Has x → θ₁ x = θ x := fun x hx =>
    (hagree₁ x (hv.has hx)).trans (hagree₀ x hx)
  have hys : ys.map θ₁ = ys.map θ :=
    List.map_congr_left fun x hx => hagree x (hcall x (by simp [hx])).1
  refine ⟨θ₁, hθ₁, ?_, hagree⟩
  rw [callFits_iff_of_firstOrder hleaves.wellFormed hvfirst hθ₁, hys,
    hagree r (hcall r (by simp)).1, ← hresult]
  exact hagree₁ v (Graph.lt_size_of_isFree hv.isFree)

/-- Two successful stages leave the valuations under which the whole call fits. -/
lemma AddsVar.stages_leave (h₂ : e₁.CallsTo v ys r e₂) :
    e.Leaves (e.CallFits callee (xs ++ ys) r) e₂ := by
  obtain ⟨hcall₁, hvfirst⟩ := hv.second_stage he hcall hfirst h₁
  have hleaves₁ := call_leaves hv.wellFormed (hv.plainCall he hcall) h₁
  have hleaves₂ := call_leaves hleaves₁.wellFormed hcall₁ h₂
  refine ⟨hleaves₂.wellFormed, ?_, fun θ hθ => ?_, fun θ hθ hfits => ?_⟩
  · exact (hv.keeps.extends.size_le.trans hleaves₁.size_le).trans hleaves₂.size_le
  · obtain ⟨hθ₁, hfits₂⟩ := hleaves₂.sound θ hθ
    obtain ⟨hθ₀, τ, hτ⟩ := hleaves₁.sound θ hθ₁
    rw [callFits_iff_of_firstOrder hleaves₁.wellFormed hvfirst hθ₁] at hfits₂
    refine ⟨hv.keeps.extends.isValuation hθ₀, τ, ?_⟩
    rw [List.map_append, Tree.arrows_append, ← hfits₂, ← hτ,
      hv.resolve_eq he (hcall callee (by simp)).1]
  · obtain ⟨θ₁, hθ₁, hfits₁, hagree₁⟩ := hv.exists_valuation_after he hcall hfirst h₁ hθ hfits
    obtain ⟨θ₂, hθ₂, hagree₂⟩ := hleaves₂.complete θ₁ hθ₁ hfits₁
    refine ⟨θ₂, hθ₂, fun x hx => ?_⟩
    rw [hagree₂ x ((hv.has hx).trans_le hleaves₁.size_le), hagree₁ x hx]

omit h₁

/-- The two stages succeed exactly if the whole call fits under some valuation. -/
theorem AddsVar.exists_stages_iff :
    (∃ e₁ e₂, e₀.CallsTo callee xs v e₁ ∧ e₁.CallsTo v ys r e₂) ↔
      ∃ θ, e.graph.IsValuation θ ∧ e.CallFits callee (xs ++ ys) r θ := by
  have hcall₀ := hv.plainCall he hcall
  constructor
  · rintro ⟨e₁, e₂, h₁, h₂⟩
    exact (hv.stages_leave he hcall hfirst h₁ h₂).exists_valuation
  · rintro ⟨θ, hθ, hfits⟩
    obtain ⟨θ₀, hθ₀, hfits₀, -⟩ := hv.exists_valuation he hcall hθ hfits
    obtain ⟨e₁, h₁⟩ := (exists_callsTo_iff hv.wellFormed hcall₀).mpr ⟨θ₀, hθ₀, hfits₀⟩
    have hwf₁ := (call_leaves hv.wellFormed hcall₀ h₁).wellFormed
    obtain ⟨hcall₁, -⟩ := hv.second_stage he hcall hfirst h₁
    obtain ⟨θ₁, hθ₁, hfits₁, -⟩ := hv.exists_valuation_after he hcall hfirst h₁ hθ hfits
    obtain ⟨e₂, h₂⟩ := (exists_callsTo_iff hwf₁ hcall₁).mpr ⟨θ₁, hθ₁, hfits₁⟩
    exact ⟨e₁, e₂, h₁, h₂⟩

end

/-- Let nothing in a call lead to an overload set, and the first arguments to no constraint. The
call succeeds exactly if the callee can be called with the first arguments, for a new variable, and
then this variable with the others. Either way all types read alike afterwards, up to one renaming
of free variables. -/
theorem call_in_stages (he : e.Reachable) (hhas : ∀ x ∈ callee :: r :: (xs ++ ys), e.Has x)
    (hplain : ∀ x ∈ callee :: r :: (xs ++ ys), ∀ u, e.graph.Reaches x u →
      ∀ ms, e.graph.node? u ≠ some (.union ms))
    (hopen : ∀ x ∈ xs, ∀ u, e.graph.Reaches x u → ∀ c, e.graph.node? u ≠ some (.constraint c))
    (name : Option String) :
    let v := (e.addVar name).1
    let e₀ := (e.addVar name).2
    ((∃ e', e.CallsTo callee (xs ++ ys) r e') ↔
      ∃ e₁ e₂, e₀.CallsTo callee xs v e₁ ∧ e₁.CallsTo v ys r e₂) ∧
    ∀ e' e₁ e₂, e.CallsTo callee (xs ++ ys) r e' → e₀.CallsTo callee xs v e₁ →
      e₁.CallsTo v ys r e₂ → ∃ ρ : TypeRef → TypeRef,
        Set.BijOn ρ (e'.graph.varsOf {x | e.Has x}) (e₂.graph.varsOf {x | e.Has x}) ∧
        ∀ x, e.Has x → e₂.graph.resolve x = (e'.graph.resolve x).renameVars e₂.graph ρ := by
  intro v e₀
  have hwf := he.wellFormed
  have hv : e.AddsVar v e₀ := addsVar_addVar hwf name
  have hcall : e.PlainCall callee (xs ++ ys) r := fun x hx =>
    ⟨hhas x hx, Graph.everyUnion_resolve hwf.graph (hhas x hx) fun u ms hu hn =>
      hplain x hx u hu ms hn⟩
  have hfirst : ∀ x ∈ xs, (e.graph.resolve x).FirstOrder := by
    intro x hx
    obtain ⟨hhas, hplain⟩ := hcall x (by simp [hx])
    refine hplain.firstOrder fun p hp => ?_
    obtain ⟨hreach, -, hrigid⟩ := Graph.mem_placeholders_resolve hwf.graph hhas hp
    cases hk : p.kind with
    | flexible => rfl
    | rigid => exact absurd (hrigid hk) (hopen x hx p.ref hreach p.name)
  constructor
  · rw [exists_callsTo_iff hwf hcall, hv.exists_stages_iff hwf hcall hfirst]
  · intro e' e₁ e₂ h h₁ h₂
    exact (call_leaves hwf hcall h).exists_renameVars (hv.stages_leave hwf hcall hfirst h₁ h₂)

/-- The callee `(c, c) -> c` is called with `Int` and a variable. Called with `Int` alone it gives a
function, which is then called with the variable, and the result is `Int` either way. -/
theorem call_in_stages_generic :
    ∃ e' e₁ e₂, generic.CallsTo 6 [3, 7] 8 e' ∧ e'.graph.resolve 8 = .terminal 3 "Int" ∧
      (generic.addVar none).2.CallsTo 6 [3] 9 e₁ ∧ e₁.CallsTo 9 [7] 8 e₂ ∧
      e₂.graph.resolve 8 = .terminal 3 "Int" := by
  have hclosed := reachable_generic.wellFormed.graph.closed
  have hhas : ∀ x ∈ 6 :: 8 :: ([3] ++ [7]), generic.Has x := by decide
  have hplain : ∀ u ms, generic.graph.node? u ≠ some (.union ms) := by
    intro u ms hn
    have hnone : ∀ n ∈ generic.graph.nodes, n.isUnion = false := by decide
    simpa [Node.isUnion] using hnone _ (Array.mem_of_getElem? hn)
  have hopen : ∀ x ∈ [3], ∀ u, generic.graph.Reaches x u →
      ∀ c, generic.graph.node? u ≠ some (.constraint c) := by
    intro x hx u hu c hn
    obtain rfl := List.mem_singleton.mp hx
    have hall : ∀ u ∈ generic.graph.reachable 3, u = 3 := by decide
    obtain rfl := hall u ((Graph.mem_reachable_iff hclosed (by decide)).mpr hu)
    cases hn
  obtain ⟨hiff, hrename⟩ := call_in_stages reachable_generic hhas (fun _ _ u _ => hplain u) hopen
    none
  have hdone : ∃ t e', generic.call 4 6 [3, 7] 8 = .done t e' ∧
      e'.graph.rep 8 = 3 ∧ e'.graph.node? 3 = some (.terminal "Int") := by
    decide +kernel
  obtain ⟨t, e', hrun, hrep, hnode⟩ := hdone
  have hcall : generic.CallsTo 6 [3, 7] 8 e' := ⟨4, t, hrun⟩
  have hwf := (reachable_generic.next (.call (by decide) (by decide) (by decide)
    (.inl ⟨t, hrun⟩))).wellFormed
  have hint : e'.graph.resolve 8 = .terminal 3 "Int" := by
    rw [← Graph.resolve_rep hwf.graph, hrep, Graph.resolve_terminal hnode]
  obtain ⟨e₁, e₂, h₁, h₂⟩ := hiff.mp ⟨e', hcall⟩
  obtain ⟨ρ, -, htree⟩ := hrename e' e₁ e₂ hcall h₁ h₂
  refine ⟨e', e₁, e₂, hcall, hint, h₁, h₂, ?_⟩
  rw [htree 8 (by decide), hint, Tree.renameVars, Tree.subst_terminal]

end Engine

end Unification
