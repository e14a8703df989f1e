import Mathlib.Data.Finset.Card
import Mathlib.Data.Finset.Image
import Unification.Tree.Basic

/-!
# Substitution in trees

Two ways to replace the leaves of a tree. A substitution replaces the free variables wherever they
stand, which is what later bindings do to a type. A replacement stops at overload sets and may
concern constraints as well, which is what renewing a type does to it.
-/

namespace Unification.Tree

variable {t u : Tree} {ts : List Tree} {p : Placeholder} {θ θ' : TypeRef → Tree}

/-- Induction on a tree, with the hypothesis for every argument and every member. -/
@[induction_eliminator]
theorem induct {P : Tree → Prop}
    (terminal : ∀ r name, P (.terminal r name))
    (placeholder : ∀ p, P (.placeholder p))
    (inst : ∀ t args, (∀ u ∈ args, P u) → P (.inst t args))
    (union : ∀ r members, (∀ u ∈ members, P u) → P (.union r members)) (t : Tree) : P t :=
  @Tree.rec P (fun ts => ∀ u ∈ ts, P u) terminal placeholder inst union (by simp)
    (by simp +contextual) t

/-! ### Placeholders and size -/

lemma mem_placeholdersAll : p ∈ placeholdersAll ts ↔ ∃ t ∈ ts, p ∈ t.placeholders := by
  induction ts with
  | nil => simp [placeholdersAll]
  | cons t ts ih => simp [placeholdersAll, ih]

/-- Trees whose placeholders are changed one by one. -/
lemma placeholdersAll_map {f : Tree → Tree} {k : Placeholder → Placeholder}
    (h : ∀ t ∈ ts, (f t).placeholders = t.placeholders.map k) :
    placeholdersAll (ts.map f) = (placeholdersAll ts).map k := by
  induction ts with
  | nil => rfl
  | cons t ts ih =>
    simp only [List.map_cons, placeholdersAll, List.map_append, h t (by simp),
      ih fun u hu => h u (by simp [hu])]

@[simp]
lemma mem_placeholders_inst {t : TemplateRef} :
    p ∈ (inst t ts).placeholders ↔ ∃ u ∈ ts, p ∈ u.placeholders := by
  rw [placeholders, mem_placeholdersAll]

@[simp]
lemma mem_placeholders_union {r : TypeRef} :
    p ∈ (union r ts).placeholders ↔ ∃ u ∈ ts, p ∈ u.placeholders := by
  rw [placeholders, mem_placeholdersAll]

/-- The free variables of a tree. -/
def vars (t : Tree) : Finset TypeRef :=
  ((t.placeholders.filter fun p => p.kind = .flexible).map Placeholder.ref).toFinset

lemma mem_vars {v : TypeRef} :
    v ∈ t.vars ↔ ∃ p ∈ t.placeholders, p.kind = .flexible ∧ p.ref = v := by
  simp [vars, and_assoc]

lemma mem_vars_inst {f : TemplateRef} {v : TypeRef} :
    v ∈ (inst f ts).vars ↔ ∃ u ∈ ts, v ∈ u.vars := by
  simp only [mem_vars, mem_placeholders_inst]
  constructor
  · rintro ⟨p, ⟨u, hu, hp⟩, hv⟩
    exact ⟨u, hu, p, hp, hv⟩
  · rintro ⟨u, hu, p, hp, hv⟩
    exact ⟨p, ⟨u, hu, hp⟩, hv⟩

lemma mem_vars_union {r v : TypeRef} : v ∈ (union r ts).vars ↔ ∃ u ∈ ts, v ∈ u.vars := by
  simp only [mem_vars, mem_placeholders_union]
  constructor
  · rintro ⟨p, ⟨u, hu, hp⟩, hv⟩
    exact ⟨u, hu, p, hp, hv⟩
  · rintro ⟨u, hu, p, hp, hv⟩
    exact ⟨p, ⟨u, hu, hp⟩, hv⟩

mutual

/-- The number of nodes of a tree, those inside overload sets included. -/
def size : Tree → Nat
  | terminal _ _    => 1
  | placeholder _   => 1
  | inst _ args     => 1 + sizeAll args
  | union _ members => 1 + sizeAll members

/-- The number of nodes of a list of trees. -/
def sizeAll : List Tree → Nat
  | []      => 0
  | t :: ts => size t + sizeAll ts

end

lemma sizeAll_map {f : Tree → Tree} (h : ∀ t ∈ ts, (f t).size = t.size) :
    sizeAll (ts.map f) = sizeAll ts := by
  induction ts with
  | nil => rfl
  | cons t ts ih => simp [sizeAll, h t, ih fun u hu => h u (by simp [hu])]

lemma size_le_sizeAll (h : t ∈ ts) : t.size ≤ sizeAll ts := by
  induction ts with
  | nil => simp at h
  | cons u ts ih =>
    simp only [sizeAll]
    rcases List.mem_cons.mp h with rfl | h
    · omega
    · have := ih h
      omega

lemma size_lt_inst {f : TemplateRef} (h : t ∈ ts) : t.size < (inst f ts).size := by
  have := size_le_sizeAll h
  simp only [size]
  omega

lemma size_lt_union {r : TypeRef} (h : t ∈ ts) : t.size < (union r ts).size := by
  have := size_le_sizeAll h
  simp only [size]
  omega

/-- Lists of trees that are equally specific one by one. -/
lemma specificityAll_map_congr {g h : Tree → Tree}
    (heq : ∀ t ∈ ts, (g t).specificity = (h t).specificity) :
    specificityAll (ts.map g) = specificityAll (ts.map h) := by
  induction ts with
  | nil => rfl
  | cons t ts ih =>
    rw [List.map_cons, List.map_cons, specificityAll, specificityAll, heq t (by simp),
      ih fun u hu => heq u (by simp [hu])]

mutual

/-- The free variables that do not stand inside an overload set. -/
def outerVars : Tree → Finset TypeRef
  | terminal _ _  => ∅
  | placeholder p =>
    match p.kind with
    | .flexible => {p.ref}
    | .rigid    => ∅
  | inst _ args   => outerVarsAll args
  | union _ _     => ∅

/-- The free variables of a list of trees that do not stand inside an overload set. -/
def outerVarsAll : List Tree → Finset TypeRef
  | []      => ∅
  | t :: ts => outerVars t ∪ outerVarsAll ts

end

@[simp]
lemma outerVars_terminal {r : TypeRef} {name : String} : (terminal r name).outerVars = ∅ := by
  rw [outerVars]

@[simp]
lemma outerVars_flexible {r : TypeRef} {name : Option String} :
    (placeholder ⟨r, .flexible, name⟩).outerVars = {r} := by
  rw [outerVars]

@[simp]
lemma outerVars_rigid {r : TypeRef} {name : Option String} :
    (placeholder ⟨r, .rigid, name⟩).outerVars = ∅ := by
  rw [outerVars]

@[simp]
lemma mem_outerVars_inst {f : TemplateRef} {v : TypeRef} :
    v ∈ (inst f ts).outerVars ↔ ∃ u ∈ ts, v ∈ u.outerVars := by
  rw [outerVars]
  induction ts with
  | nil => simp [outerVarsAll]
  | cons t ts ih => simp [outerVarsAll, ih]

@[simp]
lemma outerVars_union {r : TypeRef} : (union r ts).outerVars = ∅ := by
  rw [outerVars]

lemma outerVars_subset_vars (t : Tree) : t.outerVars ⊆ t.vars := by
  intro v hv
  induction t with
  | terminal r name => simp at hv
  | placeholder p =>
    obtain ⟨r, kind, name⟩ := p
    cases kind with
    | flexible =>
      rw [outerVars_flexible, Finset.mem_singleton] at hv
      simp [vars, placeholders, hv]
    | rigid => simp at hv
  | inst f args ih =>
    obtain ⟨u, hu, hv⟩ := mem_outerVars_inst.mp hv
    exact mem_vars_inst.mpr ⟨u, hu, ih u hu hv⟩
  | union r members => simp at hv

/-- A tree without placeholders has no free variables. -/
lemma vars_of_placeholders_eq_nil (h : t.placeholders = []) : t.vars = ∅ := by
  simp [vars, h]

lemma outerVars_of_placeholders_eq_nil (h : t.placeholders = []) : t.outerVars = ∅ := by
  rw [← Finset.subset_empty, ← vars_of_placeholders_eq_nil h]
  exact outerVars_subset_vars t

lemma vars_eq_empty_of_mem_union {r : TypeRef} (h : (union r ts).vars = ∅) (ht : t ∈ ts) :
    t.vars = ∅ := by
  rw [Finset.eq_empty_iff_forall_notMem] at h ⊢
  exact fun v hv => h v (mem_vars_union.mpr ⟨t, ht, hv⟩)

lemma placeholders_eq_nil_of_mem_union {r : TypeRef} (h : (union r ts).placeholders = [])
    (ht : t ∈ ts) : t.placeholders = [] := by
  rw [List.eq_nil_iff_forall_not_mem] at h ⊢
  exact fun p hp => h p (mem_placeholders_union.mpr ⟨t, ht, hp⟩)

/-! ### Substitution -/

mutual

/-- Replaces every free variable, inside overload sets too. -/
def subst (θ : TypeRef → Tree) : Tree → Tree
  | terminal r name => terminal r name
  | placeholder p   =>
    match p.kind with
    | .flexible => θ p.ref
    | .rigid    => placeholder p
  | inst t args     => inst t (substAll θ args)
  | union r members => union r (substAll θ members)

/-- Replaces every free variable of a list of trees. -/
def substAll (θ : TypeRef → Tree) : List Tree → List Tree
  | []      => []
  | t :: ts => subst θ t :: substAll θ ts

end

lemma substAll_eq_map : substAll θ ts = ts.map (subst θ) := by
  induction ts with
  | nil => rfl
  | cons t ts ih => simp [substAll, ih]

@[simp]
lemma subst_terminal {r : TypeRef} {name : String} :
    (terminal r name).subst θ = terminal r name := by
  rw [subst]

@[simp]
lemma subst_flexible {r : TypeRef} {name : Option String} :
    (placeholder ⟨r, .flexible, name⟩).subst θ = θ r := by
  simp [subst]

@[simp]
lemma subst_rigid {r : TypeRef} {name : Option String} :
    (placeholder ⟨r, .rigid, name⟩).subst θ = placeholder ⟨r, .rigid, name⟩ := by
  simp [subst]

@[simp]
lemma subst_inst {f : TemplateRef} : (inst f ts).subst θ = inst f (ts.map (subst θ)) := by
  rw [subst, substAll_eq_map]

@[simp]
lemma subst_union {r : TypeRef} : (union r ts).subst θ = union r (ts.map (subst θ)) := by
  rw [subst, substAll_eq_map]

lemma subst_subst (t : Tree) : (t.subst θ).subst θ' = t.subst fun v => (θ v).subst θ' := by
  induction t with
  | terminal r name => simp
  | placeholder p =>
    obtain ⟨r, kind, name⟩ := p
    cases kind <;> simp
  | inst f args ih =>
    simp only [subst_inst, List.map_map]
    congr 1
    exact List.map_congr_left ih
  | union r members ih =>
    simp only [subst_union, List.map_map]
    congr 1
    exact List.map_congr_left ih

/-- A substitution that keeps the free variables of a tree keeps the tree. -/
lemma subst_eq_self (h : ∀ p ∈ t.placeholders, p.kind = .flexible → θ p.ref = placeholder p) :
    t.subst θ = t := by
  induction t with
  | terminal r name => simp
  | placeholder p =>
    obtain ⟨r, kind, name⟩ := p
    cases kind with
    | flexible => simpa using h ⟨r, .flexible, name⟩ (by simp [placeholders]) rfl
    | rigid => simp
  | inst f args ih =>
    rw [subst_inst]
    conv_rhs => rw [← List.map_id args]
    congr 1
    apply List.map_congr_left
    intro u hu
    exact ih u hu fun p hp hk => h p (mem_placeholders_inst.mpr ⟨u, hu, hp⟩) hk
  | union r members ih =>
    rw [subst_union]
    conv_rhs => rw [← List.map_id members]
    congr 1
    apply List.map_congr_left
    intro u hu
    exact ih u hu fun p hp hk => h p (mem_placeholders_union.mpr ⟨u, hu, hp⟩) hk

/-- A tree without free variables is the same under every substitution. -/
lemma subst_of_vars_eq_empty (h : t.vars = ∅) : t.subst θ = t := by
  apply subst_eq_self
  intro p hp hk
  have hmem : p.ref ∈ t.vars := mem_vars.mpr ⟨p, hp, hk, rfl⟩
  simp [h] at hmem

/-- The free variables after a substitution come from what was put in for those before it. -/
lemma exists_of_mem_outerVars_subst {v : TypeRef} (h : v ∈ (t.subst θ).outerVars) :
    ∃ w ∈ t.outerVars, v ∈ (θ w).outerVars := by
  induction t with
  | terminal r name => simp at h
  | placeholder p =>
    obtain ⟨r, kind, name⟩ := p
    cases kind with
    | flexible => exact ⟨r, by simp, by simpa using h⟩
    | rigid => simp at h
  | inst f args ih =>
    rw [subst_inst, mem_outerVars_inst] at h
    obtain ⟨_, hmem, hv⟩ := h
    obtain ⟨u, hu, rfl⟩ := List.mem_map.mp hmem
    obtain ⟨w, hw, hv⟩ := ih u hu hv
    exact ⟨w, mem_outerVars_inst.mpr ⟨u, hu, hw⟩, hv⟩
  | union r members => simp at h

/-! ### Replacement outside overload sets -/

mutual

/-- Replaces every placeholder that does not stand inside an overload set. -/
def replace (f : Placeholder → Tree) : Tree → Tree
  | terminal r name => terminal r name
  | placeholder p   => f p
  | inst t args     => inst t (replaceAll f args)
  | union r members => union r members

/-- Replaces the placeholders of a list of trees. -/
def replaceAll (f : Placeholder → Tree) : List Tree → List Tree
  | []      => []
  | t :: ts => replace f t :: replaceAll f ts

end

variable {f : Placeholder → Tree}

lemma replaceAll_eq_map : replaceAll f ts = ts.map (replace f) := by
  induction ts with
  | nil => rfl
  | cons t ts ih => simp [replaceAll, ih]

@[simp]
lemma replace_terminal {r : TypeRef} {name : String} :
    (terminal r name).replace f = terminal r name := by
  rw [replace]

@[simp]
lemma replace_placeholder : (placeholder p).replace f = f p := by
  rw [replace]

@[simp]
lemma replace_inst {t : TemplateRef} : (inst t ts).replace f = inst t (ts.map (replace f)) := by
  rw [replace, replaceAll_eq_map]

@[simp]
lemma replace_union {r : TypeRef} : (union r ts).replace f = union r ts := by
  rw [replace]

/-- There is nothing to replace in a tree without placeholders. -/
lemma replace_of_placeholders_eq_nil (h : t.placeholders = []) : t.replace f = t := by
  have hnone : ∀ p, p ∉ t.placeholders := by simp [h]
  clear h
  induction t with
  | terminal r name => simp
  | placeholder p => exact absurd (by simp [placeholders]) (hnone p)
  | inst g args ih =>
    rw [replace_inst]
    conv_rhs => rw [← List.map_id args]
    congr 1
    apply List.map_congr_left
    intro u hu
    exact ih u hu fun p hp => hnone p (mem_placeholders_inst.mpr ⟨u, hu, hp⟩)
  | union r members => simp

/-- Replacing leaves by leaves keeps the size. -/
lemma size_replace (h : ∀ p, (f p).size = 1) : (t.replace f).size = t.size := by
  induction t with
  | terminal r name => simp
  | placeholder p => simp [h, size]
  | inst g args ih =>
    rw [replace_inst, size, size, sizeAll_map ih]
  | union r members => simp

end Unification.Tree
