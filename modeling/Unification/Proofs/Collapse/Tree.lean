import Unification.Proofs.Region
import Unification.Proofs.RoundTrip

/-!
# Trees with fixed parts

Two graphs that have some types in common may show them in trees that differ otherwise.
`Tree.Within` says of a tree that its terminals and its overload sets are such types, and that no
variable is inside an overload set. Then all that is not fixed are the placeholders outside the
overload sets, and these can be numbered anew before a substitution or after it.
-/

namespace Unification

namespace Tree

variable {C : Set TypeRef} {V V' : Set Placeholder} {t u : Tree} {ρ σ : TypeRef → TypeRef}
  {θ θ' : TypeRef → Tree} {p : Placeholder}

@[simp]
lemma renumber_terminal {r : TypeRef} {name : String} :
    (terminal r name).renumber ρ = terminal r name := relabel_terminal

@[simp]
lemma renumber_placeholder :
    (placeholder p).renumber ρ = placeholder { p with ref := ρ p.ref } := relabel_placeholder

@[simp]
lemma renumber_inst {f : TemplateRef} {ts : List Tree} :
    (inst f ts).renumber ρ = inst f (ts.map (renumber ρ)) := relabel_inst

@[simp]
lemma renumber_union {r : TypeRef} {ts : List Tree} :
    (union r ts).renumber ρ = union r ts := relabel_union

lemma outerPlaceholders_renumber (ρ : TypeRef → TypeRef) (t : Tree) :
    (t.renumber ρ).outerPlaceholders =
      t.outerPlaceholders.map fun p => { p with ref := ρ p.ref } :=
  outerPlaceholders_relabel _ t

/-- If a second numbering undoes a first one, then it gives every placeholder its reference back. -/
lemma renumber_renumber_inv (h : (t.renumber σ).renumber ρ = t) (hp : p ∈ t.outerPlaceholders) :
    ρ (σ p.ref) = p.ref := by
  have hlist := congrArg outerPlaceholders h
  rw [outerPlaceholders_renumber, outerPlaceholders_renumber, List.map_map] at hlist
  exact congrArg Placeholder.ref (List.map_inj_left.mp (hlist.trans (List.map_id _).symm) p hp)

/-- The placeholder replaces one of the tree by the numbering `σ`, and `ρ` leads back to that. -/
def Replaced (t : Tree) (σ ρ : TypeRef → TypeRef) (q : Placeholder) : Prop :=
  ∃ p ∈ t.outerPlaceholders, q = { p with ref := σ p.ref } ∧ ρ q.ref = p.ref

/-- The terminals and the overload sets of the tree are in `C`, with all that is inside an overload
set; the placeholders outside overload sets are in `V`, and no free variable is inside one. -/
inductive Within (C : Set TypeRef) (V : Set Placeholder) : Tree → Prop where
  | terminal {r : TypeRef} {name : String} : r ∈ C → Within C V (.terminal r name)
  | placeholder {p : Placeholder} : p ∈ V → Within C V (.placeholder p)
  | inst {f : TemplateRef} {ts : List Tree} : (∀ u ∈ ts, Within C V u) → Within C V (.inst f ts)
  | union {r : TypeRef} {ts : List Tree} : (Tree.union r ts).Over C Set.univ →
      (Tree.union r ts).vars = ∅ → Within C V (.union r ts)

lemma Over.mem_of_union {U : Set TemplateRef} {r : TypeRef} {ts : List Tree}
    (h : (Tree.union r ts).Over C U) : r ∈ C := by
  cases h with
  | union hr => exact hr

lemma Within.mono (h : t.Within C V) (hV : V ⊆ V') : t.Within C V' := by
  induction h with
  | terminal hr => exact .terminal hr
  | placeholder hp => exact .placeholder (hV hp)
  | inst _ ih => exact .inst ih
  | union hover hvars => exact .union hover hvars

lemma Within.of_mem_inst {f : TemplateRef} {ts : List Tree} (h : (Tree.inst f ts).Within C V)
    (hu : u ∈ ts) : u.Within C V := by
  cases h with
  | inst h => exact h u hu

lemma Within.mem (h : t.Within C V) (hp : p ∈ t.outerPlaceholders) : p ∈ V := by
  induction h with
  | terminal | union => simp at hp
  | placeholder hq =>
    rw [outerPlaceholders_placeholder, List.mem_singleton] at hp
    exact hp ▸ hq
  | inst _ ih =>
    rw [outerPlaceholders_inst, List.mem_flatMap] at hp
    obtain ⟨u, hu, hp⟩ := hp
    exact ih u hu hp

/-- All free variables are outside the overload sets. -/
lemma Within.exists_outer (h : t.Within C V) {v : TypeRef} (hv : v ∈ t.vars) :
    ∃ p ∈ t.outerPlaceholders, p.kind = .flexible ∧ p.ref = v := by
  induction h with
  | terminal => simp [vars, placeholders] at hv
  | placeholder =>
    obtain ⟨p, hp, hk⟩ := mem_vars.mp hv
    exact ⟨p, by simpa [placeholders] using hp, hk⟩
  | inst _ ih =>
    obtain ⟨u, hu, hv⟩ := mem_vars_inst.mp hv
    obtain ⟨p, hp, hk⟩ := ih u hu hv
    exact ⟨p, by simpa using ⟨u, hu, hp⟩, hk⟩
  | union _ hvars => simp [hvars] at hv

/-- What is put in for the variables is made of fixed parts, and so is the result. -/
lemma Within.subst (h : t.Within C V)
    (hθ : ∀ p ∈ t.outerPlaceholders, p.kind = .flexible → (θ p.ref).Within C V) :
    (t.subst θ).Within C V := by
  induction h with
  | terminal hr =>
    rw [subst_terminal]
    exact .terminal hr
  | @placeholder p hp =>
    obtain ⟨r, kind, name⟩ := p
    cases kind with
    | flexible =>
      rw [subst_flexible]
      exact hθ ⟨r, .flexible, name⟩ (by simp) rfl
    | rigid =>
      rw [subst_rigid]
      exact .placeholder hp
  | inst _ ih =>
    rw [subst_inst]
    refine .inst fun _ hmem => ?_
    obtain ⟨u, hu, rfl⟩ := List.mem_map.mp hmem
    exact ih u hu fun p hp => hθ p (by simpa using ⟨u, hu, hp⟩)
  | union hover hvars =>
    rw [subst_of_vars_eq_empty hvars]
    exact .union hover hvars

/-- Renumbering before a substitution is renumbering what is put in. -/
lemma Within.subst_renumber (h : t.Within C V)
    (hθ : ∀ p ∈ t.outerPlaceholders, p.kind = .flexible → θ' (ρ p.ref) = (θ p.ref).renumber ρ) :
    (t.renumber ρ).subst θ' = (t.subst θ).renumber ρ := by
  induction h with
  | terminal => simp
  | @placeholder p hp =>
    obtain ⟨r, kind, name⟩ := p
    cases kind with
    | flexible => simpa using hθ ⟨r, .flexible, name⟩ (by simp) rfl
    | rigid => simp
  | inst _ ih =>
    simp only [renumber_inst, subst_inst, List.map_map]
    congr 1
    apply List.map_congr_left
    intro u hu
    exact ih u hu fun p hp => hθ p (by simpa using ⟨u, hu, hp⟩)
  | union _ hvars =>
    rw [renumber_union, subst_of_vars_eq_empty hvars, subst_of_vars_eq_empty hvars, renumber_union]

lemma Within.renumber (h : t.Within C V) (ρ : TypeRef → TypeRef) :
    (t.renumber ρ).Within C ((fun p => { p with ref := ρ p.ref }) '' V) := by
  induction h with
  | terminal hr =>
    rw [renumber_terminal]
    exact .terminal hr
  | placeholder hp =>
    rw [renumber_placeholder]
    exact .placeholder ⟨_, hp, rfl⟩
  | inst _ ih =>
    rw [renumber_inst]
    refine .inst fun _ hmem => ?_
    obtain ⟨u, hu, rfl⟩ := List.mem_map.mp hmem
    exact ih u hu
  | union hover hvars =>
    rw [renumber_union]
    exact .union hover hvars

/-- Trees with different placeholders stay different if the placeholders do. -/
lemma Within.renumber_inj (hρ : Set.InjOn ρ (Placeholder.ref '' V)) (ht : t.Within C V)
    (hu : u.Within C V) (h : t.renumber ρ = u.renumber ρ) : t = u := by
  induction ht generalizing u with
  | terminal =>
    cases hu <;> simp at h
    simp [h]
  | @placeholder p hp =>
    cases hu with
    | @placeholder q hq =>
      obtain ⟨r, k, name⟩ := p
      obtain ⟨r', k', name'⟩ := q
      simp only [renumber_placeholder, placeholder.injEq, Placeholder.mk.injEq] at h
      obtain ⟨hr, rfl, rfl⟩ := h
      rw [show r = r' from hρ ⟨_, hp, rfl⟩ ⟨_, hq, rfl⟩ hr]
    | _ => simp at h
  | @inst f ts _ ih =>
    cases hu with
    | @inst f' us hus =>
      simp only [renumber_inst, inst.injEq] at h
      obtain ⟨rfl, hargs⟩ := h
      congr 1
      clear * - hargs ih hus
      induction ts generalizing us with
      | nil => simpa using hargs
      | cons t ts ihs =>
        cases us with
        | nil => simp at hargs
        | cons u us =>
          obtain ⟨hfirst, hrest⟩ := List.cons.inj hargs
          rw [ih t (by simp) (hus u (by simp)) hfirst,
            ihs (fun w hw => ih w (by simp [hw])) (fun w hw => hus w (by simp [hw])) hrest]
    | _ => simp at h
  | union =>
    cases hu <;> simp at h
    simp [h]

/-- A tree over fixed parts and without free variables is made of them when its placeholders are
replaced. -/
lemma Over.within_relabel {f : Placeholder → Placeholder} (ht : t.Over C Set.univ)
    (hvars : t.vars = ∅) (hf : ∀ p ∈ t.outerPlaceholders, f p ∈ V) :
    (t.relabel f).Within C V := by
  induction ht with
  | terminal hr =>
    rw [relabel_terminal]
    exact .terminal hr
  | placeholder =>
    rw [relabel_placeholder]
    exact .placeholder (hf _ (by simp))
  | inst _ _ ih =>
    rw [relabel_inst]
    refine .inst fun _ hmem => ?_
    obtain ⟨u, hu, rfl⟩ := List.mem_map.mp hmem
    refine ih u hu ?_ fun p hp => hf p (by simpa using ⟨u, hu, hp⟩)
    rw [Finset.eq_empty_iff_forall_notMem] at hvars ⊢
    exact fun v hv => hvars v (mem_vars_inst.mpr ⟨u, hu, hv⟩)
  | union hr hmembers =>
    rw [relabel_union]
    exact .union (.union hr hmembers) hvars

end Tree

end Unification
