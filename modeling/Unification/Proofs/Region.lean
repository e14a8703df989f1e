import Unification.Proofs.Run

/-!
# Regions of the type graph

A region is a set of types that has, with every type, all that the type points to, and that has
every reference not yet in use. A run on two types of a region stays in it: the nodes that it adds
point into the region, and no node outside the region changes. The least region around some types
has what they lead to and what will be new, so a run changes nothing else: `confined_unifier`.
-/

namespace Unification

open Outcome

namespace Tree

variable {T : Set TypeRef} {U : Set TemplateRef} {t : Tree} {ts : List Tree}

/-- All references of the tree, those inside overload sets included, are in `T`, and its templates
are in `U`. -/
inductive Over (T : Set TypeRef) (U : Set TemplateRef) : Tree → Prop where
  | terminal {r : TypeRef} {name : String} : r ∈ T → Over T U (.terminal r name)
  | placeholder {p : Placeholder} : p.ref ∈ T → Over T U (.placeholder p)
  | inst {t : TemplateRef} {args : List Tree} : t ∈ U → (∀ u ∈ args, Over T U u) →
      Over T U (.inst t args)
  | union {r : TypeRef} {members : List Tree} : r ∈ T → (∀ u ∈ members, Over T U u) →
      Over T U (.union r members)

lemma over_univ (t : Tree) : t.Over Set.univ Set.univ := by
  induction t with
  | terminal r name => exact .terminal (Set.mem_univ r)
  | placeholder p => exact .placeholder (Set.mem_univ p.ref)
  | inst f args ih => exact .inst (Set.mem_univ f) ih
  | union r members ih => exact .union (Set.mem_univ r) ih

end Tree

namespace Graph

variable {g : Graph} {T : Set TypeRef} {U : Set TemplateRef} {r v x y ty : TypeRef} {n : Node}

/-- With every type the set has all that the type points to. -/
def Encloses (g : Graph) (T : Set TypeRef) : Prop :=
  ∀ ⦃x y⦄, x ∈ T → g.Edge x y → y ∈ T

/-- The set is closed under the edges of the graph and has all references not yet in use. -/
structure IsRegion (g : Graph) (T : Set TypeRef) : Prop where
  edges : g.Encloses T
  fresh : ∀ ⦃x⦄, g.nodes.size ≤ x → x ∈ T

lemma Encloses.reaches (hT : g.Encloses T) (hx : x ∈ T) (h : g.Reaches x y) : y ∈ T := by
  induction h with
  | refl => exact hx
  | tail _ hyz ih => exact hT ih hyz

lemma Encloses.rep (hT : g.Encloses T) (hg : g.WellFormed) (hr : r ∈ T) : g.rep r ∈ T :=
  hT.reaches hr (reaches_rep hg r)

lemma Encloses.children (hT : g.Encloses T) (hr : r ∈ T) (hn : g.node? r = some n) :
    ∀ c ∈ n.children, c ∈ T :=
  fun _ hc => hT hr ((edge_of_node? hn).mpr hc)

/-- The tree of a type of an enclosed set is made of references of the set. -/
lemma Encloses.over_resolve (hT : g.Encloses T) (hg : g.WellFormed)
    (hU : ∀ x ∈ T, ∀ t args, g.node? x = some (.inst t args) → t ∈ U) (hr : r ∈ T) :
    (g.resolve r).Over T U := by
  induction r using Acyclic.induct hg.closed hg.acyclic with
  | step r ih =>
    cases hn : g.node? r with
    | none =>
      rw [resolve_of_node?_eq_none hn]
      exact .placeholder hr
    | some n =>
      have hc := hT.children hr hn
      have hchild : ∀ c ∈ n.children, (g.resolve c).Over T U := fun c h =>
        ih c ((edge_of_node? hn).mpr h) (hc c h)
      match n, hn with
      | .terminal name, hn =>
        rw [resolve_terminal hn]
        exact .terminal hr
      | .var name none, hn =>
        rw [resolve_free hn]
        exact .placeholder hr
      | .var name (some b), hn =>
        rw [resolve_of_binding? hg (binding?_eq_some_iff.mpr ⟨name, hn⟩)]
        exact hchild b (by simp [Node.children])
      | .constraint name, hn =>
        rw [resolve_constraint hn]
        exact .placeholder hr
      | .inst t args, hn =>
        rw [resolve_inst hg hn]
        refine .inst (hU r hr t args hn) ?_
        rintro _ hu
        obtain ⟨c, hmem, rfl⟩ := List.mem_map.mp hu
        exact hchild c hmem
      | .union members, hn =>
        rw [resolve_union hg hn]
        refine .union hr ?_
        rintro _ hu
        obtain ⟨c, hmem, rfl⟩ := List.mem_map.mp hu
        exact hchild c hmem

/-! ### Regions under change -/

lemma IsRegion.add (hT : g.IsRegion T) (hn : ∀ c ∈ n.children, c ∈ T) :
    (g.add n).2.IsRegion T where
  edges x y hx hxy := by
    rcases edge_add.mp hxy with ⟨_, hy⟩ | ⟨_, hxy⟩
    · exact hn y hy
    · exact hT.edges hx hxy
  fresh x hx := by
    rw [size_add] at hx
    exact hT.fresh (Nat.le_of_succ_le hx)

lemma IsRegion.bind (hT : g.IsRegion T) (hv : g.isFree v = true) (hty : ty ∈ T) :
    (g.setBinding v (some ty)).IsRegion T where
  edges x y hx hxy := by
    rcases (edge_bind hv).mp hxy with hxy | ⟨_, rfl⟩
    · exact hT.edges hx hxy
    · exact hty
  fresh x hx := by
    rw [size_setBinding] at hx
    exact hT.fresh hx

lemma IsRegion.clearAll (hT : g.IsRegion T) (vs : List TypeRef) : (g.clearAll vs).IsRegion T := by
  induction vs generalizing g with
  | nil => exact hT
  | cons v vs ih =>
    apply ih
    constructor
    · intro x y hx hxy
      exact hT.edges hx (edge_of_edge_clear hxy)
    · intro x hx
      rw [size_setBinding] at hx
      exact hT.fresh hx

end Graph

/-! ### Renewing a type of a region -/

namespace Draft

variable {how : Renewal} {d : Draft} {T : Set TypeRef} {U : Set TemplateRef} {p : Placeholder}

/-- The set is a region of the graph and has all replacements chosen so far. -/
structure StaysIn (d : Draft) (T : Set TypeRef) : Prop where
  region : d.graph.IsRegion T
  chosen : ∀ ⦃r image⦄, d.chosen.get? r = some image → image ∈ T

lemma StaysIn.add (hd : d.StaysIn T) {n : Node} (hn : ∀ c ∈ n.children, c ∈ T) :
    (d.add n).1 ∈ T ∧ (d.add n).2.StaysIn T :=
  ⟨hd.region.fresh le_rfl, hd.region.add hn, hd.chosen⟩

lemma StaysIn.record (hd : d.StaysIn T) {r image : TypeRef} (himage : image ∈ T) :
    (d.record r image).StaysIn T := by
  refine ⟨hd.region, fun x i h => ?_⟩
  by_cases hx : x = r
  · subst hx
    simp only [Draft.record, Renaming.get?_insert_self, Option.some.injEq] at h
    exact h ▸ himage
  · exact hd.chosen (by simpa [Draft.record, Renaming.get?_insert_of_ne _ image hx] using h)

lemma StaysIn.replace (hd : d.StaysIn T) (hp : p.ref ∈ T) :
    (d.replace how p).1 ∈ T ∧ (d.replace how p).2.StaysIn T := by
  rw [Draft.replace]
  cases hget : d.chosen.get? p.ref with
  | some image => exact ⟨hd.chosen hget, hd⟩
  | none =>
    cases hrep : how.replacement p with
    | none => exact ⟨hp, hd.record hp⟩
    | some n =>
      obtain ⟨hchildren, -⟩ := replacement_cases hrep
      obtain ⟨hmem, hstays⟩ := hd.add (n := n) (by simp [hchildren])
      exact ⟨hmem, hstays.record hmem⟩

lemma StaysIn.buildAll (how : Renewal) (ts : List Tree)
    (build : ∀ t ∈ ts, ∀ d : Draft, d.StaysIn T →
      (d.build how t).1 ∈ T ∧ (d.build how t).2.StaysIn T) (hd : d.StaysIn T) :
    (∀ r ∈ (d.buildAll how ts).1, r ∈ T) ∧ (d.buildAll how ts).2.StaysIn T := by
  induction ts generalizing d with
  | nil => exact ⟨by simp [Draft.buildAll], hd⟩
  | cons t ts ih =>
    obtain ⟨hfirst, hd₁⟩ := build t (by simp) d hd
    obtain ⟨hrest, hd₂⟩ := ih (fun u hu => build u (by simp [hu])) hd₁
    exact ⟨List.forall_mem_cons.mpr ⟨hfirst, hrest⟩, hd₂⟩

/-- What is built from a tree over a region is in the region. -/
lemma StaysIn.build {t : Tree} (ht : t.Over T U) (hd : d.StaysIn T) :
    (d.build how t).1 ∈ T ∧ (d.build how t).2.StaysIn T := by
  induction ht generalizing d with
  | terminal hr => exact ⟨hr, hd⟩
  | placeholder hp => exact hd.replace hp
  | @inst t args _ _ ih =>
    obtain ⟨hmem, hd₁⟩ := StaysIn.buildAll how args (fun u hu d => ih u hu) hd
    rw [Draft.build]
    exact hd₁.add hmem
  | union hr => exact ⟨hr, hd⟩

end Draft

/-- Renewing a type of a region stays in the region. -/
theorem Graph.IsRegion.renew {g : Graph} {T : Set TypeRef} {r : TypeRef} (hT : g.IsRegion T)
    (hg : g.WellFormed) (how : Renewal) (hr : r ∈ T) :
    (g.renew how r).1 ∈ T ∧ (g.renew how r).2.IsRegion T := by
  have hd : Draft.StaysIn { graph := g } T := ⟨hT, by simp [Renaming.get?]⟩
  have hover : (g.resolve r).Over T Set.univ := hT.edges.over_resolve hg (by simp) hr
  exact (Draft.StaysIn.build hover hd).imp_right Draft.StaysIn.region

/-! ### Runs -/

variable {unify : Unifier} {T : Set TypeRef} {a b m r target u : TypeRef}
  {ms xs ys : List TypeRef} {s s₁ s' : Store}

/-- The second store has the region still, and outside it the same nodes as the first. -/
structure Store.WritesIn (T : Set TypeRef) (s s' : Store) : Prop where
  region  : s'.graph.IsRegion T
  outside : ∀ ⦃x⦄, x ∉ T → s'.graph.node? x = s.graph.node? x

lemma Store.WritesIn.refl (hT : s.graph.IsRegion T) : s.WritesIn T s :=
  ⟨hT, fun _ _ => rfl⟩

lemma Store.WritesIn.trans (h : s.WritesIn T s₁) (h' : s₁.WritesIn T s') : s.WritesIn T s' :=
  ⟨h'.region, fun _ hx => (h'.outside hx).trans (h.outside hx)⟩

/-- New nodes are in every region, so a quiet store differs inside the region only. -/
lemma Store.Quiet.writesIn (hq : s.Quiet s') (hT : s.graph.IsRegion T)
    (hT' : s'.graph.IsRegion T) : s.WritesIn T s' := by
  refine ⟨hT', fun x hx => ?_⟩
  have hlt : x < s.graph.nodes.size := Nat.lt_of_not_le fun hle => hx (hT.fresh hle)
  obtain ⟨n, hn⟩ := Graph.exists_node? hlt
  rw [hq.graph hn, hn]

/-- A run on two types of a region writes in the region only, however it ends. -/
def Unifier.Confined (unify : Unifier) : Prop :=
  ∀ ⦃T a b s s'⦄, s.graph.WellFormed → s.graph.IsRegion T → a ∈ T → b ∈ T →
    a < s.graph.nodes.size → b < s.graph.nodes.size → (unify a b s).EndsIn s' → s.WritesIn T s'

lemma unifyAll_confined (hu : unify.Lawful) (hc : unify.Confined) (hs : s.graph.WellFormed)
    (hT : s.graph.IsRegion T) (hxs : ∀ x ∈ xs, x ∈ T ∧ x < s.graph.nodes.size)
    (hys : ∀ y ∈ ys, y ∈ T ∧ y < s.graph.nodes.size)
    (h : (unifyAll unify xs ys s).EndsIn s') : s.WritesIn T s' := by
  induction xs generalizing ys s with
  | nil =>
    simp only [unifyAll, endsIn_done] at h
    subst h
    exact .refl hT
  | cons x xs ih =>
    cases ys with
    | nil =>
      simp only [unifyAll, endsIn_done] at h
      subst h
      exact .refl hT
    | cons y ys =>
      obtain ⟨hxT, hx⟩ := hxs x (by simp)
      obtain ⟨hyT, hy⟩ := hys y (by simp)
      rw [unifyAll] at h
      cases hxy : unify x y s with
      | cut => simp [hxy, not_endsIn_cut] at h
      | failed e s₁ =>
        rw [hxy, failed_andThen, endsIn_failed] at h
        exact h ▸ hc hs hT hxT hyT hx hy (Or.inr ⟨e, hxy⟩)
      | done r s₁ =>
        rw [hxy, done_andThen] at h
        have hends : (unify x y s).EndsIn s₁ := Or.inl ⟨r, hxy⟩
        obtain ⟨hadv, hs₁⟩ := hu.advances hs hx hy hends
        have hfirst := hc hs hT hxT hyT hx hy hends
        have hlater : ∀ z, z ∈ T ∧ z < s.graph.nodes.size → z ∈ T ∧ z < s₁.graph.nodes.size :=
          fun z hz => ⟨hz.1, hz.2.trans_le hadv.size_le⟩
        exact hfirst.trans (ih hs₁ hfirst.region (fun z hz => hlater z (hxs z (by simp [hz])))
          (fun z hz => hlater z (hys z (by simp [hz]))) h)

/-- A trial leaves a region a region. -/
lemma fits_region (hc : unify.Confined) (hs : s.graph.WellFormed) (hT : s.graph.IsRegion T)
    (hmT : m ∈ T) (htT : target ∈ T) (hm : m < s.graph.nodes.size)
    (ht : target < s.graph.nodes.size) (h : (fits unify target m s).EndsIn s') :
    s'.graph.IsRegion T := by
  obtain ⟨-, hs₂, hi, hp⟩ := trial_lawful hs hm ht
  obtain ⟨hiT, hT₁⟩ := hT.renew hs .instantiate hmT
  have hs₁ := Graph.wellFormed_renew .instantiate hs hm
  obtain ⟨hpT, hT₂⟩ := hT₁.renew hs₁ .copy htT
  have hback : ∀ s₃,
      (unify (trial target m s).1.1 (trial target m s).1.2 (trial target m s).2).EndsIn s₃ →
        (s₃.rewind s.mark).graph.IsRegion T := fun s₃ h₃ =>
    (hc hs₂ hT₂ hiT hpT hi hp h₃).region.clearAll _
  rw [fits_eq_verdict] at h
  cases hrun : unify (trial target m s).1.1 (trial target m s).1.2 (trial target m s).2 with
  | cut => simp [hrun, verdict, not_endsIn_cut] at h
  | done r s₃ =>
    rw [hrun, verdict, endsIn_done] at h
    exact h ▸ hback s₃ (Or.inl ⟨r, hrun⟩)
  | failed e s₃ =>
    have hs' : s' = s₃.rewind s.mark := by
      rw [hrun, verdict] at h
      split_ifs at h
      · exact endsIn_done.mp h
      · exact endsIn_failed.mp h
    exact hs' ▸ hback s₃ (Or.inr ⟨e, hrun⟩)

/-- So do the trials of all members. -/
lemma fitting_region (hu : unify.Lawful) (hc : unify.Confined) (hs : s.graph.WellFormed)
    (hT : s.graph.IsRegion T) (hms : ∀ m ∈ ms, m ∈ T ∧ m < s.graph.nodes.size)
    (htT : target ∈ T) (ht : target < s.graph.nodes.size) {viable : List TypeRef}
    (h : fitting unify target ms s = .done viable s') : s'.graph.IsRegion T := by
  induction ms generalizing s viable with
  | nil =>
    cases h
    exact hT
  | cons m ms ih =>
    obtain ⟨hmT, hm⟩ := hms m (by simp)
    rw [fitting] at h
    rcases fits_cases hu hs hm ht with ⟨-, hcut⟩ | ⟨fit, s₁, hfit, hq, hs₁⟩
    · simp [hcut] at h
    · rw [hfit, done_andThen] at h
      obtain ⟨rest, hrest, -⟩ := map_eq_done_iff.mp h
      exact ih hs₁ (fits_region hc hs hT hmT htT hm ht (Or.inl ⟨fit, hfit⟩))
        (fun z hz => (hms z (by simp [hz])).imp_right fun hlt => hlt.trans_le hq.size_le)
        (ht.trans_le hq.size_le) hrest

lemma choose_confined (hu : unify.Lawful) (hc : unify.Confined) (hs : s.graph.WellFormed)
    (hT : s.graph.IsRegion T) (hn : s.graph.node? u = some (.union ms)) (huT : u ∈ T)
    (htT : target ∈ T) (ht : target < s.graph.nodes.size)
    (h : (choose unify u ms target s).EndsIn s') : s.WritesIn T s' := by
  have hms : ∀ m ∈ ms, m ∈ T ∧ m < s.graph.nodes.size := fun m hm =>
    ⟨hT.edges.children huT hn m hm, hs.child_lt hn hm⟩
  rcases choose_cases (u := u) hu hs (fun m hm => (hms m hm).2) ht with
    ⟨-, hcut⟩ | ⟨viable, s₁, hfit, hq, hs₁, hend⟩
  · simp [hcut, not_endsIn_cut] at h
  · have hT₁ := fitting_region hu hc hs hT hms htT ht hfit
    rcases hend with ⟨e, hfail, -⟩ | ⟨w, hw, -, hrun⟩
    · rw [hfail, endsIn_failed] at h
      exact h ▸ hq.writesIn hT hT₁
    · obtain ⟨hwT, hwlt⟩ := hms w hw
      have hw₁ := hwlt.trans_le hq.size_le
      have hq₂ := Store.quiet_renew .instantiate hs₁ hw₁
      obtain ⟨hiT, hT₂⟩ := hT₁.renew hs₁ .instantiate hwT
      have hfirst := (hq.trans hq₂).writesIn hT hT₂
      rw [hrun] at h
      exact hfirst.trans (hc (Graph.wellFormed_renew .instantiate hs₁ hw₁) hT₂ hiT htT
        (Graph.renew_lt_size .instantiate hs₁ hw₁) (ht.trans_le (hq.trans hq₂).size_le) h)

lemma writesIn_bind {v ty : TypeRef} (hT : s.graph.IsRegion T) (hv : s.graph.isFree v = true)
    (hvT : v ∈ T) (hty : ty ∈ T) : s.WritesIn T (s.bind v ty) := by
  refine ⟨hT.bind hv hty, fun x hx => ?_⟩
  exact Graph.node?_setBinding_of_ne s.graph (some ty) fun h => hx (h ▸ hvT)

/-- One step writes where the unifier for the parts does. -/
theorem confined_step (hu : unify.Lawful) (hc : unify.Confined) :
    Unifier.Confined (step unify) := by
  intro T a b s s' hs hT haT hbT ha hb h
  have ha' := Graph.rep_lt_size hs ha
  have hb' := Graph.rep_lt_size hs hb
  have haT' := hT.edges.rep hs haT
  have hbT' := hT.edges.rep hs hbT
  have hsteps := step_stepsTo unify hs ha hb
  generalize step unify a b s = o at hsteps h
  cases hsteps with
  | same =>
    rw [endsIn_done] at h
    subst h
    exact .refl hT
  | bindLeft hfree =>
    rw [endsIn_done] at h
    exact h ▸ writesIn_bind hT hfree haT' hbT'
  | bindRight hfree =>
    rw [endsIn_done] at h
    exact h ▸ writesIn_bind hT hfree hbT' haT'
  | occursLeft | occursRight | clash =>
    rw [endsIn_failed] at h
    subst h
    exact .refl hT
  | chooseLeft _ hn => exact choose_confined hu hc hs hT hn haT' hbT' hb' h
  | chooseRight _ hn => exact choose_confined hu hc hs hT hn hbT' haT' ha' h
  | descend _ hx hy =>
    exact unifyAll_confined hu hc hs hT
      (fun z hz => ⟨hT.edges.children haT' hx z hz, hs.child_lt hx hz⟩)
      (fun z hz => ⟨hT.edges.children hbT' hy z hz, hs.child_lt hy hz⟩) (endsIn_map.mp h)

/-- Every run on two types of a region writes in the region only. -/
theorem confined_unifier (depth : Nat) : (unifier depth).Confined := by
  induction depth with
  | zero => exact fun _ _ _ _ _ _ _ _ _ _ _ h => absurd h not_endsIn_cut
  | succ depth ih => exact confined_step (lawful_unifier depth) ih

end Unification
