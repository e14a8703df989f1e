import Unification.Proofs.Collapse.Basic

/-!
# Trials in graphs that share more

A trial copies its target, and a copy depends only on how the target reads. So where a graph
collapses to another, the trials of a member that both have in common find out the same: the two
copies are one graph under two numberings, and the runs on them follow each other. The members that
fit are the same in both graphs, and an instance of one of them in either graph extends the collapse
to its new nodes.
-/

namespace Unification

open Outcome

/-! ### Copies of renumbered trees -/

namespace Draft

variable {ρ : TypeRef → TypeRef} {K : Set TypeRef} {d d' : Draft} {t : Tree} {p : Placeholder}

/-- The drafts have one graph and the same replacements, for placeholders under other
references. -/
structure Rekeys (ρ : TypeRef → TypeRef) (K : Set TypeRef) (d d' : Draft) : Prop where
  graph  : d'.graph = d.graph
  chosen : ∀ r ∈ K, d'.chosen.get? (ρ r) = d.chosen.get? r

lemma Rekeys.record (h : Rekeys ρ K d d') (hρ : Set.InjOn ρ K) {r : TypeRef} (hr : r ∈ K)
    (image : TypeRef) : Rekeys ρ K (d.record r image) (d'.record (ρ r) image) where
  graph := h.graph
  chosen x hx := by
    by_cases hxr : x = r
    · rw [hxr]
      simp [Draft.record]
    · have hne : ρ x ≠ ρ r := fun heq => hxr (hρ hx hr heq)
      simp only [Draft.record, Renaming.get?_insert_of_ne _ _ hxr,
        Renaming.get?_insert_of_ne _ _ hne]
      exact h.chosen x hx

lemma Rekeys.add (h : Rekeys ρ K d d') (n : Node) :
    (d'.add n).1 = (d.add n).1 ∧ Rekeys ρ K (d.add n).2 (d'.add n).2 := by
  refine ⟨?_, ?_, h.chosen⟩
  · simp [Draft.add, h.graph]
  · simp [Draft.add, h.graph]

lemma Rekeys.replace (h : Rekeys ρ K d d') (hρ : Set.InjOn ρ K) (hp : p.ref ∈ K) :
    (d'.replace .copy { p with ref := ρ p.ref }).1 = (d.replace .copy p).1 ∧
      Rekeys ρ K (d.replace .copy p).2 (d'.replace .copy { p with ref := ρ p.ref }).2 := by
  have hsame : Renewal.copy.replacement { p with ref := ρ p.ref } = Renewal.copy.replacement p := by
    simp only [Renewal.replacement]
  simp only [Draft.replace, h.chosen p.ref hp, hsame]
  cases hget : d.chosen.get? p.ref with
  | some image => exact ⟨rfl, h⟩
  | none =>
    cases hrep : Renewal.copy.replacement p with
    | none => exact absurd (Renewal.replacement_eq_none_iff.mp hrep) id
    | some n =>
      obtain ⟨himage, hadd⟩ := h.add n
      refine ⟨himage, ?_⟩
      simp only [himage]
      exact hadd.record hρ hp _

lemma Rekeys.buildAll (ts : List Tree)
    (build : ∀ t ∈ ts, ∀ d d' : Draft, Rekeys ρ K d d' →
      (d'.build .copy (t.renumber ρ)).1 = (d.build .copy t).1 ∧
        Rekeys ρ K (d.build .copy t).2 (d'.build .copy (t.renumber ρ)).2) (h : Rekeys ρ K d d') :
    (d'.buildAll .copy (ts.map (Tree.renumber ρ))).1 = (d.buildAll .copy ts).1 ∧
      Rekeys ρ K (d.buildAll .copy ts).2 (d'.buildAll .copy (ts.map (Tree.renumber ρ))).2 := by
  induction ts generalizing d d' with
  | nil => exact ⟨rfl, h⟩
  | cons t ts ih =>
    obtain ⟨hfirst, h₁⟩ := build t (by simp) d d' h
    obtain ⟨hrest, h₂⟩ := ih (fun u hu => build u (by simp [hu])) h₁
    refine ⟨?_, h₂⟩
    simp only [List.map_cons, Draft.buildAll, hfirst, hrest]

/-- A copy does not depend on the references of the placeholders. -/
lemma Rekeys.build (hρ : Set.InjOn ρ K) (ht : t.outerRefs ⊆ K) (h : Rekeys ρ K d d') :
    (d'.build .copy (t.renumber ρ)).1 = (d.build .copy t).1 ∧
      Rekeys ρ K (d.build .copy t).2 (d'.build .copy (t.renumber ρ)).2 := by
  induction t generalizing d d' with
  | terminal r name => exact ⟨by simp [Draft.build], by simpa [Draft.build] using h⟩
  | placeholder p =>
    rw [Tree.renumber_placeholder, Draft.build, Draft.build]
    exact h.replace hρ (ht (Tree.mem_outerRefs (by simp)))
  | inst f args ih =>
    have hsub : ∀ u ∈ args, u.outerRefs ⊆ K := by
      rintro u hu _ ⟨p, hp, rfl⟩
      exact ht (Tree.mem_outerRefs (by simpa using ⟨u, hu, hp⟩))
    obtain ⟨hargs, h₁⟩ := h.buildAll args fun u hu d d' => ih u hu (hsub u hu)
    rw [Tree.renumber_inst, Draft.build, Draft.build]
    simp only [hargs]
    exact h₁.add _
  | union r members => exact ⟨by simp [Draft.build], by simpa [Draft.build] using h⟩

end Draft

/-! ### Renumbered copies -/

namespace Renumbering

variable {C : Set TypeRef} {V : Set Placeholder} {n n' : Nat} {hC : ∀ x ∈ C, x < n ∧ x < n'}
  {t : Tree} {ρ : TypeRef → TypeRef} {g g' : Graph}

lemma mem_shift_of_le {x : TypeRef} (hx : n ≤ x) : x ∈ (shift C n n' hC).types :=
  Or.inr hx

/-- A tree over types that keep their numbers is kept. -/
lemma tree_shift_of_over (ht : t.Over C Set.univ) : (shift C n n' hC).tree t = t := by
  induction ht with
  | terminal hr => rw [tree_terminal, type_shift_of_mem hr]
  | placeholder hp => rw [tree_placeholder, placeholder, type_shift_of_mem hp]
  | @inst f args _ _ ih =>
    rw [tree_inst]
    conv_rhs => rw [← List.map_id args]
    congr 1
    exact List.map_congr_left ih
  | @union r members hr _ ih =>
    rw [tree_union, type_shift_of_mem hr]
    conv_rhs => rw [← List.map_id members]
    congr 1
    exact List.map_congr_left ih

/-- In a tree whose fixed parts keep their numbers the placeholders are renumbered. -/
lemma tree_shift_of_within (ht : t.Within C V) :
    (shift C n n' hC).tree t = t.renumber (shift C n n' hC).type := by
  induction ht with
  | terminal hr => rw [tree_terminal, type_shift_of_mem hr, Tree.renumber_terminal]
  | placeholder hp =>
    rw [tree_placeholder, Tree.renumber_placeholder]
    rfl
  | inst _ ih =>
    rw [tree_inst, Tree.renumber_inst]
    congr 1
    exact List.map_congr_left ih
  | union hover _ => rw [tree_shift_of_over hover, Tree.renumber_union]

/-- Nothing is known of the placeholders but that the renumbering has them. -/
lemma over_shift_of_within (ht : t.Within C V) (hV : ∀ p ∈ V, n ≤ p.ref) :
    t.Over (shift C n n' hC).types Set.univ := by
  have hmono : ∀ {u : Tree}, u.Over C Set.univ → u.Over (shift C n n' hC).types Set.univ := by
    intro u hu
    induction hu with
    | terminal hr => exact .terminal (mem_shift hr)
    | placeholder hp => exact .placeholder (mem_shift hp)
    | inst hf _ ih => exact .inst hf ih
    | union hr _ ih => exact .union (mem_shift hr) ih
  induction ht with
  | terminal hr => exact .terminal (mem_shift hr)
  | placeholder hp => exact .placeholder (mem_shift_of_le (hV _ hp))
  | inst _ ih => exact .inst (Set.mem_univ _) ih
  | union hover _ => exact hmono hover

/-- Copies of two trees that differ in the references of their placeholders only are one type under
two numberings. -/
lemma Tracks.copy (h : (shift C n n' hC).Tracks g g') (ht : t.Within C V)
    (hρ : Set.InjOn ρ (Placeholder.ref '' V)) :
    (shift C n n' hC).Sends (Draft.build .copy { graph := g } t).1
        (Draft.build .copy { graph := g' } (t.renumber ρ)).1 ∧
      (shift C n n' hC).Tracks (Draft.build .copy { graph := g } t).2.graph
        (Draft.build .copy { graph := g' } (t.renumber ρ)).2.graph := by
  have hsub : t.outerRefs ⊆ Placeholder.ref '' V := by
    rintro _ ⟨p, hp, rfl⟩
    exact ⟨p, ht.mem hp, rfl⟩
  have hadd : ∀ k, Set.InjOn (fun r => k + r) (Placeholder.ref '' V) := fun k r _ q _ heq =>
    Nat.add_left_cancel heq
  have hcopy : ∀ (g : Graph) {ρ}, Set.InjOn ρ (Placeholder.ref '' V) →
      (Draft.build .copy { graph := g } (t.renumber ρ)).1 =
          (Draft.build .copy { graph := g } t).1 ∧
        (Draft.build .copy { graph := g } (t.renumber ρ)).2.graph =
          (Draft.build .copy { graph := g } t).2.graph := fun g ρ hρ =>
    (Draft.Rekeys.build hρ hsub ⟨rfl, fun _ _ => rfl⟩).imp_right Draft.Rekeys.graph
  -- with all placeholders numbered from `n` on the first tree is one that the renumbering concerns
  have htree : (shift C n n' hC).tree (t.renumber fun r => n + r) = t.renumber fun r => n' + r := by
    rw [tree_shift_of_within (ht.renumber _)]
    refine (Tree.relabel_relabel _ _ t).trans (Tree.relabel_congr fun p _ => ?_)
    simp [extends_shift.new p.ref]
  have hover : (t.renumber fun r => n + r).Over (shift C n n' hC).types Set.univ := by
    apply over_shift_of_within (ht.renumber _)
    rintro _ ⟨p, -, rfl⟩
    exact Nat.le_add_right n p.ref
  have hdraft : (shift C n n' hC).TracksDraft { graph := g } { graph := g' } :=
    ⟨h, fun _ _ => rfl, by simp [Renaming.get?]⟩
  obtain ⟨hsends, htracks⟩ := hdraft.build .copy hover
  rw [htree, (hcopy g (hadd n)).1, (hcopy g' (hadd n')).1] at hsends
  have hgraph := htracks.graph
  rw [htree, (hcopy g (hadd n)).2, (hcopy g' (hadd n')).2] at hgraph
  rw [(hcopy g' hρ).1, (hcopy g' hρ).2]
  exact ⟨hsends, hgraph⟩

end Renumbering

/-! ### Trials in both graphs -/

/-- What a trial finds out does not depend on what was bound before it. -/
lemma value?_fits_trail (d : Nat) (target m : TypeRef) (s : Store) :
    (fits (unifier d) target m s).value? = (fits (unifier d) target m ⟨s.graph, []⟩).value? :=
  (fits_onto (ignores_unifier s.trail d) target m ⟨s.graph, []⟩).value?_eq

namespace Collapse

variable {c : Collapse} {g g' : Graph} {s s' s₁ : Store} {m t t' w : TypeRef}
  {ms viable : List TypeRef} {depth : Nat}

lemma Holds.trial (h : c.Holds g g') (hm : m ∈ c.shared) (ht : c.pairs t t') :
    h.shares.shift.Sends (trial t m ⟨g, []⟩).1.1 (trial t' m ⟨g', []⟩).1.1 ∧
      h.shares.shift.Sends (trial t m ⟨g, []⟩).1.2 (trial t' m ⟨g', []⟩).1.2 ∧
      h.shares.shift.TracksStore (trial t m ⟨g, []⟩).2 (trial t' m ⟨g', []⟩).2 := by
  obtain ⟨htlt, htlt'⟩ := h.lt_size ht
  obtain ⟨hmlt, hmlt'⟩ := h.shares.lt_sizes m hm
  obtain ⟨hinst, h₁⟩ := (h.shares.tracks rfl rfl).renew .instantiate (h.shares.mem_shift hm) hmlt
  rw [h.shares.type_shift hm] at hinst h₁
  have hq := Store.quiet_renew (s := ⟨g, []⟩) .instantiate h.left hmlt
  have hq' := Store.quiet_renew (s := ⟨g', []⟩) .instantiate h.right hmlt'
  have hread := hq.graph.resolve_eq h.left h₁.left htlt
  have hread' := hq'.graph.resolve_eq h.right h₁.right htlt'
  obtain ⟨hprobe, hgraph⟩ := h₁.graph.copy (h.within ht) h.injOn
  rw [← h.tree ht, ← hread, ← hread'] at hprobe hgraph
  obtain ⟨-, hs₂, -⟩ := trial_lawful h.left hmlt htlt
  obtain ⟨-, hs₂', -⟩ := trial_lawful h.right hmlt' htlt'
  exact ⟨hinst, hprobe, hgraph, hs₂, hs₂', h₁.trail, h₁.bound⟩

/-- A trial of a member finds out the same in both graphs. -/
lemma Holds.value?_fits (h : c.Holds g g') (hm : m ∈ c.shared) (ht : c.pairs t t') (depth : Nat) :
    (fits (unifier depth) t' m ⟨g', []⟩).value? = (fits (unifier depth) t m ⟨g, []⟩).value? := by
  obtain ⟨⟨hiT, hi⟩, ⟨hpT, hp⟩, h₂⟩ := h.trial hm ht
  obtain ⟨-, -, hilt, hplt⟩ := trial_lawful h.left (h.shares.lt_size m hm) (h.lt_size ht).1
  have hrun := Renumbering.follows_unifier h.shares.separates depth h₂ hiT hpT hilt hplt
  rw [hi, hp] at hrun
  exact (Renumbering.verdict_alike 0 hrun).value?_eq

/-- The same members fit in both graphs. -/
lemma Holds.fitting (h : c.Holds s.graph s'.graph) (hms : ∀ m ∈ ms, m ∈ c.shared)
    (ht : c.pairs t t') (hrun : fitting (unifier depth) t ms s = .done viable s₁) :
    ∃ s₁', fitting (unifier depth) t' ms s' = .done viable s₁' := by
  induction ms generalizing s s' viable with
  | nil =>
    cases hrun
    exact ⟨s', rfl⟩
  | cons m ms ih =>
    obtain ⟨hm, hms⟩ := List.forall_mem_cons.mp hms
    obtain ⟨htlt, htlt'⟩ := h.lt_size ht
    obtain ⟨hmlt, hmlt'⟩ := h.shares.lt_sizes m hm
    have hvalue := h.value?_fits hm ht depth
    rw [← value?_fits_trail, ← value?_fits_trail] at hvalue
    rw [fitting] at hrun ⊢
    rcases fits_cases (lawful_unifier depth) h.left hmlt htlt with
      ⟨-, hcut⟩ | ⟨fit, s₂, hfit, hq, hs₂⟩
    · simp [hcut] at hrun
    rcases fits_cases (lawful_unifier depth) h.right hmlt' htlt' with
      ⟨-, hcut'⟩ | ⟨fit', s₂', hfit', hq', hs₂'⟩
    · simp [hcut', hfit, value?] at hvalue
    obtain rfl : fit' = fit := by simpa [hfit, hfit', value?] using hvalue
    rw [hfit, done_andThen, map_eq_done_iff] at hrun
    obtain ⟨rest, hrest, rfl⟩ := hrun
    have h₂ := h.keeps hq.graph hq'.graph hs₂ hs₂'
      (hq'.templates.trans (h.shares.templates.trans hq.templates.symm))
    obtain ⟨s₁', hrest'⟩ := ih h₂ hms hrest
    exact ⟨s₁', by rw [hfit', done_andThen, hrest', map]⟩

/-! ### Instances in both graphs -/

variable {C : Set TypeRef} {g₁ g₁' : Graph}

/-- Relates the types that two graphs get under two numberings, after types that they had in
common. -/
def added (h : Store.Shares C ⟨g, []⟩ ⟨g', []⟩) (g₁ : Graph) : Collapse where
  shared := C
  live := {p | g.nodes.size ≤ p.ref ∧ p.ref < g₁.nodes.size ∧ p.kind = .flexible}
  image := h.shift.type
  pairs x x' := x < g₁.nodes.size ∧ h.shift.Sends x x' ∧
    (g₁.resolve x).Within C
      {p | g.nodes.size ≤ p.ref ∧ p.ref < g₁.nodes.size ∧ p.kind = .flexible}

lemma holds_added (h : Store.Shares C ⟨g, []⟩ ⟨g', []⟩) (hsolid : ∀ x ∈ C, g.isFree x = false)
    (hkeep : g.Keeps g₁) (hkeep' : g'.Keeps g₁') (htracks : h.shift.Tracks g₁ g₁')
    (hg₁ : g₁.WellFormed) (hg₁' : g₁'.WellFormed) (htemplates : g₁'.templates = g₁.templates) :
    (added h g₁).Holds g₁ g₁' := by
  obtain ⟨hshares, hsolid₁⟩ := shares_of_extends h hsolid hkeep.extends hkeep'.extends hg₁ hg₁'
    htemplates
  have hrefs : ∀ r ∈ (added h g₁).refs, r ∈ h.shift.types ∧ r < g₁.nodes.size := by
    rintro _ ⟨p, ⟨hle, hlt, -⟩, rfl⟩
    exact ⟨Renumbering.mem_shift_of_le hle, hlt⟩
  refine ⟨hshares, hsolid₁, ?_, ?_, ?_, ?_, ?_, ?_, ?_, ?_, ?_⟩
  · exact h.shift.type_injOn.mono fun r hr => (hrefs r hr).1
  · exact fun r hr => ⟨(hrefs r hr).2, (htracks.lt_size_iff (hrefs r hr).1).mpr (hrefs r hr).2⟩
  · rintro x _ ⟨hlt, ⟨hx, rfl⟩, -⟩
    exact ⟨hlt, (htracks.lt_size_iff hx).mpr hlt⟩
  · exact fun x x' hx => hx.2.2
  · rintro x _ ⟨-, ⟨hx, rfl⟩, hwithin⟩
    rw [htracks.resolve hg₁ hg₁' hx]
    exact Renumbering.tree_shift_of_within hwithin
  · rintro x _ ⟨hlt, ⟨hx, rfl⟩, hwithin⟩
    refine ⟨Graph.rep_lt_size hg₁ hlt, ⟨htracks.encloses.rep hg₁ hx, ?_⟩, ?_⟩
    · exact (htracks.rep hg₁ hg₁' hx).symm
    · rwa [Graph.resolve_rep hg₁]
  · rintro x _ t t' xs xs' ⟨hlt, ⟨hx, rfl⟩, hwithin⟩ hn hn'
    rw [htracks.node x hx, hn] at hn'
    obtain ⟨-, rfl⟩ := Node.inst.inj (Option.some.inj hn')
    rw [Graph.resolve_inst hg₁ hn] at hwithin
    rw [List.forall₂_map_right_iff, List.forall₂_same]
    intro y hy
    exact ⟨hg₁.child_lt hn hy, ⟨htracks.encloses.children hx hn y hy, rfl⟩,
      hwithin.of_mem_inst (List.mem_map_of_mem hy)⟩
  · rintro x _ y _ ⟨-, ⟨hx, rfl⟩, -⟩ ⟨-, ⟨hy, rfl⟩, -⟩ heq
    rw [htracks.rep hg₁ hg₁' hx, htracks.rep hg₁ hg₁' hy, heq]
  · rintro x _ ⟨-, ⟨hx, rfl⟩, -⟩ hmem
    rw [htracks.rep hg₁ hg₁' hx]
    exact h.type_shift hmem

/-- An instance of a type that the graphs have in common has new variables only. -/
lemma Holds.within_instantiate (h : c.Holds g g') (hw : w ∈ c.shared) :
    ((g.renew .instantiate w).2.resolve (g.renew .instantiate w).1).Within c.shared
      {p | g.nodes.size ≤ p.ref ∧ p.ref < (g.renew .instantiate w).2.nodes.size ∧
        p.kind = .flexible} := by
  have hlt := h.shares.lt_size w hw
  obtain ⟨ρ, hrenews⟩ := Graph.exists_renewsTo .instantiate h.left hlt
  have hover := h.shares.encloses.over_resolve (U := Set.univ) h.left
    (fun _ _ _ _ _ => Set.mem_univ _) hw
  have hvars : (g.resolve w).vars = ∅ := by
    rw [Finset.eq_empty_iff_forall_notMem]
    intro v hv
    have hfree := Graph.isFree_of_mem_vars h.left hlt hv
    obtain ⟨p, hp, -, rfl⟩ := Tree.mem_vars.mp hv
    obtain ⟨hreach, -⟩ := Graph.mem_placeholders_resolve h.left hlt hp
    simp [h.solid _ (h.shares.encloses.reaches hw hreach)] at hfree
  rw [hrenews.tree]
  refine hover.within_relabel hvars fun p hp => ?_
  have hrigid : ¬ Renewal.instantiate.Spares p.kind := by
    intro hk
    have hmem := Tree.mem_vars.mpr ⟨p, Tree.outerPlaceholders_subset _ hp, hk, rfl⟩
    simp [hvars] at hmem
  exact ⟨hrenews.fresh p hp hrigid, (hrenews.shows p hp).ref_lt_size, rfl⟩

/-- An instance of a type that the graphs have in common is made in both, and the collapse is
extended to it. -/
theorem Holds.instantiate (h : c.Holds g g') (hw : w ∈ c.shared) :
    ∃ c₁, c.Grows c₁ ∧ c₁.Holds (g.renew .instantiate w).2 (g'.renew .instantiate w).2 ∧
      c₁.pairs (g.renew .instantiate w).1 (g'.renew .instantiate w).1 ∧
      ∀ r ∈ c₁.refs, r ∈ c.refs ∨ g'.nodes.size ≤ c₁.image r := by
  obtain ⟨hlt, hlt'⟩ := h.shares.lt_sizes w hw
  obtain ⟨hsends, htracks⟩ := (h.shares.tracks rfl rfl).graph.renew h.left h.right .instantiate
    (h.shares.mem_shift hw)
  rw [h.shares.type_shift hw] at hsends htracks
  have happ := Graph.appends_renew .instantiate h.left hlt
  have happ' := Graph.appends_renew .instantiate h.right hlt'
  have hg₁ := Graph.wellFormed_renew .instantiate h.left hlt
  have hg₁' := Graph.wellFormed_renew .instantiate h.right hlt'
  have htemplates := happ'.templates.trans (h.shares.templates.trans happ.templates.symm)
  have hadded := holds_added h.shares h.solid happ.keeps happ'.keeps htracks hg₁ hg₁' htemplates
  have hkept := h.keeps happ.keeps happ'.keeps hg₁ hg₁' htemplates
  have hnew : ∀ r ∈ (added h.shares (g.renew .instantiate w).2).refs,
      g.nodes.size ≤ r ∧ g'.nodes.size ≤ h.shares.shift.type r := by
    rintro _ ⟨p, ⟨hle, -⟩, rfl⟩
    exact ⟨hle, Renumbering.le_type_shift hle⟩
  have hrefs : ∀ r ∈ c.refs, r ∉ (added h.shares (g.renew .instantiate w).2).refs :=
    fun r hr hr' => absurd (h.live_lt r hr).1 (Nat.not_lt.mpr (hnew r hr').1)
  have hpart := isPart_join_left hrefs
  refine ⟨c.join (added h.shares (g.renew .instantiate w).2), ⟨hpart, ?_⟩, ?_, ?_, ?_⟩
  · rintro p (hp | ⟨-, -, hflexible⟩) hk
    · exact hp
    · cases hk.symm.trans hflexible
  · refine hkept.join hadded rfl hrefs ?_ ?_
    · intro r hr q hq heq
      exact absurd (h.live_lt r hr).2 (Nat.not_lt.mpr (heq ▸ (hnew q hq).2))
    · -- a type that was there before and is renumbered is one that the graphs have in common
      rintro x x' y _ hx ⟨-, ⟨hy, rfl⟩, -⟩ heq
      have hrep := htracks.encloses.rep hg₁ hy
      rw [← heq, happ.keeps.rep_eq h.left hg₁ (h.lt_size hx).1] at hrep
      rw [happ.keeps.rep_eq h.left hg₁ (h.lt_size hx).1]
      exact hrep.resolve_right (Nat.not_le.mpr (Graph.rep_lt_size h.left (h.lt_size hx).1))
  · refine Or.inr ⟨Graph.renew_lt_size .instantiate h.left hlt, hsends, ?_⟩
    exact h.within_instantiate hw
  · rw [refs_join]
    rintro r (hr | hr)
    · exact Or.inl hr
    · exact Or.inr ((hnew r hr).2.trans_eq (if_pos hr).symm)

end Collapse

end Unification
