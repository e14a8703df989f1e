import Unification.Proofs.Collapse.Copy
import Unification.Proofs.Collapse.Run
import Unification.Proofs.Selection

/-!
# The commitment to a member agrees with its trial

The member that an overload set is resolved to was tried before, with a copy of the target. The
target itself shares more than its copy does, and it meets another instance of the member, in a
store with what all trials have left. Still the trial decides: if no free variable is in the
overload set and no overload set in the target, then the unification with the target succeeds as
the trial did, and the target is then read as its copy was: `Engine.unify_commits`.
-/

namespace Unification

open Outcome

/-! ### Trees and their copies -/

/-- Let `copy` be `source` with all placeholders replaced, and let it have become `found`. Then
`settled` is `found` with its variables renamed and with each constraint replaced by the one of
`source` of which it is the copy. -/
def Tree.Restores (source copy found settled : Tree) : Prop :=
  ∃ σ ρ : TypeRef → TypeRef, copy = source.renumber σ ∧ Set.InjOn σ source.outerRefs ∧
    settled = found.renumber ρ ∧ Set.InjOn ρ found.outerRefs ∧
    ∀ q ∈ found.outerPlaceholders, q.kind = .rigid → source.Replaced σ ρ q

namespace Graph

variable {g g₁ g₂ : Graph} {x : TypeRef} {tree : Tree}

/-! ### Types that no binding can change -/

/-- The types from which no free variable is reached. -/
def solid (g : Graph) : Set TypeRef :=
  {x | x < g.nodes.size ∧ ∀ y, g.Reaches x y → g.isFree y = false}

/-- Two extensions of a graph have its solid types in common. -/
lemma shares_solid (hg : g.WellFormed) (h₁ : g.Extends g₁) (h₂ : g.Extends g₂)
    (hg₁ : g₁.WellFormed) (hg₂ : g₂.WellFormed) (htemplates : g₂.templates = g₁.templates) :
    Store.Shares g.solid ⟨g₁, []⟩ ⟨g₂, []⟩ ∧ ∀ x ∈ g.solid, g₁.isFree x = false := by
  have hself : Store.Shares g.solid ⟨g, []⟩ ⟨g, []⟩ :=
    ⟨hg, hg, fun x y hx hxy => ⟨hg.closed hxy, fun z hz => hx.2 z (.head hxy hz)⟩,
      fun x hx => hx.1, fun _ _ => rfl, rfl⟩
  exact Collapse.shares_of_extends hself (fun x hx => hx.2 x .refl) h₁ h₂ hg₁ hg₂ htemplates

lemma mem_solid_of_terminal {name : String} (hn : g.node? x = some (.terminal name)) :
    x ∈ g.solid := by
  refine ⟨lt_size_of_node? hn, fun y hy => ?_⟩
  rcases hy.cases_head with rfl | ⟨z, hz, -⟩
  · simp [isFree, hn, Node.isFree]
  · simp [edge_of_node? hn, Node.children] at hz

/-- A tree without overload sets is made of terminals and of its own placeholders. -/
lemma Shows.within (h : g.Shows tree) (hplain : tree.Plain) :
    tree.Within {x | ∃ name, g.node? x = some (.terminal name)}
      {p | p ∈ tree.outerPlaceholders} := by
  induction h with
  | terminal hn => exact .terminal ⟨_, hn⟩
  | flexible | rigid => exact .placeholder (by simp)
  | inst _ _ _ ih =>
    refine .inst fun u hu => (ih u hu (hplain.of_mem_inst hu)).mono fun p hp => ?_
    simpa using ⟨u, hu, hp⟩
  | union =>
    cases hplain with
    | union hfalse => exact absurd hfalse id

end Graph

/-! ### The trial collapses to the commitment -/

/-- The source of a copy of a type without overload sets. The type is in both graphs, and stands in
the second one for its copy, which starts with node `start`. -/
def Source.ofType (g g' : Graph) (t : TypeRef) (start : Nat) : Source where
  graph := g'
  kept := {x | ∃ name, g.node? x = some (.terminal name)}
  refs := (g.resolve t).outerRefs
  start := start

namespace Collapse

variable {g g₁ g₂ : Graph} {C : Set TypeRef} {s₁ s₂ : Store} {t w : TypeRef}

/-- Relates nothing but what the graphs have in common. -/
def empty (C : Set TypeRef) : Collapse where
  shared := C
  live := ∅
  image := id
  pairs _ _ := False

lemma holds_empty (h : Store.Shares C ⟨g₁, []⟩ ⟨g₂, []⟩)
    (hsolid : ∀ x ∈ C, g₁.isFree x = false) : (empty C).Holds g₁ g₂ := by
  refine ⟨h, hsolid, ?_, ?_, ?_, ?_, ?_, ?_, ?_, ?_, ?_⟩ <;> simp [empty, refs]

/-- A copy of a type without overload sets collapses to the type. Of the types that there were
before the copy was made it relates only such as no binding can change, and each placeholder of the
copy is one that replaced a placeholder of the type. -/
theorem exists_holds_copy (hg : g.WellFormed) (hk₁ : g.Keeps g₁) (hk₂ : g.Keeps g₂)
    (hg₁ : g₁.WellFormed) (hg₂ : g₂.WellFormed) (htemplates : g₂.templates = g₁.templates)
    (ht : t < g.nodes.size) (hplain : (g.resolve t).Plain) :
    ∃ c σ, g₁.RenewsTo t .copy σ (g₁.renew .copy t).2 (g₁.renew .copy t).1 ∧
      Holds c (g₁.renew .copy t).2 g₂ ∧ c.shared = g.solid ∧ c.pairs (g₁.renew .copy t).1 t ∧
      (∀ x y, c.pairs x y → (g₁.renew .copy t).2.rep x < g₁.nodes.size →
        (g₁.renew .copy t).2.rep x ∈ g.solid) ∧
      ∀ q ∈ c.live, (g.resolve t).Replaced σ c.image q := by
  have hread₁ := hk₁.resolve_eq hg hg₁ ht
  have hread₂ := hk₂.resolve_eq hg hg₂ ht
  have ht₁ := ht.trans_le hk₁.extends.size_le
  have ht₂ := ht.trans_le hk₂.extends.size_le
  have happ := Graph.appends_renew .copy hg₁ ht₁
  let S := Source.ofType g g₂ t g₁.nodes.size
  have hkept : ∀ x ∈ S.kept, x ∈ g.solid ∧ x < S.start ∧
      ∃ name, S.graph.node? x = some (.terminal name) := by
    rintro x ⟨name, hn⟩
    have hx := Graph.mem_solid_of_terminal hn
    exact ⟨hx, hx.1.trans_le hk₁.extends.size_le, name, hk₂ hn⟩
  obtain ⟨m, hunfolds, hstands⟩ := S.exists_unfolds hg₂ rfl (fun x hx => (hkept x hx).2.1) ht₂
    (hread₂.trans hread₁.symm) (hread₁.symm ▸ (Graph.shows_resolve hg ht).within hplain)
    fun p hp => Tree.mem_outerRefs hp
  obtain ⟨hshares, hsolid⟩ := Graph.shares_solid hg (hk₁.trans happ.keeps).extends hk₂.extends
    (Graph.wellFormed_renew .copy hg₁ ht₁) hg₂ (htemplates.trans happ.templates.symm)
  have h : (S.collapse g.solid m (g₁.renew .copy t).2).Holds (g₁.renew .copy t).2 g₂ :=
    hunfolds.holds hshares hsolid (fun x hx => hx.1.trans_le hk₁.extends.size_le) hkept
  obtain ⟨σ, hrenews⟩ := Graph.exists_renewsTo .copy hg₁ ht₁
  have hprobe : (S.collapse g.solid m (g₁.renew .copy t).2).pairs (g₁.renew .copy t).1 t :=
    ⟨ht₂, hstands⟩
  have htree : (g₁.renew .copy t).2.resolve (g₁.renew .copy t).1 = (g₂.resolve t).renumber σ :=
    hrenews.tree.trans (by rw [hread₁, hread₂]; rfl)
  refine ⟨_, σ, hrenews, h, rfl, hprobe, ?_, fun q hq => ?_⟩
  · rintro x y ⟨-, hx⟩ hlt
    have hrep : (g₁.renew .copy t).2.rep x = x := hunfolds.rep_eq hshares.node hkept hx
    rw [hrep] at hlt ⊢
    exact (hkept x (hx.2.1.resolve_left (Nat.not_le.mpr hlt))).1
  · rw [← hread₂]
    exact hunfolds.replaced h hprobe (congrArg Tree.outerRefs hread₂.symm) htree hq

/-- Where a trial begins, the instance of the member and the copy of the type collapse to another
instance of the member and the type itself. All constraints in them are copies of constraints of the
type. -/
theorem exists_holds_trial (hg : g.WellFormed) (hk₁ : g.Keeps s₁.graph) (hk₂ : g.Keeps s₂.graph)
    (hs₁ : s₁.graph.WellFormed) (hs₂ : s₂.graph.WellFormed)
    (htemplates : s₂.graph.templates = s₁.graph.templates) (hw : w ∈ g.solid)
    (ht : t < g.nodes.size) (hplain : (g.resolve t).Plain) :
    ∃ c σ, Holds c (trial t w s₁).2.graph (s₂.renew .instantiate w).2.graph ∧
      c.pairs (trial t w s₁).1.1 (s₂.renew .instantiate w).1 ∧ c.pairs (trial t w s₁).1.2 t ∧
      (trial t w s₁).2.graph.resolve (trial t w s₁).1.2 = (g.resolve t).renumber σ ∧
      Set.InjOn σ (g.resolve t).outerRefs ∧
      ∀ q ∈ c.live, q.kind = .rigid → (g.resolve t).Replaced σ c.image q := by
  obtain ⟨hshares, hsolid⟩ :=
    Graph.shares_solid hg hk₁.extends hk₂.extends hs₁ hs₂ htemplates
  obtain ⟨hw₁, hw₂⟩ := hshares.lt_sizes w hw
  obtain ⟨c, hgrow, hc, hinst, hnew⟩ := (holds_empty hshares hsolid).instantiate (w := w) hw
  have happ₁ := Graph.appends_renew .instantiate hs₁ hw₁
  have happ₂ := Graph.appends_renew .instantiate hs₂ hw₂
  have hkeep₁ := hk₁.trans happ₁.keeps
  have hkeep₂ := hk₂.trans happ₂.keeps
  obtain ⟨d, σ, hrenews, hd, hshared, hprobe, hcross, hlive⟩ := exists_holds_copy hg hkeep₁ hkeep₂
    hc.left hc.right hc.shares.templates ht hplain
  have hcopy := Graph.appends_renew .copy hc.left (ht.trans_le hkeep₁.extends.size_le)
  have hread := hkeep₁.resolve_eq hg hc.left ht
  have hc' := hc.keeps hcopy.keeps (.refl _) hd.left hc.right
    (hc.shares.templates.trans hcopy.templates.symm)
  have hout : ∀ q ∈ d.live, (s₁.graph.renew .instantiate w).2.nodes.size ≤ q.ref ∧
      d.image q.ref < g.nodes.size := by
    intro q hq
    obtain ⟨p, hp, hqp, himage⟩ := hlive q hq
    rw [himage, hqp]
    exact ⟨hrenews.fresh p (hread ▸ hp) id,
      (Graph.shows_of_mem_outerPlaceholders hg ht hp).ref_lt_size⟩
  have hrefs : ∀ r ∈ c.refs, r ∉ d.refs := by
    rintro r hr ⟨q, hq, rfl⟩
    exact absurd (hc.live_lt _ hr).1 (Nat.not_lt.mpr (hout q hq).1)
  have hjoin : (c.join d).Holds (trial t w s₁).2.graph (s₂.renew .instantiate w).2.graph := by
    refine hc'.join hd (hshared.trans hgrow.shared.symm) hrefs ?_ ?_
    · rintro r hr _ ⟨q, hq, rfl⟩ heq
      have hle := (hnew r hr).resolve_left (by simp [empty, refs])
      exact absurd ((hout q hq).2.trans_le hk₂.extends.size_le) (Nat.not_lt.mpr (heq ▸ hle))
    · intro x x' y y' hx hy heq
      have hlt := Graph.rep_lt_size hc.left (hc.lt_size hx).1
      rw [← hcopy.keeps.rep_eq hc.left hd.left (hc.lt_size hx).1, heq] at hlt
      rw [heq, hgrow.shared]
      exact hcross y y' hy hlt
  refine ⟨c.join d, σ, hjoin, Or.inl hinst, Or.inr hprobe, hread ▸ hrenews.tree,
    hread ▸ hrenews.injOn, ?_⟩
  rintro q (hq | hq) hk
  · exact absurd (hgrow.rigid q hq hk) id
  · obtain ⟨p, hp, hqp, himage⟩ := hlive q hq
    exact ⟨p, hp, hqp, ((isPart_join_right (hshared.trans hgrow.shared.symm)).image
      ⟨q, hq, rfl⟩).trans himage⟩

end Collapse

/-! ### Trials that are made -/

section Trials

variable {unify : Unifier} {target w : TypeRef} {ms viable : List TypeRef} {s s₁ : Store}

lemma exists_done_of_fits (h : fits unify target w s = .done true s₁) :
    ∃ r s₂, unify (trial target w s).1.1 (trial target w s).1.2 (trial target w s).2 =
      .done r s₂ := by
  rw [fits_eq_verdict] at h
  cases hrun : unify (trial target w s).1.1 (trial target w s).1.2 (trial target w s).2 with
  | done r s₂ => exact ⟨r, s₂, rfl⟩
  | failed err s₂ =>
    rw [hrun, verdict] at h
    split_ifs at h
    simp at h
  | cut => simp [hrun, verdict] at h

/-- A member that fits was tried with success after the members before it. -/
lemma exists_trial_of_fitting (hrun : fitting unify target ms s = .done viable s₁)
    (hw : w ∈ viable) :
    ∃ before after fitted s₀ r s₂, ms = before ++ w :: after ∧
      fitting unify target before s = .done fitted s₀ ∧
      unify (trial target w s₀).1.1 (trial target w s₀).1.2 (trial target w s₀).2 =
        .done r s₂ := by
  induction ms generalizing s viable with
  | nil =>
    cases hrun
    simp at hw
  | cons m ms ih =>
    rw [fitting] at hrun
    cases hfit : fits unify target m s with
    | failed err s₂ => simp [hfit] at hrun
    | cut => simp [hfit] at hrun
    | done fit s₂ =>
      rw [hfit, done_andThen, map_eq_done_iff] at hrun
      obtain ⟨rest, hrest, rfl⟩ := hrun
      by_cases hfirst : fit = true ∧ w = m
      · obtain ⟨rfl, rfl⟩ := hfirst
        obtain ⟨r, s₃, hdone⟩ := exists_done_of_fits hfit
        exact ⟨[], ms, [], s, r, s₃, rfl, rfl, hdone⟩
      · have hmem : w ∈ rest := by
          split_ifs at hw with h
          · exact (List.mem_cons.mp hw).resolve_left fun heq => hfirst ⟨h, heq⟩
          · exact hw
        obtain ⟨before, after, fitted, s₀, r, s₃, rfl, hbefore, hdone⟩ := ih hrest hmem
        refine ⟨m :: before, after, if fit then m :: fitted else fitted, s₀, r, s₃, rfl, ?_, hdone⟩
        rw [fitting, hfit, done_andThen, hbefore, map]

end Trials

namespace Engine

variable {e : Engine} {ms : List TypeRef} {t u w : TypeRef} {depth : Nat}

/-- A trial of the member `w` with success, in the course of the trials of all members against the
type. -/
structure FittingTrial (e : Engine) (depth : Nat) (ms : List TypeRef) (t w : TypeRef) where
  before  : List TypeRef
  after   : List TypeRef
  members : ms = before ++ w :: after
  /-- Those before that fit. -/
  fitted  : List TypeRef
  /-- What the trials before have left. -/
  store   : Store
  earlier : fitting (unifier depth) (e.rep t) before e.store = .done fitted store
  result  : TypeRef
  /-- What the trial leads to, before its bindings are taken back. -/
  finish  : Store
  run     : unifier depth (trial (e.rep t) w store).1.1 (trial (e.rep t) w store).1.2
    (trial (e.rep t) w store).2 = .done result finish

namespace FittingTrial

/-- The store in which the unification of the trial begins. -/
def start (T : e.FittingTrial depth ms t w) : Store :=
  (trial (e.rep t) w T.store).2

/-- The copy of the type with which the trial is made. -/
def probe (T : e.FittingTrial depth ms t w) : TypeRef :=
  (trial (e.rep t) w T.store).1.2

end FittingTrial

/-! ### The commitment -/

/-- The commitment to a member follows a trial of the member. -/
theorem FittingTrial.exists_done (T : e.FittingTrial depth ms t w) (he : e.WellFormed)
    (hms : ∀ m ∈ ms, m ∈ e.graph.solid) (ht : e.Has t) (hplain : (e.graph.resolve t).Plain)
    {s : Store} (hq : e.store.Quiet s) (hs : s.graph.WellFormed) :
    ∃ r s', unifier depth (s.renew .instantiate w).1 (e.rep t) (s.renew .instantiate w).2 =
        .done r s' ∧
      (e.graph.resolve t).Restores (T.start.graph.resolve T.probe) (T.finish.graph.resolve T.probe)
        (s'.graph.resolve t) := by
  have hmem : ∀ m ∈ T.before, m ∈ ms := fun m hm => by simp [T.members, hm]
  have hw : w ∈ e.graph.solid := hms w (by simp [T.members])
  have htlt := Graph.rep_lt_size he.graph ht
  have hread := Graph.resolve_rep he.graph t
  obtain ⟨-, hq₁, hs₁⟩ := fitting_quiet (lawful_unifier depth) he.graph
    (fun m hm => (hms m (hmem m hm)).1) htlt T.earlier
  obtain ⟨c, σ, h, hinst, hprobe, htree, hinj, hrigid⟩ := Collapse.exists_holds_trial he.graph
    hq₁.graph hq.graph hs₁ hs (hq.templates.trans hq₁.templates.symm) hw htlt (hread.symm ▸ hplain)
  obtain ⟨c', r, s', hrun, hgrow, h'⟩ := reflects_unifier depth h hinst hprobe T.run
  have hprobe' := hgrow.pairs hprobe
  have hwithin := h'.within hprobe'
  refine ⟨r, s', hrun, σ, c'.image, hread ▸ htree, hread ▸ hinj, ?_, ?_, ?_⟩
  · exact (resolve_of_done he hw.1 ht hq hs hrun).symm.trans (h'.tree hprobe')
  · refine h'.injOn.mono ?_
    rintro _ ⟨p, hp, rfl⟩
    exact ⟨p, hwithin.mem hp, rfl⟩
  · intro q hq hk
    have hlive := hgrow.rigid q (hwithin.mem hq) hk
    obtain ⟨p, hp, hqp, himage⟩ := hrigid q hlive hk
    exact ⟨p, hread ▸ hp, hqp, (hgrow.image ⟨q, hlive, rfl⟩).trans himage⟩

/-- An overload set meets anything but a free variable by resolving it. -/
lemma unify_union (he : e.WellFormed) (hu : e.graph.node? (e.rep u) = some (.union ms))
    (ht : e.Has t) (hfree : e.isFree t = false) (depth : Nat) :
    e.unify (depth + 1) u t =
      e.conclude (choose (unifier depth) (e.rep u) ms (e.rep t) e.store) := by
  have hrep : unifier (depth + 1) u t e.store = unifier (depth + 1) (e.rep u) t e.store := by
    have hidem : e.store.graph.rep (e.rep u) = e.store.graph.rep u := Graph.rep_rep he.graph u
    simp only [unifier, step, hidem]
  rw [unify_eq_conclude, hrep, unifier_union he.graph hu ht hfree]
  rfl

/-- Let no free variable be reached from an overload set, and no overload set from a type that
stands for no free variable. If the trials of the members return and leave one member to commit to,
then the unification of an instance of the member with the type succeeds, and so does the
unification of the overload set with the type. The type is then read as its copy was when the trial
of the member had succeeded, up to the names of variables and with the constraints of the type in
the place of their copies. -/
theorem unify_commits (he : e.Reachable) (hu : e.graph.node? (e.rep u) = some (.union ms))
    (hsolid : ∀ x, e.graph.Reaches u x → e.graph.isFree x = false) (ht : e.Has t)
    (hfree : e.isFree t = false)
    (hplain : ∀ x, e.graph.Reaches t x → ∀ ms', e.graph.node? x ≠ some (.union ms'))
    (hbest : e.contenders depth ms t = some [w]) :
    ∃ r e', e.unify (depth + 1) u t = .done r e' ∧
      (∃ viable s s', fitting (unifier depth) (e.rep t) ms e.store = .done viable s ∧
        unifier depth (s.renew .instantiate w).1 (e.rep t) (s.renew .instantiate w).2 =
          .done r s') ∧
      Nonempty (e.FittingTrial depth ms t w) ∧
      ∀ T : e.FittingTrial depth ms t w,
        (e.graph.resolve t).Restores (T.start.graph.resolve T.probe)
          (T.finish.graph.resolve T.probe) (e'.graph.resolve t) := by
  have hwf := he.wellFormed
  have hms : ∀ m ∈ ms, m ∈ e.graph.solid := fun m hm => by
    have hstep : e.graph.Reaches u m :=
      .tail (Graph.reaches_rep hwf.graph u) ((Graph.edge_of_node? hu).mpr hm)
    exact ⟨hwf.graph.child_lt hu hm, fun y hy => hsolid y (hstep.trans hy)⟩
  have htree : (e.graph.resolve t).Plain :=
    Graph.everyUnion_resolve hwf.graph ht fun x ms' hx hn => hplain x hx ms' hn
  rw [contenders] at hbest
  split at hbest
  · next viable s hrun =>
    have hbest := Option.some.inj hbest
    obtain ⟨-, hq, hs⟩ := fitting_quiet (lawful_unifier depth) hwf.graph (fun m hm => (hms m hm).1)
      (Graph.rep_lt_size hwf.graph ht) hrun
    have hw : w ∈ viable := mostSpecific_subset s.graph viable (by simp [hbest])
    obtain ⟨before, after, fitted, s₀, r₀, s₂, hmembers, hearlier, htrial⟩ :=
      exists_trial_of_fitting hrun hw
    let T : e.FittingTrial depth ms t w :=
      ⟨before, after, hmembers, fitted, s₀, hearlier, r₀, s₂, htrial⟩
    obtain ⟨r, s', hdone, -⟩ := T.exists_done hwf hms ht htree hq hs
    have hunify : e.unify (depth + 1) u t = e.conclude (.done r s') := by
      rw [unify_union hwf hu ht hfree, choose, hrun, done_andThen, hbest]
      exact congrArg e.conclude hdone
    refine ⟨r, _, hunify, ⟨viable, s, s', hrun, hdone⟩, ⟨T⟩, fun T => ?_⟩
    obtain ⟨r₁, s₁, hdone₁, hrestores⟩ := T.exists_done hwf hms ht htree hq hs
    cases hdone.symm.trans hdone₁
    exact hrestores
  · cases hbest

/-- The engine with the terminals `Int` and `String`, the overload set of the two, a constraint `c`,
the overload set of `c -> {Int|String}` and `String -> String`, a variable `x`, a constraint `k`,
and the type `k -> x`. -/
def layered : Engine :=
  let e := ((((new {}).addTerminal "Int").2.addTerminal "String").2.addUnion [2, 3]).2
  let e := (((e.addConstraint none).2.addFunction [5] 4).2.addFunction [3] 3).2
  let e := ((e.addUnion [6, 7]).2.addVar (some "x")).2
  ((e.addConstraint (some "k")).2.addFunction [10] 9).2

lemma reachable_layered : layered.Reachable := by
  refine .next (.next (.next (.next (.next (.next (.next (.next (.next (.next (.new {})
    (.addTerminal _)) (.addTerminal _)) (.addUnion ?_)) (.addConstraint _)) (.addFunction ?_ ?_))
    (.addFunction ?_ ?_)) (.addUnion ?_)) (.addVar _)) (.addConstraint _)) (.addFunction ?_ ?_)
  all_goals decide

/-- Of the two members `c -> {Int|String}` fits the type `k -> x`, and is committed to. -/
theorem unify_commits_layered : layered.contenders 3 [6, 7] 11 = some [6] ∧
    ∃ r e', layered.unify 4 8 11 = .done r e' ∧
      Nonempty (layered.FittingTrial 3 [6, 7] 11 6) ∧
      ∀ T : layered.FittingTrial 3 [6, 7] 11 6,
        (layered.graph.resolve 11).Restores (T.start.graph.resolve T.probe)
          (T.finish.graph.resolve T.probe) (e'.graph.resolve 11) := by
  have hwf := reachable_layered.wellFormed
  have hrep : layered.rep 8 = 8 := by decide
  have hset : layered.graph.node? 8 = some (.union [6, 7]) := rfl
  have hsolid : ∀ x, layered.graph.Reaches 8 x → layered.graph.isFree x = false := by
    intro x hx
    rw [← Graph.mem_reachable_iff hwf.graph.closed (by decide)] at hx
    revert x
    decide
  have hplain : ∀ x, layered.graph.Reaches 11 x →
      ∀ ms', layered.graph.node? x ≠ some (.union ms') := by
    have hnone : ∀ x ∈ layered.graph.reachable 11,
        (layered.graph.node? x).map Node.isUnion ≠ some true := by
      decide
    intro x hx ms' hn
    rw [← Graph.mem_reachable_iff hwf.graph.closed (by decide)] at hx
    exact hnone x hx (by rw [hn]; rfl)
  have hbest : layered.contenders 3 [6, 7] 11 = some [6] := by decide +kernel
  obtain ⟨r, e', hrun, -, htrial, hrestores⟩ := unify_commits (t := 11)
    reachable_layered (hrep.symm ▸ hset) hsolid (by decide) (by decide) hplain hbest
  exact ⟨hbest, r, e', hrun, htrial, hrestores⟩

end Engine

end Unification
