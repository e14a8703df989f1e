import Unification.Proofs.Renumbering.Surroundings

/-!
# Types that read the same

A type unifies with itself at once, and with a copy of itself argument by argument. The two ways
differ where a copy shares an overload set with the original: that is resolved against itself. So
two types that read as the same tree are unified without binding anything exactly if this holds of
every overload set at which the comparison arrives, and it arrives at none in a type that has none.

An overload set need not unify with itself, if two of its members fit equally well: so the condition
cannot be left out.
-/

namespace Unification

open Outcome

/-! ### Accepted unifications -/

namespace Graph

variable {g g₁ g₂ : Graph} {a b x y u : TypeRef}

/-- The comparison of two types, argument by argument down to the places where they are one type,
arrives at this overload set. -/
inductive Confronts (g : Graph) : TypeRef → TypeRef → TypeRef → Prop where
  | here {a b : TypeRef} {ms : List TypeRef} : g.node? (g.rep a) = some (.union ms) →
      Confronts g a b (g.rep a)
  | inside {a b x y u : TypeRef} {t : TemplateRef} {xs ys : List TypeRef} : g.rep a ≠ g.rep b →
      g.node? (g.rep a) = some (.inst t xs) → g.node? (g.rep b) = some (.inst t ys) →
      (x, y) ∈ xs.zip ys → Confronts g x y u → Confronts g a b u

/-- Types that read as the same tree have the same representative, or they are instances of one
template whose arguments read the same. -/
lemma rep_eq_or_inst (hg : g.WellFormed) (ha : a < g.nodes.size) (hb : b < g.nodes.size)
    (h : g.resolve a = g.resolve b) :
    g.rep a = g.rep b ∨ ∃ t xs ys, g.node? (g.rep a) = some (.inst t xs) ∧
      g.node? (g.rep b) = some (.inst t ys) ∧ xs.map g.resolve = ys.map g.resolve := by
  have hreads := reads_rep hg ha
  have hreads' := reads_rep hg hb
  rw [← h] at hreads'
  generalize g.rep a = a', g.rep b = b', g.resolve a = tree at hreads hreads' ⊢
  cases hreads with
  | @inst t xs hn =>
    generalize heq : Tree.inst t (xs.map g.resolve) = tree at hreads'
    cases hreads' with
    | @inst t' ys hn' =>
      obtain ⟨rfl, hargs⟩ := Tree.inst.inj heq
      exact Or.inr ⟨t, xs, ys, hn, hn', hargs⟩
    | _ => cases heq
  | @union ms hn =>
    generalize heq : Tree.union a' (ms.map g.resolve) = tree at hreads'
    cases hreads' with
    | union => exact Or.inl (Tree.union.inj heq).1
    | _ => cases heq
  | terminal | flexible | rigid =>
    cases hreads'
    exact Or.inl rfl

/-- A graph whose nodes are unchanged at the start and at the end of a growth is unchanged in
between. -/
lemma Keeps.of_extends (h : g.Keeps g₂) (hstart : g.Extends g₁) (hend : g₁.Extends g₂) :
    g.Keeps g₁ := by
  intro r n hn
  obtain ⟨n', hn', hgrow⟩ := hstart hn
  cases hgrow with
  | refl => exact hn'
  | bind name b =>
    -- a binding would still be there at the end
    have hbound := hend.node? hn' rfl
    cases hbound.symm.trans (h hn)

/-- A type that represents itself and is no overload set is the same as itself at once. -/
lemma rule_self (h : ∀ ms, g.node? a ≠ some (.union ms)) : g.rule a a = .same := by
  cases hn : g.node? a with
  | none => simp [rule, hn]
  | some n =>
    cases n with
    | union ms => exact absurd hn (h ms)
    | _ => simp [rule, hn]

/-- Whether a graph is unchanged in two related graphs is the same question. -/
lemma keeps_iff_of_relates {n' : Nat} {hT : ∀ x ∈ {x | x < g.nodes.size}, x < g.nodes.size ∧ x < n'}
    (hg : g.WellFormed)
    (h : (Renumbering.shift {x | x < g.nodes.size} g.nodes.size n' hT).Relates g₁ g₂)
    (hext : g.Extends g₁) : g.Keeps g₁ ↔ g.Keeps g₂ := by
  have himage : ∀ r < g.nodes.size, g₂.node? r = (g₁.node? r).map
      (Renumbering.shift {x | x < g.nodes.size} g.nodes.size n' hT).node := by
    intro r hr
    have hnode := h.node r (Renumbering.mem_shift hr)
    rwa [Renumbering.type_shift_of_lt hr] at hnode
  constructor
  · intro hkeep r n hn
    have hchildren : ∀ c ∈ n.children, c ∈ (Renumbering.fixing {x | x < g.nodes.size}).types :=
      fun c hc => hg.child_lt hn hc
    rw [himage r (lt_size_of_node? hn), hkeep hn, Option.map_some,
      Renumbering.extends_shift.node hchildren, Renumbering.node_fixing]
  · intro hkeep r n hn
    obtain ⟨n', hn', hgrow⟩ := hext hn
    cases hgrow with
    | refl => exact hn'
    | bind name b =>
      have hbound := himage r (lt_size_of_node? hn)
      rw [hn', hkeep hn] at hbound
      simp [Renumbering.node] at hbound

end Graph

lemma Outcome.Alike.exists_done_iff {σ σ' α α' : Type} {E : TypeError → TypeError → Prop}
    {V : α → α' → Prop} {S : σ → σ' → Prop} {o : Outcome σ α} {o' : Outcome σ' α'} {P : σ → Prop}
    {P' : σ' → Prop} (h : Alike E V S o o')
    (hP : ∀ s s', o.EndsIn s → S s s' → (P s ↔ P' s')) :
    (∃ a s, o = .done a s ∧ P s) ↔ ∃ a s, o' = .done a s ∧ P' s := by
  cases h with
  | done _ hs => simp [hP _ _ (endsIn_done.mpr rfl) hs]
  | failed _ _ => simp
  | cut => simp

namespace Store

variable {g : Graph} {s s' : Store} {a b r u : TypeRef} {xs ys : List TypeRef}

/-- The store has all nodes of the graph, as they are there. -/
structure Contains (s : Store) (g : Graph) : Prop where
  wellFormed : s.graph.WellFormed
  keeps      : g.Keeps s.graph
  templates  : s.graph.templates = g.templates

/-- The unification succeeds and leaves the nodes of the graph as they are. -/
def Accepts (s : Store) (g : Graph) (a b : TypeRef) : Prop :=
  ∃ depth r s', unifier depth a b s = .done r s' ∧ g.Keeps s'.graph

lemma Contains.shares (h : s.Contains g) (hg : g.WellFormed) (trail : List TypeRef) :
    Shares {x | x < g.nodes.size} ⟨g, []⟩ ⟨s.graph, trail⟩ :=
  shares_of_keeps hg hg h.wellFormed (.refl g) h.keeps h.templates

lemma Contains.rep_eq (h : s.Contains g) (hg : g.WellFormed) (hr : r < g.nodes.size) :
    s.graph.rep r = g.rep r :=
  (h.shares hg []).relates.rep hg h.wellFormed hr

/-- A unification is accepted in one store that has the graph if it is in the graph itself. -/
lemma accepts_iff (hg : g.WellFormed) (h : s.Contains g) (ha : a < g.nodes.size)
    (hb : b < g.nodes.size) : s.Accepts g a b ↔ Accepts ⟨g, []⟩ g a b := by
  have hshares := h.shares hg []
  have haT : a ∈ {x | x < g.nodes.size} := ha
  have hbT : b ∈ {x | x < g.nodes.size} := hb
  refine exists_congr fun depth => ?_
  have hrun := Renumbering.follows_unifier hshares.separates depth (hshares.tracks rfl rfl)
    (hshares.mem_shift haT) (hshares.mem_shift hbT) ha hb
  rw [hshares.type_shift haT, hshares.type_shift hbT] at hrun
  -- first the graph alone gets its surroundings, then the trail
  have hgraph : (∃ r s₁, unifier depth a b ⟨g, []⟩ = .done r s₁ ∧ g.Keeps s₁.graph) ↔
      ∃ r s₁, unifier depth a b ⟨s.graph, []⟩ = .done r s₁ ∧ g.Keeps s₁.graph := by
    refine hrun.exists_done_iff fun s₁ s₁' hend h₁ => ?_
    obtain ⟨hadv, -⟩ := (lawful_unifier depth).advances hg ha hb hend
    exact Graph.keeps_iff_of_relates hg h₁.graph.toRelates hadv.graph
  have htrail : (∃ r s₁, unifier depth a b ⟨s.graph, []⟩ = .done r s₁ ∧ g.Keeps s₁.graph) ↔
      ∃ r s₁, unifier depth a b s = .done r s₁ ∧ g.Keeps s₁.graph := by
    refine (ignores_unifier s.trail depth a b ⟨s.graph, []⟩).exists_done_iff fun s₁ s₁' _ h₁ => ?_
    rw [h₁, graph_onto]
  exact (hgraph.trans htrail).symm

/-- Only the representatives of the two types matter. -/
lemma accepts_rep (hs : s.graph.WellFormed) :
    s.Accepts g (s.graph.rep a) (s.graph.rep b) ↔ s.Accepts g a b := by
  refine exists_congr fun depth => ?_
  cases depth with
  | zero => rfl
  | succ depth => simp only [unifier, step, Graph.rep_rep hs]

/-! ### The comparison of two types -/

lemma Contains.of_unifier {depth : Nat} (h : s.Contains g) (ha : a < g.nodes.size)
    (hb : b < g.nodes.size) (hrun : unifier depth a b s = .done r s') (hkeep : g.Keeps s'.graph) :
    s'.Contains g := by
  have hle := h.keeps.extends.size_le
  obtain ⟨hadv, hs'⟩ := (lawful_unifier depth).advances h.wellFormed (ha.trans_le hle)
    (hb.trans_le hle) (Or.inl ⟨r, hrun⟩)
  exact ⟨hs', hkeep, hadv.templates.trans h.templates⟩

/-- Where two types are one, only an overload set is looked into. -/
lemma accepts_iff_of_rep_eq (hg : g.WellFormed) (h : s.Contains g) (ha : a < g.nodes.size)
    (hb : b < g.nodes.size) (hrep : g.rep a = g.rep b) :
    s.Accepts g a b ↔ ∀ u, g.Confronts a b u → Accepts ⟨g, []⟩ g u u := by
  have ha' := Graph.rep_lt_size hg ha
  have hconfronts : ∀ u, g.Confronts a b u ↔
      u = g.rep a ∧ ∃ ms, g.node? (g.rep a) = some (.union ms) := by
    intro u
    constructor
    · intro hu
      cases hu with
      | here hn => exact ⟨rfl, _, hn⟩
      | inside hne => exact absurd hrep hne
    · rintro ⟨rfl, ms, hn⟩
      exact .here hn
  by_cases hunion : ∃ ms, g.node? (g.rep a) = some (.union ms)
  · simp only [hconfronts, hunion, and_true, forall_eq]
    rw [← accepts_rep h.wellFormed, h.rep_eq hg ha, h.rep_eq hg hb, ← hrep]
    exact accepts_iff hg h ha' ha'
  · have hrule : s.graph.rule (g.rep a) (g.rep a) = .same := by
      obtain ⟨n, hn⟩ := Graph.exists_node? ha'
      refine Graph.rule_self fun ms hms => hunion ⟨ms, ?_⟩
      rw [hn, ← h.keeps hn, hms]
    refine iff_of_true ⟨1, g.rep a, s, ?_, h.keeps⟩ fun u hu =>
      absurd ((hconfronts u).mp hu).2 hunion
    simp only [unifier, step, h.rep_eq hg ha, h.rep_eq hg hb, ← hrep, hrule]

/-- Lists of types that read the same are compared pair by pair. -/
lemma exists_unifyAll_iff (hxs : ∀ x ∈ xs, x < g.nodes.size)
    (hys : ∀ y ∈ ys, y < g.nodes.size) (heq : xs.map g.resolve = ys.map g.resolve)
    (hpair : ∀ x ∈ xs, ∀ y (s : Store), s.Contains g → y < g.nodes.size →
      g.resolve x = g.resolve y →
        (s.Accepts g x y ↔ ∀ u, g.Confronts x y u → Accepts ⟨g, []⟩ g u u)) (h : s.Contains g) :
    (∃ depth s', unifyAll (unifier depth) xs ys s = .done () s' ∧ g.Keeps s'.graph) ↔
      ∀ x y u, (x, y) ∈ xs.zip ys → g.Confronts x y u → Accepts ⟨g, []⟩ g u u := by
  induction xs generalizing ys s with
  | nil =>
    refine iff_of_true ⟨0, s, ?_, h.keeps⟩ (by simp)
    rw [unifyAll]
    simp
  | cons x xs ih =>
    cases ys with
    | nil => simp at heq
    | cons y ys =>
      obtain ⟨hx, hxs⟩ := List.forall_mem_cons.mp hxs
      obtain ⟨hy, hys⟩ := List.forall_mem_cons.mp hys
      obtain ⟨hxy, hrest⟩ := List.cons.inj heq
      obtain ⟨hfirst, hpair⟩ := List.forall_mem_cons.mp hpair
      constructor
      · rintro ⟨depth, s', hrun, hkeep⟩
        obtain ⟨r, s₁, hrun₁, hrun'⟩ := unifyAll_cons_eq_done.mp hrun
        have hle := h.keeps.extends.size_le
        obtain ⟨hadv, hs₁⟩ := (lawful_unifier depth).advances h.wellFormed (hx.trans_le hle)
          (hy.trans_le hle) (Or.inl ⟨r, hrun₁⟩)
        obtain ⟨hadv', -⟩ := (unifyAll_lawful (lawful_unifier depth) hs₁
          (fun z hz => (hxs z hz).trans_le (hle.trans hadv.size_le))
          fun z hz => (hys z hz).trans_le (hle.trans hadv.size_le)).1 s' (Or.inl ⟨(), hrun'⟩)
        have hkeep₁ := hkeep.of_extends (h.keeps.extends.trans hadv.graph) hadv'.graph
        intro x' y' u hmem hu
        rcases List.mem_cons.mp hmem with hhead | hmem
        · cases hhead
          exact (hfirst y s h hy hxy).mp ⟨depth, r, s₁, hrun₁, hkeep₁⟩ u hu
        · exact (ih hxs hys hrest hpair (h.of_unifier hx hy hrun₁ hkeep₁)).mp
            ⟨depth, s', hrun', hkeep⟩ x' y' u hmem hu
      · intro hall
        obtain ⟨d₁, r, s₁, hrun₁, hkeep₁⟩ := (hfirst y s h hy hxy).mpr fun u hu =>
          hall x y u (by simp) hu
        obtain ⟨d₂, s', hrun', hkeep⟩ := (ih hxs hys hrest hpair
          (h.of_unifier hx hy hrun₁ hkeep₁)).mpr fun x' y' u hmem hu =>
            hall x' y' u (List.mem_cons_of_mem _ hmem) hu
        have hdepth₁ := (unifier_below (le_max_left d₁ d₂) x y s).eq_of_ne_cut (by simp [hrun₁])
        have hdepth₂ := (unifyAll_below (unifier_below (le_max_right d₁ d₂)) xs ys s₁).eq_of_ne_cut
          (by simp [hrun'])
        exact ⟨max d₁ d₂, s', unifyAll_cons_eq_done.mpr
          ⟨r, s₁, hdepth₁.trans hrun₁, hdepth₂.trans hrun'⟩, hkeep⟩

/-- Types that read the same are unified without binding a variable of the graph exactly if this
holds of every overload set at which their comparison arrives. -/
theorem accepts_iff_confronts (hg : g.WellFormed) (h : s.Contains g) (ha : a < g.nodes.size)
    (hb : b < g.nodes.size) (heq : g.resolve a = g.resolve b) :
    s.Accepts g a b ↔ ∀ u, g.Confronts a b u → Accepts ⟨g, []⟩ g u u := by
  induction hn : (g.resolve a).size using Nat.strong_induction_on generalizing a b s with
  | _ n ih =>
    subst hn
    by_cases hrep : g.rep a = g.rep b
    · exact accepts_iff_of_rep_eq hg h ha hb hrep
    obtain ⟨t, xs, ys, hx, hy, hargs⟩ := (Graph.rep_eq_or_inst hg ha hb heq).resolve_left hrep
    have hrule : s.graph.rule (g.rep a) (g.rep b) = .descend xs ys := by
      simp [Graph.rule, h.keeps hx, h.keeps hy, hrep]
    have hstep : ∀ depth, unifier (depth + 1) a b s =
        (unifyAll (unifier depth) xs ys s).map fun _ => g.rep a := by
      intro depth
      simp only [unifier, step, h.rep_eq hg ha, h.rep_eq hg hb, hrule]
    have hdescend : s.Accepts g a b ↔
        ∃ depth s', unifyAll (unifier depth) xs ys s = .done () s' ∧ g.Keeps s'.graph := by
      constructor
      · rintro ⟨_ | depth, r, s', hrun, hkeep⟩
        · cases hrun
        · rw [hstep, map_eq_done_iff] at hrun
          obtain ⟨_, hrun, -⟩ := hrun
          exact ⟨depth, s', hrun, hkeep⟩
      · rintro ⟨depth, s', hrun, hkeep⟩
        exact ⟨depth + 1, g.rep a, s', by rw [hstep, hrun, map], hkeep⟩
    have hbelow : (∀ u, g.Confronts a b u → Accepts ⟨g, []⟩ g u u) ↔
        ∀ x y u, (x, y) ∈ xs.zip ys → g.Confronts x y u → Accepts ⟨g, []⟩ g u u := by
      constructor
      · exact fun hall x y u hmem hu => hall u (.inside hrep hx hy hmem hu)
      · intro hall u hu
        cases hu with
        | here hunion => cases hx.symm.trans hunion
        | inside _ hx' hy' hmem hu =>
          cases hx.symm.trans hx'
          cases hy.symm.trans hy'
          exact hall _ _ u hmem hu
    rw [hdescend, hbelow]
    refine exists_unifyAll_iff (fun x hmem => hg.child_lt hx hmem)
      (fun y hmem => hg.child_lt hy hmem) hargs ?_ h
    intro x hmem y s' h' hy' hxy
    have hsize := Graph.size_arg_lt hg hx hmem
    rw [Graph.resolve_rep hg] at hsize
    exact ih _ hsize h' (hg.child_lt hx hmem) hy' hxy rfl

end Store

/-- A comparison arrives at no overload set in a type that has none. -/
lemma Graph.Confronts.not_plain {g : Graph} {a b u : TypeRef} (hg : g.WellFormed)
    (h : g.Confronts a b u) : ¬ (g.resolve a).Plain := by
  induction h with
  | here hn =>
    rw [← Graph.resolve_rep hg]
    exact not_plain_of_union (s := ⟨g, []⟩) hg hn
  | inside _ hx _ hmem _ ih =>
    rw [← Graph.resolve_rep hg, Graph.resolve_inst hg hx]
    exact fun hplain => ih (hplain.of_mem_inst (List.mem_map_of_mem (List.of_mem_zip hmem).1))

namespace Engine

variable {e : Engine} {a b : TypeRef}

/-- The unification succeeds and leaves all types of the engine as they are. -/
def Accepts (e : Engine) (a b : TypeRef) : Prop :=
  ∃ depth r e', e.unify depth a b = .done r e' ∧ e.graph.Keeps e'.graph

lemma accepts_iff_store : e.Accepts a b ↔ e.store.Accepts e.graph a b := by
  constructor
  · rintro ⟨depth, r, e', hrun, hkeep⟩
    obtain ⟨s, hrun, hgraph⟩ := unify_eq_done hrun
    exact ⟨depth, r, s, hrun, hgraph ▸ hkeep⟩
  · rintro ⟨depth, r, s, hrun, hkeep⟩
    exact ⟨depth, r, { e with store := s.commit e.store.mark },
      by rw [unify_eq_conclude, hrun, conclude], hkeep⟩

/-- Let two types read as the same tree. They are unified without binding a variable exactly if
every overload set at which their comparison arrives is unified with itself without binding a
variable; and so always if there is no overload set in them. -/
theorem accepts_iff_confronted (he : e.Reachable) (ha : e.Has a) (hb : e.Has b)
    (heq : e.graph.resolve a = e.graph.resolve b) :
    (e.Accepts a b ↔ ∀ u, e.graph.Confronts a b u → e.Accepts u u) ∧
      ((e.graph.resolve a).Plain → e.Accepts a b) := by
  have hg := he.wellFormed.graph
  have hstore : e.store = ⟨e.graph, []⟩ := by rw [← he.wellFormed.trail]; rfl
  have hiff : e.Accepts a b ↔ ∀ u, e.graph.Confronts a b u → e.Accepts u u := by
    simp only [accepts_iff_store, hstore]
    exact Store.accepts_iff_confronts hg ⟨hg, .refl _, rfl⟩ ha hb heq
  exact ⟨hiff, fun hplain => hiff.mpr fun u hu => absurd hplain (hu.not_plain hg)⟩

/-- The engine with the terminals `A` and `B`, the overload sets of both and of `A` alone, and for
each overload set two functions from it to `A`. -/
def copies : Engine :=
  let e := (((new {}).addTerminal "A").2.addTerminal "B").2
  let e := ((e.addUnion [2, 3]).2.addUnion [2]).2
  let e := ((e.addFunction [4] 2).2.addFunction [4] 2).2
  ((e.addFunction [5] 2).2.addFunction [5] 2).2

lemma reachable_copies : copies.Reachable := by
  refine .next (.next (.next (.next (.next (.next (.next (.next (.new {}) (.addTerminal _))
    (.addTerminal _)) (.addUnion ?_)) (.addUnion ?_)) (.addFunction ?_ ?_)) (.addFunction ?_ ?_))
    (.addFunction ?_ ?_)) (.addFunction ?_ ?_)
  all_goals decide

/-- The overload set of `A` alone is unified with itself, and so the two functions from it are
unified. -/
theorem accepts_copies : copies.graph.resolve 8 = copies.graph.resolve 9 ∧ copies.Accepts 8 9 := by
  have hself : copies.Accepts 5 5 :=
    accepts_iff_store.mpr ⟨4, 2, copies.store, by decide +kernel, .refl _⟩
  have hleft : copies.graph.node? (copies.rep 8) = some (.inst functionTemplate [5, 2]) := rfl
  have hright : copies.graph.node? (copies.rep 9) = some (.inst functionTemplate [5, 2]) := rfl
  have harg : copies.graph.node? (copies.graph.rep 2) = some (.terminal "A") := rfl
  have honly : ∀ u, copies.graph.Confronts 8 9 u → u = 5 := by
    intro u hu
    cases hu with
    | here hn => cases hleft.symm.trans hn
    | inside _ hx hy hmem hu =>
      cases hleft.symm.trans hx
      cases hright.symm.trans hy
      simp only [List.zip_cons_cons, List.zip_nil_right, List.mem_cons, Prod.mk.injEq,
        List.not_mem_nil, or_false] at hmem
      obtain ⟨rfl, rfl⟩ | ⟨rfl, rfl⟩ := hmem
      · cases hu with
        | here _ => rfl
        | inside hne => exact absurd rfl hne
      · cases hu with
        | here hn => cases harg.symm.trans hn
        | inside hne => exact absurd rfl hne
  refine ⟨rfl, (accepts_iff_confronted (a := 8) (b := 9) reachable_copies (by decide) (by decide)
    rfl).1.mpr fun u hu => ?_⟩
  rw [honly u hu]
  exact hself

/-- The overload set of `A` and `B` is not unified with itself, since both members fit. So two
functions from it are not unified, although they read the same, while each is unified with itself at
once. -/
theorem not_accepts_copies :
    copies.Reachable ∧
      copies.graph.node? (copies.rep 6) = some (.inst functionTemplate [4, 2]) ∧
      copies.graph.node? (copies.rep 7) = some (.inst functionTemplate [4, 2]) ∧
      copies.graph.resolve 6 = copies.graph.resolve 7 ∧ copies.Accepts 6 6 ∧
      copies.unify 5 6 7 =
        .failed (.ambiguous "\x7bA|B\x7d" "\x7bA|B\x7d" ["A", "B"]) copies ∧
      ∀ depth r e', copies.unify depth 6 7 ≠ .done r e' := by
  have hrun : unifier 5 6 7 copies.store =
      .failed (.ambiguous "\x7bA|B\x7d" "\x7bA|B\x7d" ["A", "B"]) copies.store := by
    decide +kernel
  refine ⟨reachable_copies, rfl, rfl, rfl, ?_, ?_, ?_⟩
  · exact accepts_iff_store.mpr ⟨1, 6, copies.store, by decide +kernel, .refl _⟩
  · rw [unify_eq_conclude, hrun]
    rfl
  · intro depth r e' hdone
    obtain ⟨s, hdone, -⟩ := unify_eq_done hdone
    rcases Nat.le_total 5 depth with hle | hle
    · have heq := (unifier_below hle 6 7 copies.store).eq_of_ne_cut (by simp [hrun])
      simp [heq, hrun] at hdone
    · have heq := (unifier_below hle 6 7 copies.store).eq_of_ne_cut (by simp [hdone])
      simp [hrun, hdone] at heq

end Engine

end Unification
