import Unification.Proofs.Reachable

/-!
# Points of a run

A run of the unifier passes through many stores: while arguments are unified, while nodes are added
for a trial, inside trials and while they are taken back, and before a chosen member is unified.
`Passes` has them all, also those of a run that is cut short. Each of them is well formed and an
advance on the store in which the run began.
-/

namespace Unification

open Outcome

/-! ### Stores between two stores -/

namespace Graph

variable {g g' : Graph} {k r : Nat}

/-- The graph when it had only its first `k` nodes. -/
def upTo (g : Graph) (k : Nat) : Graph :=
  { g with nodes := g.nodes.take k }

lemma node?_upTo : (g.upTo k).node? r = if r < k then g.node? r else none := by
  by_cases hr : r < g.nodes.size <;> simp [upTo, node?, Array.getElem?_extract, hr]

lemma edge_upTo {x y : TypeRef} : (g.upTo k).Edge x y ↔ x < k ∧ g.Edge x y := by
  rw [edge_iff, edge_iff, node?_upTo]
  split_ifs with h <;> simp [h]

/-- While nodes that point backward are added, the graph is well formed at every moment. -/
lemma Appends.upTo (h : g.Appends g') (hg' : g'.WellFormed) (hg : g.WellFormed)
    (hk : g.nodes.size ≤ k) : g.Appends (g'.upTo k) ∧ (g'.upTo k).WellFormed := by
  have hsize : (g'.upTo k).nodes.size = min k g'.nodes.size := by simp [Graph.upTo]
  refine ⟨⟨?_, h.templates, ?_, ?_⟩, ⟨?_, ?_, ?_⟩⟩
  · intro r n hn
    rw [node?_upTo, if_pos ((lt_size_of_node? hn).trans_le hk)]
    exact h.keeps hn
  · intro v hv
    rw [binding?, node?_upTo]
    split_ifs
    · exact h.unbound v hv
    · rfl
  · intro x y hx hxy
    exact h.backward hx (edge_upTo.mp hxy).2
  · intro x y hxy
    obtain ⟨hxk, hxy⟩ := edge_upTo.mp hxy
    rw [hsize, lt_min_iff]
    refine ⟨?_, hg'.closed hxy⟩
    by_cases hx : x < g.nodes.size
    · -- an old node points to old nodes
      obtain ⟨n, hn⟩ := exists_node? hx
      have hold : g.Edge x y := (edge_of_node? hn).mpr ((edge_of_node? (h.keeps hn)).mp hxy)
      exact (hg.closed hold).trans_le hk
    · exact (h.backward (Nat.le_of_not_lt hx) hxy).trans hxk
  · exact acyclic_of_rank g'.height fun x y hxy =>
      height_lt_of_edge hg'.closed hg'.acyclic (edge_upTo.mp hxy).2
  · intro r n hn
    rw [node?_upTo] at hn
    split_ifs at hn
    exact hg'.applies hn

end Graph

namespace Store

variable {s s' : Store} {k : Nat}

/-- The store when its graph had only its first `k` nodes. -/
def upTo (s : Store) (k : Nat) : Store :=
  { s with graph := s.graph.upTo k }

/-- While a type is renewed, the store is quiet and well formed at every moment. -/
lemma quiet_renew_upTo (how : Renewal) {r : TypeRef} (hs : s.graph.WellFormed)
    (hr : r < s.graph.nodes.size) (hk : s.graph.nodes.size ≤ k) :
    s.Quiet ((s.renew how r).2.upTo k) ∧ ((s.renew how r).2.upTo k).graph.WellFormed := by
  obtain ⟨happ, hwf⟩ := (Graph.appends_renew how hs hr).upTo
    (Graph.wellFormed_renew _ hs hr) hs hk
  exact ⟨quiet_of_appends happ, hwf⟩

/-- Going back only part of the way leaves an advance. -/
lemma Advances.rewind (h : s.Advances s') (hk : s.mark ≤ k) : s.Advances (s'.rewind k) := by
  obtain ⟨new, htrail, hnodup, hnew⟩ := h.trail
  -- the newest bindings are taken back, the others stay
  obtain ⟨i, hsince, hleft⟩ : ∃ i, s'.boundSince k = new.take i ∧
      (s'.rewind k).trail = new.drop i ++ s.trail := by
    refine ⟨s'.trail.length - k, ?_, ?_⟩ <;>
      simp only [boundSince, Store.rewind, htrail, List.length_append] <;>
      simp only [mark] at hk
    · rw [List.take_append_of_le_length (by omega)]
    · rw [List.drop_append_of_le_length (by omega)]
  have hdisj : ∀ v, v ∈ new.drop i → v ∉ new.take i := by
    intro v hv hv'
    have := List.nodup_append.mp (List.take_append_drop i new ▸ hnodup)
    exact this.2.2 v hv' v hv rfl
  have hbinding : ∀ v, (s'.rewind k).graph.binding? v =
      if v ∈ new.take i then none else s'.graph.binding? v := by
    intro v
    rw [graph_rewind, hsince, Graph.binding?, Graph.node?_clearAll]
    split_ifs
    · cases s'.graph.node? v with
      | none => rfl
      | some n => cases n <;> rfl
    · rfl
  refine ⟨?_, ?_, new.drop i, hleft, hnodup.sublist (List.drop_sublist i new), ?_⟩
  · intro r n hn
    obtain ⟨n', hn', hgrow⟩ := h.graph hn
    rw [graph_rewind, hsince, Graph.node?_clearAll, hn']
    split_ifs with hmem
    · refine ⟨_, rfl, ?_⟩
      cases hgrow with
      | refl =>
        obtain ⟨hnone, hsome⟩ := (hnew r).mp (List.mem_of_mem_take hmem)
        simp [Graph.binding?, hn, hn'] at hnone hsome
        simp [hnone] at hsome
      | bind name b => exact .refl _
    · exact ⟨n', rfl, hgrow⟩
  · rw [graph_rewind, Graph.templates_clearAll, h.templates]
  · intro v
    rw [hbinding]
    constructor
    · intro hv
      obtain ⟨hnone, hsome⟩ := (hnew v).mp (List.mem_of_mem_drop hv)
      rw [if_neg (hdisj v hv)]
      exact ⟨hnone, hsome⟩
    · rintro ⟨hnone, hsome⟩
      split_ifs at hsome with hmem
      · simp at hsome
      · have hv := (hnew v).mpr ⟨hnone, hsome⟩
        rw [← List.take_append_drop i new, List.mem_append] at hv
        exact hv.resolve_left hmem

end Store

/-! ### Points of a run -/

/-- The first step on `a` and `b` comes to unify the arguments `x` and `y`, in the store that the
arguments before them have left. -/
def Compares (depth : Nat) (a b : TypeRef) (s : Store) (x y : TypeRef) (s₁ : Store) : Prop :=
  ∃ xs ys i, s.graph.rule (s.graph.rep a) (s.graph.rep b) = .descend xs ys ∧
    xs[i]? = some x ∧ ys[i]? = some y ∧
    unifyAll (unifier depth) (xs.take i) (ys.take i) s = .done () s₁

/-- The first step on `a` and `b` comes to try the member `m` against `target`, in the store that
the trials before have left. -/
def Tries (depth : Nat) (a b : TypeRef) (s : Store) (m target : TypeRef) (s₁ : Store) : Prop :=
  ∃ u ms i viable, s.graph.rule (s.graph.rep a) (s.graph.rep b) = .choose u ms target ∧
    ms[i]? = some m ∧ fitting (unifier depth) target (ms.take i) s = .done viable s₁

/-- The first step on `a` and `b` chooses the member `w` for `target`, in the store that the trials
have left. -/
def Settles (depth : Nat) (a b : TypeRef) (s : Store) (w target : TypeRef) (s₁ : Store) : Prop :=
  ∃ u ms viable, s.graph.rule (s.graph.rep a) (s.graph.rep b) = .choose u ms target ∧
    fitting (unifier depth) target ms s = .done viable s₁ ∧ s₁.graph.mostSpecific viable = [w]

/-- The run of `unifier depth a b` from a store passes through another store. -/
inductive Passes : Nat → TypeRef → TypeRef → Store → Store → Prop where
  /-- A run passes through the store in which it begins. -/
  | start {depth a b s} : Passes depth a b s s
  /-- A run passes through the store in which it ends. -/
  | finish {depth a b s s'} : (unifier depth a b s).EndsIn s' → Passes depth a b s s'
  /-- Two arguments are unified. -/
  | comparing {depth a b s x y s₁ s'} : Compares depth a b s x y s₁ → Passes depth x y s₁ s' →
      Passes (depth + 1) a b s s'
  /-- A member is instantiated for its trial, node by node. -/
  | instantiating {depth a b s m target s₁ k} : Tries depth a b s m target s₁ →
      s₁.graph.nodes.size ≤ k → Passes (depth + 1) a b s ((s₁.renew .instantiate m).2.upTo k)
  /-- The target is copied for the trial, node by node. -/
  | copying {depth a b s m target s₁ k} : Tries depth a b s m target s₁ →
      (s₁.renew .instantiate m).2.graph.nodes.size ≤ k →
      Passes (depth + 1) a b s (((s₁.renew .instantiate m).2.renew .copy target).2.upTo k)
  /-- The instance and the copy are unified. -/
  | trying {depth a b s m target s₁ s'} : Tries depth a b s m target s₁ →
      Passes depth (trial target m s₁).1.1 (trial target m s₁).1.2 (trial target m s₁).2 s' →
      Passes (depth + 1) a b s s'
  /-- The bindings of the trial are taken back, one by one. -/
  | rewinding {depth a b s m target s₁ s₂ k} : Tries depth a b s m target s₁ →
      (unifier depth (trial target m s₁).1.1 (trial target m s₁).1.2 (trial target m s₁).2).EndsIn
        s₂ → s₁.mark ≤ k → Passes (depth + 1) a b s (s₂.rewind k)
  /-- The chosen member is instantiated, node by node. -/
  | settling {depth a b s w target s₁ k} : Settles depth a b s w target s₁ →
      s₁.graph.nodes.size ≤ k → Passes (depth + 1) a b s ((s₁.renew .instantiate w).2.upTo k)
  /-- The chosen member is unified with the target. -/
  | committing {depth a b s w target s₁ s'} : Settles depth a b s w target s₁ →
      Passes depth (s₁.renew .instantiate w).1 target (s₁.renew .instantiate w).2 s' →
      Passes (depth + 1) a b s s'

variable {depth : Nat} {a b m target u w x y : TypeRef} {s s₁ s' : Store}

/-- Arguments are unified in a well-formed store that has them. -/
lemma Compares.lawful (h : Compares depth a b s x y s₁) (hs : s.graph.WellFormed) :
    s.Advances s₁ ∧ s₁.graph.WellFormed ∧ x < s₁.graph.nodes.size ∧ y < s₁.graph.nodes.size := by
  obtain ⟨xs, ys, i, hrule, hx, hy, hrun⟩ := h
  have hmeets := s.graph.rule_meets (s.graph.rep a) (s.graph.rep b)
  rw [hrule] at hmeets
  cases hmeets with
  | descend ha hb =>
    have hxs : ∀ z ∈ xs, z < s.graph.nodes.size := fun z hz => hs.child_lt ha hz
    have hys : ∀ z ∈ ys, z < s.graph.nodes.size := fun z hz => hs.child_lt hb hz
    obtain ⟨hadv, hs₁⟩ := (unifyAll_lawful (lawful_unifier depth) hs
      (fun z hz => hxs z (List.mem_of_mem_take hz))
      fun z hz => hys z (List.mem_of_mem_take hz)).1 s₁ (Or.inl ⟨(), hrun⟩)
    exact ⟨hadv, hs₁, (hxs x (List.mem_of_getElem? hx)).trans_le hadv.size_le,
      (hys y (List.mem_of_getElem? hy)).trans_le hadv.size_le⟩

/-- The members and the target that meet in an overload resolution are in the store. -/
lemma choose_lt_size {ms : List TypeRef} (hs : s.graph.WellFormed) (ha : a < s.graph.nodes.size)
    (hb : b < s.graph.nodes.size)
    (hrule : s.graph.rule (s.graph.rep a) (s.graph.rep b) = .choose u ms target) :
    (∀ m ∈ ms, m < s.graph.nodes.size) ∧ target < s.graph.nodes.size := by
  have hmeets := s.graph.rule_meets (s.graph.rep a) (s.graph.rep b)
  rw [hrule] at hmeets
  cases hmeets with
  | chooseLeft hn => exact ⟨fun m hm => hs.child_lt hn hm, Graph.rep_lt_size hs hb⟩
  | chooseRight hn => exact ⟨fun m hm => hs.child_lt hn hm, Graph.rep_lt_size hs ha⟩

/-- A member is tried in a well-formed store that has it and the target. -/
lemma Tries.lawful (h : Tries depth a b s m target s₁) (hs : s.graph.WellFormed)
    (ha : a < s.graph.nodes.size) (hb : b < s.graph.nodes.size) :
    s.Quiet s₁ ∧ s₁.graph.WellFormed ∧ m < s₁.graph.nodes.size ∧
      target < s₁.graph.nodes.size := by
  obtain ⟨u, ms, i, viable, hrule, hm, hrun⟩ := h
  obtain ⟨hms, ht⟩ := choose_lt_size hs ha hb hrule
  obtain ⟨-, hq, hs₁⟩ := fitting_quiet (lawful_unifier depth) hs
    (fun z hz => hms z (List.mem_of_mem_take hz)) ht hrun
  exact ⟨hq, hs₁, (hms m (List.mem_of_getElem? hm)).trans_le hq.size_le, ht.trans_le hq.size_le⟩

/-- A member is chosen in a well-formed store that has it and the target. -/
lemma Settles.lawful (h : Settles depth a b s w target s₁) (hs : s.graph.WellFormed)
    (ha : a < s.graph.nodes.size) (hb : b < s.graph.nodes.size) :
    s.Quiet s₁ ∧ s₁.graph.WellFormed ∧ w < s₁.graph.nodes.size ∧
      target < s₁.graph.nodes.size := by
  obtain ⟨u, ms, viable, hrule, hrun, hw⟩ := h
  obtain ⟨hms, ht⟩ := choose_lt_size hs ha hb hrule
  obtain ⟨hsub, hq, hs₁⟩ := fitting_quiet (lawful_unifier depth) hs hms ht hrun
  have hwms : w ∈ ms := hsub (mostSpecific_subset s₁.graph viable (by simp [hw]))
  exact ⟨hq, hs₁, (hms w hwms).trans_le hq.size_le, ht.trans_le hq.size_le⟩

/-- Every store that a run passes through is well formed, and an advance on the store in which the
run began. -/
theorem Passes.lawful (h : Passes depth a b s s') (hs : s.graph.WellFormed)
    (ha : a < s.graph.nodes.size) (hb : b < s.graph.nodes.size) :
    s.Advances s' ∧ s'.graph.WellFormed := by
  induction h with
  | start => exact ⟨Store.Advances.refl _, hs⟩
  | finish hends => exact (lawful_unifier _).advances hs ha hb hends
  | comparing hcmp _ ih =>
    obtain ⟨hadv, hs₁, hx, hy⟩ := hcmp.lawful hs
    obtain ⟨hadv', hs'⟩ := ih hs₁ hx hy
    exact ⟨hadv.trans hadv', hs'⟩
  | instantiating htry hk =>
    obtain ⟨hq, hs₁, hm, -⟩ := htry.lawful hs ha hb
    obtain ⟨hq', hs'⟩ := Store.quiet_renew_upTo .instantiate hs₁ hm hk
    exact ⟨(hq.trans hq').advances, hs'⟩
  | copying htry hk =>
    obtain ⟨hq, hs₁, hm, ht⟩ := htry.lawful hs ha hb
    have hq₁ := Store.quiet_renew .instantiate hs₁ hm
    obtain ⟨hq', hs'⟩ := Store.quiet_renew_upTo .copy
      (Graph.wellFormed_renew _ hs₁ hm) (ht.trans_le hq₁.size_le) hk
    exact ⟨((hq.trans hq₁).trans hq').advances, hs'⟩
  | trying htry _ ih =>
    obtain ⟨hq, hs₁, hm, ht⟩ := htry.lawful hs ha hb
    obtain ⟨hq', hs₂, hi, hp⟩ := trial_lawful hs₁ hm ht
    obtain ⟨hadv, hs'⟩ := ih hs₂ hi hp
    exact ⟨(hq.trans hq').advances.trans hadv, hs'⟩
  | rewinding htry hends hk =>
    obtain ⟨hq, hs₁, hm, ht⟩ := htry.lawful hs ha hb
    obtain ⟨hq', hs₂, hi, hp⟩ := trial_lawful hs₁ hm ht
    obtain ⟨hadv, hs'⟩ := (lawful_unifier _).advances hs₂ hi hp hends
    exact ⟨hq.advances.trans ((hq'.advances.trans hadv).rewind hk),
      Store.wellFormed_rewind hs' _⟩
  | settling hset hk =>
    obtain ⟨hq, hs₁, hw, -⟩ := hset.lawful hs ha hb
    obtain ⟨hq', hs'⟩ := Store.quiet_renew_upTo .instantiate hs₁ hw hk
    exact ⟨(hq.trans hq').advances, hs'⟩
  | committing hset _ ih =>
    obtain ⟨hq, hs₁, hw, ht⟩ := hset.lawful hs ha hb
    have hq' := Store.quiet_renew .instantiate hs₁ hw
    obtain ⟨hadv, hs'⟩ := ih (Graph.wellFormed_renew _ hs₁ hw) (Graph.renew_lt_size _ hs₁ hw)
      (ht.trans_le hq'.size_le)
    exact ⟨(hq.trans hq').advances.trans hadv, hs'⟩

end Unification
