import Unification.Proofs.Operation

/-!
# What an operation may change

Nodes are never taken away or replaced. The only change to a node is that a free variable gets its
binding, once and for all, and only a unification or a call does that, to variables that its own
types lead to. The other operations add nodes, templates, scopes and names.
-/

namespace Unification

open Outcome Relation

namespace Graph

variable {g : Graph} {rs : List TypeRef} {r : TypeRef}

/-- What some types lead to, with the references not yet in use. -/
def regionOf (g : Graph) (rs : List TypeRef) : Set TypeRef :=
  {x | (∃ r ∈ rs, g.Reaches r x) ∨ g.nodes.size ≤ x}

lemma isRegion_regionOf (g : Graph) (rs : List TypeRef) : g.IsRegion (g.regionOf rs) where
  edges x y hx hxy := by
    rcases hx with ⟨r, hr, hrx⟩ | hx
    · exact Or.inl ⟨r, hr, hrx.tail hxy⟩
    · exact absurd (lt_size_of_edge hxy) (Nat.not_lt_of_le hx)
  fresh _ hx := Or.inr hx

lemma mem_regionOf (hr : r ∈ rs) : r ∈ g.regionOf rs :=
  Or.inl ⟨r, hr, ReflTransGen.refl⟩

/-- Defining a template changes no node. -/
lemma keeps_define (g : Graph) (t : Template) : g.Keeps (g.define t).2 :=
  fun _ _ h => h

end Graph

namespace Engine

variable {e e' : Engine} {depth : Nat} {op : Operation} {q : Query} {T : Set TypeRef}
  {a b : TypeRef}

/-! ### Unifications and calls -/

/-- A unification of two types of a region binds variables of the region only. -/
lemma unify_confined (he : e.WellFormed) (hT : e.graph.IsRegion T) (haT : a ∈ T) (hbT : b ∈ T)
    (ha : e.Has a) (hb : e.Has b) (h : (e.unify depth a b).EndsIn e') :
    e.graph.Extends e'.graph ∧ ∀ x ∉ T, e'.graph.node? x = e.graph.node? x := by
  obtain ⟨s, hrun, hend⟩ := unify_endsIn h
  obtain ⟨hadv, -⟩ := (lawful_unifier depth).advances he.graph ha hb hrun
  have hwrites := confined_unifier depth he.graph hT haT hbT ha hb hrun
  rcases hend with rfl | rfl
  · exact ⟨hadv.graph, fun x hx => hwrites.outside hx⟩
  · -- what was taken back was free at the start
    have hquiet := hadv.quiet_rewind
    have hback := hquiet.writesIn hT (hwrites.region.clearAll _)
    exact ⟨hquiet.graph.extends, fun x hx => hback.outside hx⟩

/-- A query binds only variables that its types lead to. -/
lemma answer_confined (he : e.WellFormed) (hq : ∀ r ∈ q.types, e.Has r)
    (h : (e.answer depth q).EndsIn e') :
    e.graph.Extends e'.graph ∧
      ∀ x ∉ e.graph.regionOf q.types, x < e.graph.nodes.size →
        e'.graph.node? x = e.graph.node? x := by
  obtain ⟨hquiet, hwf, hleft, hright, hregion⟩ := sides_lawful he hq
  obtain ⟨hT, hleftT, hrightT⟩ := hregion _ (e.graph.isRegion_regionOf q.types)
    fun _ hr => Graph.mem_regionOf hr
  rw [answer_eq_unify] at h
  obtain ⟨hext, hout⟩ := unify_confined hwf hT hleftT hrightT hleft hright h
  refine ⟨hquiet.store.graph.extends.trans hext, fun x hx hlt => ?_⟩
  obtain ⟨n, hn⟩ := Graph.exists_node? hlt
  exact (hout x hx).trans ((hquiet.store.graph hn).trans hn.symm)

/-! ### Other operations -/

lemma keeps_addConstraints (e : Engine) (k : Nat) :
    e.graph.Keeps (e.addConstraints k).2.graph := by
  induction k generalizing e with
  | zero => exact Graph.Keeps.refl _
  | succ k ih =>
    have hfirst : e.graph.Keeps (e.addConstraint none).2.graph := Graph.keeps_add e.graph _
    exact hfirst.trans (ih _)

lemma keeps_withBounds (e : Engine) (name : String) (params : Params) :
    e.graph.Keeps (e.withBounds name params).2.graph := by
  cases params with
  | named names => exact keeps_addConstraints e names.length
  | bounded params => exact Graph.Keeps.refl _

/-- An operation that is not a query changes no node. -/
lemma keeps_perform (he : e.WellFormed) (hop : e.Admits op) (hask : ∀ q, op ≠ .ask q)
    (h : e.perform depth op = some e') : e.graph.Keeps e'.graph := by
  cases op with
  | ask q => exact absurd rfl (hask q)
  | addTerminal | addVar | addConstraint | addUnion =>
    cases h
    exact Graph.keeps_add e.graph _
  | addFunction args result =>
    cases h
    exact (he.addFunction hop.1 hop.2).2.2
  | renew how r =>
    cases h
    exact (Graph.appends_renew how he.graph hop).keeps
  | newScope | newChild | set =>
    cases h
    exact Graph.Keeps.refl _
  | declareTemplate t =>
    cases h
    rw [declareTemplate]
    split_ifs
    · exact Graph.keeps_define e.graph t
    · exact Graph.Keeps.refl _
  | applyTemplate t args =>
    cases h
    rw [applyTemplate]
    split
    · split_ifs
      · exact Graph.keeps_add e.graph _
      · exact Graph.Keeps.refl _
    · exact Graph.Keeps.refl _
  | register scope entry =>
    cases h
    rw [register]
    split
    · exact Graph.Keeps.refl _
    · split <;> exact Graph.Keeps.refl _
  | ensureTerminal scope name =>
    cases h
    rw [ensureTerminal]
    split
    · exact Graph.Keeps.refl _
    · exact Graph.Keeps.refl _
    · exact Graph.keeps_add e.graph _
  | ensureTemplate scope name params =>
    cases h
    rw [ensureTemplate]
    split
    · exact Graph.Keeps.refl _
    · exact Graph.Keeps.refl _
    · exact (keeps_withBounds e name params).trans (Graph.keeps_define _ _)

/-! ### All operations -/

/-- An operation only adds nodes and binds free variables. -/
lemma extends_perform (he : e.WellFormed) (hop : e.Admits op) (h : e.perform depth op = some e') :
    e.graph.Extends e'.graph := by
  by_cases hask : ∃ q, op = .ask q
  · obtain ⟨q, rfl⟩ := hask
    exact (answer_confined he hop (Outcome.state?_eq_some_iff.mp h)).1
  · exact (keeps_perform he hop (fun q hq => hask ⟨q, hq⟩) h).extends

/-- After an operation, successful or not, every node is what it was, unless it is a free variable
that a query has bound; and then one of the types of the query led to it. -/
theorem node_perform (he : e.Reachable) (hop : e.Admits op) (h : e.perform depth op = some e')
    (r : TypeRef) (n : Node) (hn : e.graph.node? r = some n) :
    e'.graph.node? r = some n ∨
      ∃ name b q, n = .var name none ∧ e'.graph.node? r = some (.var name (some b)) ∧
        op = .ask q ∧ ∃ x ∈ q.types, e.graph.Reaches x r := by
  by_cases hask : ∃ q, op = .ask q
  · obtain ⟨q, rfl⟩ := hask
    rw [perform, state?_eq_some_iff] at h
    obtain ⟨hext, hout⟩ := answer_confined he.wellFormed hop h
    have hlt := Graph.lt_size_of_node? hn
    by_cases hr : r ∈ e.graph.regionOf q.types
    · obtain ⟨n', hn', hgrow⟩ := hext hn
      cases hgrow with
      | refl => exact Or.inl hn'
      | bind name b =>
        have hreach := hr.resolve_right (Nat.not_le_of_lt hlt)
        exact Or.inr ⟨name, b, q, rfl, hn', rfl, hreach⟩
    · exact Or.inl ((hout r hr hlt).trans hn)
  · have hkeeps := keeps_perform he.wellFormed hop (fun q hq => hask ⟨q, hq⟩) h
    exact Or.inl (hkeeps hn)

/-- Unifying `Function<x, Int>` with `Function<Int, String>` fails and leaves `x` bound, to which
one of the two types leads. -/
theorem node_perform_failure :
    let e := ((((new {}).addVar (some "x")).2.addTerminal "Int").2.addTerminal "String").2
    let e := ((e.addFunction [2] 3).2.addFunction [3] 4).2
    ∃ e', e.answer 3 (.unify 5 6) = .failed (.incompatible "Int" "String") e' ∧
      e'.graph.node? 2 = some (.var (some "x") (some 3)) ∧ ∃ x ∈ [5, 6], e.graph.Reaches x 2 := by
  intro e₀ e
  have he : e.Reachable := by
    refine .next (.next (.next (.next (.next (.new {}) (.addVar _)) (.addTerminal _))
      (.addTerminal _)) (.addFunction ?_ ?_)) (.addFunction ?_ ?_)
    all_goals decide
  have hop : e.Admits (.ask (.unify 5 6)) := by
    simp only [Admits, Query.types]
    decide
  have hrun : unifier 3 5 6 e.store =
      .failed (.incompatible "Int" "String") (e.store.bind 2 3) := by decide +kernel
  let e' : Engine := { e with store := (e.store.bind 2 3).commit e.store.mark }
  have hanswer : e.answer 3 (.unify 5 6) = .failed (.incompatible "Int" "String") e' := by
    rw [answer, unify, hrun]
    rfl
  have hend : e.perform 3 (.ask (.unify 5 6)) = some e' := by rw [perform, hanswer, state?]
  have hbound : e'.graph.node? 2 = some (.var (some "x") (some 3)) := by decide
  rcases node_perform he hop hend 2 (.var (some "x") none) rfl with
    hsame | ⟨_, _, q, -, -, hq, hreach⟩
  · simp [hbound] at hsame
  · cases hq
    exact ⟨e', hanswer, hbound, hreach⟩

end Engine

end Unification
