import Unification.Engine.Naming
import Unification.Engine.Unify
import Unification.Proofs.Run

/-!
# Reachable engines

An engine is reachable if operations on its own types, templates and scopes lead to it from a new
engine. Every reachable engine is well formed, and its trail is empty: no unification is under way.
An operation that refuses its input leaves the engine as it was and so leads nowhere.
-/

namespace Unification

namespace Engine

variable {e e' : Engine} {r : TypeRef} {n : Node}

/-- The reference is to a type of the engine. -/
def Has (e : Engine) (r : TypeRef) : Prop :=
  r < e.graph.nodes.size

instance (e : Engine) (r : TypeRef) : Decidable (e.Has r) :=
  inferInstanceAs (Decidable (r < e.graph.nodes.size))

/-- The entry is a type or a template of the engine. -/
def HasEntry (e : Engine) : Entry → Prop
  | .type ty    => e.Has ty
  | .template t => t < e.graph.templates.size

/-- The parameters are bounded by types of the engine. -/
def HasBounds (e : Engine) : Params → Prop
  | .named _        => True
  | .bounded params => ∀ p ∈ params, e.Has p.2

/-- The reference is to a scope of the engine. -/
def HasScope (e : Engine) (scope : ScopeRef) : Prop :=
  scope < e.scopes.frames.size

/-- One operation leads from one engine to another. -/
inductive Next (e : Engine) : Engine → Prop where
  | addTerminal (name : String) : Next e (e.addTerminal name).2
  | addVar (name : Option String) : Next e (e.addVar name).2
  | addConstraint (name : Option String) : Next e (e.addConstraint name).2
  | addUnion {members : List TypeRef} : (∀ m ∈ members, e.Has m) → Next e (e.addUnion members).2
  | addFunction {args : List TypeRef} {result : TypeRef} : (∀ x ∈ args, e.Has x) → e.Has result →
      Next e (e.addFunction args result).2
  | declareTemplate {t : Template} {i : TemplateRef} {e' : Engine} : (∀ b ∈ t.bounds, e.Has b) →
      e.declareTemplate t = .ok (i, e') → Next e e'
  | applyTemplate {t : TemplateRef} {args : List TypeRef} {r : TypeRef} {e' : Engine} :
      (∀ x ∈ args, e.Has x) → e.applyTemplate t args = .ok (r, e') → Next e e'
  | renew (how : Renewal) {r : TypeRef} : e.Has r → Next e (e.renew how r).2
  | newScope : Next e e.newScope.2
  | newChild {parent : ScopeRef} : e.HasScope parent → Next e (e.newChild parent).2
  | set {scope : ScopeRef} (key : String) {entry : Entry} : e.HasScope scope → e.HasEntry entry →
      Next e (e.set scope key entry)
  | register {scope : ScopeRef} {entry bound : Entry} {e' : Engine} : e.HasScope scope →
      e.HasEntry entry → e.register scope entry = .ok (bound, e') → Next e e'
  | ensureTerminal {scope : ScopeRef} {name : String} {r : TypeRef} {e' : Engine} :
      e.HasScope scope → e.ensureTerminal scope name = .ok (r, e') → Next e e'
  | ensureTemplate {scope : ScopeRef} {name : String} {params : Params} {t : TemplateRef}
      {e' : Engine} : e.HasScope scope → e.HasBounds params →
      e.ensureTemplate scope name params = .ok (t, e') → Next e e'
  | unify {depth : Nat} {a b : TypeRef} {e' : Engine} : e.Has a → e.Has b →
      (e.unify depth a b).EndsIn e' → Next e e'
  | call {depth : Nat} {callee : TypeRef} {args : List TypeRef} {result : TypeRef} {e' : Engine} :
      e.Has callee → (∀ x ∈ args, e.Has x) → e.Has result →
      (e.call depth callee args result).EndsIn e' → Next e e'

/-- Operations lead from a new engine to this one. -/
inductive Reachable : Engine → Prop where
  | new (config : Config) : Reachable (new config)
  | next {e e' : Engine} : Reachable e → Next e e' → Reachable e'

/-- What holds of an engine between operations. -/
structure WellFormed (e : Engine) : Prop where
  graph    : e.graph.WellFormed
  trail    : e.store.trail = []
  function : ∃ d, e.graph.template? functionTemplate = some d ∧ d.arity = 2

/-! ### Making types -/

theorem wellFormed_new (config : Config) : (new config).WellFormed :=
  ⟨Graph.wellFormed_initial, rfl, _, rfl, rfl⟩

lemma WellFormed.add (he : e.WellFormed) (hc : ∀ c ∈ n.children, e.Has c)
    (hn : e.graph.Applies n) : (e.add n).2.WellFormed :=
  ⟨he.graph.add hc hn, he.trail, he.function⟩

lemma has_add (e : Engine) (n : Node) : (e.add n).2.Has (e.add n).1 := by
  have hsize : (e.add n).2.graph.nodes.size = e.graph.nodes.size + 1 := Graph.size_add e.graph n
  have hfst : (e.add n).1 = e.graph.nodes.size := rfl
  rw [Has, hsize, hfst]
  exact Nat.lt_succ_self _

lemma applies_of_not_inst (g : Graph) (h : n.isInst = false) : g.Applies n := by
  rintro t args rfl
  simp [Node.isInst] at h

/-- A function type is built from the last argument backwards, one instance at a time. -/
lemma WellFormed.addFunction (he : e.WellFormed) {args : List TypeRef} {result : TypeRef}
    (hargs : ∀ x ∈ args, e.Has x) (hresult : e.Has result) :
    (e.addFunction args result).2.WellFormed ∧
      (e.addFunction args result).2.Has (e.addFunction args result).1 ∧
      e.graph.Keeps (e.addFunction args result).2.graph := by
  induction args with
  | nil => exact ⟨he, hresult, Graph.Keeps.refl _⟩
  | cons x args ih =>
    obtain ⟨hrest, hlt, hkeep⟩ := ih fun y hy => hargs y (by simp [hy])
    have hx : (e.addFunction args result).2.Has x :=
      (hargs x (by simp)).trans_le hkeep.extends.size_le
    have hc : ∀ c ∈ (Node.inst functionTemplate [x, (e.addFunction args result).1]).children,
        (e.addFunction args result).2.Has c := by
      simp [Node.children, hx, hlt]
    refine ⟨hrest.add hc ?_, ?_, hkeep.trans (Graph.keeps_add _ _)⟩
    · rintro _ _ ⟨⟩
      simpa using hrest.function
    · exact has_add _ _

lemma WellFormed.define (he : e.WellFormed) (t : Template) : (e.define t).2.WellFormed := by
  obtain ⟨d, hd, harity⟩ := he.function
  exact ⟨he.graph.define t, he.trail, d, Graph.template?_define_of_eq_some hd, harity⟩

lemma WellFormed.addConstraints (he : e.WellFormed) (k : Nat) :
    (e.addConstraints k).2.WellFormed := by
  induction k generalizing e with
  | zero => exact he
  | succ k ih => exact ih (he.add (by simp [Node.children]) (applies_of_not_inst _ rfl))

lemma WellFormed.renew (he : e.WellFormed) (how : Renewal) (hr : e.Has r) :
    (e.renew how r).2.WellFormed := by
  refine ⟨Graph.wellFormed_renew _ he.graph hr, he.trail, ?_⟩
  obtain ⟨d, hd, harity⟩ := he.function
  have htemplates := (Graph.appends_renew how he.graph hr).templates
  exact ⟨d, by rw [← hd]; exact congrArg (·[functionTemplate]?) htemplates, harity⟩

/-! ### Unification -/

/-- A unification ends in a well-formed engine that has all its types still. -/
lemma WellFormed.unify (he : e.WellFormed) {depth : Nat} {a b : TypeRef} (ha : e.Has a)
    (hb : e.Has b) (h : (e.unify depth a b).EndsIn e') : e'.WellFormed := by
  have hmark : e.store.mark = 0 := by simp [Store.mark, he.trail]
  have hlawful := lawful_unifier depth
  -- whatever becomes of the bindings, the templates stay and the trail is emptied
  have hfinish : ∀ s : Store, s.graph.WellFormed → s.graph.templates = e.graph.templates →
      ({ e with store := s.commit e.store.mark } : Engine).WellFormed := by
    intro s hs htemplates
    obtain ⟨d, hd, harity⟩ := he.function
    refine ⟨hs, by simp [Store.commit, hmark], d, ?_, harity⟩
    rw [← hd]
    exact congrArg (·[functionTemplate]?) htemplates
  rw [Engine.unify] at h
  cases hrun : unifier depth a b e.store with
  | cut => simp [hrun, Outcome.not_endsIn_cut] at h
  | done r s =>
    obtain ⟨hadv, hs⟩ := hlawful.advances he.graph ha hb (Or.inl ⟨r, hrun⟩)
    simp only [hrun, Outcome.endsIn_done] at h
    subst h
    exact hfinish s hs hadv.templates
  | failed err s =>
    obtain ⟨hadv, hs⟩ := hlawful.advances he.graph ha hb (Or.inr ⟨err, hrun⟩)
    simp only [hrun, Outcome.endsIn_failed] at h
    subst h
    split_ifs
    · exact hfinish _ (Store.wellFormed_rewind hs _) hadv.quiet_rewind.templates
    · exact hfinish s hs hadv.templates

/-! ### All operations -/

/-- An operation keeps an engine well formed. -/
theorem WellFormed.next (he : e.WellFormed) (h : Next e e') : e'.WellFormed := by
  cases h with
  | addTerminal name | addVar name | addConstraint name =>
    exact he.add (by simp [Node.children]) (applies_of_not_inst _ rfl)
  | addUnion hmembers => exact he.add hmembers (applies_of_not_inst _ rfl)
  | addFunction hargs hresult => exact (he.addFunction hargs hresult).1
  | @declareTemplate t i e' _ h =>
    rw [declareTemplate] at h
    split_ifs at h
    cases h
    exact he.define t
  | @applyTemplate t args r e' hargs h =>
    rw [applyTemplate] at h
    split at h
    · next d hd =>
      split_ifs at h with harity
      cases h
      refine he.add hargs ?_
      rintro _ _ ⟨⟩
      exact ⟨d, hd, harity⟩
    · cases h
  | renew how hr => exact he.renew how hr
  | newScope | newChild _ | set _ _ _ => exact ⟨he.graph, he.trail, he.function⟩
  | register _ _ h =>
    rw [register] at h
    split at h
    · cases h
    · split at h
      · cases h
        exact he
      · cases h
        exact ⟨he.graph, he.trail, he.function⟩
  | @ensureTerminal scope name r e' _ h =>
    rw [ensureTerminal] at h
    split at h
    · cases h
      exact he
    · cases h
    · cases h
      have hadd : (e.addTerminal name).2.WellFormed :=
        he.add (by simp [Node.children]) (applies_of_not_inst _ rfl)
      exact ⟨hadd.graph, hadd.trail, hadd.function⟩
  | @ensureTemplate scope name params t e' _ _ h =>
    have hbounds : (e.withBounds name params).2.WellFormed := by
      cases params with
      | named names => exact he.addConstraints names.length
      | bounded params => exact he
    rw [ensureTemplate] at h
    split at h
    · cases h
      exact he
    · cases h
    · cases h
      have hdef := hbounds.define (e.withBounds name params).1
      exact ⟨hdef.graph, hdef.trail, hdef.function⟩
  | unify ha hb h => exact he.unify ha hb h
  | call hcallee hargs hresult h =>
    obtain ⟨hshape, hlt, hkeep⟩ := he.addFunction hargs hresult
    have hcallee' := hcallee.trans_le hkeep.extends.size_le
    have happ := Graph.appends_renew .instantiate hshape.graph hcallee'
    exact (hshape.renew .instantiate hcallee').unify
      (Graph.renew_lt_size _ hshape.graph hcallee') (hlt.trans_le happ.keeps.extends.size_le) h

/-- Every reachable engine is well formed. -/
theorem Reachable.wellFormed (h : e.Reachable) : e.WellFormed := by
  induction h with
  | new config => exact wellFormed_new config
  | next _ h ih => exact ih.next h

end Engine

end Unification
