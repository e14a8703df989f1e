import Unification.Proofs.Depth
import Unification.Proofs.Reachable
import Unification.Proofs.Region

/-!
# Operations

The operations of the engine as data, so that one can speak of all of them at once. An operation
that refuses its input leaves the engine as it was, and a unification that fails leaves what it has
done: `perform` has the engine afterwards in either case. These are the operations by which engines
are reachable: `exists_perform_iff`.

Unifications and calls are queries. A query makes the two types that it is about, which adds unbound
nodes, and then unifies them: `answer_eq_unify`.
-/

namespace Unification

open Outcome

/-- What the engine can be asked to unify. -/
inductive Query where
  /-- Two types. -/
  | unify (a b : TypeRef)
  /-- A callee, and the function type from the arguments to the result. -/
  | call (callee : TypeRef) (args : List TypeRef) (result : TypeRef)

/-- The types that a query is given. -/
def Query.types : Query → List TypeRef
  | unify a b               => [a, b]
  | call callee args result => callee :: result :: args

/-- An operation of the engine with its operands. -/
inductive Operation where
  | addTerminal (name : String)
  | addVar (name : Option String)
  | addConstraint (name : Option String)
  | addUnion (members : List TypeRef)
  | addFunction (args : List TypeRef) (result : TypeRef)
  | declareTemplate (t : Template)
  | applyTemplate (t : TemplateRef) (args : List TypeRef)
  | renew (how : Renewal) (r : TypeRef)
  | newScope
  | newChild (parent : ScopeRef)
  | set (scope : ScopeRef) (key : String) (entry : Entry)
  | register (scope : ScopeRef) (entry : Entry)
  | ensureTerminal (scope : ScopeRef) (name : String)
  | ensureTemplate (scope : ScopeRef) (name : String) (params : Params)
  | ask (q : Query)

/-- The state in which a run has ended, with success or failure. -/
def Outcome.state? {σ α : Type} : Outcome σ α → Option σ
  | done _ s   => some s
  | failed _ s => some s
  | cut        => none

lemma Outcome.state?_eq_some_iff {σ α : Type} {o : Outcome σ α} {s : σ} :
    o.state? = some s ↔ o.EndsIn s := by
  cases o <;> simp [state?, EndsIn]

namespace Engine

variable {e e' : Engine} {depth : Nat} {op : Operation} {q : Query} {T : Set TypeRef}
  {a b : TypeRef}

/-- Unifies what the query asks for, at most `depth` levels down. -/
def answer (depth : Nat) (e : Engine) : Query → Outcome Engine TypeRef
  | .unify a b               => e.unify depth a b
  | .call callee args result => e.call depth callee args result

/-- The operands are types, templates and scopes of the engine. -/
def Admits (e : Engine) : Operation → Prop
  | .addTerminal _ | .addVar _ | .addConstraint _ | .newScope => True
  | .addUnion members              => ∀ m ∈ members, e.Has m
  | .addFunction args result       => (∀ x ∈ args, e.Has x) ∧ e.Has result
  | .declareTemplate t             => ∀ b ∈ t.bounds, e.Has b
  | .applyTemplate _ args          => ∀ x ∈ args, e.Has x
  | .renew _ r                     => e.Has r
  | .newChild parent               => e.HasScope parent
  | .set scope _ entry             => e.HasScope scope ∧ e.HasEntry entry
  | .register scope entry          => e.HasScope scope ∧ e.HasEntry entry
  | .ensureTerminal scope _        => e.HasScope scope
  | .ensureTemplate scope _ params => e.HasScope scope ∧ e.HasBounds params
  | .ask q                         => ∀ r ∈ q.types, e.Has r

/-- The engine after an attempt, which is the engine before if the attempt is refused. -/
def attempt {ε α : Type} (e : Engine) : Except ε (α × Engine) → Engine
  | .ok result => result.2
  | .error _   => e

/-- The engine after an operation, successful or not; nothing if a unification is cut short. -/
def perform (depth : Nat) (e : Engine) : Operation → Option Engine
  | .addTerminal name                 => some (e.addTerminal name).2
  | .addVar name                      => some (e.addVar name).2
  | .addConstraint name               => some (e.addConstraint name).2
  | .addUnion members                 => some (e.addUnion members).2
  | .addFunction args result          => some (e.addFunction args result).2
  | .declareTemplate t                => some (e.attempt (e.declareTemplate t))
  | .applyTemplate t args             => some (e.attempt (e.applyTemplate t args))
  | .renew how r                      => some (e.renew how r).2
  | .newScope                         => some e.newScope.2
  | .newChild parent                  => some (e.newChild parent).2
  | .set scope key entry              => some (e.set scope key entry)
  | .register scope entry             => some (e.attempt (e.register scope entry))
  | .ensureTerminal scope name        => some (e.attempt (e.ensureTerminal scope name))
  | .ensureTemplate scope name params => some (e.attempt (e.ensureTemplate scope name params))
  | .ask q                            => (e.answer depth q).state?

/-- The operations lead from the first engine to the second, one after the other. -/
inductive Runs : Engine → List Operation → Engine → Prop where
  | nil {e : Engine} : Runs e [] e
  | cons {e e₁ e' : Engine} (depth : Nat) {op : Operation} {ops : List Operation} : e.Admits op →
      e.perform depth op = some e₁ → Runs e₁ ops e' → Runs e (op :: ops) e'

/-! ### Operations and reachability -/

/-- An attempt is refused or succeeds. -/
lemma attempt_cases {ε α : Type} {e : Engine} (o : Except ε (α × Engine)) :
    e.attempt o = e ∨ ∃ a, o = .ok (a, e.attempt o) := by
  cases o with
  | error err => exact Or.inl rfl
  | ok result => exact Or.inr ⟨result.1, rfl⟩

/-- An operation leaves the engine as it was or leads to a next one. -/
theorem next_of_perform (hop : e.Admits op) (h : e.perform depth op = some e') :
    e' = e ∨ Next e e' := by
  cases op with
  | ask q =>
    rw [perform, state?_eq_some_iff] at h
    cases q with
    | unify a b => exact Or.inr (.unify (hop a (by simp [Query.types]))
        (hop b (by simp [Query.types])) h)
    | call callee args result =>
      exact Or.inr (.call (hop callee (by simp [Query.types]))
        (fun x hx => hop x (by simp [Query.types, hx])) (hop result (by simp [Query.types])) h)
  | addTerminal name =>
    cases h
    exact Or.inr (.addTerminal name)
  | addVar name =>
    cases h
    exact Or.inr (.addVar name)
  | addConstraint name =>
    cases h
    exact Or.inr (.addConstraint name)
  | addUnion members =>
    cases h
    exact Or.inr (.addUnion hop)
  | addFunction args result =>
    cases h
    exact Or.inr (.addFunction hop.1 hop.2)
  | renew how r =>
    cases h
    exact Or.inr (.renew how hop)
  | newScope =>
    cases h
    exact Or.inr .newScope
  | newChild parent =>
    cases h
    exact Or.inr (.newChild hop)
  | set scope key entry =>
    cases h
    exact Or.inr (.set key hop.1 hop.2)
  | declareTemplate t =>
    cases h
    exact (attempt_cases _).imp_right fun ⟨_, hok⟩ => .declareTemplate hop hok
  | applyTemplate t args =>
    cases h
    exact (attempt_cases _).imp_right fun ⟨_, hok⟩ => .applyTemplate hop hok
  | register scope entry =>
    cases h
    exact (attempt_cases _).imp_right fun ⟨_, hok⟩ => .register hop.1 hop.2 hok
  | ensureTerminal scope name =>
    cases h
    exact (attempt_cases _).imp_right fun ⟨_, hok⟩ => .ensureTerminal hop hok
  | ensureTemplate scope name params =>
    cases h
    exact (attempt_cases _).imp_right fun ⟨_, hok⟩ => .ensureTemplate hop.1 hop.2 hok

/-- Every next engine is led to by an operation. -/
theorem exists_perform_of_next (h : Next e e') :
    ∃ depth op, e.Admits op ∧ e.perform depth op = some e' := by
  cases h with
  | addTerminal name => exact ⟨0, .addTerminal name, trivial, rfl⟩
  | addVar name => exact ⟨0, .addVar name, trivial, rfl⟩
  | addConstraint name => exact ⟨0, .addConstraint name, trivial, rfl⟩
  | addUnion hmembers => exact ⟨0, .addUnion _, hmembers, rfl⟩
  | addFunction hargs hresult => exact ⟨0, .addFunction _ _, ⟨hargs, hresult⟩, rfl⟩
  | declareTemplate hbounds hok =>
    exact ⟨0, .declareTemplate _, hbounds, by rw [perform, hok, attempt]⟩
  | applyTemplate hargs hok =>
    exact ⟨0, .applyTemplate _ _, hargs, by rw [perform, hok, attempt]⟩
  | renew how hr => exact ⟨0, .renew how _, hr, rfl⟩
  | newScope => exact ⟨0, .newScope, trivial, rfl⟩
  | newChild hparent => exact ⟨0, .newChild _, hparent, rfl⟩
  | set key hscope hentry => exact ⟨0, .set _ key _, ⟨hscope, hentry⟩, rfl⟩
  | register hscope hentry hok =>
    exact ⟨0, .register _ _, ⟨hscope, hentry⟩, by rw [perform, hok, attempt]⟩
  | ensureTerminal hscope hok =>
    exact ⟨0, .ensureTerminal _ _, hscope, by rw [perform, hok, attempt]⟩
  | ensureTemplate hscope hbounds hok =>
    exact ⟨0, .ensureTemplate _ _ _, ⟨hscope, hbounds⟩, by rw [perform, hok, attempt]⟩
  | @unify depth a b _ ha hb h =>
    exact ⟨depth, .ask (.unify a b), by simp [Admits, Query.types, ha, hb],
      state?_eq_some_iff.mpr h⟩
  | @call depth callee args result _ hcallee hargs hresult h =>
    refine ⟨depth, .ask (.call callee args result), ?_, state?_eq_some_iff.mpr h⟩
    simpa [Admits, Query.types, hcallee, hresult] using hargs

/-- The operations lead exactly to the next engines, apart from leaving an engine as it is. -/
theorem exists_perform_iff :
    (∃ depth op, e.Admits op ∧ e.perform depth op = some e') ↔ e' = e ∨ Next e e' := by
  constructor
  · rintro ⟨depth, op, hop, h⟩
    exact next_of_perform hop h
  · rintro (rfl | h)
    · -- a template without a bound for its parameter is refused
      exact ⟨0, .declareTemplate ⟨"", [""], []⟩, by simp [Admits], rfl⟩
    · exact exists_perform_of_next h

/-! ### Queries -/

/-- The second engine has more nodes, which are unbound, and is otherwise the first. -/
structure Quiet (e e' : Engine) : Prop where
  store  : e.store.Quiet e'.store
  scopes : e'.scopes = e.scopes
  config : e'.config = e.config

lemma Quiet.refl (e : Engine) : e.Quiet e :=
  ⟨Store.Quiet.refl _, rfl, rfl⟩

lemma Quiet.trans {e'' : Engine} (h : e.Quiet e') (h' : e'.Quiet e'') : e.Quiet e'' :=
  ⟨h.store.trans h'.store, h'.scopes.trans h.scopes, h'.config.trans h.config⟩

lemma Quiet.has (h : e.Quiet e') {r : TypeRef} (hr : e.Has r) : e'.Has r :=
  hr.trans_le h.store.size_le

lemma quiet_add {n : Node} (hc : ∀ c ∈ n.children, e.Has c) (hb : n.binding? = none) :
    e.Quiet (e.add n).2 :=
  ⟨Store.quiet_add hc hb, rfl, rfl⟩

lemma quiet_renew (he : e.WellFormed) (how : Renewal) {r : TypeRef} (hr : e.Has r) :
    e.Quiet (e.renew how r).2 :=
  ⟨Store.quiet_renew how he.graph hr, rfl, rfl⟩

/-- Making a function type adds unbound nodes, which stay in a region of its parts. -/
lemma quiet_addFunction (he : e.WellFormed) {args : List TypeRef} {result : TypeRef}
    (hargs : ∀ x ∈ args, e.Has x) (hresult : e.Has result) :
    e.Quiet (e.addFunction args result).2 ∧
      ∀ T, e.graph.IsRegion T → (∀ x ∈ args, x ∈ T) → result ∈ T →
        (e.addFunction args result).1 ∈ T ∧ (e.addFunction args result).2.graph.IsRegion T := by
  induction args with
  | nil => exact ⟨Quiet.refl e, fun T hT _ hr => ⟨hr, hT⟩⟩
  | cons x args ih =>
    have hargs' : ∀ y ∈ args, e.Has y := fun y hy => hargs y (by simp [hy])
    obtain ⟨hq, hregion⟩ := ih hargs'
    have hout := (he.addFunction hargs' hresult).2.1
    have hc : ∀ c ∈ (Node.inst functionTemplate [x, (e.addFunction args result).1]).children,
        (e.addFunction args result).2.Has c := by
      simp [Node.children, hq.has (hargs x (by simp)), hout]
    refine ⟨hq.trans (quiet_add hc rfl), fun T hT hx hr => ?_⟩
    obtain ⟨hmem, hT'⟩ := hregion T hT (fun y hy => hx y (by simp [hy])) hr
    have hcT : ∀ c ∈ [x, (e.addFunction args result).1], c ∈ T := by
      simp [hx x (by simp), hmem]
    exact ⟨hT'.fresh le_rfl, hT'.add hcT⟩

/-- The two types that a query unifies, with the engine that has them. -/
def sides (e : Engine) : Query → (TypeRef × TypeRef) × Engine
  | .unify a b               => ((a, b), e)
  | .call callee args result =>
    let shape := e.addFunction args result
    let inst := shape.2.renew .instantiate callee
    ((inst.1, shape.1), inst.2)

/-- A query is answered by unifying its two sides. -/
theorem answer_eq_unify (e : Engine) (q : Query) (depth : Nat) :
    e.answer depth q = (e.sides q).2.unify depth (e.sides q).1.1 (e.sides q).1.2 := by
  cases q <;> rfl

/-- Making the two sides of a query adds unbound nodes, which stay in a region of its types. -/
theorem sides_lawful (he : e.WellFormed) (hq : ∀ r ∈ q.types, e.Has r) :
    e.Quiet (e.sides q).2 ∧ (e.sides q).2.WellFormed ∧
      (e.sides q).2.Has (e.sides q).1.1 ∧ (e.sides q).2.Has (e.sides q).1.2 ∧
      ∀ T, e.graph.IsRegion T → (∀ r ∈ q.types, r ∈ T) →
        (e.sides q).2.graph.IsRegion T ∧ (e.sides q).1.1 ∈ T ∧ (e.sides q).1.2 ∈ T := by
  cases q with
  | unify a b =>
    have ha : e.Has a := hq a (by simp [Query.types])
    have hb : e.Has b := hq b (by simp [Query.types])
    exact ⟨Quiet.refl e, he, ha, hb, fun T hT hmem =>
      ⟨hT, hmem a (by simp [Query.types]), hmem b (by simp [Query.types])⟩⟩
  | call callee args result =>
    have hcallee : e.Has callee := hq callee (by simp [Query.types])
    have hargs : ∀ x ∈ args, e.Has x := fun x hx => hq x (by simp [Query.types, hx])
    have hresult : e.Has result := hq result (by simp [Query.types])
    obtain ⟨hshape, hlt, -⟩ := he.addFunction hargs hresult
    obtain ⟨hquiet, hregion⟩ := quiet_addFunction he hargs hresult
    have hquiet' := quiet_renew hshape .instantiate (hquiet.has hcallee)
    refine ⟨hquiet.trans hquiet', hshape.renew .instantiate (hquiet.has hcallee),
      Graph.renew_lt_size .instantiate hshape.graph (hquiet.has hcallee), hquiet'.has hlt, ?_⟩
    intro T hT hmem
    obtain ⟨hshapeT, hT₁⟩ := hregion T hT (fun x hx => hmem x (by simp [Query.types, hx]))
      (hmem result (by simp [Query.types]))
    obtain ⟨hinstT, hT₂⟩ := hT₁.renew hshape.graph .instantiate
      (hmem callee (by simp [Query.types]))
    exact ⟨hT₂, hinstT, hshapeT⟩

/-- A unification ends in the store that its run has left, which is taken back to the start if it
fails and the settings ask for that. -/
lemma unify_endsIn (h : (e.unify depth a b).EndsIn e') :
    ∃ s, (unifier depth a b e.store).EndsIn s ∧
      (e' = { e with store := s.commit e.store.mark } ∨
        e' = { e with store := (s.rewind e.store.mark).commit e.store.mark }) := by
  rw [unify] at h
  cases hrun : unifier depth a b e.store with
  | cut => simp [hrun, not_endsIn_cut] at h
  | done r s =>
    simp only [hrun, endsIn_done] at h
    exact ⟨s, endsIn_done.mpr rfl, Or.inl h⟩
  | failed err s =>
    simp only [hrun, endsIn_failed] at h
    refine ⟨s, endsIn_failed.mpr rfl, ?_⟩
    split_ifs at h
    · exact Or.inr h
    · exact Or.inl h

end Engine

end Unification
