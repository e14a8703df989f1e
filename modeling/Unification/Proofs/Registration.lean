import Unification.Proofs.Integrity

/-!
# Registration

Three operations register something in a scope: a type or a template under its own name, the
terminal of a name, and the template of a name. They differ in where the name comes from, in what
they accept under it and in what they make, and agree otherwise: a name that the scope binds keeps
its binding and nothing is made, and a new name is bound once everything is checked
(`Engine.records_perform`).

No other operation but setting a name writes a binding (`Engine.rescopes_perform`), so the first
binding of a name stays through every run that does not set it: `Engine.registration_firstWins`.
-/

namespace Unification

/-! ### What is registered -/

/-- Whether an entry is a type or a template. -/
def Entry.kind : Entry → Entry.Kind
  | type _     => .type
  | template _ => .template

/-- The operation is one of those that can bind a name. -/
def Operation.names : Operation → Bool
  | .set .. | .register .. | .ensureTerminal .. | .ensureTemplate .. => true
  | _ => false

/-- What can be registered in a scope. -/
inductive Registration where
  /-- A type or a template, under its own name. -/
  | entry (entry : Entry)
  /-- The terminal of a name. -/
  | terminal (name : String)
  /-- The template of a name. -/
  | template (name : String) (params : Params)

namespace Registration

/-- The operation that registers it. -/
def operation (scope : ScopeRef) : Registration → Operation
  | entry x              => .register scope x
  | terminal name        => .ensureTerminal scope name
  | template name params => .ensureTemplate scope name params

/-- What the operation returns: the entry that the name is bound to. -/
def answer (e : Engine) (scope : ScopeRef) : Registration → Except ScopeError Entry
  | entry x              => (e.register scope x).map Prod.fst
  | terminal name        => (e.ensureTerminal scope name).map fun made => .type made.1
  | template name params => (e.ensureTemplate scope name params).map fun made => .template made.1

/-- The name that it is registered under. -/
def name (e : Engine) : Registration → Except ScopeError String
  | entry x         => e.nameOf x
  | terminal name   => .ok name
  | template name _ => .ok name

/-- The kind of entry that has to stand under the name, if it matters. -/
def kind? : Registration → Option Entry.Kind
  | entry _      => none
  | terminal _   => some .type
  | template _ _ => some .template

/-- The nodes that come with a new name: the terminal, or an anonymous constraint for each parameter
that is given without a bound. -/
def nodes : Registration → List Node
  | entry _                   => []
  | terminal name             => [.terminal name]
  | template _ (.named names) => List.replicate names.length (.constraint none)
  | template _ (.bounded _)   => []

/-- The templates that come with a new name. -/
def templates (e : Engine) : Registration → List Template
  | entry _                         => []
  | terminal _                      => []
  | template name (.named names)    =>
    [⟨name, names, List.range' e.graph.nodes.size names.length⟩]
  | template name (.bounded params) => [⟨name, params.map Prod.fst, params.map Prod.snd⟩]

/-- What a new name is bound to. -/
def binding (e : Engine) : Registration → Entry
  | entry x      => x
  | terminal _   => .type e.graph.nodes.size
  | template _ _ => .template e.graph.templates.size

lemma names_operation (f : ScopeRef) (x : Registration) : (x.operation f).names = true := by
  cases x <;> rfl

lemma operation_inj {f f' : ScopeRef} {x x' : Registration} :
    x.operation f = x'.operation f' ↔ f = f' ∧ x = x' := by
  cases x <;> cases x' <;> simp [operation]

lemma operation_ne_set {f f' : ScopeRef} {key : String} {entry : Entry} (x : Registration) :
    x.operation f ≠ .set f' key entry := by
  cases x <;> simp [operation]

end Registration

/-- A new scope binds nothing. -/
lemma Scopes.own?_push (ss : Scopes) (parent : Option ScopeRef) (s : ScopeRef) (key : String) :
    (ss.push parent).2.own? s key = ss.own? s key := by
  simp only [push, own?, Array.getElem?_push]
  split_ifs with hs
  · simp [hs]
  · rfl

namespace Engine

variable {e e' : Engine} {depth : Nat} {op : Operation} {f : ScopeRef} {key name : String}
  {entry : Entry} {x : Registration}

/-! ### What a registration does -/

/-- The second engine has one binding more, and what comes with it; apart from that it is the
first. -/
structure Creates (e : Engine) (f : ScopeRef) (name : String) (x : Registration) (e' : Engine) :
    Prop where
  nodes     : e'.graph.nodes = e.graph.nodes ++ x.nodes.toArray
  templates : e'.graph.templates = e.graph.templates ++ (x.templates e).toArray
  trail     : e'.store.trail = e.store.trail
  config    : e'.config = e.config
  scopes    : e'.scopes = e.scopes.set f name (x.binding e)
  bindings  : ∀ s key, e'.scopes.own? s key =
    if f = s ∧ key = name then some (x.binding e) else e.scopes.own? s key

/-- All that a registration can come to, with the engine afterwards. -/
inductive Records (e : Engine) (f : ScopeRef) (x : Registration) :
    Except ScopeError Entry → Engine → Prop where
  /-- A type without a name is refused. -/
  | unnamed {r : TypeRef} : x = .entry (.type r) → (e.graph.node? r).bind Node.name? = none →
      Records e f x (.error (.unnamed (e.render r))) e
  /-- A name that the scope binds to something of the other kind is refused. -/
  | mismatch {name : String} {bound : Entry} {kind : Entry.Kind} : x.name e = .ok name →
      e.scopes.own? f name = some bound → x.kind? = some kind → bound.kind ≠ kind →
      Records e f x (.error (.kindMismatch name kind)) e
  /-- A name that the scope binds keeps its binding. -/
  | existing {name : String} {bound : Entry} : x.name e = .ok name →
      e.scopes.own? f name = some bound → (∀ kind, x.kind? = some kind → bound.kind = kind) →
      Records e f x (.ok bound) e
  /-- A new name is bound. -/
  | created {name : String} {e' : Engine} : x.name e = .ok name → e.scopes.own? f name = none →
      e.Creates f name x e' → Records e f x (.ok (x.binding e)) e'

/-- The engine in which a new name is bound. -/
def enter (e : Engine) (f : ScopeRef) (name : String) (x : Registration) : Engine where
  store  := { e.store with graph :=
    ⟨e.graph.nodes ++ x.nodes.toArray, e.graph.templates ++ (x.templates e).toArray⟩ }
  scopes := e.scopes.set f name (x.binding e)
  config := e.config

lemma creates_enter (hf : e.HasScope f) : e.Creates f name x (e.enter f name x) where
  nodes := rfl
  templates := rfl
  trail := rfl
  config := rfl
  scopes := rfl
  bindings s key := Scopes.own?_set e.scopes s name key _ hf

/-- Making constraints adds their nodes one after the other. -/
lemma addConstraints_eq (e : Engine) (n : Nat) :
    e.addConstraints n =
      (List.range' e.graph.nodes.size n, { e with store := { e.store with graph := ⟨e.graph.nodes ++
        (List.replicate n (.constraint none)).toArray, e.graph.templates⟩ } }) := by
  induction n generalizing e with
  | zero => simp [addConstraints, graph]
  | succ n ih =>
    rw [addConstraints, ih]
    simp [addConstraint, add, Store.add, Graph.add, graph, List.range'_succ, List.replicate_succ,
      ← Array.toList_inj]

lemma records_entry (hf : e.HasScope f) : e.Records f (.entry entry)
    ((Registration.entry entry).answer e f) (e.attempt (e.register f entry)) := by
  rw [Registration.answer]
  cases hname : e.nameOf entry with
  | error err =>
    simp only [register, hname]
    cases entry with
    | template t => simp [nameOf] at hname
    | type r =>
      cases hnode : (e.graph.node? r).bind Node.name? with
      | some name => simp [nameOf, hnode] at hname
      | none =>
        simp only [nameOf, hnode, Except.error.injEq] at hname
        subst hname
        exact .unnamed rfl hnode
  | ok name =>
    cases hown : e.scopes.own? f name with
    | some bound =>
      simp only [register, hname, hown]
      exact .existing hname hown (by simp [Registration.kind?])
    | none =>
      have hmade : e.register f entry = .ok (entry, e.enter f name (.entry entry)) := by
        simp [register, hname, hown, enter, set, Registration.nodes, Registration.templates, graph,
          Registration.binding]
      rw [hmade]
      exact .created hname hown (creates_enter hf)

lemma records_terminal (hf : e.HasScope f) : e.Records f (.terminal name)
    ((Registration.terminal name).answer e f) (e.attempt (e.ensureTerminal f name)) := by
  rw [Registration.answer]
  cases hown : e.scopes.own? f name with
  | some bound =>
    cases bound with
    | type r =>
      simp only [ensureTerminal, hown]
      exact .existing rfl hown (by simp [Registration.kind?, Entry.kind])
    | template t =>
      simp only [ensureTerminal, hown]
      exact .mismatch rfl hown rfl (by simp [Entry.kind])
  | none =>
    have hmade : e.ensureTerminal f name =
        .ok (e.graph.nodes.size, e.enter f name (.terminal name)) := by
      simp [ensureTerminal, hown, addTerminal, add, Store.add, Graph.add, enter, set, graph,
        Registration.nodes, Registration.templates, Registration.binding]
    rw [hmade]
    exact .created rfl hown (creates_enter hf)

/-- The template of a new name, with the bounds that had to be made. -/
lemma ensureTemplate_eq {params : Params} (hown : e.scopes.own? f name = none) :
    e.ensureTemplate f name params =
      .ok (e.graph.templates.size, e.enter f name (.template name params)) := by
  cases params with
  | named names =>
    simp [ensureTemplate, hown, withBounds, addConstraints_eq, define, Graph.define, enter, set,
      graph, Registration.nodes, Registration.templates, Registration.binding]
  | bounded params =>
    simp [ensureTemplate, hown, withBounds, define, Graph.define, enter, set, graph,
      Registration.nodes, Registration.templates, Registration.binding]

lemma records_template {params : Params} (hf : e.HasScope f) :
    e.Records f (.template name params) ((Registration.template name params).answer e f)
      (e.attempt (e.ensureTemplate f name params)) := by
  rw [Registration.answer]
  cases hown : e.scopes.own? f name with
  | some bound =>
    cases bound with
    | type r =>
      simp only [ensureTemplate, hown]
      exact .mismatch rfl hown rfl (by simp [Entry.kind])
    | template t =>
      simp only [ensureTemplate, hown]
      exact .existing rfl hown (by simp [Registration.kind?, Entry.kind])
  | none =>
    rw [ensureTemplate_eq hown]
    exact .created rfl hown (creates_enter hf)

/-- A registration leaves the engine as it was, or binds a new name. -/
theorem records_perform (hop : e.Admits (x.operation f))
    (h : e.perform depth (x.operation f) = some e') : e.Records f x (x.answer e f) e' := by
  cases x with
  | entry entry =>
    cases h
    exact records_entry hop.1
  | terminal name =>
    cases h
    exact records_terminal hop
  | template name params =>
    cases h
    exact records_template hop.1

/-! ### What an operation does to the scopes -/

/-- The operation binds the name in the scope to the entry: it sets the binding, or it registers
something under a name that the scope does not bind yet. -/
inductive Writes (e : Engine) (op : Operation) (f : ScopeRef) (key : String) (entry : Entry) :
    Prop where
  | set : op = .set f key entry → Writes e op f key entry
  | register (x : Registration) : op = x.operation f → x.name e = .ok key →
      e.scopes.own? f key = none → entry = x.binding e → Writes e op f key entry

/-- All that an operation can do to the scopes. -/
inductive Rescopes (e : Engine) (op : Operation) : Scopes → Prop where
  /-- One binding is written. -/
  | writes {f : ScopeRef} {key : String} {entry : Entry} : e.HasScope f →
      e.Writes op f key entry → Rescopes e op (e.scopes.set f key entry)
  /-- A scope is made. -/
  | opens (parent : Option ScopeRef) : (∀ f key entry, ¬ e.Writes op f key entry) →
      Rescopes e op (e.scopes.push parent).2
  /-- The scopes stay as they are. -/
  | keeps : (∀ f key entry, ¬ e.Writes op f key entry) → Rescopes e op e.scopes

lemma writes_operation_iff {f' : ScopeRef} :
    e.Writes (x.operation f) f' key entry ↔
      f = f' ∧ x.name e = .ok key ∧ e.scopes.own? f' key = none ∧ entry = x.binding e := by
  constructor
  · rintro (hset | ⟨x', hop, hname, hown, hentry⟩)
    · exact absurd hset x.operation_ne_set
    · obtain ⟨rfl, rfl⟩ := Registration.operation_inj.mp hop
      exact ⟨rfl, hname, hown, hentry⟩
  · rintro ⟨rfl, hname, hown, hentry⟩
    exact .register x rfl hname hown hentry

lemma not_writes (h : op.names = false) (f : ScopeRef) (key : String) (entry : Entry) :
    ¬ e.Writes op f key entry := by
  rintro (rfl | ⟨x, rfl, -⟩)
  · cases h
  · simp [x.names_operation] at h

/-- An operation makes no more than one binding. -/
lemma Writes.unique {f' : ScopeRef} {key' : String} {entry' : Entry} (h : e.Writes op f key entry)
    (h' : e.Writes op f' key' entry') : f' = f ∧ key' = key ∧ entry' = entry := by
  rcases h with rfl | ⟨x, rfl, hname, hown, rfl⟩
  · rcases h' with hset | ⟨x', hop, -⟩
    · cases hset
      exact ⟨rfl, rfl, rfl⟩
    · exact absurd hop.symm x'.operation_ne_set
  · obtain ⟨rfl, hname', -, rfl⟩ := writes_operation_iff.mp h'
    exact ⟨rfl, Except.ok.inj (hname'.symm.trans hname), rfl⟩

/-- A query does not concern the scopes. -/
lemma scopes_answer {q : Query} (he : e.WellFormed) (hq : ∀ r ∈ q.types, e.Has r)
    (h : (e.answer depth q).EndsIn e') : e'.scopes = e.scopes := by
  obtain ⟨hquiet, -⟩ := sides_lawful he hq
  rw [answer_eq_unify] at h
  obtain ⟨s, -, hend⟩ := unify_endsIn h
  rcases hend with rfl | rfl <;> exact hquiet.scopes

/-- A name that the scope does not bind is always registered. -/
lemma Records.creates {answer : Except ScopeError Entry} (h : e.Records f x answer e')
    (hname : x.name e = .ok name) (hown : e.scopes.own? f name = none) :
    answer = .ok (x.binding e) ∧ e.Creates f name x e' := by
  cases h with
  | unnamed hx hnode => simp [hx, Registration.name, nameOf, hnode] at hname
  | mismatch hname' hown' | existing hname' hown' =>
    obtain rfl := Except.ok.inj (hname'.symm.trans hname)
    simp [hown'] at hown
  | created hname' _ hcreates =>
    obtain rfl := Except.ok.inj (hname'.symm.trans hname)
    exact ⟨rfl, hcreates⟩

/-- A registration writes the binding that it creates. -/
lemma Records.rescopes {answer : Except ScopeError Entry} (hf : e.HasScope f)
    (h : e.Records f x answer e') : e.Rescopes (x.operation f) e'.scopes := by
  have hbound : ∀ {name bound}, x.name e = .ok name → e.scopes.own? f name = some bound →
      ∀ f' key entry, ¬ e.Writes (x.operation f) f' key entry := by
    intro name bound hname hown f' key entry hwrites
    obtain ⟨rfl, hname', hnone, -⟩ := writes_operation_iff.mp hwrites
    obtain rfl := Except.ok.inj (hname.symm.trans hname')
    simp [hown] at hnone
  cases h with
  | unnamed hx hnode =>
    refine .keeps fun f' key entry hwrites => ?_
    obtain ⟨-, hname, -⟩ := writes_operation_iff.mp hwrites
    simp [hx, Registration.name, nameOf, hnode] at hname
  | mismatch hname hown | existing hname hown => exact .keeps (hbound hname hown)
  | created hname hown hcreates =>
    rw [hcreates.scopes]
    exact .writes hf (writes_operation_iff.mpr ⟨rfl, hname, hown, rfl⟩)

/-- An operation writes one binding, makes a scope or leaves the scopes as they are. -/
theorem rescopes_perform (he : e.WellFormed) (hop : e.Admits op)
    (h : e.perform depth op = some e') : e.Rescopes op e'.scopes := by
  cases op with
  | register scope entry =>
    exact (records_perform (x := .entry entry) hop h).rescopes hop.1
  | ensureTerminal scope name =>
    exact (records_perform (x := .terminal name) hop h).rescopes hop
  | ensureTemplate scope name params =>
    exact (records_perform (x := .template name params) hop h).rescopes hop.1
  | set scope key entry =>
    cases h
    exact .writes hop.1 (.set rfl)
  | newScope =>
    cases h
    exact .opens none (not_writes rfl)
  | newChild parent =>
    cases h
    exact .opens (some parent) (not_writes rfl)
  | addTerminal | addVar | addConstraint | addUnion | renew =>
    cases h
    exact .keeps (not_writes rfl)
  | addFunction args result =>
    cases h
    rw [(quiet_addFunction he hop.1 hop.2).1.scopes]
    exact .keeps (not_writes rfl)
  | declareTemplate t =>
    cases h
    rw [declareTemplate]
    split_ifs <;> exact .keeps (not_writes rfl)
  | applyTemplate t args =>
    cases h
    rw [applyTemplate]
    split
    · split_ifs <;> exact .keeps (not_writes rfl)
    · exact .keeps (not_writes rfl)
  | ask q =>
    rw [perform, Outcome.state?_eq_some_iff] at h
    rw [scopes_answer he hop h]
    exact .keeps (not_writes rfl)

/-! ### Runs -/

/-- An operation keeps a binding, unless it sets the name. -/
lemma own?_perform (he : e.WellFormed) (hop : e.Admits op) (h : e.perform depth op = some e')
    (hown : e.scopes.own? f key = some entry) (hset : ∀ entry', op ≠ .set f key entry') :
    e'.scopes.own? f key = some entry := by
  have hscopes := rescopes_perform he hop h
  generalize e'.scopes = ss at hscopes ⊢
  cases hscopes with
  | keeps => exact hown
  | opens parent => rw [Scopes.own?_push, hown]
  | @writes f' key' entry' hf hwrites =>
    rw [Scopes.own?_set e.scopes f key' key entry' hf, if_neg, hown]
    rintro ⟨rfl, rfl⟩
    rcases hwrites with hop | ⟨x, -, -, hnone, -⟩
    · exact hset entry' hop
    · simp [hown] at hnone

/-- A run keeps a binding, unless it sets the name. -/
lemma Runs.own? {ops : List Operation} (h : Runs e ops e') (he : e.Reachable)
    (hown : e.scopes.own? f key = some entry) (hset : ∀ entry', .set f key entry' ∉ ops) :
    e'.scopes.own? f key = some entry := by
  induction h with
  | nil => exact hown
  | cons depth hop hperform _ ih =>
    refine ih (he.perform _ _ hop hperform) ?_ fun entry' hmem => hset entry' (.tail _ hmem)
    refine own?_perform he.wellFormed hop hperform hown fun entry' heq => hset entry' ?_
    rw [heq]
    exact .head _

/-- Through a run from a reachable engine every scope keeps what it binds, under each name that is
not set there, whatever is registered. And whatever is registered after the run, a refusal or a name
that the scope binds already leaves the engine as it is, and a new name comes with its binding, the
nodes and the templates that it needs and nothing else. -/
theorem registration_firstWins {ops : List Operation} (he : e.Reachable) (hrun : Runs e ops e') :
    (∀ f key entry, e.scopes.own? f key = some entry → (∀ entry', .set f key entry' ∉ ops) →
      e'.scopes.own? f key = some entry) ∧
    ∀ f (x : Registration), e'.Admits (x.operation f) →
      ∀ depth, ∃ e'', e'.perform depth (x.operation f) = some e'' ∧
        e'.Records f x (x.answer e' f) e'' := by
  refine ⟨fun f key entry => hrun.own? he, fun f x hop depth => ?_⟩
  obtain ⟨e'', hperform⟩ : ∃ e'', e'.perform depth (x.operation f) = some e'' := by
    cases x <;> exact ⟨_, rfl⟩
  exact ⟨e'', hperform, records_perform hop hperform⟩

/-- The outer scope names a template. A run tries to register a terminal, another template and the
template again under that name, and sets the name in the inner scope: the binding stays. After that
the inner scope gets a template with two parameters of its own, and two constraints come with it. -/
theorem registration_firstWins_nested :
    let e' := nested.set 1 "List" (.type 3)
    Runs nested [.ensureTerminal 0 "List", .ensureTemplate 0 "List" (.named ["A", "B"]),
        .register 0 (.template 1), .set 1 "List" (.type 3)] e' ∧
      e'.scopes.own? 0 "List" = some (.template 1) ∧
      ∃ e'', e'.perform 0 (.ensureTemplate 1 "Map" (.named ["K", "V"])) = some e'' ∧
        e''.graph.nodes = e'.graph.nodes ++ #[.constraint none, .constraint none] ∧
        e''.scopes.own? 1 "Map" = some (.template 2) ∧
        e''.scopes.own? 0 "List" = some (.template 1) := by
  intro e'
  have hrun : Runs nested [.ensureTerminal 0 "List", .ensureTemplate 0 "List" (.named ["A", "B"]),
      .register 0 (.template 1), .set 1 "List" (.type 3)] e' := by
    refine .cons 0 (show HasScope _ 0 by decide) rfl ?_
    refine .cons 0 ⟨show HasScope _ 0 by decide, trivial⟩ rfl ?_
    refine .cons 0 ⟨show HasScope _ 0 by decide, show 1 < 2 by decide⟩ rfl ?_
    exact .cons 0 ⟨show HasScope _ 1 by decide, show Has _ 3 by decide⟩ rfl .nil
  obtain ⟨hkeeps, hregister⟩ := registration_firstWins reachable_nested hrun
  have hlist := hkeeps 0 "List" (.template 1) rfl (by simp)
  obtain ⟨e'', hperform, hrecords⟩ :=
    hregister 1 (.template "Map" (.named ["K", "V"])) ⟨by decide, trivial⟩ 0
  obtain ⟨-, hcreates⟩ := hrecords.creates rfl (by decide)
  refine ⟨hrun, hlist, e'', hperform, hcreates.nodes, ?_, ?_⟩
  · rw [hcreates.bindings, if_pos ⟨rfl, rfl⟩]
    rfl
  · rw [hcreates.bindings, if_neg (by decide), hlist]

end Engine

end Unification
