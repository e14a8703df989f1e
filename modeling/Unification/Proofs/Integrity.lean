import Unification.Proofs.Operation
import Unification.Proofs.Passage

/-!
# Integrity

What an engine refers to, it has. Bindings, arguments, members, bounds and trail are types of the
engine, names are bound to its types and templates, a scope is younger than its parent, and lists
that run in parallel are equally long. Operations keep an engine intact, and it is intact at every
moment of a query: `Intact.next` is the step, `Reachable.intact` the run.

This is why no look-up of the engine misses (`Intact.resolves`) and why the unifier never comes to a
case that has no good answer (`Question.Proper.safe`): it binds free variables only, it compares
argument lists of one length, it clears variables only, and no trial breaks off the search.
-/

namespace Unification

open Outcome Relation

/-! ### Bounds and scopes -/

/-- If there are as many bounds as parameters, then every parameter has the bound at its place. -/
lemma Template.exists_bound? {d : Template} (h : d.bounds.length = d.params.length) {p : String}
    (hp : p ∈ d.params) :
    ∃ b ∈ d.bounds, d.bound? p = some b ∧ d.bounds[d.params.idxOf p]? = some b := by
  obtain ⟨name, params, bounds⟩ := d
  simp only [bound?] at h hp ⊢
  induction params generalizing bounds with
  | nil => simp at hp
  | cons q params ih =>
    cases bounds with
    | nil => simp at h
    | cons b bounds =>
      by_cases hpq : p = q
      · subst hpq
        exact ⟨b, by simp, by simp, by simp⟩
      · obtain ⟨b', hmem, hbound, hplace⟩ := ih bounds (by simpa using h) (by simpa [hpq] using hp)
        refine ⟨b', by simp [hmem], ?_, ?_⟩
        · simpa [List.lookup_cons, beq_false_of_ne hpq] using hbound
        · simpa [List.idxOf_cons, beq_false_of_ne (Ne.symm hpq)] using hplace

/-- A new scope has the parent it was made with. -/
lemma Scopes.parent?_push (ss : Scopes) (parent : Option ScopeRef) (s : ScopeRef) :
    (ss.push parent).2.parent? s = if s = ss.frames.size then parent else ss.parent? s := by
  simp only [push, parent?, Array.getElem?_push]
  split_ifs <;> rfl

namespace Engine

variable {e e' : Engine} {depth : Nat} {q : Query}

/-! ### Intact engines -/

/-- What an engine refers to, it has. -/
structure Intact (e : Engine) : Prop where
  /-- Bindings, arguments and members are types of the engine, and an instance has as many arguments
  as its template has parameters. -/
  graph     : e.graph.WellFormed
  /-- A template has one bound for each parameter, and the bounds are types of the engine. -/
  templates : ∀ ⦃t d⦄, e.graph.template? t = some d →
    d.bounds.length = d.params.length ∧ ∀ b ∈ d.bounds, e.Has b
  /-- The function template has two parameters. -/
  function  : ∃ d, e.graph.template? functionTemplate = some d ∧ d.arity = 2
  /-- A scope is younger than its parent. -/
  parents   : ∀ ⦃s p⦄, e.scopes.parent? s = some p → p < s
  /-- Names are bound to types and templates of the engine. -/
  entries   : ∀ frame ∈ e.scopes.frames, ∀ binding ∈ frame.entries, e.HasEntry binding.2
  /-- The trail consists of bound variables, so going back clears variables only. -/
  trail     : ∀ v ∈ e.store.trail, ∃ name b, e.graph.node? v = some (.var name (some b))

lemma HasEntry.mono (hnodes : e.graph.nodes.size ≤ e'.graph.nodes.size)
    (htemplates : e.graph.templates.size ≤ e'.graph.templates.size) {entry : Entry}
    (h : e.HasEntry entry) : e'.HasEntry entry := by
  cases entry with
  | type ty => exact Nat.lt_of_lt_of_le h hnodes
  | template t => exact Nat.lt_of_lt_of_le h htemplates

theorem intact_new (config : Config) : (new config).Intact where
  graph := Graph.wellFormed_initial
  templates t d hd := by
    have hmem : d ∈ Graph.initial.templates := Array.mem_of_getElem? hd
    simp only [Graph.initial, List.mem_toArray, List.mem_singleton] at hmem
    subst hmem
    refine ⟨rfl, fun b hb => ?_⟩
    change b < 2
    simp only [List.mem_cons, List.not_mem_nil, or_false] at hb
    rcases hb with rfl | rfl <;> decide
  function := ⟨_, rfl, rfl⟩
  parents s p h := by simp [new, Scopes.parent?] at h
  entries frame h := by simp [new] at h
  trail v h := by simp [new] at h

/-- An advance of the store keeps an engine intact. -/
lemma Intact.advance (he : e.Intact) (hadv : e.store.Advances e'.store)
    (hwf : e'.graph.WellFormed) (hscopes : e'.scopes = e.scopes) : e'.Intact where
  graph := hwf
  templates t d hd := by
    have hsame : e'.graph.templates = e.graph.templates := hadv.templates
    obtain ⟨hlength, hbounds⟩ := he.templates (t := t) (d := d) (by rwa [Graph.template?, ← hsame])
    exact ⟨hlength, fun b hb => (hbounds b hb).trans_le hadv.size_le⟩
  function := by
    have hsame : e'.graph.templates = e.graph.templates := hadv.templates
    simpa [Graph.template?, hsame] using he.function
  parents := hscopes ▸ he.parents
  entries frame hframe binding hbinding := by
    rw [hscopes] at hframe
    exact (he.entries frame hframe binding hbinding).mono hadv.size_le
      (congrArg Array.size hadv.templates).ge
  trail v hv := by
    obtain ⟨new, htrail, -, hnew⟩ := hadv.trail
    rw [htrail, List.mem_append] at hv
    rcases hv with hv | hv
    · obtain ⟨b, hb⟩ := Option.isSome_iff_exists.mp ((hnew v).mp hv).2
      obtain ⟨name, hn⟩ := Graph.binding?_eq_some_iff.mp hb
      exact ⟨name, b, hn⟩
    · obtain ⟨name, b, hn⟩ := he.trail v hv
      exact ⟨name, b, hadv.graph.node? hn rfl⟩

lemma Intact.quiet (he : e.Intact) (h : e.Quiet e') (hwf : e'.graph.WellFormed) : e'.Intact :=
  he.advance h.store.advances hwf h.scopes

/-- Taking bindings off the trail keeps an engine intact. -/
lemma Intact.commit (he : e.Intact) (k : Nat) : Intact { e with store := e.store.commit k } :=
  { he with trail := fun v hv => he.trail v (List.mem_of_mem_drop hv) }

/-- A template may be defined with one bound for each parameter. -/
lemma Intact.define (he : e.Intact) {t : Template} (hlength : t.bounds.length = t.params.length)
    (hbounds : ∀ b ∈ t.bounds, e.Has b) : (e.define t).2.Intact where
  graph := he.graph.define t
  templates i d hd := by
    rw [show (e.define t).2.graph = (e.graph.define t).2 from rfl, Graph.template?_define] at hd
    split_ifs at hd
    · cases hd
      exact ⟨hlength, hbounds⟩
    · exact he.templates hd
  function := by
    obtain ⟨d, hd, harity⟩ := he.function
    exact ⟨d, Graph.template?_define_of_eq_some hd, harity⟩
  parents := he.parents
  entries frame hframe binding hbinding := by
    have hle : e.graph.templates.size ≤ (e.define t).2.graph.templates.size := by
      simp [Engine.define, Engine.graph, Graph.define]
    have hsize : e.graph.nodes.size ≤ (e.define t).2.graph.nodes.size := le_rfl
    exact (he.entries frame hframe binding hbinding).mono hsize hle
  trail := he.trail

/-! ### Scopes -/

/-- A scope may be made inside any scope of the engine. -/
lemma Intact.push (he : e.Intact) {parent : Option ScopeRef}
    (hparent : ∀ p, parent = some p → e.HasScope p) :
    Intact { e with scopes := (e.scopes.push parent).2 } :=
  { he with
    parents := by
      intro s p h
      rw [Scopes.parent?_push] at h
      split_ifs at h with hs
      · exact hs ▸ hparent p h
      · exact he.parents h
    entries := by
      intro frame hframe
      rcases Array.mem_push.mp hframe with hframe | rfl
      · exact he.entries frame hframe
      · simp }

/-- A name may be bound to anything that the engine has. -/
lemma Intact.set (he : e.Intact) (scope : ScopeRef) (key : String) {entry : Entry}
    (hentry : e.HasEntry entry) : (e.set scope key entry).Intact :=
  { he with
    parents := by
      intro s p h
      exact he.parents (by simpa [Engine.set] using h)
    entries := by
      intro frame hframe
      obtain ⟨i, hi⟩ := Array.mem_iff_getElem?.mp hframe
      simp only [Engine.set, Scopes.set, Array.getElem?_modify] at hi
      split_ifs at hi
      · obtain ⟨old, hold, rfl⟩ := Option.map_eq_some_iff.mp hi
        intro binding hbinding
        rcases List.mem_cons.mp hbinding with rfl | hbinding
        · exact hentry
        · exact he.entries old (Array.mem_of_getElem? hold) binding hbinding
      · exact he.entries frame (Array.mem_of_getElem? hi) }

/-! ### Operations -/

lemma Intact.wellFormed (he : e.Intact) (htrail : e.store.trail = []) : e.WellFormed :=
  ⟨he.graph, htrail, he.function⟩

/-- Adding constraints adds unbound nodes, one for each. -/
lemma addConstraints_lawful (e : Engine) (n : Nat) :
    e.Quiet (e.addConstraints n).2 ∧ (e.addConstraints n).1.length = n ∧
      ∀ b ∈ (e.addConstraints n).1, (e.addConstraints n).2.Has b := by
  induction n generalizing e with
  | zero => exact ⟨Quiet.refl e, rfl, by simp [addConstraints]⟩
  | succ n ih =>
    obtain ⟨hquiet, hlength, hhas⟩ := ih (e.addConstraint none).2
    have hfirst : e.Quiet (e.addConstraint none).2 := quiet_add (by simp [Node.children]) rfl
    refine ⟨hfirst.trans hquiet, by simp [addConstraints, hlength], ?_⟩
    simp only [addConstraints, List.forall_mem_cons]
    exact ⟨hquiet.has (has_add e _), hhas⟩

/-- The template that is made for a name has one bound for each parameter. -/
lemma withBounds_lawful (he : e.WellFormed) (name : String) {params : Params}
    (h : e.HasBounds params) :
    e.Quiet (e.withBounds name params).2 ∧ (e.withBounds name params).2.WellFormed ∧
      (e.withBounds name params).1.bounds.length = (e.withBounds name params).1.params.length ∧
      ∀ b ∈ (e.withBounds name params).1.bounds, (e.withBounds name params).2.Has b := by
  cases params with
  | named names =>
    exact (addConstraints_lawful e names.length).imp_right fun h => ⟨he.addConstraints _, h⟩
  | bounded params =>
    refine ⟨Quiet.refl e, he, by simp [withBounds], ?_⟩
    intro b hb
    obtain ⟨p, hp, rfl⟩ := List.mem_map.mp hb
    exact h p hp

/-- The engine in which the two sides of a query are made is intact. -/
lemma Intact.sides (he : e.Intact) (htrail : e.store.trail = []) (hq : ∀ r ∈ q.types, e.Has r) :
    (e.sides q).2.Intact := by
  obtain ⟨hquiet, hwf, -⟩ := sides_lawful (he.wellFormed htrail) hq
  exact he.quiet hquiet hwf.graph

/-- A query leaves an intact engine, whether it succeeds or fails. -/
lemma Intact.answer (he : e.Intact) (htrail : e.store.trail = []) (hq : ∀ r ∈ q.types, e.Has r)
    (h : (e.answer depth q).EndsIn e') : e'.Intact := by
  obtain ⟨-, hwf, hleft, hright, -⟩ := sides_lawful (he.wellFormed htrail) hq
  have hsides := he.sides htrail hq
  rw [answer_eq_unify] at h
  obtain ⟨s, hrun, hend⟩ := unify_endsIn h
  obtain ⟨hadv, hs⟩ := (lawful_unifier depth).advances hwf.graph hleft hright hrun
  rcases hend with rfl | rfl
  · have hfinal : Intact { (e.sides q).2 with store := s } := hsides.advance hadv hs rfl
    exact hfinal.commit _
  · have hfinal : Intact { (e.sides q).2 with store := s.rewind (e.sides q).2.store.mark } :=
      hsides.advance hadv.quiet_rewind.advances (Store.wellFormed_rewind hs _) rfl
    exact hfinal.commit _

/-- An operation keeps an engine intact. -/
theorem Intact.next (he : e.Intact) (htrail : e.store.trail = []) (h : Next e e') : e'.Intact := by
  have hwf := he.wellFormed htrail
  have hwf' := (hwf.next h).graph
  cases h with
  | addTerminal name | addVar name | addConstraint name =>
    exact he.quiet (quiet_add (by simp [Node.children]) rfl) hwf'
  | addUnion hmembers => exact he.quiet (quiet_add hmembers rfl) hwf'
  | addFunction hargs hresult => exact he.quiet (quiet_addFunction hwf hargs hresult).1 hwf'
  | declareTemplate hbounds h =>
    rw [declareTemplate] at h
    split_ifs at h with hlength
    cases h
    exact he.define hlength.symm hbounds
  | @applyTemplate t args r e' hargs h =>
    rw [applyTemplate] at h
    split at h
    · split_ifs at h
      cases h
      exact he.quiet (quiet_add hargs rfl) hwf'
    · cases h
  | renew how hr => exact he.quiet (quiet_renew hwf how hr) hwf'
  | newScope => exact he.push (by simp)
  | newChild hparent =>
    refine he.push ?_
    rintro p ⟨⟩
    exact hparent
  | set key _ hentry => exact he.set _ key hentry
  | register _ hentry h =>
    rw [register] at h
    split at h
    · cases h
    · split at h
      · cases h
        exact he
      · cases h
        exact he.set _ _ hentry
  | @ensureTerminal scope name r e' _ h =>
    rw [ensureTerminal] at h
    split at h
    · cases h
      exact he
    · cases h
    · cases h
      have hadd : e.Quiet (e.addTerminal name).2 := quiet_add (by simp [Node.children]) rfl
      exact (he.quiet hadd hwf').set scope name (has_add e _)
  | @ensureTemplate scope name params t e' _ hparams h =>
    obtain ⟨hquiet, hmade, hlength, hbounds⟩ := withBounds_lawful hwf name hparams
    rw [ensureTemplate] at h
    split at h
    · cases h
      exact he
    · cases h
    · cases h
      refine ((he.quiet hquiet hmade.graph).define hlength hbounds).set scope name ?_
      simp [HasEntry, Engine.define, Engine.graph, Graph.define]
  | unify ha hb h => exact he.answer (q := .unify _ _) htrail (by simp [Query.types, ha, hb]) h
  | call hcallee hargs hresult h =>
    exact he.answer (q := .call _ _ _) htrail
      (by simpa [Query.types, hcallee, hresult] using hargs) h

/-- Every reachable engine is intact. -/
theorem Reachable.intact (h : e.Reachable) : e.Intact := by
  induction h with
  | new config => exact intact_new config
  | next hreach h ih => exact ih.next hreach.wellFormed.trail h

/-- An operation on what the engine has leads to a reachable engine. -/
lemma Reachable.perform (he : e.Reachable) (depth : Nat) (op : Operation) (hop : e.Admits op)
    (h : e.perform depth op = some e') : e'.Reachable := by
  rcases next_of_perform hop h with rfl | h
  · exact he
  · exact he.next h

/-! ### Look-ups -/

/-- Every look-up that begins at something the engine has finds something that the engine has. -/
structure Resolves (e : Engine) : Prop where
  /-- Every walk from a type stays in the graph, and finds the templates of the instances. -/
  nodes   : ∀ ⦃r x⦄, e.Has r → e.graph.Reaches r x →
    ∃ n, e.graph.node? x = some n ∧ e.graph.Applies n
  /-- In particular the chain of bindings and the occurs check meet types of the engine only. -/
  walks   : ∀ ⦃r⦄, e.Has r → e.Has (e.rep r) ∧ ∀ x ∈ e.graph.reachable r, e.Has x
  /-- The tree of a type has no leaf in place of a missing node. -/
  trees   : ∀ ⦃r⦄, e.Has r → e.graph.Shows (e.graph.resolve r)
  /-- Every parameter of a template has its bound. -/
  bounds  : ∀ ⦃t d⦄, e.graph.template? t = some d → ∀ p ∈ d.params,
    ∃ b, d.bound? p = some b ∧ d.bounds[d.params.idxOf p]? = some b ∧ e.Has b
  /-- The way out of a scope leads through scopes of the engine. -/
  scopes  : ∀ ⦃s s'⦄, e.HasScope s →
    ReflTransGen (fun x y => e.scopes.parent? x = some y) s s' → e.HasScope s'
  /-- A name that is found stands for something that the engine has. -/
  entries : ∀ ⦃s key entry⦄, e.scopes.lookup s key = some entry → e.HasEntry entry

/-- What the engine finds under a name, it has. -/
lemma Intact.search (he : e.Intact) {key : String} {entry : Entry} (n : Nat) (s : ScopeRef)
    (h : e.scopes.search key n s = some entry) : e.HasEntry entry := by
  induction n generalizing s with
  | zero => simp [Scopes.search] at h
  | succ n ih =>
    rw [Scopes.search] at h
    split at h
    · next entry' hown =>
      cases h
      obtain ⟨frame, hframe, hlookup⟩ := Option.bind_eq_some_iff.mp hown
      obtain ⟨_, _, hentries, -⟩ := List.lookup_eq_some_iff.mp hlookup
      exact he.entries frame (Array.mem_of_getElem? hframe) (key, entry) (by simp [hentries])
    · obtain ⟨p, -, hsearch⟩ := Option.bind_eq_some_iff.mp h
      exact ih p hsearch

/-- No look-up in an intact engine misses. -/
theorem Intact.resolves (he : e.Intact) : e.Resolves where
  nodes r x hr hx := by
    obtain ⟨n, hn⟩ := Graph.exists_node? (hx.lt_size he.graph.closed hr)
    exact ⟨n, hn, he.graph.applies hn⟩
  walks r hr := by
    refine ⟨Graph.rep_lt_size he.graph hr, fun x hx => ?_⟩
    exact ((Graph.mem_reachable_iff he.graph.closed hr).mp hx).lt_size he.graph.closed hr
  trees r hr := Graph.shows_resolve he.graph hr
  bounds t d hd p hp := by
    obtain ⟨hlength, hbounds⟩ := he.templates hd
    obtain ⟨b, hmem, hbound, hplace⟩ := Template.exists_bound? hlength hp
    exact ⟨b, hbound, hplace, hbounds b hmem⟩
  scopes s s' hs h := by
    induction h with
    | refl => exact hs
    | tail _ hparent ih => exact (he.parents hparent).trans ih
  entries s key entry h := he.search _ s h

end Engine

/-! ### Questions of a run -/

/-- What a run is asked: two types to unify in a store, at most `depth` levels down. -/
structure Question where
  depth : Nat
  left  : TypeRef
  right : TypeRef
  store : Store

namespace Question

variable {p p' : Question}

/-- How the question is answered. -/
def run (p : Question) : Outcome Store TypeRef :=
  unifier p.depth p.left p.right p.store

/-- The rule that applies to the representatives. -/
def rule (p : Question) : Rule :=
  p.store.graph.rule (p.store.graph.rep p.left) (p.store.graph.rep p.right)

/-- The rule fits the representatives. -/
lemma meets (p : Question) :
    p.store.graph.Meets (p.store.graph.rep p.left) (p.store.graph.rep p.right) p.rule :=
  p.store.graph.rule_meets _ _

/-- Answering the first question takes an answer to the second one. -/
inductive Raises : Question → Question → Prop where
  /-- Two arguments are unified. -/
  | comparing {depth a b s x y s₁} : Compares depth a b s x y s₁ →
      Raises ⟨depth + 1, a, b, s⟩ ⟨depth, x, y, s₁⟩
  /-- A member is tried. -/
  | trying {depth a b s m target s₁} : Tries depth a b s m target s₁ →
      Raises ⟨depth + 1, a, b, s⟩
        ⟨depth, (trial target m s₁).1.1, (trial target m s₁).1.2, (trial target m s₁).2⟩
  /-- The chosen member is unified with the target. -/
  | committing {depth a b s w target s₁} : Settles depth a b s w target s₁ →
      Raises ⟨depth + 1, a, b, s⟩
        ⟨depth, (s₁.renew .instantiate w).1, target, (s₁.renew .instantiate w).2⟩

/-- The question is about two types of a well-formed store. -/
structure Proper (p : Question) : Prop where
  graph : p.store.graph.WellFormed
  left  : p.left < p.store.graph.nodes.size
  right : p.right < p.store.graph.nodes.size

/-- A proper question raises proper questions. -/
lemma Proper.raises (hp : p.Proper) (h : p.Raises p') : p'.Proper := by
  obtain ⟨hs, ha, hb⟩ := hp
  cases h with
  | comparing hcmp =>
    obtain ⟨-, hs₁, hx, hy⟩ := hcmp.lawful hs
    exact ⟨hs₁, hx, hy⟩
  | trying htry =>
    obtain ⟨-, hs₁, hm, ht⟩ := htry.lawful hs ha hb
    obtain ⟨-, hs₂, hi, hprobe⟩ := trial_lawful hs₁ hm ht
    exact ⟨hs₂, hi, hprobe⟩
  | committing hset =>
    obtain ⟨-, hs₁, hw, ht⟩ := hset.lawful hs ha hb
    have hq := Store.quiet_renew .instantiate hs₁ hw
    exact ⟨Graph.wellFormed_renew _ hs₁ hw, Graph.renew_lt_size _ hs₁ hw, ht.trans_le hq.size_le⟩

/-- So all questions of a run are proper if the first one is. -/
lemma Proper.asks (hp : p.Proper) (h : ReflTransGen Raises p p') : p'.Proper := by
  induction h with
  | refl => exact hp
  | tail _ hraise ih => exact ih.raises hraise

/-- The question is answered without an exception. -/
structure Safe (p : Question) : Prop where
  /-- Both sides are types of the store. -/
  left     : p.left < p.store.graph.nodes.size
  right    : p.right < p.store.graph.nodes.size
  /-- What is bound is a free variable, and it is bound to a type of the store. -/
  assigns  : ∀ ⦃v ty⦄, p.rule = .assign v ty →
    p.store.graph.isFree v = true ∧ ty < p.store.graph.nodes.size
  /-- Argument lists that are compared are equally long, so no argument is left out. -/
  descends : ∀ ⦃xs ys⦄, p.rule = .descend xs ys → xs.length = ys.length
  /-- No trial breaks off the search. -/
  tries    : ∀ ⦃depth m target s₁⦄, p.depth = depth + 1 →
    Tries depth p.left p.right p.store m target s₁ →
      ∀ err s', fits (unifier depth) target m s₁ ≠ .failed err s'
  /-- An answer in the negative says no more than that the types do not fit. -/
  rejects  : ∀ ⦃err s'⦄, p.run = .failed err s' → err.rejectsMember = true

/-- A proper question is answered without an exception. -/
theorem Proper.safe (hp : p.Proper) : p.Safe where
  left := hp.left
  right := hp.right
  assigns v ty hrule := by
    have hmeets := p.meets
    rw [hrule] at hmeets
    cases hmeets with
    | assignLeft hn =>
      exact ⟨Graph.isFree_rep hp.graph hn, Graph.rep_lt_size hp.graph hp.right⟩
    | assignRight hn =>
      exact ⟨Graph.isFree_rep hp.graph hn, Graph.rep_lt_size hp.graph hp.left⟩
  descends xs ys hrule := by
    have hmeets := p.meets
    rw [hrule] at hmeets
    cases hmeets with
    | descend hx hy => exact hp.graph.length_eq hx hy
  tries depth m target s₁ _ htry err s' hfail := by
    obtain ⟨-, hs₁, hm, ht⟩ := htry.lawful hp.graph hp.left hp.right
    rcases fits_cases (lawful_unifier depth) hs₁ hm ht with ⟨-, hcut⟩ | ⟨fit, s₂, hdone, -⟩
    · simp [hcut] at hfail
    · simp [hdone] at hfail
  rejects err s' h := (lawful_unifier p.depth).rejects hp.graph hp.left hp.right h

end Question

namespace Engine

variable {e e' : Engine} {q : Query}

/-! ### Queries -/

/-- The question that a query comes down to. -/
def question (e : Engine) (q : Query) (depth : Nat) : Question :=
  ⟨depth, (e.sides q).1.1, (e.sides q).1.2, (e.sides q).2.store⟩

/-- The engines that a query passes through once its two sides are made. -/
inductive Amid (e : Engine) (q : Query) : Engine → Prop where
  /-- The two sides are unified. -/
  | unifying {depth : Nat} {s : Store} :
      Passes depth (e.sides q).1.1 (e.sides q).1.2 (e.sides q).2.store s →
      Amid e q { (e.sides q).2 with store := s }
  /-- The bindings are taken back, one by one. -/
  | rewinding {depth k : Nat} {s : Store} : (e.question q depth).run.EndsIn s →
      Amid e q { (e.sides q).2 with store := s.rewind k }

/-- At every moment of a query the graph is well formed, and the store an advance on the one in which
the two sides were made. -/
lemma Amid.lawful (h : e.Amid q e') (he : e.WellFormed) (hq : ∀ r ∈ q.types, e.Has r) :
    (e.sides q).2.store.Advances e'.store ∧ e'.graph.WellFormed := by
  obtain ⟨-, hwf, hleft, hright, -⟩ := sides_lawful he hq
  cases h with
  | unifying hpass => exact hpass.lawful hwf.graph hleft hright
  | rewinding hrun =>
    obtain ⟨hadv, hs⟩ := (lawful_unifier _).advances hwf.graph hleft hright hrun
    -- the trail was empty at the start, so no point of it lies before that
    have hmark : (e.sides q).2.store.mark = 0 := by simp [Store.mark, hwf.trail]
    exact ⟨hadv.rewind (hmark ▸ Nat.zero_le _), Store.wellFormed_rewind hs _⟩

/-- An engine is intact at every moment of a query. -/
lemma Intact.amid (he : e.Intact) (htrail : e.store.trail = []) (hq : ∀ r ∈ q.types, e.Has r)
    (h : e.Amid q e') : e'.Intact := by
  obtain ⟨hadv, hwf⟩ := h.lawful (he.wellFormed htrail) hq
  have hscopes : e'.scopes = (e.sides q).2.scopes := by cases h <;> rfl
  exact (he.sides htrail hq).advance hadv hwf hscopes

/-- A reachable engine is intact between operations, when its trail is empty, and at every moment of
a query. So no look-up in it misses, and every question that the query raises is answered without an
exception. -/
theorem intact_throughout (he : e.Reachable) :
    e.Intact ∧ e.store.trail = [] ∧ e.Resolves ∧
      ∀ q : Query, (∀ r ∈ q.types, e.Has r) →
        (∀ e', e.Amid q e' → e'.Intact ∧ e'.Resolves) ∧
        ∀ depth p, ReflTransGen Question.Raises (e.question q depth) p → p.Safe := by
  have hintact := he.intact
  have htrail := he.wellFormed.trail
  refine ⟨hintact, htrail, hintact.resolves, fun q hq => ⟨fun e' h => ?_, fun depth p h => ?_⟩⟩
  · have hamid := hintact.amid htrail hq h
    exact ⟨hamid, hamid.resolves⟩
  · obtain ⟨-, hwf, hleft, hright, -⟩ := sides_lawful he.wellFormed hq
    have hproper : (e.question q depth).Proper := ⟨hwf.graph, hleft, hright⟩
    exact (hproper.asks h).safe

instance (e : Engine) (scope : ScopeRef) : Decidable (e.HasScope scope) :=
  inferInstanceAs (Decidable (scope < e.scopes.frames.size))

/-- A scope that names a template and an inner scope that names a terminal; and, of the template,
the overload set of a generic instance, and an instance of the terminal. -/
def nested : Engine :=
  let e := (new { rollbackOnFailure := true }).newScope.2
  let e := (e.newChild 0).2
  let e := e.attempt (e.ensureTemplate 0 "List" (.named ["T"]))
  let e := e.attempt (e.ensureTerminal 1 "Int")
  let e := (e.addConstraint none).2
  let e := e.attempt (e.applyTemplate 1 [4])
  let e := (e.addUnion [5]).2
  e.attempt (e.applyTemplate 1 [3])

lemma reachable_nested : nested.Reachable := by
  have hscopes : ((new { rollbackOnFailure := true }).newScope.2.newChild 0).2.Reachable :=
    .next (.next (.new _) .newScope) (.newChild (by decide))
  have hlist := hscopes.perform 0 (.ensureTemplate 0 "List" (.named ["T"])) ⟨by decide, trivial⟩ rfl
  have hint := hlist.perform 0 (.ensureTerminal 1 "Int") (show HasScope _ 1 by decide) rfl
  have hgeneric := (hint.next (.addConstraint none)).perform 0 (.applyTemplate 1 [4])
    (show ∀ x ∈ [4], Has _ x by decide) rfl
  have hunion := hgeneric.perform 0 (.addUnion [5]) (show ∀ x ∈ [5], Has _ x by decide) rfl
  exact hunion.perform 0 (.applyTemplate 1 [3]) (show ∀ x ∈ [3], Has _ x by decide) rfl

/-- In the midst of a trial a variable is bound and on the trail, and the engine is intact. The
variable was free when its question was raised, and what the scopes name is there. -/
theorem intact_throughout_trial :
    let q := Query.unify 6 7
    let s := (trial 7 5 nested.store).2
    let e' : Engine := { nested with store := s.bind 8 3 }
    nested.Reachable ∧ nested.Amid q e' ∧ e'.store.trail = [8] ∧ e'.Intact ∧
      (ReflTransGen Question.Raises (nested.question q 3) ⟨1, 8, 3, s⟩ ∧
        Question.rule ⟨1, 8, 3, s⟩ = .assign 8 3 ∧ s.graph.isFree 8 = true) ∧
      e'.scopes.lookup 1 "List" = some (.template 1) ∧ e'.HasEntry (.template 1) := by
  intro q s e'
  have he := reachable_nested
  have htry : Tries 2 6 7 nested.store 5 7 nested.store :=
    ⟨6, [5], 0, [], by decide +kernel, rfl, rfl⟩
  have hcmp : Compares 1 9 10 s 8 3 s := ⟨[8], [3], 0, by decide +kernel, rfl, rfl, rfl⟩
  have hrun : unifier 2 9 10 s = .done 9 (s.bind 8 3) := by decide +kernel
  have hpass : Passes 3 6 7 nested.store (s.bind 8 3) := .trying htry (.finish (Or.inl ⟨9, hrun⟩))
  have hamid : nested.Amid q e' := .unifying hpass
  have hraise : ReflTransGen Question.Raises (nested.question q 3) ⟨1, 8, 3, s⟩ :=
    (ReflTransGen.single (.trying htry)).tail (.comparing hcmp)
  have hrule : Question.rule ⟨1, 8, 3, s⟩ = .assign 8 3 := by decide +kernel
  obtain ⟨-, -, -, hquery⟩ := intact_throughout he
  obtain ⟨hmoments, hquestions⟩ := hquery q (by decide)
  obtain ⟨hintact, hresolves⟩ := hmoments e' hamid
  have hname : e'.scopes.lookup 1 "List" = some (.template 1) := by decide +kernel
  exact ⟨he, hamid, rfl, hintact, ⟨hraise, hrule, ((hquestions 3 _ hraise).assigns hrule).1⟩,
    hname, hresolves.entries hname⟩

end Engine

end Unification
