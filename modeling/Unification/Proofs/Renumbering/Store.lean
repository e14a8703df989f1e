import Unification.Proofs.Renumbering.Text

/-!
# Stores under a renumbering

A graph numbers its new nodes in order. So a renumbering can be fixed before any node is added: it
takes the types that one graph will add to the types that the other will add, in order. Under such a
renumbering two graphs stay related when a node is added to both, when a variable is bound or
cleared in both, and when a type is renewed in both; and two stores stay related when both go back
to one mark.
-/

namespace Unification

lemma Node.mem_children_rebind {binding : Option TypeRef} {n : Node} {y : TypeRef}
    (h : y ∈ (n.rebind binding).children) : y ∈ binding ∨ y ∈ n.children := by
  cases n with
  | var name _ => exact Or.inl (Option.mem_toList.mp h)
  | _ => exact Or.inr h

namespace Renumbering

variable {φ : Renumbering} {g g' : Graph} {how : Renewal} {d d' : Draft} {s s' : Store}
  {r ty v : TypeRef} {n : Node}

/-- The second type is the first one with its new number. -/
def Sends (φ : Renumbering) (r r' : TypeRef) : Prop :=
  r ∈ φ.types ∧ φ.type r = r'

/-- The graphs are related, and the types that the first graph will add become those that the second
graph will add. -/
structure Tracks (φ : Renumbering) (g g' : Graph) : Prop extends φ.Relates g g' where
  fresh : ∀ k, φ.Sends (g.nodes.size + k) (g'.nodes.size + k)

/-! ### Adding and binding -/

lemma Tracks.sends_size (h : φ.Tracks g g') : φ.Sends g.nodes.size g'.nodes.size :=
  h.fresh 0

lemma Tracks.add (h : φ.Tracks g g') (hn : ∀ c ∈ n.children, c ∈ φ.types)
    (ht : ∀ t args, n = .inst t args → t ∈ φ.templates) :
    φ.Tracks (g.add n).2 (g'.add (φ.node n)).2 where
  encloses x y hx hxy := by
    rcases Graph.edge_add.mp hxy with ⟨_, hy⟩ | ⟨_, hxy⟩
    · exact hn y hy
    · exact h.encloses hx hxy
  applied x hx t args hxt := by
    rw [Graph.node?_add] at hxt
    split_ifs at hxt
    · exact ht t args (Option.some.inj hxt)
    · exact h.applied x hx t args hxt
  node x hx := by
    have hnew : φ.type x = g'.nodes.size ↔ x = g.nodes.size := by
      rw [← h.sends_size.2, type_eq_iff hx h.sends_size.1]
    simp only [Graph.node?_add, hnew]
    split_ifs
    · rfl
    · exact h.node x hx
  name := h.name
  arity := h.arity
  fresh k := by
    rw [Graph.size_add, Graph.size_add, Nat.add_assoc, Nat.add_assoc]
    exact h.fresh (1 + k)

lemma node_rebind (φ : Renumbering) (binding : Option TypeRef) (n : Node) :
    φ.node (n.rebind binding) = (φ.node n).rebind (binding.map φ.type) := by
  cases n <;> rfl

lemma Tracks.setBinding (h : φ.Tracks g g') (hv : v ∈ φ.types) (binding : Option TypeRef)
    (hb : ∀ b ∈ binding, b ∈ φ.types) :
    φ.Tracks (g.setBinding v binding) (g'.setBinding (φ.type v) (binding.map φ.type)) where
  encloses x y hx hxy := by
    obtain ⟨n, hn, hy⟩ := Graph.edge_iff.mp hxy
    rw [Graph.node?_setBinding] at hn
    split_ifs at hn
    · obtain ⟨m, hm, rfl⟩ := Option.map_eq_some_iff.mp hn
      rcases Node.mem_children_rebind hy with hy | hy
      · exact hb y hy
      · exact h.encloses.children hx hm y hy
    · exact h.encloses.children hx hn y hy
  applied x hx t args hxt := by
    rw [Graph.node?_setBinding] at hxt
    split_ifs at hxt
    · obtain ⟨m, hm, hinst⟩ := Option.map_eq_some_iff.mp hxt
      cases m with
      | inst u ys =>
        cases hinst
        exact h.applied x hx t args hm
      | _ => cases hinst
    · exact h.applied x hx t args hxt
  node x hx := by
    simp only [Graph.node?_setBinding, type_eq_iff hx hv, h.node x hx]
    split_ifs
    · cases g.node? x with
      | none => rfl
      | some n => exact congrArg some (node_rebind φ binding n).symm
    · rfl
  name t ht := by simpa [Graph.template?] using h.name t ht
  arity t ht := by simpa [Graph.template?] using h.arity t ht
  fresh k := by simpa using h.fresh k

lemma Tracks.clearAll (h : φ.Tracks g g') {vs : List TypeRef} (hvs : ∀ v ∈ vs, v ∈ φ.types) :
    φ.Tracks (g.clearAll vs) (g'.clearAll (vs.map φ.type)) := by
  induction vs generalizing g g' with
  | nil => exact h
  | cons v vs ih =>
    exact ih (h.setBinding (hvs v (by simp)) none (by simp))
      fun w hw => hvs w (by simp [hw])

/-! ### Renewing a type -/

/-- The graphs of the drafts are related, and the same placeholders have been replaced by the same
types. -/
structure TracksDraft (φ : Renumbering) (d d' : Draft) : Prop where
  graph  : φ.Tracks d.graph d'.graph
  chosen : ∀ r ∈ φ.types, d'.chosen.get? (φ.type r) = (d.chosen.get? r).map φ.type
  known  : ∀ ⦃r image⦄, d.chosen.get? r = some image → image ∈ φ.types

lemma TracksDraft.add (h : φ.TracksDraft d d') (hn : ∀ c ∈ n.children, c ∈ φ.types)
    (ht : ∀ t args, n = .inst t args → t ∈ φ.templates) :
    φ.Sends (d.add n).1 (d'.add (φ.node n)).1 ∧
      φ.TracksDraft (d.add n).2 (d'.add (φ.node n)).2 :=
  ⟨h.graph.sends_size, h.graph.add hn ht, h.chosen, h.known⟩

lemma TracksDraft.record (h : φ.TracksDraft d d') {image image' : TypeRef} (hr : r ∈ φ.types)
    (himage : φ.Sends image image') :
    φ.TracksDraft (d.record r image) (d'.record (φ.type r) image') where
  graph := h.graph
  chosen x hx := by
    by_cases hxr : x = r
    · subst hxr
      simp [Draft.record, himage.2]
    · have hne : φ.type x ≠ φ.type r := fun heq => hxr ((type_eq_iff hx hr).mp heq)
      simp only [Draft.record, Renaming.get?_insert_of_ne _ _ hxr,
        Renaming.get?_insert_of_ne _ _ hne]
      exact h.chosen x hx
  known x i hi := by
    by_cases hxr : x = r
    · subst hxr
      simp only [Draft.record, Renaming.get?_insert_self, Option.some.injEq] at hi
      exact hi ▸ himage.1
    · exact h.known (by simpa [Draft.record, Renaming.get?_insert_of_ne _ image hxr] using hi)

/-- The replacement of a placeholder depends on its kind and its name. It has no references. -/
lemma replacement_placeholder (φ : Renumbering) (how : Renewal) (p : Placeholder) :
    how.replacement (φ.placeholder p) = (how.replacement p).map φ.node := by
  obtain ⟨ref, kind, name⟩ := p
  cases how <;> cases kind <;> rfl

lemma TracksDraft.replace (h : φ.TracksDraft d d') {p : Placeholder} (hp : p.ref ∈ φ.types) :
    φ.Sends (d.replace how p).1 (d'.replace how (φ.placeholder p)).1 ∧
      φ.TracksDraft (d.replace how p).2 (d'.replace how (φ.placeholder p)).2 := by
  have hget : d'.chosen.get? (φ.placeholder p).ref = (d.chosen.get? p.ref).map φ.type :=
    h.chosen p.ref hp
  rw [Draft.replace, Draft.replace, hget, replacement_placeholder]
  cases hd : d.chosen.get? p.ref with
  | some image => exact ⟨⟨h.known hd, rfl⟩, h⟩
  | none =>
    cases hrep : how.replacement p with
    | none => exact ⟨⟨hp, rfl⟩, h.record hp ⟨hp, rfl⟩⟩
    | some n =>
      obtain ⟨hchildren, -⟩ := Draft.replacement_cases hrep
      have hinst : ∀ t args, n = .inst t args → t ∈ φ.templates := by
        rintro t args rfl
        obtain ⟨_, kind, _⟩ := p
        cases how <;> cases kind <;> simp [Renewal.replacement] at hrep
      obtain ⟨hsends, hadd⟩ := h.add (n := n) (by simp [hchildren]) hinst
      exact ⟨hsends, hadd.record hp hsends⟩

lemma TracksDraft.buildAll (ts : List Tree)
    (build : ∀ t ∈ ts, ∀ d d' : Draft, φ.TracksDraft d d' →
      φ.Sends (d.build how t).1 (d'.build how (φ.tree t)).1 ∧
        φ.TracksDraft (d.build how t).2 (d'.build how (φ.tree t)).2) (h : φ.TracksDraft d d') :
    ((∀ r ∈ (d.buildAll how ts).1, r ∈ φ.types) ∧
      (d.buildAll how ts).1.map φ.type = (d'.buildAll how (ts.map φ.tree)).1) ∧
        φ.TracksDraft (d.buildAll how ts).2 (d'.buildAll how (ts.map φ.tree)).2 := by
  induction ts generalizing d d' with
  | nil => exact ⟨⟨by simp [Draft.buildAll], rfl⟩, h⟩
  | cons t ts ih =>
    obtain ⟨⟨hmem, hfirst⟩, h₁⟩ := build t (by simp) d d' h
    obtain ⟨⟨hmems, hrest⟩, h₂⟩ := ih (fun u hu => build u (by simp [hu])) h₁
    refine ⟨⟨List.forall_mem_cons.mpr ⟨hmem, hmems⟩, ?_⟩, h₂⟩
    simp only [List.map_cons, Draft.buildAll, hfirst, hrest]

/-- From a renumbered tree the renumbered type is built. -/
lemma TracksDraft.build (how : Renewal) {t : Tree} (ht : t.Over φ.types φ.templates)
    (h : φ.TracksDraft d d') :
    φ.Sends (d.build how t).1 (d'.build how (φ.tree t)).1 ∧
      φ.TracksDraft (d.build how t).2 (d'.build how (φ.tree t)).2 := by
  induction ht generalizing d d' with
  | terminal hr =>
    rw [tree_terminal, Draft.build, Draft.build]
    exact ⟨⟨hr, rfl⟩, h⟩
  | placeholder hp =>
    rw [tree_placeholder, Draft.build, Draft.build]
    exact h.replace hp
  | @inst f args hf _ ih =>
    obtain ⟨⟨hmem, hargs⟩, h₁⟩ := h.buildAll args fun u hu d d' => ih u hu
    rw [tree_inst, Draft.build, Draft.build, ← hargs]
    refine h₁.add hmem ?_
    rintro _ _ ⟨⟩
    exact hf
  | union hr =>
    rw [tree_union, Draft.build, Draft.build]
    exact ⟨⟨hr, rfl⟩, h⟩

/-- Renewing a renumbered type gives the renumbered result. -/
theorem Tracks.renew (h : φ.Tracks g g') (hg : g.WellFormed) (hg' : g'.WellFormed) (how : Renewal)
    (hr : r ∈ φ.types) :
    φ.Sends (g.renew how r).1 (g'.renew how (φ.type r)).1 ∧
      φ.Tracks (g.renew how r).2 (g'.renew how (φ.type r)).2 := by
  have hd : φ.TracksDraft { graph := g } { graph := g' } :=
    ⟨h, fun _ _ => rfl, by simp [Renaming.get?]⟩
  have hbuild := hd.build how (h.over_resolve hg hr)
  simp only [Graph.renew, Draft.renew, h.resolve hg hg' hr]
  exact hbuild.imp_right TracksDraft.graph

/-! ### Stores -/

/-- The stores are well formed, their graphs are related, and their trails have the same
variables. -/
structure TracksStore (φ : Renumbering) (s s' : Store) : Prop where
  graph : φ.Tracks s.graph s'.graph
  left  : s.graph.WellFormed
  right : s'.graph.WellFormed
  trail : s'.trail = s.trail.map φ.type
  bound : ∀ v ∈ s.trail, v ∈ φ.types

lemma TracksStore.mark (h : φ.TracksStore s s') : s'.mark = s.mark := by
  rw [Store.mark, Store.mark, h.trail, List.length_map]

lemma TracksStore.renew (h : φ.TracksStore s s') (how : Renewal) (hr : r ∈ φ.types)
    (hlt : r < s.graph.nodes.size) :
    φ.Sends (s.renew how r).1 (s'.renew how (φ.type r)).1 ∧
      φ.TracksStore (s.renew how r).2 (s'.renew how (φ.type r)).2 := by
  have hlt' := (h.graph.lt_size_iff hr).mpr hlt
  obtain ⟨hsends, hgraph⟩ := h.graph.renew h.left h.right how hr
  exact ⟨hsends, hgraph, Graph.wellFormed_renew how h.left hlt,
    Graph.wellFormed_renew how h.right hlt', h.trail, h.bound⟩

lemma TracksStore.bind (h : φ.TracksStore s s') (hv : v ∈ φ.types) (hty : ty ∈ φ.types)
    (hfree : s.graph.isFree v = true) (hlt : ty < s.graph.nodes.size)
    (hocc : ¬ s.graph.Reaches ty v) :
    φ.TracksStore (s.bind v ty) (s'.bind (φ.type v) (φ.type ty)) where
  graph := h.graph.setBinding hv (some ty) (by simpa using hty)
  left := h.left.bind hfree hlt hocc
  right := by
    apply h.right.bind
    · obtain ⟨name, hn⟩ := (Graph.isFree_eq_true_iff _ _).mp hfree
      exact (Graph.isFree_eq_true_iff _ _).mpr ⟨name, by rw [h.graph.node v hv, hn]; rfl⟩
    · exact (h.graph.lt_size_iff hty).mpr hlt
    · rwa [h.graph.reaches_iff hty hv]
  trail := by rw [Store.bind, Store.bind, h.trail, List.map_cons]
  bound := List.forall_mem_cons.mpr ⟨hv, h.bound⟩

lemma TracksStore.rewind (h : φ.TracksStore s s') (k : Nat) :
    φ.TracksStore (s.rewind k) (s'.rewind k) where
  graph := by
    have hsince : s'.boundSince k = (s.boundSince k).map φ.type := by
      rw [Store.boundSince, Store.boundSince, h.trail, List.length_map, List.map_take]
    rw [Store.graph_rewind, Store.graph_rewind, hsince]
    exact h.graph.clearAll fun v hv => h.bound v (List.mem_of_mem_take hv)
  left := Store.wellFormed_rewind h.left k
  right := Store.wellFormed_rewind h.right k
  trail := by
    simp only [Store.rewind, h.trail, List.length_map, List.map_drop]
  bound v hv := h.bound v (List.mem_of_mem_drop hv)

end Renumbering

end Unification
