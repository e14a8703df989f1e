import Unification.Proofs.Depth
import Unification.Proofs.Reachable
import Unification.Proofs.Renumbering.Run

/-!
# Answers do not depend on numbers

The answer to a unification depends on what the two types lead to and on nothing else: in an engine
where the same nodes have other numbers, with any other nodes around them, the answer is the same up
to the numbers. The nodes that the two runs add correspond in order.

Two things about templates matter beside their names and arities, and a renumbering that forgets
them may change the answer: which templates are different, and for the texts of errors which one is
the template of function types.
-/

namespace Unification

open Outcome

/-- The template that an instance applies. -/
def Node.template? : Node → Option TemplateRef
  | .inst t _ => some t
  | _         => none

namespace Renumbering

variable {φ ψ : Renumbering} {g g' : Graph} {n n' : Nat}

/-! ### Numbers for new types -/

/-- The second renumbering has the types of the first and all types from `n` on, which get the
numbers from `n'` on, in order. -/
structure Extends (φ ψ : Renumbering) (n n' : Nat) : Prop where
  types     : ψ.types = φ.types ∪ Set.Ici n
  templates : ψ.templates = φ.templates
  old       : ∀ x ∈ φ.types, ψ.type x = φ.type x
  new       : ∀ k, ψ.type (n + k) = n' + k
  template  : ψ.template = φ.template

/-- The renumbering with numbers from `n'` on for the types from `n` on. -/
def extend (φ : Renumbering) (n n' : Nat) (hlt : ∀ x ∈ φ.types, x < n ∧ φ.type x < n') :
    Renumbering where
  types := φ.types ∪ Set.Ici n
  templates := φ.templates
  type x := if x < n then φ.type x else n' + (x - n)
  template := φ.template
  type_injOn := by
    rintro x (hx | hx) y (hy | hy) heq
    · simp only [hlt x hx, hlt y hy, if_true] at heq
      exact φ.type_injOn hx hy heq
    · simp only [hlt x hx, if_true, if_neg (Nat.not_lt.mpr hy)] at heq
      exact absurd heq ((hlt x hx).2.trans_le (Nat.le_add_right _ _)).ne
    · simp only [hlt y hy, if_true, if_neg (Nat.not_lt.mpr hx)] at heq
      exact absurd heq ((hlt y hy).2.trans_le (Nat.le_add_right _ _)).ne'
    · simp only [if_neg (Nat.not_lt.mpr hx), if_neg (Nat.not_lt.mpr hy)] at heq
      have hsub : x - n = y - n := Nat.add_left_cancel heq
      rw [← Nat.sub_add_cancel hx, hsub, Nat.sub_add_cancel hy]

lemma extends_extend (hlt : ∀ x ∈ φ.types, x < n ∧ φ.type x < n') :
    φ.Extends (φ.extend n n' hlt) n n' where
  types := rfl
  templates := rfl
  old x hx := if_pos (hlt x hx).1
  new k := by simp [extend]
  template := rfl

lemma Extends.separates (h : φ.Extends ψ n n') (hsep : φ.Separates) : ψ.Separates := by
  rw [Separates, h.templates, h.template]
  exact hsep

lemma Extends.sameError (h : φ.Extends ψ n n') {e e' : TypeError} (he : ψ.SameError e e') :
    φ.SameError e e' := by
  refine ⟨he.1, fun hfun => he.2 ?_⟩
  rw [KeepsFunctions, h.templates, h.template]
  exact hfun

lemma Extends.node (h : φ.Extends ψ n n') {m : Node} (hm : ∀ c ∈ m.children, c ∈ φ.types) :
    ψ.node m = φ.node m := by
  have hmap : ∀ cs : List TypeRef, (∀ c ∈ cs, c ∈ φ.types) → cs.map ψ.type = cs.map φ.type :=
    fun cs hcs => List.map_congr_left fun c hc => h.old c (hcs c hc)
  cases m with
  | terminal name | constraint name => rfl
  | var name binding =>
    cases binding with
    | none => rfl
    | some b => simp [Renumbering.node, h.old b (hm b (by simp [Node.children]))]
  | inst t args => rw [Renumbering.node, Renumbering.node, h.template, hmap args hm]
  | union members => rw [Renumbering.node, Renumbering.node, hmap members hm]

/-- A renumbering of types of a graph is extended to the types that will be added to it. -/
lemma Relates.tracks (h : φ.Relates g g') (hψ : φ.Extends ψ g.nodes.size g'.nodes.size) :
    ψ.Tracks g g' where
  encloses x y hx hxy := by
    have hxφ : x ∈ φ.types := by
      rw [hψ.types] at hx
      exact hx.resolve_right fun hle => absurd (Graph.lt_size_of_edge hxy) (Nat.not_lt.mpr hle)
    rw [hψ.types]
    exact Or.inl (h.encloses hxφ hxy)
  applied x hx t args hn := by
    have hxφ : x ∈ φ.types := by
      rw [hψ.types] at hx
      exact hx.resolve_right fun hle => absurd (Graph.lt_size_of_node? hn) (Nat.not_lt.mpr hle)
    rw [hψ.templates]
    exact h.applied x hxφ t args hn
  node x hx := by
    rw [hψ.types] at hx
    rcases hx with hx | hx
    · rw [hψ.old x hx, h.node x hx]
      cases hn : g.node? x with
      | none => rfl
      | some m => rw [Option.map_some, Option.map_some, hψ.node (h.encloses.children hx hn)]
    · obtain ⟨k, rfl⟩ := Nat.exists_eq_add_of_le hx
      rw [hψ.new k, Graph.node?_eq_none_iff.mpr (Nat.le_add_right _ k),
        Graph.node?_eq_none_iff.mpr (Nat.le_add_right _ k), Option.map_none]
  name t ht := by
    rw [hψ.template]
    exact h.name t (hψ.templates ▸ ht)
  arity t ht := by
    rw [hψ.template]
    exact h.arity t (hψ.templates ▸ ht)
  fresh k := by
    refine ⟨?_, hψ.new k⟩
    rw [hψ.types]
    exact Or.inr (Nat.le_add_right _ k)

/-! ### Finitely many types -/

/-- The renumbering of the types and templates of two lists. -/
def ofLists (types : List TypeRef) (templates : List TemplateRef) (type : TypeRef → TypeRef)
    (template : TemplateRef → TemplateRef)
    (hinj : ∀ x ∈ types, ∀ y ∈ types, type x = type y → x = y) : Renumbering where
  types := {x | x ∈ types}
  templates := {t | t ∈ templates}
  type := type
  template := template
  type_injOn := hinj

@[simp]
lemma mem_types_ofLists {types : List TypeRef} {templates : List TemplateRef}
    {type : TypeRef → TypeRef} {template : TemplateRef → TemplateRef}
    {hinj : ∀ x ∈ types, ∀ y ∈ types, type x = type y → x = y} {x : TypeRef} :
    x ∈ (ofLists types templates type template hinj).types ↔ x ∈ types :=
  Iff.rfl

/-- Whether a renumbering of finitely many types relates two graphs can be checked type by type. -/
lemma relates_ofLists {types : List TypeRef} {templates : List TemplateRef}
    {type : TypeRef → TypeRef} {template : TemplateRef → TemplateRef}
    {hinj : ∀ x ∈ types, ∀ y ∈ types, type x = type y → x = y}
    (hchildren : ∀ x ∈ types, ∀ y ∈ g.children x, y ∈ types)
    (happlied : ∀ x ∈ types, ∀ t ∈ (g.node? x).bind Node.template?, t ∈ templates)
    (hnode : ∀ x ∈ types, g'.node? (type x) =
      (g.node? x).map (ofLists types templates type template hinj).node)
    (hname : ∀ t ∈ templates,
      (g'.template? (template t)).map Template.name = (g.template? t).map Template.name)
    (harity : ∀ t ∈ templates,
      (g'.template? (template t)).map Template.arity = (g.template? t).map Template.arity) :
    (ofLists types templates type template hinj).Relates g g' where
  encloses x y hx hxy := hchildren x hx y hxy
  applied x hx t args hn := happlied x hx t (by rw [hn]; rfl)
  node := hnode
  name := hname
  arity := harity

end Renumbering

namespace Engine

variable {e e' : Engine} {φ ψ : Renumbering} {a b : TypeRef}

/-- The outcome of a unification whose run ended in this way. -/
def conclude (e : Engine) : Outcome Store TypeRef → Outcome Engine TypeRef
  | .done r s     => .done r { e with store := s.commit e.store.mark }
  | .failed err s =>
    let s := if e.config.rollbackOnFailure then s.rewind e.store.mark else s
    .failed err { e with store := s.commit e.store.mark }
  | .cut          => .cut

lemma unify_eq_conclude (e : Engine) (depth : Nat) (a b : TypeRef) :
    e.unify depth a b = e.conclude (unifier depth a b e.store) :=
  rfl

/-- Runs that ended alike in related stores conclude alike, with or without rollback. -/
lemma conclude_alike {E : TypeError → TypeError → Prop} {V : TypeRef → TypeRef → Prop}
    {o o' : Outcome Store TypeRef} (h : o.Alike E V ψ.TracksStore o')
    (hmark : e'.store.mark = e.store.mark)
    (hflag : e'.config.rollbackOnFailure = e.config.rollbackOnFailure) :
    (e.conclude o).Alike E V (fun e₁ e₁' => ψ.Relates e₁.graph e₁'.graph) (e'.conclude o') := by
  cases h with
  | done hv h => exact .done hv h.graph.toRelates
  | failed herr h =>
    simp only [conclude, hmark, hflag]
    refine .failed herr ?_
    split_ifs
    · exact (h.rewind e.store.mark).graph.toRelates
    · exact h.graph.toRelates
  | cut => exact .cut

/-- In engines with related stores a unification gives related answers. -/
lemma unify_alike (h : ψ.TracksStore e.store e'.store) (hsep : ψ.Separates)
    (hflag : e'.config.rollbackOnFailure = e.config.rollbackOnFailure) (haψ : a ∈ ψ.types)
    (hbψ : b ∈ ψ.types) (ha : e.Has a) (hb : e.Has b) (depth : Nat) :
    (e.unify depth a b).Alike ψ.SameError ψ.Sends (fun e₁ e₁' => ψ.Relates e₁.graph e₁'.graph)
      (e'.unify depth (ψ.type a) (ψ.type b)) :=
  conclude_alike (Renumbering.follows_unifier hsep depth h haψ hbψ ha hb) h.mark hflag

/-- Let a renumbering relate two reachable engines with the same rollback setting. It covers some
types of the first engine, with all that they lead to, and keeps different templates different. Then
a unification of two of these types and the unification of their images both return, or neither
does. Both succeed, or both fail with errors of one kind, and if function types stay function types
then with the same error. The results and the graphs afterwards correspond under an extension of the
renumbering, which takes the types that the one run adds to those that the other adds, in order. -/
theorem unify_renumbered (he : e.Reachable) (he' : e'.Reachable)
    (hflag : e'.config.rollbackOnFailure = e.config.rollbackOnFailure)
    (hφ : φ.Relates e.graph e'.graph) (hsep : φ.Separates) (hhas : ∀ x ∈ φ.types, e.Has x)
    (ha : a ∈ φ.types) (hb : b ∈ φ.types) :
    (e.Returns a b ↔ e'.Returns (φ.type a) (φ.type b)) ∧
      ∃ ψ, φ.Extends ψ e.graph.nodes.size e'.graph.nodes.size ∧ ∀ depth,
        (e.unify depth a b).Alike φ.SameError ψ.Sends (fun e₁ e₁' => ψ.Relates e₁.graph e₁'.graph)
          (e'.unify depth (φ.type a) (φ.type b)) := by
  have hlt : ∀ x ∈ φ.types, x < e.graph.nodes.size ∧ φ.type x < e'.graph.nodes.size := fun x hx =>
    ⟨hhas x hx, (hφ.lt_size_iff hx).mpr (hhas x hx)⟩
  let ψ := φ.extend e.graph.nodes.size e'.graph.nodes.size hlt
  have hψ : φ.Extends ψ e.graph.nodes.size e'.graph.nodes.size := Renumbering.extends_extend hlt
  have hstore : ψ.TracksStore e.store e'.store := by
    refine ⟨hφ.tracks hψ, he.wellFormed.graph, he'.wellFormed.graph, ?_, ?_⟩
    · rw [he.wellFormed.trail, he'.wellFormed.trail, List.map_nil]
    · simp [he.wellFormed.trail]
  have hmem : ∀ x ∈ φ.types, x ∈ ψ.types := fun x hx => hψ.types ▸ Or.inl hx
  have halike : ∀ depth, (e.unify depth a b).Alike φ.SameError ψ.Sends
      (fun e₁ e₁' => ψ.Relates e₁.graph e₁'.graph) (e'.unify depth (φ.type a) (φ.type b)) := by
    intro depth
    rw [← hψ.old a ha, ← hψ.old b hb]
    exact (unify_alike hstore (hψ.separates hsep) hflag (hmem a ha) (hmem b hb) (hhas a ha)
      (hhas b hb) depth).imp fun _ _ => hψ.sameError
  refine ⟨?_, ψ, hψ, halike⟩
  simp only [Returns, (halike _).finished_eq]

/-! ### The same types in another order -/

/-- The engine with a constraint `c`, the terminals `Int` and `String`, the types `c -> c` and
`Int -> String`, the overload set of the two, a variable `v` and the type `String -> v`. -/
def overloads : Engine :=
  let e := ((((new {}).addConstraint none).2.addTerminal "Int").2.addTerminal "String").2
  let e := ((e.addFunction [2] 2).2.addFunction [3] 4).2
  (((e.addUnion [5, 6]).2.addVar none).2.addFunction [4] 8).2

/-- The engine with the same types in another order. -/
def reordered : Engine :=
  let e := ((((new {}).addTerminal "String").2.addVar none).2.addFunction [2] 3).2
  let e := (((e.addTerminal "Int").2.addConstraint none).2.addFunction [6] 6).2
  ((e.addFunction [5] 2).2.addUnion [7, 8]).2

/-- The engine after the overload set was tried on `Int`: it has the instances of both members. -/
def tried : Engine :=
  let e := ((reordered.add (.var none none)).2.add (.inst functionTemplate [10, 10])).2
  (e.add (.inst functionTemplate [5, 2])).2

lemma reachable_overloads : overloads.Reachable := by
  refine .next (.next (.next (.next (.next (.next (.next (.next (.new _) (.addConstraint _))
    (.addTerminal _)) (.addTerminal _)) (.addFunction ?_ ?_)) (.addFunction ?_ ?_))
    (.addUnion ?_)) (.addVar _)) (.addFunction ?_ ?_)
  all_goals decide

lemma reachable_reordered : reordered.Reachable := by
  refine .next (.next (.next (.next (.next (.next (.next (.next (.new _) (.addTerminal _))
    (.addVar _)) (.addFunction ?_ ?_)) (.addTerminal _)) (.addConstraint _))
    (.addFunction ?_ ?_)) (.addFunction ?_ ?_)) (.addUnion ?_)
  all_goals decide

lemma unify_reordered : reordered.unify 3 9 5 =
    .failed (.noMatch "Int" "\x7b('0) -> '0|(Int) -> String\x7d") tried := by
  have hrun : unifier 3 9 5 reordered.store =
      .failed (.noMatch "Int" "\x7b('0) -> '0|(Int) -> String\x7d") tried.store := by
    decide +kernel
  rw [unify, hrun]
  rfl

lemma reachable_tried : tried.Reachable :=
  .next reachable_reordered (.unify (by decide) (by decide) (Or.inr ⟨_, unify_reordered⟩))

/-- The numbers of the types of `overloads` in the engines with the other order. -/
def reordering : Renumbering :=
  .ofLists [2, 3, 4, 5, 6, 7, 8, 9] [functionTemplate]
    (fun x => [0, 1, 6, 5, 2, 7, 8, 9, 3, 4].getD x 0) id (by decide)

lemma relates_reordering : reordering.Relates overloads.graph tried.graph := by
  apply Renumbering.relates_ofLists <;> decide

/-- The overload set is unified with `String -> v` in both engines. In the second it has been tried
before, and the instances left behind have taken numbers, so the result has another number than it
would have had. -/
theorem unify_renumbered_overload : ∃ (e₁ e₁' : Engine) (ψ : Renumbering),
    overloads.unify 4 7 9 = .done 18 e₁ ∧ tried.unify 4 9 4 = .done 21 e₁' ∧
      ψ.type 8 = 3 ∧ ψ.Relates e₁.graph e₁'.graph := by
  have hhas : ∀ x ∈ [2, 3, 4, 5, 6, 7, 8, 9], overloads.Has x := by decide
  obtain ⟨-, ψ, hψ, halike⟩ := unify_renumbered (a := 7) (b := 9) reachable_overloads
    reachable_tried rfl relates_reordering (Set.injOn_id _) hhas (by simp [reordering])
    (by simp [reordering])
  have hdone : ∃ r e₁, overloads.unify 4 7 9 = .done r e₁ ∧ r = 18 := by decide +kernel
  obtain ⟨_, e₁, hrun, rfl⟩ := hdone
  have hsame := halike 4
  rw [hrun] at hsame
  generalize hrun' : tried.unify 4 (reordering.type 7) (reordering.type 9) = o at hsame
  cases hsame with
  | @done _ r' _ e₁' hr hgraphs =>
    obtain rfl : r' = 21 := hr.2.symm.trans (hψ.new 8)
    exact ⟨e₁, e₁', ψ, hrun, hrun', hψ.old 8 (by simp [reordering]), hgraphs⟩

/-! ### Templates that look alike -/

lemma Reachable.define (he : e.Reachable) (t : Template) (hbounds : ∀ b ∈ t.bounds, e.Has b)
    (hlength : t.params.length = t.bounds.length) : (e.define t).2.Reachable :=
  .next he (.declareTemplate hbounds (if_pos hlength))

lemma Reachable.apply (he : e.Reachable) (t : TemplateRef) (args : List TypeRef) {d : Template}
    (ht : e.graph.template? t = some d) (harity : d.arity = args.length)
    (hargs : ∀ x ∈ args, e.Has x) : (e.add (.inst t args)).2.Reachable := by
  have happly : e.applyTemplate t args = .ok (e.add (.inst t args)) := by
    rw [applyTemplate, ht]
    exact if_pos harity
  exact .next he (.applyTemplate hargs happly)

/-- The engine with a terminal `A`, two templates `List`, and a template `Function` beside that of
function types. Its types are `List<A>` of the first, the second and again the first template,
`Function<A, A>` and the function type from `A` to `A`. -/
def lookalikes : Engine :=
  let e := ((new {}).addTerminal "A").2
  let e := ((e.define ⟨"List", ["T"], [2]⟩).2.define ⟨"List", ["T"], [2]⟩).2
  let e := (e.define ⟨"Function", ["Input", "Output"], [2, 2]⟩).2
  let e := (((e.add (.inst 1 [2])).2.add (.inst 2 [2])).2.add (.inst 1 [2])).2
  ((e.add (.inst 3 [2, 2])).2.addFunction [2] 2).2

lemma reachable_lookalikes : lookalikes.Reachable := by
  have hA : ((new {}).addTerminal "A").2.Reachable := .next (.new {}) (.addTerminal "A")
  have htemplates := ((hA.define ⟨"List", ["T"], [2]⟩ (by decide) rfl).define
    ⟨"List", ["T"], [2]⟩ (by decide) rfl).define
    ⟨"Function", ["Input", "Output"], [2, 2]⟩ (by decide) rfl
  have hlists := ((htemplates.apply 1 [2] rfl rfl (by decide)).apply 2 [2] rfl rfl
    (by decide)).apply 1 [2] rfl rfl (by decide)
  exact .next (hlists.apply 3 [2, 2] rfl rfl (by decide)) (.addFunction (by decide) (by decide))

/-- Takes two lists of different templates to lists of one template. -/
def mergedLists : Renumbering :=
  .ofLists [2, 3, 4] [1, 2] (fun x => if x = 4 then 5 else x) (fun _ => 1) (by decide)

/-- Takes a function type to an instance of another template. -/
def renamedFunction : Renumbering :=
  .ofLists [2, 7] [functionTemplate] (fun x => if x = 7 then 6 else x) (fun _ => 3) (by decide)

lemma relates_mergedLists : mergedLists.Relates lookalikes.graph lookalikes.graph := by
  apply Renumbering.relates_ofLists <;> decide

lemma relates_renamedFunction : renamedFunction.Relates lookalikes.graph lookalikes.graph := by
  apply Renumbering.relates_ofLists <;> decide

/-- Names and arities do not say enough about templates. Two lists of different templates are taken
to lists of one template, and a unification that fails becomes one that succeeds. A function type is
taken to an instance of another template with the same name and arity, and the error gets another
text. -/
theorem unify_lookalikes :
    lookalikes.Reachable ∧
      (mergedLists.Relates lookalikes.graph lookalikes.graph ∧
        3 ∈ mergedLists.types ∧ 4 ∈ mergedLists.types ∧
        lookalikes.unify 2 3 4 = .failed (.incompatible "List<A>" "List<A>") lookalikes ∧
        lookalikes.unify 2 (mergedLists.type 3) (mergedLists.type 4) = .done 3 lookalikes) ∧
      renamedFunction.Relates lookalikes.graph lookalikes.graph ∧ renamedFunction.Separates ∧
        7 ∈ renamedFunction.types ∧ 2 ∈ renamedFunction.types ∧
        lookalikes.unify 2 7 2 = .failed (.incompatible "(A) -> A" "A") lookalikes ∧
        lookalikes.unify 2 (renamedFunction.type 7) (renamedFunction.type 2) =
          .failed (.incompatible "Function<A, A>" "A") lookalikes := by
  have hsep : renamedFunction.Separates := fun t ht u hu _ =>
    (List.mem_singleton.mp ht).trans (List.mem_singleton.mp hu).symm
  refine ⟨reachable_lookalikes, ⟨relates_mergedLists, ?_, ?_, rfl, rfl⟩, relates_renamedFunction,
    hsep, ?_, ?_, rfl, rfl⟩
  · simp [mergedLists]
  · simp [mergedLists]
  · simp [renamedFunction]
  · simp [renamedFunction]

end Engine

end Unification
