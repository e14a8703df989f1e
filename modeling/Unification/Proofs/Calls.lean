import Unification.Proofs.Locality
import Unification.Proofs.Renumbering.Surroundings

/-!
# Calls of one callee

A call works on a fresh instance of its callee. So a callee that leads to no free variable is the
same after the call, and what the call binds otherwise is reached from its own arguments and result.
A second call whose types lead to none of the same free variables is answered as if the first had
not been made, also if the first has failed halfway and left bindings behind.
-/

namespace Unification

open Outcome

namespace Graph

variable {g g' : Graph} {r v : TypeRef}

/-- A type that leads to no free variable reads the same whatever is bound. -/
lemma Extends.resolve_eq_of_no_free (h : g.Extends g') (hg : g.WellFormed) (hg' : g'.WellFormed)
    (hr : r < g.nodes.size) (hclosed : ∀ v, g.Reaches r v → g.isFree v = false) :
    g'.resolve r = g.resolve r := by
  refine h.resolve_eq_of_free hg hg' hr fun v hv => ?_
  obtain ⟨p, hp, hk, rfl⟩ := Tree.mem_vars.mp hv
  have hbound := hclosed p.ref (mem_placeholders_resolve hg hr hp).1
  simp [isFree_of_mem_vars hg hr hv] at hbound

end Graph

namespace Engine

variable {e e' : Engine} {ψ : Renumbering} {T : Set TypeRef} {q : Query} {n depth d : Nat}
  {args args₁ args₂ : List TypeRef} {callee r r₁ r₂ : TypeRef}

/-! ### The two sides of a call -/

/-- Function types of renumbered types are renumbered. -/
lemma addFunction_tracks (h : ψ.TracksStore e.store e'.store) (he : e.WellFormed)
    (he' : e'.WellFormed) (hfun : functionTemplate ∈ ψ.templates)
    (hfix : ψ.template functionTemplate = functionTemplate)
    (hargs : ∀ x ∈ args, x ∈ ψ.types ∧ e.Has x) (hr : r ∈ ψ.types ∧ e.Has r) :
    ψ.Sends (e.addFunction args r).1 (e'.addFunction (args.map ψ.type) (ψ.type r)).1 ∧
      ψ.TracksStore (e.addFunction args r).2.store
        (e'.addFunction (args.map ψ.type) (ψ.type r)).2.store := by
  have hhas' : ∀ x, x ∈ ψ.types ∧ e.Has x → e'.Has (ψ.type x) := fun x hx =>
    (h.graph.lt_size_iff hx.1).mpr hx.2
  induction args with
  | nil => exact ⟨⟨hr.1, rfl⟩, h⟩
  | cons x args ih =>
    have hrest : ∀ y ∈ args, y ∈ ψ.types ∧ e.Has y := fun y hy => hargs y (by simp [hy])
    obtain ⟨⟨hout, hsends⟩, h₁⟩ := ih hrest
    have hwf := (he.addFunction (fun y hy => (hargs y hy).2) hr.2).1.graph
    have hwf' : (e'.addFunction ((x :: args).map ψ.type) (ψ.type r)).2.graph.WellFormed := by
      refine (he'.addFunction ?_ (hhas' r hr)).1.graph
      intro y hy
      obtain ⟨z, hz, rfl⟩ := List.mem_map.mp hy
      exact hhas' z (hargs z hz)
    have hadd := h₁.graph.add (n := .inst functionTemplate [x, (e.addFunction args r).1])
      (by simp [Node.children, (hargs x (by simp)).1, hout]) (by rintro _ _ ⟨⟩; exact hfun)
    simp only [Renumbering.node, hfix, List.map_cons, List.map_nil, hsends] at hadd
    exact ⟨h₁.graph.sends_size, hadd, hwf, hwf', h₁.trail, h₁.bound⟩

/-- A function type has no leaves but those of its parts. -/
lemma rooted_addFunction (he : e.WellFormed)
    (hargs : ∀ x ∈ args, e.Has x ∧ (e.graph.resolve x).Rooted n)
    (hr : e.Has r ∧ (e.graph.resolve r).Rooted n) :
    ((e.addFunction args r).2.graph.resolve (e.addFunction args r).1).Rooted n := by
  induction args with
  | nil => exact hr.2
  | cons x args ih =>
    have hhas : ∀ y ∈ x :: args, e.Has y := fun y hy => (hargs y hy).1
    obtain ⟨hwf, hlt, hkeep⟩ := he.addFunction (fun y (hy : y ∈ args) => hhas y (by simp [hy])) hr.1
    obtain ⟨hwf', -, hkeep'⟩ := he.addFunction hhas hr.1
    have hnode : (e.addFunction (x :: args) r).2.graph.node? (e.addFunction (x :: args) r).1 =
        some (.inst functionTemplate [x, (e.addFunction args r).1]) := by
      exact (Graph.node?_add _ _ _).trans (if_pos rfl)
    have hlast := (Graph.keeps_add (e.addFunction args r).2.graph
      (.inst functionTemplate [x, (e.addFunction args r).1])).resolve_eq hwf.graph hwf'.graph hlt
    rw [Graph.resolve_inst hwf'.graph hnode]
    refine .inst ?_
    simp only [List.map_cons, List.map_nil, List.forall_mem_cons, List.not_mem_nil, false_imp_iff,
      implies_true, and_true]
    constructor
    · rw [hkeep'.resolve_eq he.graph hwf'.graph (hhas x (by simp))]
      exact (hargs x (by simp)).2
    · exact hlast.symm ▸ ih fun y hy => hargs y (by simp [hy])

/-- In engines that share the types of a call, its two sides correspond. -/
lemma sides_tracks (h : e.store.Shares T e'.store) (he : e.WellFormed) (he' : e'.WellFormed)
    (hq : ∀ x ∈ (Query.call callee args r).types, x ∈ T) :
    let q := Query.call callee args r
    h.shift.Sends (e.sides q).1.1 (e'.sides q).1.1 ∧
      h.shift.Sends (e.sides q).1.2 (e'.sides q).1.2 ∧
      h.shift.TracksStore (e.sides q).2.store (e'.sides q).2.store := by
  intro q
  have hhas : ∀ x ∈ T, e.Has x := h.lt_size
  simp only [Query.types, List.forall_mem_cons] at hq
  obtain ⟨hcallee, hr, hargs⟩ := hq
  obtain ⟨-, -, hkeeps⟩ := he.addFunction (fun x hx => hhas x (hargs x hx)) (hhas r hr)
  obtain ⟨hshape, h₁⟩ := addFunction_tracks (h.tracks he.trail he'.trail) he he' (Set.mem_univ _)
    rfl (fun x hx => ⟨h.mem_shift (hargs x hx), hhas x (hargs x hx)⟩) ⟨h.mem_shift hr, hhas r hr⟩
  rw [h.type_shift hr, List.map_congr_left (fun x hx => h.type_shift (hargs x hx)),
    List.map_id'] at hshape h₁
  obtain ⟨hinst, h₂⟩ := h₁.renew .instantiate (h.mem_shift hcallee)
    ((hhas callee hcallee).trans_le hkeeps.extends.size_le)
  rw [h.type_shift hcallee] at hinst h₂
  exact ⟨hinst, hshape, h₂⟩

/-- The two sides of a call have no new leaves but variables. -/
lemma rooted_sides (he : e.WellFormed) (hq : ∀ x ∈ (Query.call callee args r).types, e.Has x) :
    let e₁ := e.sides (.call callee args r)
    (e₁.2.graph.resolve e₁.1.1).Rooted e.graph.nodes.size ∧
      (e₁.2.graph.resolve e₁.1.2).Rooted e.graph.nodes.size := by
  intro e₁
  have hroot : ∀ x, e.Has x → e.Has x ∧ (e.graph.resolve x).Rooted e.graph.nodes.size :=
    fun x hx => ⟨hx, Graph.rooted_resolve he.graph hx⟩
  simp only [Query.types, List.forall_mem_cons] at hq
  obtain ⟨hcallee, hr, hargs⟩ := hq
  obtain ⟨hfun, hlt, hkeeps⟩ := he.addFunction hargs hr
  have hcallee₁ := hcallee.trans_le hkeeps.extends.size_le
  have hrenew := Graph.wellFormed_renew .instantiate hfun.graph hcallee₁
  constructor
  · obtain ⟨ρ, hρ⟩ := Graph.resolve_renew .instantiate hfun.graph hcallee₁
    rw [hkeeps.resolve_eq he.graph hfun.graph hcallee] at hρ
    exact hρ.symm ▸ (hroot callee hcallee).2.instantiate ρ
  · have hshape := rooted_addFunction he (fun x hx => hroot x (hargs x hx)) (hroot r hr)
    have hkeeps' := (Graph.appends_renew .instantiate hfun.graph hcallee₁).keeps
    exact (hkeeps'.resolve_eq hfun.graph hrenew hlt).symm ▸ hshape

/-- In engines that share the types of a call, the call gives the same answer, and afterwards the
shared types read the same up to the new variables. -/
lemma call_alike (h : e.store.Shares T e'.store) (he : e.WellFormed) (he' : e'.WellFormed)
    (hq : ∀ x ∈ (Query.call callee args r).types, x ∈ T)
    (hflag : e'.config.rollbackOnFailure = e.config.rollbackOnFailure) (depth : Nat) :
    (e.call depth callee args r).Alike Eq (fun _ _ => True)
      (fun e₁ e₁' => Graph.AgreeOn T e.graph.nodes.size e'.graph.nodes.size e₁.graph e₁'.graph)
      (e'.call depth callee args r) := by
  have hhas : ∀ x ∈ (Query.call callee args r).types, e.Has x := fun x hx => h.lt_size x (hq x hx)
  have hhas' : ∀ x ∈ (Query.call callee args r).types, e'.Has x := fun x hx =>
    (h.lt_sizes x (hq x hx)).2
  obtain ⟨hquiet, hwf, hinst, hshape, -⟩ := sides_lawful he hhas
  obtain ⟨hquiet', hwf', hinst', hshape', -⟩ := sides_lawful he' hhas'
  obtain ⟨hleft, hright⟩ := rooted_sides he hhas
  obtain ⟨⟨hinstT, hsendsInst⟩, ⟨hshapeT, hsendsShape⟩, htracks⟩ := sides_tracks h he he' hq
  have halike := unify_alike htracks h.separates
    (by rw [hquiet.config, hquiet'.config, hflag]) hinstT hshapeT hinst hshape depth
  rw [hsendsInst, hsendsShape] at halike
  refine halike.mono (fun _ _ => Renumbering.eq_of_sameError_shift) (fun _ _ _ => trivial) ?_
  intro e₁ e₁' hend hend' hrel
  have hext := (answer_confined (q := .call callee args r) he hhas hend).1
  refine Renumbering.Relates.agreeOn hrel (hwf.unify hinst hshape hend).graph
    (hwf'.unify hinst' hshape' hend').graph fun x hx => ?_
  have hx' : e.Has x := h.lt_size x hx
  have hold : ((e.sides (.call callee args r)).2.graph.resolve x).Rooted e.graph.nodes.size :=
    (hquiet.store.graph.resolve_eq he.graph hwf.graph hx').symm ▸ Graph.rooted_resolve he.graph hx'
  exact ⟨hx'.trans_le hext.size_le, unify_inherits (Tree.hereditary_rooted _) hwf hinst hshape
    hleft hright hend x (hquiet.has hx') hold⟩

/-! ### What a query leaves as it was -/

/-- A query changes neither templates nor settings. -/
lemma answer_keeps (he : e.WellFormed) (hq : ∀ x ∈ q.types, e.Has x)
    (h : (e.answer depth q).EndsIn e') :
    e'.graph.templates = e.graph.templates ∧ e'.config = e.config := by
  obtain ⟨hquiet, hwf, hleft, hright, -⟩ := sides_lawful he hq
  rw [answer_eq_unify] at h
  obtain ⟨s, hrun, hend⟩ := unify_endsIn h
  obtain ⟨hadv, -⟩ := (lawful_unifier depth).advances hwf.graph hleft hright hrun
  rcases hend with rfl | rfl
  · exact ⟨hadv.templates.trans hquiet.store.templates, hquiet.config⟩
  · exact ⟨hadv.quiet_rewind.templates.trans hquiet.store.templates, hquiet.config⟩

/-- After a query the engine still shares with the one before all types that lead to none of the
free variables that the types of the query lead to. -/
lemma shares_of_answer (he : e.WellFormed) (he' : e'.WellFormed) (hq : ∀ x ∈ q.types, e.Has x)
    (h : (e.answer depth q).EndsIn e') (hT : e.graph.Encloses T) (hlt : ∀ x ∈ T, e.Has x)
    (hfree : ∀ x ∈ T, e.graph.isFree x = true → ∀ y ∈ q.types, ¬ e.graph.Reaches y x) :
    e.store.Shares T e'.store where
  left := he.graph
  right := he'.graph
  encloses := hT
  lt_size := hlt
  node x hx := by
    obtain ⟨hext, hout⟩ := answer_confined he hq h
    obtain ⟨n, hn⟩ := Graph.exists_node? (hlt x hx)
    cases hnfree : n.isFree with
    | false => exact (hext.node? hn hnfree).trans hn.symm
    | true =>
      -- a free variable of the set is out of the reach of the query
      have hxfree : e.graph.isFree x = true := by simp [Graph.isFree, hn, hnfree]
      refine hout x ?_ (hlt x hx)
      rintro (⟨y, hy, hyx⟩ | hge)
      · exact hfree x hx hxfree y hy hyx
      · exact absurd (hlt x hx) (Nat.not_lt.mpr hge)
  templates := (answer_keeps he hq h).1

/-! ### Two calls -/

/-- Let a callee lead to no free variable, and let two calls of it have no free variable in common
that their arguments and results lead to. Then the second call is answered, after the first has
succeeded or failed, as if the first had not been made: it returns or does not, it succeeds or fails
with the same error, and afterwards its arguments and its result read the same, up to a renaming of
the variables that it creates. And no call changes what the callee reads as. -/
theorem call_after_call (he : e.Reachable) (hcallee : e.Has callee)
    (hargs₁ : ∀ x ∈ args₁, e.Has x) (hr₁ : e.Has r₁) (hargs₂ : ∀ x ∈ args₂, e.Has x)
    (hr₂ : e.Has r₂) (hclosed : ∀ v, e.graph.Reaches callee v → e.graph.isFree v = false)
    (hapart : ∀ x ∈ r₁ :: args₁, ∀ y ∈ r₂ :: args₂, ∀ v, e.graph.Reaches x v →
      e.graph.Reaches y v → e.graph.isFree v = false)
    (hfirst : (e.call d callee args₁ r₁).EndsIn e') :
    (∀ depth, (e.call depth callee args₂ r₂).Alike Eq (fun _ _ => True)
        (fun e₁ e₁' => Graph.AgreeOn {x | x ∈ r₂ :: args₂} e.graph.nodes.size
          e'.graph.nodes.size e₁.graph e₁'.graph)
        (e'.call depth callee args₂ r₂)) ∧
      e'.graph.resolve callee = e.graph.resolve callee ∧
      ∀ depth e₁, (e.call depth callee args₂ r₂).EndsIn e₁ ∨
        (e'.call depth callee args₂ r₂).EndsIn e₁ →
          e₁.graph.resolve callee = e.graph.resolve callee := by
  have hq₁ : ∀ x ∈ (Query.call callee args₁ r₁).types, e.Has x := by
    simpa [Query.types, hcallee, hr₁] using hargs₁
  have hq₂ : ∀ x ∈ (Query.call callee args₂ r₂).types, e.Has x := by
    simpa [Query.types, hcallee, hr₂] using hargs₂
  have hwf := he.wellFormed
  have hwf' : e'.WellFormed := hwf.next (.call hcallee hargs₁ hr₁ hfirst)
  have hext := (answer_confined (q := .call callee args₁ r₁) hwf hq₁ hfirst).1
  have hkept := (answer_keeps (q := .call callee args₁ r₁) hwf hq₁ hfirst).2
  have hhas' : ∀ x, e.Has x → e'.Has x := fun x hx => hx.trans_le hext.size_le
  -- what the second call leads to is out of the reach of the first
  let T : Set TypeRef := {x | ∃ y ∈ (Query.call callee args₂ r₂).types, e.graph.Reaches y x}
  have hmem : ∀ x ∈ (Query.call callee args₂ r₂).types, x ∈ T := fun x hx =>
    ⟨x, hx, Relation.ReflTransGen.refl⟩
  have hT : e.graph.Encloses T := by
    rintro x z ⟨y, hy, hyx⟩ hxz
    exact ⟨y, hy, hyx.tail hxz⟩
  have hlt : ∀ x ∈ T, e.Has x := by
    rintro x ⟨y, hy, hyx⟩
    exact hyx.lt_size hwf.graph.closed (hq₂ y hy)
  have hfree : ∀ x ∈ T, e.graph.isFree x = true → ∀ z ∈ (Query.call callee args₁ r₁).types,
      ¬ e.graph.Reaches z x := by
    rintro x ⟨y, hy, hyx⟩ hxfree z hz hzx
    rcases List.mem_cons.mp hy with rfl | hy
    · simp [hclosed x hyx] at hxfree
    · rcases List.mem_cons.mp hz with rfl | hz
      · simp [hclosed x hzx] at hxfree
      · simp [hapart z hz y hy x hzx hyx] at hxfree
  have hshares := shares_of_answer hwf hwf' hq₁ hfirst hT hlt hfree
  refine ⟨fun depth => ?_, ?_, ?_⟩
  · refine (call_alike hshares hwf hwf' hmem (by rw [hkept]) depth).mono (fun _ _ h => h)
      (fun _ _ h => h) fun _ _ _ _ h => h.mono ?_
    exact fun x hx => hmem x (List.mem_cons_of_mem callee hx)
  · exact hext.resolve_eq_of_no_free hwf.graph hwf'.graph hcallee hclosed
  · rintro depth e₁ (hend | hend)
    · exact (answer_confined (q := .call callee args₂ r₂) hwf hq₂ hend).1.resolve_eq_of_no_free
        hwf.graph (hwf.next (.call hcallee hargs₂ hr₂ hend)).graph hcallee hclosed
    · have hargs₂' : ∀ x ∈ args₂, e'.Has x := fun x hx => hhas' x (hargs₂ x hx)
      have hext' := (answer_confined (q := .call callee args₂ r₂) hwf'
        (fun x hx => hhas' x (hq₂ x hx)) hend).1
      exact (hext.trans hext').resolve_eq_of_no_free hwf.graph
        (hwf'.next (.call (hhas' callee hcallee) hargs₂' (hhas' r₂ hr₂) hend)).graph hcallee hclosed

/-- The engine with a constraint `c`, the terminals `Int` and `String`, the callee `(c, c) -> c` and
two variables. -/
def generic : Engine :=
  let e := ((((new {}).addConstraint none).2.addTerminal "Int").2.addTerminal "String").2
  (((e.addFunction [2, 2] 2).2.addVar none).2.addVar none).2

lemma reachable_generic : generic.Reachable := by
  refine .next (.next (.next (.next (.next (.next (.new {}) (.addConstraint _)) (.addTerminal _))
    (.addTerminal _)) (.addFunction ?_ ?_)) (.addVar _)) (.addVar _)
  all_goals decide

/-- The engine after a call with `Int` and `String`, which has bound the variable of its instance to
`Int` before it failed. -/
def halfway : Engine :=
  let e := (generic.sides (.call 6 [3, 4] 7)).2
  { e with store := (e.store.bind 11 3).commit e.store.mark }

lemma call_halfway :
    generic.call 4 6 [3, 4] 7 = .failed (.incompatible "Int" "String") halfway := by
  have hrun : unifier 4 13 10 (generic.sides (.call 6 [3, 4] 7)).2.store =
      .failed (.incompatible "Int" "String")
        ((generic.sides (.call 6 [3, 4] 7)).2.store.bind 11 3) := by
    decide +kernel
  exact (answer_eq_unify generic (.call 6 [3, 4] 7) 4).trans (by rw [unify]; exact hrun ▸ rfl)

/-- After that call the callee is called with `String` and `String`, and the result is `String` as
it would have been without it. -/
theorem call_after_call_halfway : ∃ r r' e₁ e₁',
    generic.call 4 6 [4, 4] 8 = .done r e₁ ∧ halfway.call 4 6 [4, 4] 8 = .done r' e₁' ∧
      Graph.AgreeOn {x | x ∈ [8, 4, 4]} generic.graph.nodes.size halfway.graph.nodes.size e₁.graph
        e₁'.graph ∧
      e₁'.graph.resolve 6 = generic.graph.resolve 6 := by
  have hclosed := reachable_generic.wellFormed.graph.closed
  have hreach : ∀ {x v}, generic.Has x → generic.graph.Reaches x v →
      v ∈ generic.graph.reachable x := fun hx hxv => (Graph.mem_reachable_iff hclosed hx).mpr hxv
  have hcallee : ∀ v ∈ generic.graph.reachable 6, generic.graph.isFree v = false := by decide
  have happart : ∀ x ∈ [7, 3, 4], ∀ y ∈ [8, 4, 4], generic.Has x ∧ generic.Has y ∧
      ∀ v ∈ generic.graph.reachable x, v ∈ generic.graph.reachable y →
        generic.graph.isFree v = false := by
    decide
  have hfree : ∀ x ∈ 7 :: [3, 4], ∀ y ∈ 8 :: [4, 4], ∀ v, generic.graph.Reaches x v →
      generic.graph.Reaches y v → generic.graph.isFree v = false := by
    intro x hx y hy v hxv hyv
    obtain ⟨hx', hy', hfree⟩ := happart x hx y hy
    exact hfree v (hreach hx' hxv) (hreach hy' hyv)
  have hfirst : (generic.call 4 6 [3, 4] 7).EndsIn halfway := Or.inr ⟨_, call_halfway⟩
  obtain ⟨halike, -, hsame⟩ := call_after_call reachable_generic (by decide) (by decide) (by decide)
    (by decide) (by decide) (fun v hv => hcallee v (hreach (by decide) hv)) hfree hfirst
  have hdone : ∃ r e₁, generic.call 4 6 [4, 4] 8 = .done r e₁ ∧ True := by decide +kernel
  obtain ⟨r, e₁, hrun, -⟩ := hdone
  have hsecond := halike 4
  rw [hrun] at hsecond
  generalize hrun' : halfway.call 4 6 [4, 4] 8 = o at hsecond
  cases hsecond with
  | @done _ r' _ e₁' _ hagree =>
    exact ⟨r, r', e₁, e₁', hrun, rfl, hagree, hsame 4 e₁' (Or.inr (Or.inl ⟨r', hrun'⟩))⟩

end Engine

end Unification
