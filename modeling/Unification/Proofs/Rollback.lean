import Unification.Proofs.Operation

/-!
# Rollback

With rollback, a unification or a call that fails leaves no trace but unbound nodes that nothing
points to. The trail is what makes this exact: it lists the variables bound since the start, each of
which was free then. The setting decides about nothing else. The answers with and without it are the
same, and after a success so are the engines.
-/

namespace Unification

open Outcome

/-- Keeping the bindings made since now takes nothing off the trail. -/
lemma Store.commit_eq_self {s : Store} {k : Nat} (h : s.mark = k) : s.commit k = s := by
  subst h
  simp [commit, mark]

namespace Engine

variable {e e' : Engine} {depth : Nat} {q : Query} {a b : TypeRef} {err : TypeError}

/-- With rollback, a unification that fails leaves unbound nodes behind and nothing else. -/
lemma quiet_of_unify_eq_failed (he : e.WellFormed) (ha : e.Has a) (hb : e.Has b)
    (hrollback : e.config.rollbackOnFailure = true) (h : e.unify depth a b = .failed err e') :
    e.Quiet e' := by
  rw [unify] at h
  cases hrun : unifier depth a b e.store with
  | cut => simp [hrun] at h
  | done r s => simp [hrun] at h
  | failed err' s =>
    obtain ⟨hadv, -⟩ := (lawful_unifier depth).advances he.graph ha hb (Or.inr ⟨err', hrun⟩)
    have hquiet := hadv.quiet_rewind
    -- the trail is as it was, so there is nothing left to keep
    have hcommit : (s.rewind e.store.mark).commit e.store.mark = s.rewind e.store.mark :=
      Store.commit_eq_self (congrArg List.length hquiet.trail)
    simp only [hrun, hrollback, if_true, hcommit, failed.injEq] at h
    obtain ⟨-, rfl⟩ := h
    exact ⟨hquiet, rfl, rfl⟩

/-! ### The setting -/

/-- Two outcomes give the same answer, and a success leaves two engines that differ only in that the
second has the settings `c`. -/
inductive SameAnswer (c : Config) : Outcome Engine TypeRef → Outcome Engine TypeRef → Prop where
  | done (r : TypeRef) (e : Engine) : SameAnswer c (.done r e) (.done r { e with config := c })
  | failed (err : TypeError) (e e' : Engine) : SameAnswer c (.failed err e) (.failed err e')
  | cut : SameAnswer c .cut .cut

lemma sameAnswer_unify (c : Config) (e : Engine) (depth : Nat) (a b : TypeRef) :
    SameAnswer c (e.unify depth a b) (unify depth { e with config := c } a b) := by
  simp only [unify]
  cases unifier depth a b e.store with
  | cut => exact .cut
  | done r s => exact .done r _
  | failed err s => exact .failed err _ _

/-- Function types are made in the same way whatever the settings are. -/
lemma addFunction_config (c : Config) (e : Engine) (args : List TypeRef) (result : TypeRef) :
    addFunction { e with config := c } args result =
      ((e.addFunction args result).1, { (e.addFunction args result).2 with config := c }) := by
  induction args with
  | nil => rfl
  | cons x args ih =>
    simp only [addFunction, List.foldr_cons] at ih ⊢
    rw [ih]
    rfl

lemma sides_config (c : Config) (e : Engine) (q : Query) :
    sides { e with config := c } q = ((e.sides q).1, { (e.sides q).2 with config := c }) := by
  cases q with
  | unify a b => rfl
  | call callee args result =>
    simp only [sides, addFunction_config]
    rfl

/-- With rollback, a query that fails leaves the engine as it was but for unbound nodes, and the
trail empty. With any other settings the answer is the same, and a success leaves the same engine
with those settings. -/
theorem answer_rollback (he : e.Reachable) (hq : ∀ r ∈ q.types, e.Has r) (depth : Nat) :
    (e.config.rollbackOnFailure = true → ∀ err e', e.answer depth q = .failed err e' →
        e.Quiet e' ∧ e'.store.trail = []) ∧
      ∀ c : Config, SameAnswer c (e.answer depth q) (answer depth { e with config := c } q) := by
  obtain ⟨hquiet, hwf, hleft, hright, -⟩ := sides_lawful he.wellFormed hq
  simp only [answer_eq_unify]
  constructor
  · intro hrollback err e' h
    rw [← hquiet.config] at hrollback
    have hall := hquiet.trans (quiet_of_unify_eq_failed hwf hleft hright hrollback h)
    exact ⟨hall, hall.store.trail.trans he.wellFormed.trail⟩
  · intro c
    rw [sides_config c e q]
    exact sameAnswer_unify c _ depth _ _

/-- A generic function from two equal types is called with `Int` and `String`. The call binds the
variable of the instance to `Int` before it fails. With rollback the variable is free again
afterwards, and without it the error is the same. -/
theorem answer_rollback_call :
    let e := ((new { rollbackOnFailure := true }).addConstraint none).2
    let e := (((e.addTerminal "Int").2.addTerminal "String").2.addVar none).2
    let e := (e.addFunction [2, 2] 2).2
    let q := Query.call 7 [3, 4] 5
    ∃ e', e.answer 4 q = .failed (.incompatible "Int" "String") e' ∧
      e'.graph.node? 10 = some (.var none none) ∧ e.Quiet e' ∧
      SameAnswer {} (e.answer 4 q) (answer 4 { e with config := {} } q) := by
  intro e₀ e₁ e q
  have he : e.Reachable := by
    refine .next (.next (.next (.next (.next (.new _) (.addConstraint _)) (.addTerminal _))
      (.addTerminal _)) (.addVar _)) (.addFunction ?_ ?_)
    all_goals decide
  have hq : ∀ r ∈ q.types, e.Has r := by
    simp only [q, Query.types]
    decide
  let p := e.sides q
  have hrun : unifier 4 p.1.1 p.1.2 p.2.store =
      .failed (.incompatible "Int" "String") (p.2.store.bind 10 3) := by decide +kernel
  let e' : Engine := { p.2 with store := ((p.2.store.bind 10 3).rewind 0).commit 0 }
  have hanswer : e.answer 4 q = .failed (.incompatible "Int" "String") e' := by
    rw [answer_eq_unify, unify, hrun]
    rfl
  obtain ⟨hfailed, hsame⟩ := answer_rollback he hq 4
  exact ⟨e', hanswer, by decide, (hfailed rfl _ _ hanswer).1, hsame {}⟩

end Engine

end Unification
