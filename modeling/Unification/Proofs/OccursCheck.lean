import Unification.Proofs.Integrity

/-!
# The occurs check decides reachability

Between operations and at every moment of a query the graph is well formed, so the search of the
occurs check comes to an end there, and its answer is right: `Engine.occursIn_throughout`.
-/

namespace Unification

namespace Engine

variable {e e' : Engine} {v r : TypeRef}

/-- The occurs check of `v` in `r` comes to an end with the right answer. -/
structure ChecksOccurrence (e : Engine) (v r : TypeRef) : Prop where
  /-- However many rounds the search may make beyond the number of nodes, it ends with the answer
  of the occurs check. -/
  ends    : ∀ n, e.graph.nodes.size < n → e.graph.search v n [] [r] = some (e.occursIn v r)
  /-- What is not a bound variable occurs where a path leads to it. -/
  unbound : e.graph.binding? v = none → (e.occursIn v r = true ↔ e.graph.Reaches r v)
  /-- A bound variable occurs nowhere, even where a path leads to it. -/
  bound   : e.graph.binding? v ≠ none → e.occursIn v r = false

/-- The occurs check is right wherever the engine is intact. -/
lemma Intact.checksOccurrence (he : e.Intact) (hr : e.Has r) : e.ChecksOccurrence v r where
  ends _ hn := Graph.search_eq_occursIn he.graph hr v hn
  unbound hv := Graph.occursIn_eq_true_iff he.graph hv hr
  bound hv := by
    rw [← Bool.not_eq_true]
    intro hocc
    exact hv ((Graph.occursIn_iff he.graph hr).mp hocc).1

/-- In a reachable engine, and in every engine that a query of its types passes through, the occurs
check of any reference in any type comes to an end. It finds what is not a bound variable exactly
where a path of bindings, arguments and members leads to it, and it finds no bound variable. -/
theorem occursIn_throughout (he : e.Reachable) :
    (∀ v r, e.Has r → e.ChecksOccurrence v r) ∧
      ∀ q : Query, (∀ r ∈ q.types, e.Has r) → ∀ e', e.Amid q e' →
        ∀ v r, e'.Has r → e'.ChecksOccurrence v r := by
  have hintact := he.intact
  refine ⟨fun v r hr => hintact.checksOccurrence hr, fun q hq e' hamid v r hr => ?_⟩
  exact (hintact.amid he.wellFormed.trail hq hamid).checksOccurrence hr

/-- In the midst of a trial the variable of the instance `List<v>` is bound to `Int`. A path leads
from the instance to the variable and on to `Int`; the occurs check finds `Int` and not the
variable. -/
theorem occursIn_throughout_trial :
    let s := (trial 7 5 nested.store).2
    let e' : Engine := { nested with store := s.bind 8 3 }
    nested.Amid (.unify 6 7) e' ∧ e'.graph.Reaches 9 8 ∧ e'.occursIn 8 9 = false ∧
      e'.occursIn 3 9 = true := by
  intro s e'
  have htry : Tries 2 6 7 nested.store 5 7 nested.store :=
    ⟨6, [5], 0, [], by decide +kernel, rfl, rfl⟩
  have hrun : unifier 2 9 10 s = .done 9 (s.bind 8 3) := by decide +kernel
  have hamid : nested.Amid (.unify 6 7) e' := .unifying (.trying htry (.finish (.inl ⟨9, hrun⟩)))
  have hvar : e'.graph.Reaches 9 8 := .single (List.mem_singleton.mpr rfl)
  have hint : e'.graph.Reaches 9 3 := hvar.tail (List.mem_singleton.mpr rfl)
  obtain ⟨-, hquery⟩ := occursIn_throughout reachable_nested
  have hchecks := hquery (.unify 6 7) (by decide) e' hamid
  exact ⟨hamid, hvar, (hchecks 8 9 (by decide)).bound (by decide),
    ((hchecks 3 9 (by decide)).unbound (by decide)).mpr hint⟩

end Engine

end Unification
