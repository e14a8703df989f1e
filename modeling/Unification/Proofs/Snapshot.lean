import Unification.Proofs.Integrity

/-!
# Going back to a mark

A mark is taken in a store, nodes are added, types are unified, and the store is taken back to the
mark. Trials do this inside trials, so an outer mark has to survive going back to inner ones. It does
because the trail lists the variables bound since the mark, each once, and each of them was free when
the mark was taken. Then what the store had is as it was, and what was added is unbound:
`Engine.rewind_restores`.
-/

namespace Unification

open Outcome

namespace Store

variable {s s' s'' : Store}

/-! ### Lawful trails -/

/-- The trail lists bound variables, and none of them twice. -/
structure LawfulTrail (s : Store) : Prop where
  nodup : s.trail.Nodup
  bound : ∀ v ∈ s.trail, (s.graph.binding? v).isSome

lemma lawfulTrail_of_eq_nil (h : s.trail = []) : s.LawfulTrail where
  nodup := h ▸ List.nodup_nil
  bound v hv := by simp [h] at hv

/-- An advance keeps the trail lawful: what it binds was free, so it was not on the trail. -/
lemma LawfulTrail.advance (hs : s.LawfulTrail) (h : s.Advances s') : s'.LawfulTrail := by
  obtain ⟨new, htrail, hnodup, hnew⟩ := h.trail
  constructor
  · rw [htrail]
    refine List.nodup_append.mpr ⟨hnodup, hs.nodup, ?_⟩
    rintro v hv _ hold rfl
    have hbound := hs.bound v hold
    simp [((hnew v).mp hv).1] at hbound
  · intro v hv
    rw [htrail, List.mem_append] at hv
    rcases hv with hv | hv
    · exact ((hnew v).mp hv).2
    · obtain ⟨b, hb⟩ := Option.isSome_iff_exists.mp (hs.bound v hv)
      simp [h.graph.binding? hb]

/-! ### Stores that retain a store -/

/-- The second store has all that the first has, unchanged: its nodes are as they were, all later
nodes are unbound, and the trail is the same. -/
structure Retains (s s' : Store) : Prop where
  nodes   : s.graph.Keeps s'.graph
  unbound : ∀ v, s.graph.nodes.size ≤ v → s'.graph.binding? v = none
  trail   : s'.trail = s.trail

lemma Quiet.retains (h : s.Quiet s') : s.Retains s' where
  nodes := h.graph
  unbound v hv := h.unbound v (by simp [Graph.binding?, Graph.node?_eq_none_iff.mpr hv])
  trail := h.trail

lemma Retains.trans (h : s.Retains s') (h' : s'.Retains s'') : s.Retains s'' where
  nodes := h.nodes.trans h'.nodes
  unbound v hv := by
    by_cases hv' : v < s'.graph.nodes.size
    · -- a node that the second store has is in the third what it was in the second
      obtain ⟨n, hn⟩ := Graph.exists_node? hv'
      have hnone := h.unbound v hv
      rw [Graph.binding?, hn] at hnone
      rw [Graph.binding?, h'.nodes hn, hnone]
    · exact h'.unbound v (Nat.le_of_not_lt hv')
  trail := h'.trail.trans h.trail

lemma LawfulTrail.retain (hs : s.LawfulTrail) (h : s.Retains s') : s'.LawfulTrail where
  nodup := h.trail ▸ hs.nodup
  bound v hv := by
    rw [h.trail] at hv
    obtain ⟨b, hb⟩ := Option.isSome_iff_exists.mp (hs.bound v hv)
    simp [h.nodes.extends.binding? hb]

/-! ### Additions -/

/-- The second store comes from the first by additions: of unbound nodes that point to nodes of the
store, of copied, generalized and instantiated types, and of templates. -/
inductive Adds (s : Store) : Store → Prop where
  | refl : Adds s s
  | add {s' : Store} {n : Node} : Adds s s' → (∀ c ∈ n.children, c < s'.graph.nodes.size) →
      s'.graph.Applies n → n.binding? = none → Adds s (s'.add n).2
  | renew {s' : Store} (how : Renewal) {r : TypeRef} : Adds s s' → r < s'.graph.nodes.size →
      Adds s (s'.renew how r).2
  | define {s' : Store} (t : Template) : Adds s s' →
      Adds s { s' with graph := (s'.graph.define t).2 }

/-- Additions keep a store well formed and change nothing in it. -/
lemma Adds.lawful (h : s.Adds s') (hs : s.graph.WellFormed) :
    s.Retains s' ∧ s'.graph.WellFormed := by
  induction h with
  | refl => exact ⟨(Quiet.refl s).retains, hs⟩
  | add _ hc hn hb ih =>
    obtain ⟨hret, hwf⟩ := ih
    exact ⟨hret.trans (quiet_add hc hb).retains, hwf.add hc hn⟩
  | renew how _ hr ih =>
    obtain ⟨hret, hwf⟩ := ih
    exact ⟨hret.trans (quiet_renew how hwf hr).retains, Graph.wellFormed_renew how hwf hr⟩
  | define t _ ih =>
    obtain ⟨hret, hwf⟩ := ih
    exact ⟨⟨hret.nodes, hret.unbound, hret.trail⟩, hwf.define t⟩

/-! ### Going back and staying -/

/-- Additions followed by an advance are undone by going back to the mark. -/
lemma Retains.rewind (h : s.Retains s') (hadv : s'.Advances s'') :
    s.Retains (s''.rewind s.mark) := by
  have hmark : s'.mark = s.mark := congrArg List.length h.trail
  rw [← hmark]
  exact h.trans hadv.quiet_rewind.retains

/-- Keeping the bindings made since the start of an advance leaves the trail of the start. -/
lemma Advances.trail_commit (h : s.Advances s') : (s'.commit s.mark).trail = s.trail := by
  obtain ⟨new, htrail, -⟩ := h.trail
  simp [commit, mark, htrail]

end Store

namespace Engine

variable {e e' : Engine} {depth : Nat} {q : Query} {a b : TypeRef}

/-- A unification ends with the trail with which it began, whatever becomes of its bindings. -/
lemma trail_unify (he : e.graph.WellFormed) (ha : e.Has a) (hb : e.Has b)
    (h : (e.unify depth a b).EndsIn e') : e'.store.trail = e.store.trail := by
  obtain ⟨s, hrun, hend⟩ := unify_endsIn h
  obtain ⟨hadv, -⟩ := (lawful_unifier depth).advances he ha hb hrun
  rcases hend with rfl | rfl
  · exact hadv.trail_commit
  · exact hadv.quiet_rewind.advances.trail_commit

/-- At every moment of a query of a reachable engine the trail is lawful. If anything is added then
and any two types are unified, it stays lawful, and at every moment of that run, its success or
failure included, going back to the mark of the first moment restores the store of that moment. The
query itself ends with the trail with which it began. -/
theorem rewind_restores (he : e.Reachable) (hq : ∀ r ∈ q.types, e.Has r) :
    (∀ e', e.Amid q e' → e'.store.LawfulTrail ∧
        ∀ s, e'.store.Adds s → ∀ depth x y, x < s.graph.nodes.size → y < s.graph.nodes.size →
          ∀ s', Passes depth x y s s' →
            s'.LawfulTrail ∧ e'.store.Retains (s'.rewind e'.store.mark)) ∧
      ∀ depth e', (e.answer depth q).EndsIn e' → e'.store.trail = e.store.trail := by
  have hwf := he.wellFormed
  obtain ⟨hquiet, hsides, hleft, hright, -⟩ := sides_lawful hwf hq
  constructor
  · intro e' hamid
    obtain ⟨hadv, hwf'⟩ := hamid.lawful hwf hq
    have htrail := (Store.lawfulTrail_of_eq_nil hsides.trail).advance hadv
    refine ⟨htrail, fun s hadds depth x y hx hy s' hpass => ?_⟩
    obtain ⟨hret, hs⟩ := hadds.lawful hwf'
    obtain ⟨hrun, -⟩ := hpass.lawful hs hx hy
    exact ⟨(htrail.retain hret).advance hrun, hret.rewind hrun⟩
  · intro depth e' h
    rw [answer_eq_unify] at h
    exact (trail_unify hsides.graph hleft hright h).trans hquiet.store.trail

/-- In the midst of a trial the variable of the instance `List<v>` is bound to `Int`. Another
instance `List<w>` is made, and `(List<w>) -> Int` is unified with `(List<Int>) -> List<Int>`, which
binds the second variable and then fails. Going back to the mark frees the second variable and
leaves the first one bound. -/
theorem rewind_restores_trial :
    let s := (trial 7 5 nested.store).2.bind 8 3
    let s₁ := (((s.renew .instantiate 5).2.add (.inst functionTemplate [12, 3])).2.add
      (.inst functionTemplate [10, 7])).2
    let s₂ := s₁.bind 11 3
    nested.Amid (.unify 6 7) { nested with store := s } ∧ s.mark = 1 ∧ s.Adds s₁ ∧
      unifier 3 13 14 s₁ = .failed (.incompatible "Int" "List<Int>") s₂ ∧ s₂.trail = [11, 8] ∧
      s₂.LawfulTrail ∧ s.Retains (s₂.rewind 1) ∧
      (s₂.rewind 1).graph.binding? 8 = some 3 ∧ (s₂.rewind 1).graph.isFree 11 = true := by
  intro s s₁ s₂
  have htry : Tries 2 6 7 nested.store 5 7 nested.store :=
    ⟨6, [5], 0, [], by decide +kernel, rfl, rfl⟩
  have hrun : unifier 2 9 10 (trial 7 5 nested.store).2 = .done 9 s := by decide +kernel
  have hamid : nested.Amid (.unify 6 7) { nested with store := s } :=
    .unifying (.trying htry (.finish (.inl ⟨9, hrun⟩)))
  have happlies : ∀ args, args.length = 2 → s.graph.Applies (.inst functionTemplate args) := by
    rintro args hlength _ _ ⟨⟩
    exact ⟨_, rfl, hlength.symm⟩
  have hadds : s.Adds s₁ :=
    .add (.add (.renew .instantiate .refl (by decide)) (by decide) (happlies _ rfl) rfl)
      (by decide) (happlies _ rfl) rfl
  have hfail : unifier 3 13 14 s₁ = .failed (.incompatible "Int" "List<Int>") s₂ := by
    decide +kernel
  obtain ⟨htrail, hback⟩ := ((rewind_restores reachable_nested (q := .unify 6 7) (by decide)).1 _
    hamid).2 s₁ hadds 3 13 14 (by decide) (by decide) s₂ (.finish (.inr ⟨_, hfail⟩))
  exact ⟨hamid, rfl, hadds, hfail, rfl, htrail, hback, by decide, by decide⟩

end Engine

end Unification
