import Mathlib.Data.List.Perm.Basic
import Unification.Proofs.Locality
import Unification.Proofs.Renumbering.Surroundings

/-!
# The order of overloads

The members of an overload set are tried one after another in a store that fills up with what the
trials leave behind. But each trial takes its bindings back, so it finds out the same whatever was
tried before it: the members that fit are a filter of the members, and the choice among them does
not depend on their order. An overload set with its members in another order is therefore resolved
in the same way.
-/

namespace Unification

open Outcome

/-- The value of a run that succeeds. -/
def Outcome.value? {σ α : Type} : Outcome σ α → Option α
  | done a _ => some a
  | _        => none

lemma Outcome.Alike.value?_eq {σ σ' α : Type} {E : TypeError → TypeError → Prop}
    {S : σ → σ' → Prop} {o : Outcome σ α} {o' : Outcome σ' α} (h : Alike E Eq S o o') :
    o'.value? = o.value? := by
  cases h with
  | done hv _ => rw [hv]; rfl
  | failed _ _ => rfl
  | cut => rfl

/-! ### The most specific of a list -/

namespace Graph

variable {g : Graph} {rs rs' : List TypeRef}

lemma mostSpecific_perm (h : rs.Perm rs') : (g.mostSpecific rs).Perm (g.mostSpecific rs') := by
  have hcomm : RightCommutative fun n r => max n (g.specificity r) :=
    ⟨fun _ _ _ => max_right_comm ..⟩
  rw [mostSpecific, mostSpecific, h.foldl_eq]
  exact h.filter _

end Graph

/-! ### Trials in any order -/

section Trials

variable {s₀ s s₁ s₁' : Store} {m target u u' : TypeRef} {ms ms' : List TypeRef} {d : Nat}

/-- Whether a member fits does not depend on what other trials have left behind. -/
lemma value?_fits (hs₀ : s₀.graph.WellFormed) (htrail : s₀.trail = []) (hq : s₀.Quiet s)
    (hs : s.graph.WellFormed) (hm : m < s₀.graph.nodes.size) (ht : target < s₀.graph.nodes.size) :
    (fits (unifier d) target m s).value? = (fits (unifier d) target m s₀).value? := by
  have hshares := Store.shares_of_keeps hs₀ hs₀ hs (.refl s₀.graph) hq.graph hq.templates
  have htracks := hshares.tracks htrail (hq.trail.trans htrail)
  have hmT : m ∈ {x | x < s₀.graph.nodes.size} := hm
  have htT : target ∈ {x | x < s₀.graph.nodes.size} := ht
  have halike := Renumbering.fits_follows (Renumbering.follows_unifier hshares.separates d) htracks
    (hshares.mem_shift hmT) (hshares.mem_shift htT) hm ht
  rw [hshares.type_shift hmT, hshares.type_shift htT] at halike
  exact halike.value?_eq

/-- The trials of all members are cut short if one is that would be made first, and otherwise they
filter the members by what each trial would find out if it were made first. -/
lemma fitting_eq_filter (hs₀ : s₀.graph.WellFormed) (htrail : s₀.trail = []) (hq : s₀.Quiet s)
    (hs : s.graph.WellFormed) (hms : ∀ m ∈ ms, m < s₀.graph.nodes.size)
    (ht : target < s₀.graph.nodes.size) :
    ((∃ m ∈ ms, (fits (unifier d) target m s₀).value? = none) ∧
        fitting (unifier d) target ms s = .cut) ∨
      (∀ m ∈ ms, (fits (unifier d) target m s₀).value? ≠ none) ∧
        ∃ s', fitting (unifier d) target ms s =
            .done (ms.filter fun m => (fits (unifier d) target m s₀).value? = some true) s' ∧
          s₀.Quiet s' ∧ s'.graph.WellFormed := by
  induction ms generalizing s with
  | nil => exact Or.inr ⟨by simp, s, rfl, hq, hs⟩
  | cons m ms ih =>
    have hm := hms m (by simp)
    have hvalue := value?_fits (d := d) hs₀ htrail hq hs hm ht
    rw [fitting]
    rcases fits_cases (lawful_unifier d) hs (hm.trans_le hq.size_le) (ht.trans_le hq.size_le) with
      ⟨-, hcut⟩ | ⟨fit, s₂, hfit, hq₂, hs₂⟩
    · rw [hcut] at hvalue
      exact Or.inl ⟨⟨m, by simp, hvalue.symm⟩, by rw [hcut, cut_andThen]⟩
    · rw [hfit] at hvalue
      replace hvalue : (fits (unifier d) target m s₀).value? = some fit := hvalue.symm
      rw [hfit, done_andThen]
      rcases ih (hq.trans hq₂) hs₂ (fun w hw => hms w (by simp [hw])) with
        ⟨⟨w, hw, hnone⟩, hcut⟩ | ⟨hall, s', hrest, hq', hs'⟩
      · exact Or.inl ⟨⟨w, by simp [hw], hnone⟩, by rw [hcut, map]⟩
      · refine Or.inr ⟨List.forall_mem_cons.mpr ⟨by simp [hvalue], hall⟩, s', ?_, hq', hs'⟩
        rw [hrest, map]
        cases fit <;> simp [hvalue]

/-- In another order the trials find the same members, and leave a store that shares all types of
before. -/
lemma fitting_perm (hs₀ : s₀.graph.WellFormed) (htrail : s₀.trail = [])
    (hms : ∀ m ∈ ms, m < s₀.graph.nodes.size) (ht : target < s₀.graph.nodes.size)
    (hperm : ms.Perm ms') :
    (fitting (unifier d) target ms s₀ = .cut ∧ fitting (unifier d) target ms' s₀ = .cut) ∨
      ∃ viable viable' s₁ s₁', fitting (unifier d) target ms s₀ = .done viable s₁ ∧
        fitting (unifier d) target ms' s₀ = .done viable' s₁' ∧ viable ⊆ ms ∧
        (s₁.graph.mostSpecific viable).Perm (s₁'.graph.mostSpecific viable') ∧
        s₀.Quiet s₁ ∧ s₀.Quiet s₁' ∧ s₁.Shares {x | x < s₀.graph.nodes.size} s₁' := by
  have hms' : ∀ m ∈ ms', m < s₀.graph.nodes.size := fun m hm => hms m (hperm.mem_iff.mpr hm)
  rcases fitting_eq_filter (d := d) hs₀ htrail (.refl s₀) hs₀ hms ht,
    fitting_eq_filter (d := d) hs₀ htrail (.refl s₀) hs₀ hms' ht with
    ⟨⟨⟨m, hm, hnone⟩, hcut⟩ | ⟨hall, s₁, hrun, hq, hs₁⟩,
      ⟨⟨m', hm', hnone'⟩, hcut'⟩ | ⟨hall', s₁', hrun', hq', hs₁'⟩⟩
  · exact Or.inl ⟨hcut, hcut'⟩
  · exact absurd hnone (hall' m (hperm.mem_iff.mp hm))
  · exact absurd hnone' (hall m' (hperm.mem_iff.mpr hm'))
  · have hshares := Store.shares_of_keeps hs₀ hs₁ hs₁' hq.graph hq'.graph
      (hq'.templates.trans hq.templates.symm)
    refine Or.inr ⟨_, _, s₁, s₁', hrun, hrun', List.filter_subset_self _, ?_, hq, hq', hshares⟩
    have hlt : ∀ m ∈ ms.filter fun m => (fits (unifier d) target m s₀).value? = some true,
        m < s₀.graph.nodes.size := fun m hm => hms m (List.mem_of_mem_filter hm)
    have hbest := hshares.relates.mostSpecific hs₁ hs₁' hlt
    simp only [Renumbering.fixing, List.map_id] at hbest
    rw [← hbest]
    exact Graph.mostSpecific_perm (hperm.filter _)

/-- An overload set is resolved in the same way in any order of its members. -/
lemma choose_perm (u u' : TypeRef) (d : Nat) (hs₀ : s₀.graph.WellFormed) (htrail : s₀.trail = [])
    (hms : ∀ m ∈ ms, m < s₀.graph.nodes.size) (ht : target < s₀.graph.nodes.size)
    (hperm : ms.Perm ms') :
    (choose (unifier d) u ms target s₀ = .cut ∧ choose (unifier d) u' ms' target s₀ = .cut) ∨
      ∃ s₁ s₁', s₀.Quiet s₁ ∧ s₀.Quiet s₁' ∧
        ∃ h : s₁.Shares {x | x < s₀.graph.nodes.size} s₁',
          (choose (unifier d) u ms target s₀).Alike (fun err err' => err'.kind = err.kind)
            (fun _ _ => True) h.shift.TracksStore (choose (unifier d) u' ms' target s₀) := by
  rw [choose, choose]
  rcases fitting_perm (d := d) hs₀ htrail hms ht hperm with
    ⟨hcut, hcut'⟩ | ⟨viable, viable', s₁, s₁', hrun, hrun', hsub, hbest, hq, hq', hshares⟩
  · exact Or.inl ⟨by rw [hcut, cut_andThen], by rw [hcut', cut_andThen]⟩
  refine Or.inr ⟨s₁, s₁', hq, hq', hshares, ?_⟩
  rw [hrun, hrun', done_andThen, done_andThen]
  have htracks := hshares.tracks (hq.trail.trans htrail) (hq'.trail.trans htrail)
  have hmem : ∀ w ∈ s₁.graph.mostSpecific viable, w ∈ ms := fun w hw =>
    hsub (mostSpecific_subset _ _ hw)
  generalize s₁.graph.mostSpecific viable = best, s₁'.graph.mostSpecific viable' = best'
    at hbest hmem ⊢
  rcases best with _ | ⟨w, _ | ⟨w', ws⟩⟩
  · rw [List.nil_perm.mp hbest]
    exact .failed (by simp) htracks
  · -- one member is left in either order, and its instances are unified with the target
    obtain rfl := List.singleton_perm.mp hbest
    have hw : w ∈ {x | x < s₀.graph.nodes.size} := hms w (hmem w (by simp))
    have htT : target ∈ {x | x < s₀.graph.nodes.size} := ht
    have hw₁ := Nat.lt_of_lt_of_le hw hq.size_le
    obtain ⟨⟨hiT, hi⟩, htracks'⟩ := htracks.renew .instantiate (hshares.mem_shift hw) hw₁
    have hq₂ := Store.quiet_renew .instantiate hshares.left hw₁
    have hrun₂ := Renumbering.follows_unifier hshares.separates d htracks' hiT
      (hshares.mem_shift htT) (Graph.renew_lt_size .instantiate hshares.left hw₁)
      (ht.trans_le (hq.trans hq₂).size_le)
    rw [hi, hshares.type_shift hw, hshares.type_shift htT] at hrun₂
    exact hrun₂.mono (fun _ _ h => h.1) (fun _ _ _ => trivial) fun _ _ _ _ h => h
  · obtain ⟨w₁, w₁', ws', rfl⟩ : ∃ w₁ w₁' ws', best' = w₁ :: w₁' :: ws' := by
      rcases best' with _ | ⟨w₁, _ | ⟨w₁', ws'⟩⟩
      · simp at hbest
      · simpa using hbest.length_eq
      · exact ⟨w₁, w₁', ws', rfl⟩
    exact .failed (by simp) htracks

/-- An overload set meets anything but a free variable by resolving it. -/
lemma unifier_union (hs : s.graph.WellFormed) (hu : s.graph.node? u = some (.union ms))
    (ht : target < s.graph.nodes.size) (hfree : s.graph.isFree (s.graph.rep target) = false) :
    unifier (d + 1) u target s = choose (unifier d) u ms (s.graph.rep target) s := by
  have hrep : s.graph.rep u = u :=
    Graph.rep_of_binding?_eq_none (by simp [Graph.binding?, hu, Node.binding?])
  have hrule : s.graph.rule u (s.graph.rep target) = .choose u ms (s.graph.rep target) := by
    obtain ⟨n, hn⟩ := Graph.exists_node? (Graph.rep_lt_size hs ht)
    cases n with
    | var name binding => simp [Graph.isFree_rep hs hn] at hfree
    | _ => simp [Graph.rule, hu, hn]
  simp only [unifier, step, hrep, hrule]

end Trials

namespace Engine

variable {e : Engine} {ms ms' : List TypeRef} {u u' t : TypeRef}

/-- The members between which the resolution of an overload set against a type decides: of the
members that fit the type, those than which none is more specific. There must be exactly one.
Nothing if a trial is cut short. -/
def contenders (depth : Nat) (e : Engine) (ms : List TypeRef) (t : TypeRef) :
    Option (List TypeRef) :=
  match fitting (unifier depth) (e.rep t) ms e.store with
  | .done viable s => some (s.graph.mostSpecific viable)
  | _              => none

/-- If several members are left, the resolution fails and names them. -/
lemma unify_of_contenders {depth : Nat} {tied : List TypeRef} (he : e.WellFormed)
    (hu : e.graph.node? u = some (.union ms)) (ht : e.Has t) (hfree : e.isFree t = false)
    (h : e.contenders depth ms t = some tied) (hlen : 2 ≤ tied.length) :
    ∃ e₁, e.unify (depth + 1) u t = .failed (e₁.graph.ambiguous (e.rep t) u tied) e₁ := by
  rw [contenders] at h
  split at h
  · next viable s hrun =>
    have hms : ∀ m ∈ ms, m < e.graph.nodes.size := fun m hm => he.graph.child_lt hu hm
    obtain ⟨-, hq, -⟩ := fitting_quiet (lawful_unifier depth) he.graph hms
      (Graph.rep_lt_size he.graph ht) hrun
    have hmark : s.mark = e.store.mark := congrArg List.length hq.trail
    have hback : s.rewind e.store.mark = s := by rw [← hmark, Store.rewind_mark]
    have hchoose : choose (unifier depth) u ms (e.graph.rep t) e.store =
        .failed (s.graph.ambiguous (e.graph.rep t) u tied) s := by
      obtain ⟨w, w', ws, rfl⟩ : ∃ w w' ws, tied = w :: w' :: ws := by
        rcases tied with _ | ⟨w, _ | ⟨w', ws⟩⟩
        · simp at hlen
        · simp at hlen
        · exact ⟨w, w', ws, rfl⟩
      rw [choose, ← rep, hrun, done_andThen, Option.some.inj h]
    refine ⟨{ e with store := s.commit e.store.mark }, ?_⟩
    rw [unify_eq_conclude, unifier_union he.graph hu ht hfree]
    simp only [graph] at hchoose
    simp only [hchoose, conclude, hback, ite_self]
    rfl
  · cases h

/-- In either order the same members are left to decide between. -/
lemma contenders_perm {depth : Nat} {tied : List TypeRef} (he : e.WellFormed)
    (hms : ∀ m ∈ ms, e.Has m) (hperm : ms.Perm ms') (ht : e.Has t)
    (h : e.contenders depth ms t = some tied) :
    ∃ tied', e.contenders depth ms' t = some tied' ∧ tied.Perm tied' := by
  rcases fitting_perm (d := depth) he.graph he.trail hms (Graph.rep_lt_size he.graph ht) hperm with
    ⟨hcut, -⟩ | ⟨viable, viable', s₁, s₁', hrun, hrun', -, hbest, -⟩
  · simp [contenders, rep, graph, hcut] at h
  · simp only [contenders, rep, graph, hrun, hrun', Option.some.injEq] at h ⊢
    exact ⟨_, rfl, h ▸ hbest⟩

/-- Overload sets with the same members give the same answer. -/
lemma unify_alike_perm (he : e.WellFormed) (hu : e.graph.node? u = some (.union ms))
    (hu' : e.graph.node? u' = some (.union ms')) (hperm : ms.Perm ms') (ht : e.Has t)
    (hfree : e.isFree t = false) (depth : Nat) :
    (e.unify depth u t).Alike (fun err err' => err'.kind = err.kind) (fun _ _ => True)
      (fun e₁ e₁' => Graph.AgreeOn {x | e.Has x} e.graph.nodes.size e.graph.nodes.size e₁.graph
        e₁'.graph) (e.unify depth u' t) := by
  cases depth with
  | zero => exact .cut
  | succ depth =>
    have hms : ∀ m ∈ ms, e.Has m := fun m hm => he.graph.child_lt hu hm
    have hhas : e.Has u := Graph.lt_size_of_node? hu
    have hhas' : e.Has u' := Graph.lt_size_of_node? hu'
    have hrun := unify_eq_conclude e (depth + 1) u t
    have hrun' := unify_eq_conclude e (depth + 1) u' t
    rw [unifier_union he.graph hu ht hfree] at hrun
    rw [unifier_union he.graph hu' ht hfree] at hrun'
    rcases choose_perm u u' depth he.graph he.trail hms (Graph.rep_lt_size he.graph ht) hperm with
      ⟨hcut, hcut'⟩ | ⟨s₁, s₁', hq, hq', h, halike⟩
    · rw [hrun, hrun', hcut, hcut']
      exact .cut
    · have hmark : e.store.mark = e.store.mark := rfl
      have hconclude := conclude_alike halike hmark rfl
      rw [← hrun, ← hrun'] at hconclude
      refine hconclude.mono (fun _ _ h => h) (fun _ _ h => h) fun e₁ e₁' hend hend' hrel => ?_
      have hext := (answer_confined (q := .unify u t) he (by simp [Query.types, hhas, ht]) hend).1
      have hrooted := unify_inherits (Tree.hereditary_rooted e.graph.nodes.size) he hhas ht
        (Graph.rooted_resolve he.graph hhas) (Graph.rooted_resolve he.graph ht) hend
      -- all that is new came after the trials
      refine (Renumbering.Relates.agreeOn hrel (he.unify hhas ht hend).graph
        (he.unify hhas' ht hend').graph fun x hx => ?_).of_le hq.size_le hq'.size_le
      exact ⟨Nat.lt_of_lt_of_le hx hext.size_le,
        (hrooted x hx (Graph.rooted_resolve he.graph hx)).mono hq.size_le⟩

/-- Let two overload sets have the same members in different orders, and let a type stand for no
free variable. If the first overload set and the type are unified, then so are the second and the
type: both unifications return or neither does, both succeed or both fail with errors of one kind,
and afterwards every type reads the same up to a renaming of the variables that were created. In
either order the same members are left to decide between; if there are several, both unifications
fail and name them as candidates. -/
theorem unify_permuted (he : e.Reachable) (hu : e.graph.node? u = some (.union ms))
    (hu' : e.graph.node? u' = some (.union ms')) (hperm : ms.Perm ms') (ht : e.Has t)
    (hfree : e.isFree t = false) :
    (e.Returns u t → e.Returns u' t) ∧
      (∀ depth, (e.unify depth u t).Alike (fun err err' => err'.kind = err.kind) (fun _ _ => True)
        (fun e₁ e₁' => Graph.AgreeOn {x | e.Has x} e.graph.nodes.size e.graph.nodes.size e₁.graph
          e₁'.graph) (e.unify depth u' t)) ∧
      ∀ depth tied, e.contenders depth ms t = some tied →
        ∃ tied', e.contenders depth ms' t = some tied' ∧ tied.Perm tied' ∧
          (2 ≤ tied.length → ∃ e₁ e₁',
            e.unify (depth + 1) u t = .failed (e₁.graph.ambiguous (e.rep t) u tied) e₁ ∧
            e.unify (depth + 1) u' t = .failed (e₁'.graph.ambiguous (e.rep t) u' tied') e₁') := by
  have hwf := he.wellFormed
  have hms : ∀ m ∈ ms, e.Has m := fun m hm => hwf.graph.child_lt hu hm
  have halike := unify_alike_perm hwf hu hu' hperm ht hfree
  refine ⟨?_, halike, fun depth tied htied => ?_⟩
  · rintro ⟨depth, hend⟩
    exact ⟨depth, (halike depth).finished_eq.trans hend⟩
  · obtain ⟨tied', htied', htiedPerm⟩ := contenders_perm hwf hms hperm ht htied
    refine ⟨tied', htied', htiedPerm, fun hlen => ?_⟩
    obtain ⟨e₁, hrun⟩ := unify_of_contenders hwf hu ht hfree htied hlen
    obtain ⟨e₁', hrun'⟩ := unify_of_contenders hwf hu' ht hfree htied' (htiedPerm.length_eq ▸ hlen)
    exact ⟨e₁, e₁', hrun, hrun'⟩

/-- The engine with the terminals `Int` and `String`, a constraint `c`, the types `Int -> c`,
`c -> Int` and `Int -> String`, the overload set of the three and the overload set of the three in
another order, and the type `Int -> Int`. -/
def overlapping : Engine :=
  let e := ((((new {}).addTerminal "Int").2.addTerminal "String").2.addConstraint none).2
  let e := (((e.addFunction [2] 4).2.addFunction [4] 2).2.addFunction [2] 3).2
  (((e.addUnion [5, 6, 7]).2.addUnion [7, 6, 5]).2.addFunction [2] 2).2

lemma reachable_overlapping : overlapping.Reachable := by
  refine .next (.next (.next (.next (.next (.next (.next (.next (.next (.new {}) (.addTerminal _))
    (.addTerminal _)) (.addConstraint _)) (.addFunction ?_ ?_)) (.addFunction ?_ ?_))
    (.addFunction ?_ ?_)) (.addUnion ?_)) (.addUnion ?_)) (.addFunction ?_ ?_)
  all_goals decide

/-- Two members fit `Int -> Int` equally well, in either order. -/
theorem unify_permuted_tie : ∃ tied e₁ e₁', tied.Perm [5, 6] ∧
    overlapping.unify 4 8 10 = .failed (e₁.graph.ambiguous 10 8 [5, 6]) e₁ ∧
      overlapping.unify 4 9 10 = .failed (e₁'.graph.ambiguous 10 9 tied) e₁' := by
  have hties : overlapping.contenders 3 [5, 6, 7] 10 = some [5, 6] := by decide +kernel
  have hset : overlapping.graph.node? 8 = some (.union [5, 6, 7]) := rfl
  have hset' : overlapping.graph.node? 9 = some (.union [7, 6, 5]) := rfl
  have htarget : overlapping.Has 10 := by decide
  obtain ⟨-, -, hsame⟩ := unify_permuted reachable_overlapping hset hset'
    (List.reverse_perm [7, 6, 5]) htarget (by decide)
  obtain ⟨tied, -, hperm, hrun⟩ := hsame 3 [5, 6] hties
  obtain ⟨e₁, e₁', hrun, hrun'⟩ := hrun le_rfl
  exact ⟨tied, e₁, e₁', hperm.symm, hrun, hrun'⟩

end Engine

end Unification
