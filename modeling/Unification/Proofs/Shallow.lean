import Unification.Proofs.Termination

/-!
# Types that can always be unified or refused

Two conditions on types under which unification returns. If no overload set inside the two sides is
generic, then no run ever resolves a generic one: bindings and instances bring in only overload sets
that were there. And generic overload sets may stand at the top of the sides, where they are taken
off one after another; what is not allowed is a generic overload set inside an instance.
-/

namespace Unification

open Outcome

namespace Tree

variable {t : Tree} {ts : List Tree}

/-- The tree has no placeholder. -/
def IsGround (t : Tree) : Prop :=
  t.placeholders = []

/-- No overload set that stands inside an instance is generic. -/
inductive Shallow : Tree → Prop where
  | plain {t : Tree} : t.EveryUnion IsGround → Shallow t
  | union {r : TypeRef} {members : List Tree} : (∀ u ∈ members, Shallow u) →
      Shallow (.union r members)

lemma Shallow.of_mem_union {r : TypeRef} (h : (Tree.union r ts).Shallow) (ht : t ∈ ts) :
    t.Shallow := by
  cases h with
  | plain h => exact .plain (h.of_mem_union ht)
  | union h => exact h t ht

lemma Shallow.everyUnion_inst {f : TemplateRef} (h : (Tree.inst f ts).Shallow) :
    (Tree.inst f ts).EveryUnion IsGround := by
  cases h with
  | plain h => exact h

lemma Shallow.renew (h : t.Shallow) (how : Renewal) (ρ : TypeRef → TypeRef) :
    (t.renew how ρ).Shallow := by
  cases h with
  | plain h => exact .plain (h.renew how ρ)
  | union h =>
    rw [Tree.renew, replace_union]
    exact .union h

end Tree

variable {a b m target u : TypeRef} {ms xs ys : List TypeRef} {s : Store} {unify : Unifier}
  {tally : Tally}

/-! ### No generic overload sets -/

/-- The count is zero for types without generic overload sets. -/
def Tally.Vanishes (tally : Tally) : Prop :=
  ∀ ⦃a b s⦄, s.graph.WellFormed → a < s.graph.nodes.size → b < s.graph.nodes.size →
    (s.graph.resolve a).EveryUnion Tree.IsGround → (s.graph.resolve b).EveryUnion Tree.IsGround →
    tally a b s = 0

lemma tallyAll_eq_zero (hu : unify.Lawful) (hk : unify.KeepsUnions Tree.IsGround)
    (hz : tally.Vanishes) (hs : s.graph.WellFormed) (hxs : s.AllHave Tree.IsGround xs)
    (hys : s.AllHave Tree.IsGround ys) : tallyAll unify tally xs ys s = 0 := by
  induction xs generalizing ys s with
  | nil => rfl
  | cons x xs ih =>
    cases ys with
    | nil => rfl
    | cons y ys =>
      obtain ⟨hx, hxQ⟩ := hxs x (by simp)
      obtain ⟨hy, hyQ⟩ := hys y (by simp)
      rw [tallyAll, hz hs hx hy hxQ hyQ, Nat.zero_add]
      cases hxy : unify x y s with
      | cut => rfl
      | failed e s₁ => rfl
      | done r s₁ =>
        obtain ⟨-, hs₁, hxs₁, hys₁⟩ := hk.tail hu hs hxs hys hxy
        exact ih hs₁ hxs₁ hys₁

lemma tallyTrials_eq_zero (hu : unify.Lawful) (hz : tally.Vanishes) (hs : s.graph.WellFormed)
    (ht : target < s.graph.nodes.size)
    (htQ : (s.graph.resolve target).EveryUnion Tree.IsGround)
    (hms : s.AllHave Tree.IsGround ms) :
    tallyTrials unify tally target ms s = 0 := by
  induction ms generalizing s with
  | nil => rfl
  | cons m ms ih =>
    obtain ⟨hm, hmQ⟩ := hms m (by simp)
    obtain ⟨-, hs', hi, hp⟩ := trial_lawful hs hm ht
    obtain ⟨⟨ρ, hleft⟩, ρ', hright⟩ := trial_trees hs hm ht
    have hfirst : tallyTrial tally target m s = 0 := by
      apply hz hs' hi hp
      · rw [hleft]
        exact hmQ.renew _ ρ
      · rw [hright]
        exact htQ.renew _ ρ'
    rw [tallyTrials, hfirst, Nat.zero_add]
    rcases fits_cases hu hs hm ht with ⟨-, hcut⟩ | ⟨fit, s₁, hfit, hq, hs₁⟩
    · simp [hcut, after]
    · simp only [hfit, after]
      have hsame : ∀ z < s.graph.nodes.size, s₁.graph.resolve z = s.graph.resolve z :=
        fun z hz => hq.graph.resolve_eq hs hs₁ hz
      refine ih hs₁ (ht.trans_le hq.size_le) (by rwa [hsame target ht]) fun z hz => ?_
      obtain ⟨hz, hzQ⟩ := hms z (by simp [hz])
      exact ⟨hz.trans_le hq.size_le, by rwa [hsame z hz]⟩

lemma tallyChoice_eq_zero (hu : unify.Lawful) (hz : tally.Vanishes) (hs : s.graph.WellFormed)
    (hn : s.graph.node? u = some (.union ms)) (ht : target < s.graph.nodes.size)
    (huQ : (s.graph.resolve u).EveryUnion Tree.IsGround)
    (htQ : (s.graph.resolve target).EveryUnion Tree.IsGround) :
    tallyChoice unify tally u ms target s = 0 := by
  have hmembers := Store.allHave_members hs hn huQ
  have hground : s.graph.isGeneric u = false := by
    rw [Graph.isGeneric_eq_false_iff]
    rw [Graph.resolve_union hs hn] at huQ ⊢
    cases huQ with
    | union h _ => exact h
  have hwinner : (fitting unify target ms s).after (tallyWinner tally target) = 0 := by
    cases hfit : fitting unify target ms s with
    | cut => rfl
    | failed e s₁ => rfl
    | done viable s₁ =>
      obtain ⟨hsub, hq, hs₁⟩ := fitting_quiet hu hs (fun m hm => (hmembers m hm).1) ht hfit
      simp only [after, tallyWinner]
      split
      · next w hwin =>
        have hw : w ∈ ms := hsub (mostSpecific_subset s₁.graph viable (by simp [hwin]))
        obtain ⟨hw, hwQ⟩ := hmembers w hw
        obtain ⟨hq₂, hs₂, hi, ⟨ρ, htree⟩, hsame⟩ := renew_after_quiet hq hs hs₁ hw
        refine hz hs₂ hi (ht.trans_le hq₂.size_le) ?_ (by rwa [hsame target ht])
        rw [htree]
        exact hwQ.renew _ ρ
      · rfl
  simp [tallyChoice, hground, tallyTrials_eq_zero hu hz hs ht htQ hmembers, hwinner]

/-- Types without generic overload sets are unified without a resolution of one. -/
theorem genericChoices_vanishes (depth : Nat) : (genericChoices depth).Vanishes := by
  induction depth with
  | zero => exact fun _ _ _ _ _ _ _ _ => rfl
  | succ depth ih =>
    intro a b s hs ha hb haQ hbQ
    have hu := lawful_unifier depth
    have ha' := Graph.rep_lt_size hs ha
    have hb' := Graph.rep_lt_size hs hb
    rw [← Graph.resolve_rep hs] at haQ hbQ
    have hmeets := s.graph.rule_meets (s.graph.rep a) (s.graph.rep b)
    simp only [genericChoices, tallyStep]
    generalize s.graph.rule (s.graph.rep a) (s.graph.rep b) = rule at hmeets ⊢
    cases hmeets with
    | same | assignLeft | assignRight | clash => rfl
    | chooseLeft hn => exact tallyChoice_eq_zero hu ih hs hn hb' haQ hbQ
    | chooseRight hn => exact tallyChoice_eq_zero hu ih hs hn ha' hbQ haQ
    | descend hx hy =>
      have hk := keepsUnions_unifier (Q := Tree.IsGround)
        (fun _ => Tree.vars_of_placeholders_eq_nil) depth
      exact tallyAll_eq_zero hu hk ih hs (Store.allHave_args hs hx haQ)
        (Store.allHave_args hs hy hbQ)

/-- The unification of types without generic overload sets returns. -/
theorem returns_of_everyUnion (hs : s.graph.WellFormed) (ha : a < s.graph.nodes.size)
    (hb : b < s.graph.nodes.size) (haQ : (s.graph.resolve a).EveryUnion Tree.IsGround)
    (hbQ : (s.graph.resolve b).EveryUnion Tree.IsGround) : Returns a b s :=
  Bounded.returns (n := 0)
    ⟨hs, ha, hb, fun depth => (genericChoices_vanishes depth hs ha hb haQ hbQ).le⟩

/-! ### Generic overload sets at the top -/

lemma fitting_ends_of_returns (hs : s.graph.WellFormed) (ht : target < s.graph.nodes.size)
    (hms : ∀ m ∈ ms, m < s.graph.nodes.size)
    (hreturns : ∀ m ∈ ms, ∀ s', s.Quiet s' → s'.graph.WellFormed →
      Returns (trial target m s').1.1 (trial target m s').1.2 (trial target m s').2) :
    Ends fun depth => fitting (unifier depth) target ms s := by
  induction ms generalizing s with
  | nil => exact ends_const (by simp)
  | cons m ms ih =>
    apply fitting_ends_cons (hreturns m (by simp) s (.refl s) hs)
    intro fit s₁ hrun
    obtain ⟨d, hd⟩ := hrun.exists_eq
    rcases fits_cases (lawful_unifier d) hs (hms m (by simp)) ht with
      ⟨-, hcut⟩ | ⟨_, _, hfit, hq, hs₁⟩
    · cases hcut.symm.trans hd
    · cases hfit.symm.trans hd
      exact ih hs₁ (ht.trans_le hq.size_le)
        (fun m hm => (hms m (by simp [hm])).trans_le hq.size_le)
        fun m hm s' hq' => hreturns m (by simp [hm]) s' (hq.trans hq')

/-- An overload set that may be generic is resolved if all unifications of smaller types without
generic overload sets inside instances return. -/
lemma choose_ends_of_shallow (hs : s.graph.WellFormed) (hn : s.graph.node? u = some (.union ms))
    (ht : target < s.graph.nodes.size) (huS : (s.graph.resolve u).Shallow)
    (htS : (s.graph.resolve target).Shallow)
    (ih : ∀ ⦃a b s'⦄, s'.graph.WellFormed → a < s'.graph.nodes.size → b < s'.graph.nodes.size →
      (s'.graph.resolve a).Shallow → (s'.graph.resolve b).Shallow →
      (s'.graph.resolve a).size + (s'.graph.resolve b).size <
        (s.graph.resolve u).size + (s.graph.resolve target).size → Returns a b s') :
    Ends fun depth => choose (unifier depth) u ms target s := by
  have hms : ∀ m ∈ ms, m < s.graph.nodes.size := fun m hm => hs.child_lt hn hm
  have hmember : ∀ m ∈ ms, (s.graph.resolve m).Shallow := by
    rw [Graph.resolve_union hs hn] at huS
    exact fun m hm => huS.of_mem_union (List.mem_map_of_mem hm)
  have hsmaller : ∀ m ∈ ms, (s.graph.resolve m).size + (s.graph.resolve target).size <
      (s.graph.resolve u).size + (s.graph.resolve target).size :=
    fun m hm => Nat.add_lt_add_right (Graph.size_member_lt hs hn hm) _
  have htrial : ∀ m ∈ ms, ∀ s', s.Quiet s' → s'.graph.WellFormed →
      Returns (trial target m s').1.1 (trial target m s').1.2 (trial target m s').2 := by
    intro m hm s' hq hs'
    have hm' := (hms m hm).trans_le hq.size_le
    have ht' := ht.trans_le hq.size_le
    obtain ⟨-, hs₂, hi, hp⟩ := trial_lawful hs' hm' ht'
    obtain ⟨⟨ρ, hleft⟩, ρ', hright⟩ := trial_trees hs' hm' ht'
    rw [hq.graph.resolve_eq hs hs' (hms m hm)] at hleft
    rw [hq.graph.resolve_eq hs hs' ht] at hright
    refine ih hs₂ hi hp ?_ ?_ ?_
    · rw [hleft]
      exact (hmember m hm).renew _ ρ
    · rw [hright]
      exact htS.renew _ ρ'
    · rw [hleft, hright, Tree.size_renew, Tree.size_renew]
      exact hsmaller m hm
  apply choose_ends (fitting_ends_of_returns hs ht hms htrial)
  intro viable s₁ w hrun hwin
  obtain ⟨d, hd⟩ := hrun.exists_eq
  obtain ⟨hsub, hq, hs₁⟩ := fitting_quiet (lawful_unifier d) hs hms ht hd
  have hw : w ∈ ms := hsub (mostSpecific_subset s₁.graph viable (by simp [hwin]))
  obtain ⟨hq₂, hs₂, hi, ⟨ρ, htree⟩, hsame⟩ := renew_after_quiet hq hs hs₁ (hms w hw)
  refine ih hs₂ hi (ht.trans_le hq₂.size_le) ?_ (by rwa [hsame target ht]) ?_
  · rw [htree]
    exact (hmember w hw).renew _ ρ
  · rw [htree, hsame target ht, Tree.size_renew]
    exact hsmaller w hw

/-- The unification of types without generic overload sets inside instances returns. -/
theorem returns_of_shallow (hs : s.graph.WellFormed) (ha : a < s.graph.nodes.size)
    (hb : b < s.graph.nodes.size) (haS : (s.graph.resolve a).Shallow)
    (hbS : (s.graph.resolve b).Shallow) : Returns a b s := by
  induction hsize : (s.graph.resolve a).size + (s.graph.resolve b).size using
    Nat.strong_induction_on generalizing a b s with
  | _ size ih =>
    subst hsize
    have ha' := Graph.rep_lt_size hs ha
    have hb' := Graph.rep_lt_size hs hb
    by_cases hplain : (s.graph.resolve a).EveryUnion Tree.IsGround ∧
        (s.graph.resolve b).EveryUnion Tree.IsGround
    · exact returns_of_everyUnion hs ha hb hplain.1 hplain.2
    · rw [← Graph.resolve_rep hs a, ← Graph.resolve_rep hs b] at hplain
      rw [← Graph.resolve_rep hs a] at haS ih
      rw [← Graph.resolve_rep hs b] at hbS ih
      have hmeets := s.graph.rule_meets (s.graph.rep a) (s.graph.rep b)
      apply returns_of_rule
      · intro u ms target hrule
        rw [hrule] at hmeets
        cases hmeets with
        | chooseLeft hn =>
          exact choose_ends_of_shallow hs hn hb' haS hbS fun _ _ _ hs' hx hy hxS hyS hlt =>
            ih _ hlt hs' hx hy hxS hyS rfl
        | chooseRight hn =>
          exact choose_ends_of_shallow hs hn ha' hbS haS fun _ _ _ hs' hx hy hxS hyS hlt =>
            ih _ (by omega) hs' hx hy hxS hyS rfl
      · -- two instances have no generic overload sets at all
        intro xs ys hrule
        rw [hrule] at hmeets
        cases hmeets with
        | descend hx hy =>
          rw [Graph.resolve_inst hs hx, Graph.resolve_inst hs hy] at hplain
          rw [Graph.resolve_inst hs hx] at haS
          rw [Graph.resolve_inst hs hy] at hbS
          exact absurd ⟨haS.everyUnion_inst, hbS.everyUnion_inst⟩ hplain

end Unification
