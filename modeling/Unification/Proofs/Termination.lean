import Unification.Proofs.Narrowing

/-!
# When a unification returns

Only generic overload sets can keep a unification from returning: each resolution of one makes new
variables, which may lead to the next. A run with a bound on the number of these resolutions
comes to an end. The measure has three parts: the resolutions that are left, then the variables that
stand outside overload sets, then the sizes of the two trees.
-/

namespace Unification

open Outcome

variable {a b m r target u x y : TypeRef} {k n size : Nat} {ms xs ys : List TypeRef}
  {s s₁ : Store}

/-! ### Bounded runs -/

/-- Types of a well-formed store are unified, and however deep the run goes, it starts at most `n`
resolutions of generic overload sets. -/
structure Bounded (n : Nat) (a b : TypeRef) (s : Store) : Prop where
  graph   : s.graph.WellFormed
  left    : a < s.graph.nodes.size
  right   : b < s.graph.nodes.size
  choices : ∀ depth, genericChoices depth a b s ≤ n

/-- The same for two lists of types that are unified in pairs. -/
structure BoundedAll (n : Nat) (xs ys : List TypeRef) (s : Store) : Prop where
  graph   : s.graph.WellFormed
  left    : ∀ x ∈ xs, x < s.graph.nodes.size
  right   : ∀ y ∈ ys, y < s.graph.nodes.size
  choices : ∀ depth, tallyAll (unifier depth) (genericChoices depth) xs ys s ≤ n

/-- The same for members that are tried against a target. -/
structure BoundedTrials (n : Nat) (target : TypeRef) (ms : List TypeRef) (s : Store) : Prop where
  graph   : s.graph.WellFormed
  right   : target < s.graph.nodes.size
  members : ∀ m ∈ ms, m < s.graph.nodes.size
  choices : ∀ depth, tallyTrials (unifier depth) (genericChoices depth) target ms s ≤ n

lemma BoundedAll.head (h : BoundedAll n (x :: xs) (y :: ys) s) : Bounded n x y s where
  graph := h.graph
  left := h.left x (by simp)
  right := h.right y (by simp)
  choices depth := (Nat.le_add_right _ _).trans (h.choices depth)

/-- What the first pair uses up of the bound is not left for the others. -/
lemma BoundedAll.tail_add (h : BoundedAll n (x :: xs) (y :: ys) s)
    (hrun : Tends (fun depth => unifier depth x y s) (.done r s₁)) (d d' : Nat) :
    genericChoices d' x y s + tallyAll (unifier d) (genericChoices d) xs ys s₁ ≤ n := by
  obtain ⟨-, depth, hrun⟩ := hrun
  -- at a depth beyond all of these the first pair ends in `s₁`
  let deep := max depth (max d d')
  have hfirst : unifier deep x y s = .done r s₁ := hrun deep (le_max_left _ _)
  have hchoices := h.choices deep
  simp only [tallyAll, hfirst, after] at hchoices
  have hhead : genericChoices d' x y s ≤ genericChoices deep x y s :=
    genericChoices_mono ((le_max_right d d').trans (le_max_right _ _)) x y s
  have htail := (tallyAll_stays (genericChoices_below
    ((le_max_left d d').trans (le_max_right depth _))) xs ys s₁).1
  exact (Nat.add_le_add hhead htail).trans hchoices

lemma BoundedAll.tail (h : BoundedAll n (x :: xs) (y :: ys) s)
    (hrun : Tends (fun depth => unifier depth x y s) (.done r s₁)) :
    BoundedAll n xs ys s₁ ∧ s.Advances s₁ := by
  obtain ⟨d, hd⟩ := hrun.exists_eq
  have hhead := h.head
  obtain ⟨hadv, hs₁⟩ := (lawful_unifier d).advances hhead.graph hhead.left hhead.right
    (Or.inl ⟨r, hd⟩)
  refine ⟨⟨hs₁, fun z hz => ?_, fun z hz => ?_, fun depth => ?_⟩, hadv⟩
  · exact (h.left z (by simp [hz])).trans_le hadv.size_le
  · exact (h.right z (by simp [hz])).trans_le hadv.size_le
  · exact (Nat.le_add_left _ _).trans (h.tail_add hrun depth depth)

/-- If the first pair resolves a generic overload set, then fewer resolutions are left. -/
lemma BoundedAll.tail_of_choice (h : BoundedAll n (x :: xs) (y :: ys) s)
    (hrun : Tends (fun depth => unifier depth x y s) (.done r s₁)) {d : Nat}
    (hd : genericChoices d x y s ≠ 0) : ∃ n' < n, BoundedAll n' xs ys s₁ := by
  obtain ⟨htail, -⟩ := h.tail hrun
  have hsum := fun depth => h.tail_add hrun depth d
  refine ⟨n - 1, ?_, htail.graph, htail.left, htail.right, fun depth => ?_⟩
  · have := hsum 0
    omega
  · have := hsum depth
    omega

lemma BoundedTrials.head (h : BoundedTrials n target (m :: ms) s) :
    Bounded n (trial target m s).1.1 (trial target m s).1.2 (trial target m s).2 := by
  obtain ⟨-, hs, hi, hp⟩ := trial_lawful h.graph (h.members m (by simp)) h.right
  exact ⟨hs, hi, hp, fun depth => (Nat.le_add_right _ _).trans (h.choices depth)⟩

lemma BoundedTrials.tail {fit : Bool} (h : BoundedTrials n target (m :: ms) s)
    (hrun : Tends (fun depth => fits (unifier depth) target m s) (.done fit s₁)) :
    BoundedTrials n target ms s₁ ∧ s.Quiet s₁ := by
  obtain ⟨d, hd⟩ := hrun.exists_eq
  obtain ⟨hq, hs₁⟩ : s.Quiet s₁ ∧ s₁.graph.WellFormed := by
    rcases fits_cases (lawful_unifier d) h.graph (h.members m (by simp)) h.right with
      ⟨-, hcut⟩ | ⟨_, _, hfit, h⟩
    · cases hcut.symm.trans hd
    · cases hfit.symm.trans hd
      exact h
  refine ⟨⟨hs₁, h.right.trans_le hq.size_le, fun z hz => ?_, fun depth => ?_⟩, hq⟩
  · exact (h.members z (by simp [hz])).trans_le hq.size_le
  · obtain ⟨-, depth', hrun⟩ := hrun
    have hfirst : fits (unifier (max depth' depth)) target m s = .done fit s₁ :=
      hrun _ (le_max_left _ _)
    have hchoices := h.choices (max depth' depth)
    simp only [tallyTrials, hfirst, after] at hchoices
    have htail := (tallyTrials_stays (genericChoices_below (le_max_right depth' depth)) target ms
      s₁).1
    omega

/-- The trials of members come to an end if each of them returns. -/
lemma BoundedTrials.ends (h : BoundedTrials n target ms s)
    (hreturns : ∀ m ∈ ms, ∀ s', s.Quiet s' → s'.graph.WellFormed →
      Bounded n (trial target m s').1.1 (trial target m s').1.2 (trial target m s').2 →
      Returns (trial target m s').1.1 (trial target m s').1.2 (trial target m s').2) :
    Ends fun depth => fitting (unifier depth) target ms s := by
  induction ms generalizing s with
  | nil => exact ends_const (by simp)
  | cons m ms ih =>
    apply fitting_ends_cons (hreturns m (by simp) s (.refl s) h.graph h.head)
    intro fit s₁ hrun
    obtain ⟨htail, hq⟩ := h.tail hrun
    exact ih htail fun m hm s' hq' => hreturns m (by simp [hm]) s' (hq.trans hq')

/-- Resolving an overload set comes to an end if every unification of an instance of a member
returns, with a copy of the target and with the target itself. -/
lemma choose_ends_of_bounded (hs : s.graph.WellFormed) (hn : s.graph.node? u = some (.union ms))
    (ht : target < s.graph.nodes.size)
    (hbound : ∀ depth, tallyTrials (unifier depth) (genericChoices depth) target ms s +
      (fitting (unifier depth) target ms s).after (tallyWinner (genericChoices depth) target) ≤ n)
    (htrial : ∀ m ∈ ms, ∀ s', s.Quiet s' → s'.graph.WellFormed →
      Bounded n (trial target m s').1.1 (trial target m s').1.2 (trial target m s').2 →
      Returns (trial target m s').1.1 (trial target m s').1.2 (trial target m s').2)
    (hwinner : ∀ w ∈ ms, ∀ s', s.Quiet s' → s'.graph.WellFormed →
      Bounded n (s'.renew .instantiate w).1 target (s'.renew .instantiate w).2 →
      Returns (s'.renew .instantiate w).1 target (s'.renew .instantiate w).2) :
    Ends fun depth => choose (unifier depth) u ms target s := by
  have hms : ∀ m ∈ ms, m < s.graph.nodes.size := fun m hm => hs.child_lt hn hm
  have htrials : BoundedTrials n target ms s :=
    ⟨hs, ht, hms, fun depth => (Nat.le_add_right _ _).trans (hbound depth)⟩
  apply choose_ends (htrials.ends htrial)
  intro viable s₁ w hrun hwin
  obtain ⟨d, hd⟩ := hrun.exists_eq
  obtain ⟨hsub, hq, hs₁⟩ := fitting_quiet (lawful_unifier d) hs hms ht hd
  have hw : w ∈ ms := hsub (mostSpecific_subset s₁.graph viable (by simp [hwin]))
  obtain ⟨hq₂, hs₂, hi, -⟩ := renew_after_quiet hq hs hs₁ (hms w hw)
  refine hwinner w hw s₁ hq hs₁ ⟨hs₂, hi, ht.trans_le hq₂.size_le, fun depth => ?_⟩
  obtain ⟨-, depth', hrun⟩ := hrun
  have hfirst : fitting (unifier (max depth' depth)) target ms s = .done viable s₁ :=
    hrun _ (le_max_left _ _)
  have hchoices := hbound (max depth' depth)
  simp only [hfirst, after, tallyWinner, hwin] at hchoices
  have hmono := genericChoices_mono (le_max_right depth' depth) (s₁.renew .instantiate w).1 target
    (s₁.renew .instantiate w).2
  omega

/-! ### The measure -/

/-- Fewer than `k` variables, or as many as that and smaller trees. -/
def Lighter (k size : Nat) (vs : Finset TypeRef) (size' : Nat) : Prop :=
  vs.card < k ∨ vs.card ≤ k ∧ size' < size

lemma Lighter.card_le {vs : Finset TypeRef} {size' : Nat} (h : Lighter k size vs size') :
    vs.card ≤ k := by
  rcases h with h | h
  · exact h.le
  · exact h.1

/-- All unifications that are bounded by less return. -/
def FewerReturn (n : Nat) : Prop :=
  ∀ n' < n, ∀ ⦃a b s⦄, Bounded n' a b s → Returns a b s

/-- All unifications with the same bound return if they have fewer variables, or as many and smaller
trees. -/
def LighterReturn (n k size : Nat) : Prop :=
  ∀ ⦃a b s⦄, Bounded n a b s → ∀ vs, s.graph.outer a ⊆ vs → s.graph.outer b ⊆ vs →
    Lighter k size vs ((s.graph.resolve a).size + (s.graph.resolve b).size) → Returns a b s

lemma BoundedAll.ends_of_fewer (hfewer : FewerReturn n) {n' : Nat} (hn' : n' < n)
    (h : BoundedAll n' xs ys s) : Ends fun depth => unifyAll (unifier depth) xs ys s := by
  induction xs generalizing ys s with
  | nil => exact ends_const (by simp)
  | cons x xs ih =>
    cases ys with
    | nil => exact ends_const (by simp)
    | cons y ys =>
      obtain ⟨o, ho⟩ := hfewer n' hn' h.head
      apply ho.andThen
      intro r s₁ hdone
      subst hdone
      exact ih (h.tail ho).1

/-- Arguments are unified one after another. If the first pair resolves a generic overload set, then
fewer resolutions are left for the others. If it binds a variable, then fewer variables are left.
Otherwise the others are as they were. -/
lemma BoundedAll.ends (hfewer : FewerReturn n) (hlighter : LighterReturn n k size)
    (h : BoundedAll n xs ys s) {vs : Finset TypeRef} (hvs : ∀ v ∈ vs, v < s.graph.nodes.size)
    (hxs : ∀ x ∈ xs, s.graph.outer x ⊆ vs) (hys : ∀ y ∈ ys, s.graph.outer y ⊆ vs)
    (hlight : ∀ x ∈ xs, ∀ y ∈ ys,
      Lighter k size vs ((s.graph.resolve x).size + (s.graph.resolve y).size)) :
    Ends fun depth => unifyAll (unifier depth) xs ys s := by
  induction xs generalizing ys s vs with
  | nil => exact ends_const (by simp)
  | cons x xs ih =>
    cases ys with
    | nil => exact ends_const (by simp)
    | cons y ys =>
      have hxvs := hxs x (by simp)
      have hyvs := hys y (by simp)
      obtain ⟨o, ho⟩ := hlighter h.head vs hxvs hyvs (hlight x (by simp) y (by simp))
      apply ho.andThen
      intro r s₁ hdone
      subst hdone
      obtain ⟨htail, hadv⟩ := h.tail ho
      by_cases hchoice : ∃ d, genericChoices d x y s ≠ 0
      · obtain ⟨d, hd⟩ := hchoice
        obtain ⟨n', hn', htail'⟩ := h.tail_of_choice ho hd
        exact htail'.ends_of_fewer hfewer hn'
      · obtain ⟨d, hd⟩ := ho.exists_eq
        have hzero : genericChoices d x y s = 0 := not_not.mp fun hne => hchoice ⟨d, hne⟩
        have hnarrow := narrows_unifier d h.graph h.head.left h.head.right hzero hd vs hvs hxvs hyvs
        have hvs₁ : ∀ v ∈ vs, v < s₁.graph.nodes.size :=
          fun v hv => (hvs v hv).trans_le hadv.size_le
        have hleft : ∀ z ∈ xs, z < s.graph.nodes.size := fun z hz => h.left z (by simp [hz])
        have hright : ∀ z ∈ ys, z < s.graph.nodes.size := fun z hz => h.right z (by simp [hz])
        rcases hnarrow.bound with hq | ⟨v, hv, hbound⟩
        · have hsame : ∀ z < s.graph.nodes.size, s₁.graph.resolve z = s.graph.resolve z :=
            fun z hz => hq.graph.resolve_eq h.graph htail.graph hz
          refine ih htail hvs₁ (fun z hz => ?_) (fun z hz => ?_) fun z hz w hw => ?_
          · rw [Graph.outer, hsame z (hleft z hz)]
            exact hxs z (by simp [hz])
          · rw [Graph.outer, hsame z (hright z hz)]
            exact hys z (by simp [hz])
          · rw [hsame z (hleft z hz), hsame w (hright w hw)]
            exact hlight z (by simp [hz]) w (by simp [hw])
        · have hless : (vs.erase v).card < k :=
            (Finset.card_erase_lt_of_mem hv).trans_le (hlight x (by simp) y (by simp)).card_le
          have herase : ∀ z < s.graph.nodes.size, s.graph.outer z ⊆ vs →
              s₁.graph.outer z ⊆ vs.erase v := by
            intro z hz hzvs w hw
            have hfree := Graph.isFree_of_mem_outer htail.graph (hz.trans_le hadv.size_le) hw
            refine Finset.mem_erase.mpr ⟨?_, ?_⟩
            · rintro rfl
              simp [hfree] at hbound
            · exact Finset.union_subset hzvs (Finset.Subset.refl _) (hnarrow.outer z hz hw)
          exact ih htail (fun w hw => hvs₁ w (Finset.mem_of_mem_erase hw))
            (fun z hz => herase z (hleft z hz) (hxs z (by simp [hz])))
            (fun z hz => herase z (hright z hz) (hys z (by simp [hz])))
            fun _ _ _ _ => Or.inl hless

/-- Resolving a generic overload set uses up one resolution. -/
lemma choose_ends_of_generic (hfewer : FewerReturn n) (hs : s.graph.WellFormed)
    (hn : s.graph.node? u = some (.union ms)) (ht : target < s.graph.nodes.size)
    (hgeneric : s.graph.isGeneric u = true)
    (hbound : ∀ depth, tallyChoice (unifier depth) (genericChoices depth) u ms target s ≤ n) :
    Ends fun depth => choose (unifier depth) u ms target s := by
  have hless : ∀ depth, 1 + (tallyTrials (unifier depth) (genericChoices depth) target ms s +
      (fitting (unifier depth) target ms s).after
        (tallyWinner (genericChoices depth) target)) ≤ n := by
    intro depth
    have := hbound depth
    simp only [tallyChoice, hgeneric, if_true] at this
    omega
  have hpos := hless 0
  have hn' : n - 1 < n := by omega
  refine choose_ends_of_bounded hs hn ht (n := n - 1) (fun depth => ?_)
    (fun _ _ _ _ _ h => hfewer _ hn' h) fun _ _ _ _ _ h => hfewer _ hn' h
  have := hless depth
  omega

/-- The members of an overload set without placeholders have no variables and are smaller than the
set. -/
lemma choose_ends_of_ground (hlighter : LighterReturn n k size) (hs : s.graph.WellFormed)
    (hn : s.graph.node? u = some (.union ms)) (ht : target < s.graph.nodes.size)
    (hground : s.graph.isGeneric u = false)
    (hbound : ∀ depth, tallyChoice (unifier depth) (genericChoices depth) u ms target s ≤ n)
    (hvars : (s.graph.outer target).card ≤ k)
    (hsize : (s.graph.resolve u).size + (s.graph.resolve target).size ≤ size) :
    Ends fun depth => choose (unifier depth) u ms target s := by
  have hnil := Graph.isGeneric_eq_false_iff.mp hground
  rw [Graph.resolve_union hs hn] at hnil
  -- an instance of a member reads as the member
  have hmember : ∀ m ∈ ms, (s.graph.resolve m).placeholders = [] :=
    fun m hm => Tree.placeholders_eq_nil_of_mem_union hnil (List.mem_map_of_mem hm)
  have hinst : ∀ m ∈ ms, ∀ how ρ, ((s.graph.resolve m).renew how ρ) = s.graph.resolve m :=
    fun m hm _ _ => Tree.replace_of_placeholders_eq_nil (hmember m hm)
  have hsmaller : ∀ m ∈ ms, (s.graph.resolve m).size + (s.graph.resolve target).size < size := by
    intro m hm
    have := Graph.size_member_lt hs hn hm
    omega
  refine choose_ends_of_bounded hs hn ht (n := n) (fun depth => ?_) ?_ ?_
  · have := hbound depth
    simp only [tallyChoice] at this
    omega
  · intro m hm s' hq hs' hbounded
    have hm' := hs.child_lt hn hm
    obtain ⟨⟨ρ, hleft⟩, ρ', hright⟩ :=
      trial_trees hs' (hm'.trans_le hq.size_le) (ht.trans_le hq.size_le)
    rw [hq.graph.resolve_eq hs hs' hm', hinst m hm] at hleft
    rw [hq.graph.resolve_eq hs hs' ht] at hright
    refine hlighter hbounded ((s.graph.outer target).image ρ') ?_ ?_ (Or.inr ⟨?_, ?_⟩)
    · rw [Graph.outer, hleft, Tree.outerVars_of_placeholders_eq_nil (hmember m hm)]
      exact Finset.empty_subset _
    · rw [Graph.outer, hright]
      exact Tree.outerVars_renew_copy ρ' _
    · exact Finset.card_image_le.trans hvars
    · rw [hleft, hright, Tree.size_renew]
      exact hsmaller m hm
  · intro w hw s' hq hs' hbounded
    obtain ⟨hq₂, hs₂, hi, ⟨ρ, htree⟩, hsame⟩ :=
      renew_after_quiet hq hs hs' (hs.child_lt hn hw)
    rw [hinst w hw] at htree
    refine hlighter hbounded (s.graph.outer target) ?_ ?_ (Or.inr ⟨hvars, ?_⟩)
    · rw [Graph.outer, htree, Tree.outerVars_of_placeholders_eq_nil (hmember w hw)]
      exact Finset.empty_subset _
    · rw [hq₂.outer_eq hs hs₂ ht]
    · rw [htree, hsame target ht]
      exact hsmaller w hw

lemma choose_ends_of_lighter (hfewer : FewerReturn n) (hlighter : LighterReturn n k size)
    (hs : s.graph.WellFormed) (hn : s.graph.node? u = some (.union ms))
    (ht : target < s.graph.nodes.size)
    (hbound : ∀ depth, tallyChoice (unifier depth) (genericChoices depth) u ms target s ≤ n)
    (hvars : (s.graph.outer target).card ≤ k)
    (hsize : (s.graph.resolve u).size + (s.graph.resolve target).size ≤ size) :
    Ends fun depth => choose (unifier depth) u ms target s := by
  cases hgeneric : s.graph.isGeneric u with
  | true => exact choose_ends_of_generic hfewer hs hn ht hgeneric hbound
  | false => exact choose_ends_of_ground hlighter hs hn ht hgeneric hbound hvars hsize

/-- A bounded unification returns if those that the measure puts below it do. -/
lemma Bounded.returns_of_lighter (hfewer : FewerReturn n) (hlighter : LighterReturn n k size)
    (h : Bounded n a b s) (hvars : (s.graph.outer a ∪ s.graph.outer b).card ≤ k)
    (hsize : (s.graph.resolve a).size + (s.graph.resolve b).size ≤ size) : Returns a b s := by
  have hs := h.graph
  have ha' := Graph.rep_lt_size hs h.left
  have hb' := Graph.rep_lt_size hs h.right
  rw [← Graph.outer_rep hs a, ← Graph.outer_rep hs b] at hvars
  rw [← Graph.resolve_rep hs a, ← Graph.resolve_rep hs b] at hsize
  have hmeets := s.graph.rule_meets (s.graph.rep a) (s.graph.rep b)
  apply returns_of_rule
  · intro u ms target hrule
    have hbound : ∀ depth, tallyChoice (unifier depth) (genericChoices depth) u ms target s ≤ n :=
      fun depth => by simpa only [genericChoices, tallyStep, hrule] using h.choices (depth + 1)
    rw [hrule] at hmeets
    cases hmeets with
    | chooseLeft hn =>
      exact choose_ends_of_lighter hfewer hlighter hs hn hb' hbound
        ((Finset.card_le_card Finset.subset_union_right).trans hvars) hsize
    | chooseRight hn =>
      exact choose_ends_of_lighter hfewer hlighter hs hn ha' hbound
        ((Finset.card_le_card Finset.subset_union_left).trans hvars) (by omega)
  · intro xs ys hrule
    rw [hrule] at hmeets
    cases hmeets with
    | descend hx hy =>
      have hall : BoundedAll n xs ys s :=
        ⟨hs, fun z hz => hs.child_lt hx hz, fun z hz => hs.child_lt hy hz, fun depth => by
          simpa only [genericChoices, tallyStep, hrule] using h.choices (depth + 1)⟩
      refine hall.ends hfewer hlighter (fun v hv => ?_)
        (fun z hz => (Graph.outer_arg_subset hs hx hz).trans Finset.subset_union_left)
        (fun z hz => (Graph.outer_arg_subset hs hy hz).trans Finset.subset_union_right)
        fun z hz w hw => Or.inr ⟨hvars, ?_⟩
      · rcases Finset.mem_union.mp hv with hv | hv
        · exact Graph.lt_size_of_isFree (Graph.isFree_of_mem_outer hs ha' hv)
        · exact Graph.lt_size_of_isFree (Graph.isFree_of_mem_outer hs hb' hv)
      · have hz := Graph.size_arg_lt hs hx hz
        have hw := Graph.size_arg_lt hs hy hw
        exact (Nat.add_lt_add hz hw).trans_le hsize

/-- A unification with a bound on the number of resolutions of generic overload sets returns. -/
theorem Bounded.returns (h : Bounded n a b s) : Returns a b s := by
  -- induction on the three parts of the measure
  have hall : ∀ n k size ⦃a b s⦄, Bounded n a b s →
      (s.graph.outer a ∪ s.graph.outer b).card ≤ k →
      (s.graph.resolve a).size + (s.graph.resolve b).size ≤ size → Returns a b s := by
    intro n
    induction n using Nat.strong_induction_on with
    | _ n ihn =>
      have hfewer : FewerReturn n := fun n' hn' _ _ _ h => ihn n' hn' _ _ h le_rfl le_rfl
      intro k
      induction k using Nat.strong_induction_on with
      | _ k ihk =>
        intro size
        induction size using Nat.strong_induction_on with
        | _ size ihsize =>
          intro a b s h hvars hsize
          refine h.returns_of_lighter hfewer (fun a b s h vs ha hb hlight => ?_) hvars hsize
          have hle := Finset.card_le_card (Finset.union_subset ha hb)
          rcases hlight with hlt | ⟨hvs, hlt⟩
          · exact ihk _ hlt _ h hle le_rfl
          · exact ihsize _ hlt h (hle.trans hvs) le_rfl
  exact hall n _ _ h le_rfl le_rfl

/-- A unification returns if and only if there is a bound on the number of resolutions of generic
overload sets that its runs start. -/
theorem returns_iff_bounded (hs : s.graph.WellFormed) (ha : a < s.graph.nodes.size)
    (hb : b < s.graph.nodes.size) :
    Returns a b s ↔ ∃ n, ∀ depth, genericChoices depth a b s ≤ n := by
  constructor
  · intro h
    obtain ⟨d, hd⟩ := returns_iff.mp h
    refine ⟨genericChoices d a b s, fun depth => ?_⟩
    rcases Nat.le_total depth d with hle | hle
    · exact genericChoices_mono hle a b s
    · exact (genericChoices_eq hle hd).ge
  · rintro ⟨n, hn⟩
    exact Bounded.returns ⟨hs, ha, hb, hn⟩

end Unification
