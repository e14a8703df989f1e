import Unification.Proofs.Renewal
import Unification.Proofs.Search
import Unification.Solver

/-!
# Runs of the unifier

What a run may do to the store, whatever it is asked. One step over a lawful unifier is lawful, and
so is every run. On a well-formed store a run adds nodes, binds free variables and leaves the store
well formed, and a trial of an overload takes all its bindings back.
-/

namespace Unification

namespace Outcome

variable {σ α β : Type} {o : Outcome σ α} {s : σ}

/-- The run came to an end in this state, with success or failure. -/
def EndsIn (o : Outcome σ α) (s : σ) : Prop :=
  (∃ a, o = .done a s) ∨ ∃ e, o = .failed e s

lemma endsIn_done {a : α} {s' : σ} : (done a s : Outcome σ α).EndsIn s' ↔ s' = s := by
  simp [EndsIn, eq_comm]

lemma endsIn_failed {e : TypeError} {s' : σ} : (failed e s : Outcome σ α).EndsIn s' ↔ s' = s := by
  simp [EndsIn, eq_comm]

lemma not_endsIn_cut : ¬ (cut : Outcome σ α).EndsIn s := by
  simp [EndsIn]

lemma endsIn_map {f : α → β} : (o.map f).EndsIn s ↔ o.EndsIn s := by
  cases o <;> simp [EndsIn, map]

lemma map_eq_done_iff {f : α → β} {b : β} : o.map f = .done b s ↔ ∃ a, o = .done a s ∧ f a = b := by
  cases o <;> simp [map, and_comm]

lemma map_eq_failed_iff {f : α → β} {e : TypeError} : o.map f = .failed e s ↔ o = .failed e s := by
  cases o <;> simp [map]

lemma map_eq_cut_iff {f : α → β} : o.map f = .cut ↔ o = .cut := by
  cases o <;> simp [map]

/-- Whether a run succeeds with something can be decided. -/
instance {p : α → σ → Prop} [∀ a s, Decidable (p a s)] :
    Decidable (∃ a s, o = .done a s ∧ p a s) :=
  match o with
  | .done a s   => decidable_of_iff (p a s) (by simp)
  | .failed _ _ => isFalse (by simp)
  | .cut        => isFalse (by simp)

end Outcome

/-! ### The rules -/

namespace Graph

variable {g : Graph} {a b : TypeRef}

/-- What is known of two representatives when a rule applies to them. -/
inductive Meets (g : Graph) (a b : TypeRef) : Rule → Prop where
  | same : a = b → Meets g a b .same
  | assignLeft {name : Option String} {binding : Option TypeRef} :
      g.node? a = some (.var name binding) → a ≠ b → Meets g a b (.assign a b)
  | assignRight {name : Option String} {binding : Option TypeRef} :
      g.node? b = some (.var name binding) → a ≠ b → Meets g a b (.assign b a)
  | chooseLeft {members : List TypeRef} :
      g.node? a = some (.union members) → Meets g a b (.choose a members b)
  | chooseRight {members : List TypeRef} :
      g.node? b = some (.union members) → Meets g a b (.choose b members a)
  | descend {t : TemplateRef} {xs ys : List TypeRef} :
      g.node? a = some (.inst t xs) → g.node? b = some (.inst t ys) →
      Meets g a b (.descend xs ys)
  | clash : a ≠ b →
      (∀ m n, g.node? a = some m → g.node? b = some n →
        (m.isVar = false ∧ m.isUnion = false) ∧ (n.isVar = false ∧ n.isUnion = false) ∧
          ∀ t xs u ys, m = .inst t xs → n = .inst u ys → t ≠ u) →
      Meets g a b .clash

/-- The rule for two representatives fits their nodes. -/
theorem rule_meets (g : Graph) (a b : TypeRef) : g.Meets a b (g.rule a b) := by
  rw [rule]
  split
  · next name binding ha =>
    split_ifs with hab
    · exact .same hab
    · exact .assignLeft ha hab
  · next name binding hb ha =>
    apply Meets.assignRight hb
    rintro rfl
    exact ha _ _ hb
  · next ha _ => exact .chooseLeft ha
  · next hb _ _ => exact .chooseRight hb
  · next t xs u ys ha hb =>
    split_ifs with hab htu
    · exact .same hab
    · subst htu
      exact .descend ha hb
    · apply Meets.clash hab
      intro m n hm hn
      cases hm.symm.trans ha
      cases hn.symm.trans hb
      refine ⟨⟨rfl, rfl⟩, ⟨rfl, rfl⟩, ?_⟩
      rintro _ _ _ _ ⟨⟩ ⟨⟩
      exact htu
  · next hva hvb hua hub hinst =>
    split_ifs with hab
    · exact .same hab
    · refine .clash hab fun m n hm hn => ⟨⟨?_, ?_⟩, ⟨?_, ?_⟩, ?_⟩
      · cases m <;> simp_all [Node.isVar]
      · cases m <;> simp_all [Node.isUnion]
      · cases n <;> simp_all [Node.isVar]
      · cases n <;> simp_all [Node.isUnion]
      · rintro t xs u ys rfl rfl
        exact absurd hn (hinst t xs u ys hm)

end Graph

/-! ### Lawful unifiers -/

open Outcome

/-- What holds of every unification of types of a well-formed store, however it ends. -/
structure Unifier.Lawful (unify : Unifier) : Prop where
  advances : ∀ ⦃a b s s'⦄, s.graph.WellFormed → a < s.graph.nodes.size → b < s.graph.nodes.size →
    (unify a b s).EndsIn s' → s.Advances s' ∧ s'.graph.WellFormed
  result   : ∀ ⦃a b s r s'⦄, s.graph.WellFormed → a < s.graph.nodes.size →
    b < s.graph.nodes.size → unify a b s = .done r s' → r < s'.graph.nodes.size
  rejects  : ∀ ⦃a b s e s'⦄, s.graph.WellFormed → a < s.graph.nodes.size →
    b < s.graph.nodes.size → unify a b s = .failed e s' → e.rejectsMember = true

variable {unify : Unifier} {a b m r target u : TypeRef} {ms xs ys : List TypeRef} {s s' : Store}

/-- Unifying two lists pair by pair advances the store. -/
lemma unifyAll_lawful (hu : unify.Lawful) (hs : s.graph.WellFormed)
    (hx : ∀ x ∈ xs, x < s.graph.nodes.size) (hy : ∀ y ∈ ys, y < s.graph.nodes.size) :
    (∀ s', (unifyAll unify xs ys s).EndsIn s' → s.Advances s' ∧ s'.graph.WellFormed) ∧
      ∀ e s', unifyAll unify xs ys s = .failed e s' → e.rejectsMember = true := by
  induction xs generalizing ys s with
  | nil =>
    simp only [unifyAll, endsIn_done, forall_eq, reduceCtorEq, false_imp_iff, implies_true,
      and_true]
    exact ⟨Store.Advances.refl s, hs⟩
  | cons x xs ih =>
    cases ys with
    | nil =>
      simp only [unifyAll, endsIn_done, forall_eq, reduceCtorEq, false_imp_iff, implies_true,
        and_true]
      exact ⟨Store.Advances.refl s, hs⟩
    | cons y ys =>
      have hx' := hx x (by simp)
      have hy' := hy y (by simp)
      rw [unifyAll]
      cases hxy : unify x y s with
      | cut => simp [not_endsIn_cut]
      | failed e s₁ =>
        simp only [failed_andThen, endsIn_failed, forall_eq, failed.injEq]
        refine ⟨hu.advances hs hx' hy' (Or.inr ⟨e, hxy⟩), ?_⟩
        rintro _ _ ⟨rfl, rfl⟩
        exact hu.rejects hs hx' hy' hxy
      | done r s₁ =>
        -- the rest of the lists is unified in the store that the first pair left
        obtain ⟨hadv, hs₁⟩ := hu.advances hs hx' hy' (Or.inl ⟨r, hxy⟩)
        have hys : ∀ y ∈ ys, y < s₁.graph.nodes.size :=
          fun y h => (hy y (by simp [h])).trans_le hadv.size_le
        obtain ⟨hends, hrej⟩ :=
          ih hs₁ (fun x h => (hx x (by simp [h])).trans_le hadv.size_le) hys
        simp only [done_andThen]
        exact ⟨fun s' h => ⟨hadv.trans (hends s' h).1, (hends s' h).2⟩, hrej⟩

/-! ### Trials -/

/-- The instance of a member and the copy of the target that a trial unifies, with the store that
holds both. -/
def trial (target member : TypeRef) (s : Store) : (TypeRef × TypeRef) × Store :=
  let inst := s.renew .instantiate member
  let probe := inst.2.renew .copy target
  ((inst.1, probe.1), probe.2)

/-- What a trial that began at the mark concludes from its run. -/
def verdict (mark : Nat) : Outcome Store TypeRef → Outcome Store Bool
  | .done _ s   => .done true (s.rewind mark)
  | .failed e s =>
    if e.rejectsMember then .done false (s.rewind mark) else .failed e (s.rewind mark)
  | .cut        => .cut

lemma fits_eq_verdict : fits unify target m s =
    verdict s.mark
      (unify (trial target m s).1.1 (trial target m s).1.2 (trial target m s).2) := rfl

/-- A trial begins in a well-formed store that has both sides. -/
lemma trial_lawful (hs : s.graph.WellFormed) (hm : m < s.graph.nodes.size)
    (ht : target < s.graph.nodes.size) :
    s.Quiet (trial target m s).2 ∧ (trial target m s).2.graph.WellFormed ∧
      (trial target m s).1.1 < (trial target m s).2.graph.nodes.size ∧
      (trial target m s).1.2 < (trial target m s).2.graph.nodes.size := by
  have hq := Store.quiet_renew .instantiate hs hm
  have hs₁ := Graph.wellFormed_renew .instantiate hs hm
  have hi := Graph.renew_lt_size .instantiate hs hm
  have ht₁ := ht.trans_le hq.size_le
  have hq' := Store.quiet_renew .copy hs₁ ht₁
  exact ⟨hq.trans hq', Graph.wellFormed_renew _ hs₁ ht₁, hi.trans_le hq'.size_le,
    Graph.renew_lt_size _ hs₁ ht₁⟩

/-- In a trial the instance reads as the renewed member, and the copy as the renewed target. -/
lemma trial_trees (hs : s.graph.WellFormed) (hm : m < s.graph.nodes.size)
    (ht : target < s.graph.nodes.size) :
    (∃ ρ, (trial target m s).2.graph.resolve (trial target m s).1.1 =
        (s.graph.resolve m).renew .instantiate ρ) ∧
      ∃ ρ, (trial target m s).2.graph.resolve (trial target m s).1.2 =
        (s.graph.resolve target).renew .copy ρ := by
  have hq := Store.quiet_renew .instantiate hs hm
  have hs₁ := Graph.wellFormed_renew .instantiate hs hm
  have ht₁ := ht.trans_le hq.size_le
  have hq' := Store.quiet_renew .copy hs₁ ht₁
  constructor
  · obtain ⟨ρ, hρ⟩ := Graph.resolve_renew .instantiate hs hm
    refine ⟨ρ, Eq.trans ?_ hρ⟩
    exact hq'.graph.resolve_eq hs₁ (Graph.wellFormed_renew .copy hs₁ ht₁)
      (Graph.renew_lt_size .instantiate hs hm)
  · obtain ⟨ρ, hρ⟩ := Graph.resolve_renew .copy hs₁ ht₁
    exact ⟨ρ, hρ.trans (by rw [← hq.graph.resolve_eq hs hs₁ ht]; rfl)⟩

/-- A trial is cut short, or it finds out whether the member fits and leaves no binding behind. -/
lemma fits_cases (hu : unify.Lawful) (hs : s.graph.WellFormed) (hm : m < s.graph.nodes.size)
    (ht : target < s.graph.nodes.size) :
    (unify (trial target m s).1.1 (trial target m s).1.2 (trial target m s).2 = .cut ∧
        fits unify target m s = .cut) ∨
      ∃ fit s', fits unify target m s = .done fit s' ∧ s.Quiet s' ∧ s'.graph.WellFormed := by
  obtain ⟨hq, hs₂, hi, hp⟩ := trial_lawful hs hm ht
  have hback : ∀ s₃,
      (unify (trial target m s).1.1 (trial target m s).1.2 (trial target m s).2).EndsIn s₃ →
        s.Quiet (s₃.rewind s.mark) ∧ (s₃.rewind s.mark).graph.WellFormed := by
    intro s₃ h
    obtain ⟨hadv, hs₃⟩ := hu.advances hs₂ hi hp h
    exact ⟨(hq.advances.trans hadv).quiet_rewind, Store.wellFormed_rewind hs₃ _⟩
  rw [fits_eq_verdict]
  cases hrun : unify (trial target m s).1.1 (trial target m s).1.2 (trial target m s).2 with
  | cut => exact Or.inl ⟨rfl, rfl⟩
  | done r s₃ => exact Or.inr ⟨true, _, rfl, hback s₃ (Or.inl ⟨r, hrun⟩)⟩
  | failed e s₃ =>
    refine Or.inr ⟨false, _, ?_, hback s₃ (Or.inr ⟨e, hrun⟩)⟩
    simp [verdict, hu.rejects hs₂ hi hp hrun]

/-- The trials of all members are cut short, or they find the members that fit and leave no binding
behind. -/
lemma fitting_cases (hu : unify.Lawful) (hs : s.graph.WellFormed)
    (hms : ∀ m ∈ ms, m < s.graph.nodes.size) (ht : target < s.graph.nodes.size) :
    fitting unify target ms s = .cut ∨
      ∃ viable s', fitting unify target ms s = .done viable s' ∧ viable ⊆ ms ∧ s.Quiet s' ∧
        s'.graph.WellFormed := by
  induction ms generalizing s with
  | nil => exact Or.inr ⟨[], s, rfl, List.Subset.refl _, Store.Quiet.refl s, hs⟩
  | cons m ms ih =>
    rw [fitting]
    rcases fits_cases hu hs (hms m (by simp)) ht with ⟨-, hcut⟩ | ⟨fit, s₁, hfit, hq, hs₁⟩
    · exact Or.inl (by simp [hcut])
    · rw [hfit, done_andThen]
      rcases ih hs₁ (fun m h => (hms m (by simp [h])).trans_le hq.size_le) (ht.trans_le hq.size_le)
        with hcut | ⟨viable, s₂, hrest, hsub, hq', hs₂⟩
      · exact Or.inl (by simp [hcut, map])
      · refine Or.inr ⟨_, s₂, by rw [hrest, map], ?_, hq.trans hq', hs₂⟩
        split_ifs
        · exact List.cons_subset_cons m hsub
        · exact List.subset_cons_of_subset m hsub

/-- Trials that are not cut short leave a quiet store behind. -/
lemma fitting_quiet (hu : unify.Lawful) {viable : List TypeRef} (hs : s.graph.WellFormed)
    (hms : ∀ m ∈ ms, m < s.graph.nodes.size) (ht : target < s.graph.nodes.size)
    (hrun : fitting unify target ms s = .done viable s') :
    viable ⊆ ms ∧ s.Quiet s' ∧ s'.graph.WellFormed := by
  rcases fitting_cases hu hs hms ht with hcut | ⟨_, _, hrun', h⟩
  · simp [hcut] at hrun
  · cases hrun.symm.trans hrun'
    exact h

lemma mostSpecific_subset (g : Graph) (rs : List TypeRef) : g.mostSpecific rs ⊆ rs :=
  List.filter_subset_self _

/-- Resolving an overload set is cut short in the trials, fails after them, or unifies an instance
of one member with the target. -/
lemma choose_cases (hu : unify.Lawful) (hs : s.graph.WellFormed)
    (hms : ∀ m ∈ ms, m < s.graph.nodes.size) (ht : target < s.graph.nodes.size) :
    (fitting unify target ms s = .cut ∧ choose unify u ms target s = .cut) ∨
      ∃ viable s₁, fitting unify target ms s = .done viable s₁ ∧ s.Quiet s₁ ∧
        s₁.graph.WellFormed ∧
        ((∃ e, choose unify u ms target s = .failed e s₁ ∧ e.rejectsMember = true) ∨
          ∃ w ∈ ms, s₁.graph.mostSpecific viable = [w] ∧ choose unify u ms target s =
            unify (s₁.renew .instantiate w).1 target (s₁.renew .instantiate w).2) := by
  rw [choose]
  rcases fitting_cases hu hs hms ht with hcut | ⟨viable, s₁, hrun, hsub, hq, hs₁⟩
  · exact Or.inl ⟨hcut, by simp [hcut]⟩
  · refine Or.inr ⟨viable, s₁, hrun, hq, hs₁, ?_⟩
    rw [hrun, done_andThen]
    split
    · exact Or.inl ⟨_, rfl, rfl⟩
    · next w hw =>
      exact Or.inr ⟨w, hsub (mostSpecific_subset s₁.graph viable (by simp [hw])), hw, rfl⟩
    · exact Or.inl ⟨_, rfl, rfl⟩

/-! ### One step -/

/-- All that one step can do with two representatives. -/
inductive StepsTo (unify : Unifier) (s : Store) (a b : TypeRef) : Outcome Store TypeRef → Prop where
  | same : a = b → StepsTo unify s a b (.done a s)
  | bindLeft : s.graph.isFree a = true → ¬ s.graph.Reaches b a →
      StepsTo unify s a b (.done b (s.bind a b))
  | bindRight : s.graph.isFree b = true → ¬ s.graph.Reaches a b →
      StepsTo unify s a b (.done a (s.bind b a))
  | occursLeft : s.graph.isFree a = true → a ≠ b → s.graph.Reaches b a →
      StepsTo unify s a b (.failed (s.graph.infiniteType a b) s)
  | occursRight : s.graph.isFree b = true → a ≠ b → s.graph.Reaches a b →
      StepsTo unify s a b (.failed (s.graph.infiniteType b a) s)
  | chooseLeft {members : List TypeRef} : s.graph.rule a b = .choose a members b →
      s.graph.node? a = some (.union members) →
      StepsTo unify s a b (choose unify a members b s)
  | chooseRight {members : List TypeRef} : s.graph.rule a b = .choose b members a →
      s.graph.node? b = some (.union members) →
      StepsTo unify s a b (choose unify b members a s)
  | descend {t : TemplateRef} {xs ys : List TypeRef} : s.graph.rule a b = .descend xs ys →
      s.graph.node? a = some (.inst t xs) → s.graph.node? b = some (.inst t ys) →
      StepsTo unify s a b ((unifyAll unify xs ys s).map fun _ => a)
  | clash : a ≠ b →
      (∀ m n, s.graph.node? a = some m → s.graph.node? b = some n →
        (m.isVar = false ∧ m.isUnion = false) ∧ (n.isVar = false ∧ n.isUnion = false) ∧
          ∀ t xs u ys, m = .inst t xs → n = .inst u ys → t ≠ u) →
      StepsTo unify s a b (.failed (s.graph.incompatible a b) s)

/-- A step does with the representatives what the rules say. -/
theorem step_stepsTo (unify : Unifier) (hs : s.graph.WellFormed) (ha : a < s.graph.nodes.size)
    (hb : b < s.graph.nodes.size) :
    StepsTo unify s (s.graph.rep a) (s.graph.rep b) (step unify a b s) := by
  have ha' := Graph.rep_lt_size hs ha
  have hb' := Graph.rep_lt_size hs hb
  have hmeets := s.graph.rule_meets (s.graph.rep a) (s.graph.rep b)
  simp only [step]
  generalize hrule : s.graph.rule (s.graph.rep a) (s.graph.rep b) = rule at hmeets ⊢
  cases hmeets with
  | same h => exact .same h
  | assignLeft hn hne =>
    have hocc := Graph.occursIn_eq_true_iff hs (Graph.binding?_rep hs a) hb'
    simp only [assign]
    split_ifs with h
    · exact .occursLeft (Graph.isFree_rep hs hn) hne (hocc.mp h)
    · exact .bindLeft (Graph.isFree_rep hs hn) fun hreach => h (hocc.mpr hreach)
  | assignRight hn hne =>
    have hocc := Graph.occursIn_eq_true_iff hs (Graph.binding?_rep hs b) ha'
    simp only [assign]
    split_ifs with h
    · exact .occursRight (Graph.isFree_rep hs hn) hne (hocc.mp h)
    · exact .bindRight (Graph.isFree_rep hs hn) fun hreach => h (hocc.mpr hreach)
  | chooseLeft hn => exact .chooseLeft hrule hn
  | chooseRight hn => exact .chooseRight hrule hn
  | descend hx hy => exact .descend hrule hx hy
  | clash hne hnodes => exact .clash hne hnodes

/-- What a lawful unifier promises of how its run from a store ends. -/
structure Outcome.LawfulFrom (s : Store) (o : Outcome Store TypeRef) : Prop where
  advances : ∀ ⦃s'⦄, o.EndsIn s' → s.Advances s' ∧ s'.graph.WellFormed
  result   : ∀ ⦃r s'⦄, o = .done r s' → r < s'.graph.nodes.size
  rejects  : ∀ ⦃e s'⦄, o = .failed e s' → e.rejectsMember = true

lemma lawfulFrom_done (hadv : s.Advances s') (hs' : s'.graph.WellFormed)
    (hr : r < s'.graph.nodes.size) : LawfulFrom s (.done r s') := by
  refine ⟨fun s₁ h => ?_, fun r₁ s₁ h => ?_, by simp⟩
  · rw [endsIn_done.mp h]
    exact ⟨hadv, hs'⟩
  · cases h
    exact hr

lemma lawfulFrom_failed {e : TypeError} (hadv : s.Advances s') (hs' : s'.graph.WellFormed)
    (he : e.rejectsMember = true) : LawfulFrom s (.failed e s') := by
  refine ⟨fun s₁ h => ?_, by simp, fun e₁ s₁ h => ?_⟩
  · rw [endsIn_failed.mp h]
    exact ⟨hadv, hs'⟩
  · cases h
    exact he

lemma lawfulFrom_cut : LawfulFrom s .cut :=
  ⟨fun _ h => absurd h not_endsIn_cut, by simp, by simp⟩

/-- A lawful unification that begins after an advance ends in an advance. -/
lemma Unifier.Lawful.lawfulFrom (hu : unify.Lawful) (hadv : s.Advances s')
    (hs' : s'.graph.WellFormed) (ha : a < s'.graph.nodes.size) (hb : b < s'.graph.nodes.size) :
    LawfulFrom s (unify a b s') where
  advances _ h := (hu.advances hs' ha hb h).imp_left hadv.trans
  result _ _ h := hu.result hs' ha hb h
  rejects _ _ h := hu.rejects hs' ha hb h

/-- What resolving an overload set may do, given a lawful unifier for the parts. -/
lemma choose_lawful (hu : unify.Lawful) (hs : s.graph.WellFormed)
    (hn : s.graph.node? u = some (.union ms)) (ht : target < s.graph.nodes.size) :
    LawfulFrom s (choose unify u ms target s) := by
  have hms : ∀ m ∈ ms, m < s.graph.nodes.size := fun m hm => hs.child_lt hn hm
  rcases choose_cases (u := u) hu hs hms ht with
    ⟨-, hcut⟩ | ⟨_, s₁, -, hq, hs₁, ⟨e, hfail, hrej⟩ | ⟨w, hw, -, hrun⟩⟩
  · rw [hcut]
    exact lawfulFrom_cut
  · rw [hfail]
    exact lawfulFrom_failed hq.advances hs₁ hrej
  · have hw₁ := (hms w hw).trans_le hq.size_le
    have hq' := Store.quiet_renew .instantiate hs₁ hw₁
    have hs₂ := Graph.wellFormed_renew .instantiate hs₁ hw₁
    have hi := Graph.renew_lt_size .instantiate hs₁ hw₁
    have ht₂ := (ht.trans_le hq.size_le).trans_le hq'.size_le
    rw [hrun]
    exact hu.lawfulFrom (hq.trans hq').advances hs₂ hi ht₂

/-- One step over a lawful unifier is lawful. -/
theorem lawful_step (hu : unify.Lawful) : Unifier.Lawful (step unify) := by
  have hall : ∀ ⦃a b s⦄, s.graph.WellFormed → a < s.graph.nodes.size → b < s.graph.nodes.size →
      LawfulFrom s (step unify a b s) := by
    intro a b s hs ha hb
    have ha' := Graph.rep_lt_size hs ha
    have hb' := Graph.rep_lt_size hs hb
    have hsteps := step_stepsTo unify hs ha hb
    generalize step unify a b s = o at hsteps ⊢
    cases hsteps with
    | same h => exact lawfulFrom_done (.refl s) hs ha'
    | bindLeft hfree hocc =>
      refine lawfulFrom_done (Store.advances_bind hfree) (hs.bind hfree hb' hocc) ?_
      simpa [Store.bind] using hb'
    | bindRight hfree hocc =>
      refine lawfulFrom_done (Store.advances_bind hfree) (hs.bind hfree ha' hocc) ?_
      simpa [Store.bind] using ha'
    | occursLeft | occursRight | clash => exact lawfulFrom_failed (.refl s) hs rfl
    | chooseLeft _ hn => exact choose_lawful hu hs hn hb'
    | chooseRight _ hn => exact choose_lawful hu hs hn ha'
    | descend _ hx hy =>
      obtain ⟨hends, hrej⟩ := unifyAll_lawful hu hs (fun x h => hs.child_lt hx h)
        fun y h => hs.child_lt hy h
      refine ⟨fun s' h => hends s' (endsIn_map.mp h), ?_, ?_⟩
      · intro r s' h
        obtain ⟨_, hrun, rfl⟩ := map_eq_done_iff.mp h
        exact ha'.trans_le (hends s' (Or.inl ⟨_, hrun⟩)).1.size_le
      · intro e s' h
        exact hrej e s' (map_eq_failed_iff.mp h)
  exact ⟨fun a b s s' hs ha hb h => (hall hs ha hb).advances h,
    fun a b s r s' hs ha hb h => (hall hs ha hb).result h,
    fun a b s e s' hs ha hb h => (hall hs ha hb).rejects h⟩

/-- Every run is lawful. -/
theorem lawful_unifier (depth : Nat) : (unifier depth).Lawful := by
  induction depth with
  | zero => exact ⟨by simp [unifier, not_endsIn_cut], by simp [unifier], by simp [unifier]⟩
  | succ depth ih => exact lawful_step ih

end Unification
