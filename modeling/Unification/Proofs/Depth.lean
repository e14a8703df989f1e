import Unification.Engine.Unify
import Unification.Proofs.Run

/-!
# The depth of a run

A run that is not cut short is the same at every greater depth: `unifier_below`. So a unification
either returns, which is to say that from some depth on its runs all end in one way, or its runs are
cut short at every depth. The lemmas named after `Ends` reduce the question whether a unification
returns to the same question for its parts.
-/

namespace Unification

namespace Outcome

variable {σ α β : Type} {o o' o'' : Outcome σ α} {run : Nat → Outcome σ α}

/-- The first outcome is cut short, or it is the second. -/
def Below (o o' : Outcome σ α) : Prop :=
  o = .cut ∨ o = o'

lemma Below.refl (o : Outcome σ α) : o.Below o :=
  Or.inr rfl

lemma Below.trans (h : o.Below o') (h' : o'.Below o'') : o.Below o'' := by
  rcases h with rfl | rfl
  · exact Or.inl rfl
  · exact h'

lemma Below.andThen {f f' : α → σ → Outcome σ β} (h : o.Below o')
    (hf : ∀ a s, (f a s).Below (f' a s)) : (o.andThen f).Below (o'.andThen f') := by
  rcases h with rfl | rfl
  · exact Or.inl rfl
  · cases o with
    | done a s => exact hf a s
    | failed e s => exact Below.refl _
    | cut => exact Below.refl _

lemma Below.map (f : α → β) (h : o.Below o') : (o.map f).Below (o'.map f) := by
  rcases h with rfl | rfl
  · exact Or.inl rfl
  · exact Below.refl _

lemma Below.eq_of_ne_cut (h : o.Below o') (ho : o ≠ .cut) : o' = o :=
  (h.resolve_left ho).symm

/-- From some depth on, the run ends in this way. -/
def Tends (run : Nat → Outcome σ α) (o : Outcome σ α) : Prop :=
  o ≠ .cut ∧ ∃ depth, ∀ d ≥ depth, run d = o

/-- From some depth on, the run ends, always in the same way. -/
def Ends (run : Nat → Outcome σ α) : Prop :=
  ∃ o, Tends run o

lemma tends_const (h : o ≠ .cut) : Tends (fun _ => o) o :=
  ⟨h, 0, fun _ _ => rfl⟩

lemma ends_const (h : o ≠ .cut) : Ends fun _ => o :=
  ⟨o, tends_const h⟩

/-- A run that ends at one depth and is the same at every greater depth. -/
lemma tends_of_ne_cut (hmono : ∀ d d', d ≤ d' → (run d).Below (run d')) {d : Nat}
    (h : run d ≠ .cut) : Tends run (run d) :=
  ⟨h, d, fun d' hd' => (hmono d d' hd').eq_of_ne_cut h⟩

lemma Tends.exists_eq (h : Tends run o) : ∃ d, run d = o := by
  obtain ⟨-, depth, hrun⟩ := h
  exact ⟨depth, hrun depth le_rfl⟩

/-- What goes on from an ending that is reached goes on from it at every greater depth. -/
lemma Tends.andThen {f : Nat → α → σ → Outcome σ β} (h : Tends run o)
    (hf : ∀ a s, o = .done a s → Ends fun d => f d a s) :
    Ends fun d => (run d).andThen (f d) := by
  obtain ⟨ho, depth, hrun⟩ := h
  cases o with
  | cut => exact absurd rfl ho
  | failed e s => exact ⟨.failed e s, by simp, depth, fun d hd => by simp [hrun d hd]⟩
  | done a s =>
    obtain ⟨o', ho', depth', hrun'⟩ := hf a s rfl
    refine ⟨o', ho', max depth depth', fun d hd => ?_⟩
    have hfirst := hrun d (le_trans (le_max_left _ _) hd)
    have hsecond := hrun' d (le_trans (le_max_right _ _) hd)
    simp only [hfirst, done_andThen, hsecond]

/-- What is read off an ending is read off at every greater depth. -/
lemma Ends.comp {f : Outcome σ α → Outcome σ β} (h : Ends run) (hf : ∀ o, o ≠ .cut → f o ≠ .cut) :
    Ends fun d => f (run d) := by
  obtain ⟨o, ho, depth, hrun⟩ := h
  exact ⟨f o, hf o ho, depth, fun d hd => congrArg f (hrun d hd)⟩

lemma Ends.map (f : α → β) (h : Ends run) : Ends fun d => (run d).map f :=
  h.comp fun _ ho h => ho (map_eq_cut_iff.mp h)

/-- It does not matter for an ending if the first depth is left out. -/
lemma Ends.of_succ (h : Ends fun d => run (d + 1)) : Ends run := by
  obtain ⟨o, ho, depth, hrun⟩ := h
  refine ⟨o, ho, depth + 1, fun d hd => ?_⟩
  obtain ⟨k, rfl⟩ := Nat.exists_eq_add_of_le' hd
  exact hrun (k + depth) (Nat.le_add_left _ _)

end Outcome

open Outcome

/-! ### Greater depths -/

/-- The second unifier gives every answer that the first gives. -/
def Unifier.Below (unify unify' : Unifier) : Prop :=
  ∀ a b s, (unify a b s).Below (unify' a b s)

section Below

variable {unify unify' : Unifier}

lemma unifyAll_below (h : unify.Below unify') (xs ys : List TypeRef) (s : Store) :
    (unifyAll unify xs ys s).Below (unifyAll unify' xs ys s) := by
  induction xs generalizing ys s with
  | nil => exact .refl _
  | cons x xs ih =>
    cases ys with
    | nil => exact .refl _
    | cons y ys => exact (h x y s).andThen fun _ s => ih ys s

lemma fits_below (h : unify.Below unify') (target m : TypeRef) (s : Store) :
    (fits unify target m s).Below (fits unify' target m s) := by
  rw [fits_eq_verdict, fits_eq_verdict]
  rcases h (trial target m s).1.1 (trial target m s).1.2 (trial target m s).2 with hcut | heq
  · left
    rw [hcut, verdict]
  · right
    rw [heq]

lemma fitting_below (h : unify.Below unify') (target : TypeRef) (ms : List TypeRef) (s : Store) :
    (fitting unify target ms s).Below (fitting unify' target ms s) := by
  induction ms generalizing s with
  | nil => exact .refl _
  | cons m ms ih => exact (fits_below h target m s).andThen fun _ s => (ih s).map _

lemma choose_below (h : unify.Below unify') (u : TypeRef) (ms : List TypeRef) (target : TypeRef)
    (s : Store) : (choose unify u ms target s).Below (choose unify' u ms target s) := by
  refine (fitting_below h target ms s).andThen fun viable s => ?_
  split
  · exact .refl _
  · exact h _ _ _
  · exact .refl _

lemma step_below (h : unify.Below unify') : Unifier.Below (step unify) (step unify') := by
  intro a b s
  simp only [step]
  split
  · exact .refl _
  · exact .refl _
  · exact choose_below h _ _ _ s
  · exact (unifyAll_below h _ _ s).map _
  · exact .refl _

end Below

lemma unifier_below_succ (depth : Nat) : (unifier depth).Below (unifier (depth + 1)) := by
  induction depth with
  | zero => exact fun _ _ _ => Or.inl rfl
  | succ depth ih => exact step_below ih

/-- A run that is not cut short is the same at every greater depth. -/
theorem unifier_below {d d' : Nat} (h : d ≤ d') : (unifier d).Below (unifier d') := by
  induction h with
  | refl => exact fun _ _ _ => .refl _
  | step _ ih => exact fun a b s => (ih a b s).trans (unifier_below_succ _ a b s)

/-! ### Unifications that return -/

/-- The unification of two types returns: its runs end from some depth on. -/
def Returns (a b : TypeRef) (s : Store) : Prop :=
  Ends fun depth => unifier depth a b s

variable {a b m r target u : TypeRef} {ms xs ys : List TypeRef} {s s' : Store}

lemma returns_iff : Returns a b s ↔ ∃ depth, unifier depth a b s ≠ .cut := by
  constructor
  · rintro ⟨o, ho, depth, hrun⟩
    exact ⟨depth, fun hcut => ho ((hrun depth le_rfl).symm.trans hcut)⟩
  · rintro ⟨depth, h⟩
    exact ⟨_, tends_of_ne_cut (fun _ _ hle => unifier_below hle a b s) h⟩

lemma fits_ends (h : Returns (trial target m s).1.1 (trial target m s).1.2 (trial target m s).2) :
    Ends fun depth => fits (unifier depth) target m s := by
  have hverdict : ∀ o, o ≠ .cut → verdict s.mark o ≠ .cut := by
    intro o ho
    cases o with
    | done r s₁ => simp [verdict]
    | failed e s₁ =>
      simp only [verdict]
      split_ifs <;> simp
    | cut => exact absurd rfl ho
  exact h.comp hverdict

/-- The members are tried one after another, each in the store that the trials before it left. -/
lemma fitting_ends_cons
    (h : Returns (trial target m s).1.1 (trial target m s).1.2 (trial target m s).2)
    (hrest : ∀ fit s₁, Tends (fun depth => fits (unifier depth) target m s) (.done fit s₁) →
      Ends fun depth => fitting (unifier depth) target ms s₁) :
    Ends fun depth => fitting (unifier depth) target (m :: ms) s := by
  obtain ⟨o, ho⟩ := fits_ends h
  apply ho.andThen
  intro fit s₁ hdone
  exact (hrest fit s₁ (hdone ▸ ho)).map _

/-- Resolving an overload set comes to an end if the trials and the unification of the chosen
member do. -/
lemma choose_ends (h : Ends fun depth => fitting (unifier depth) target ms s)
    (hwinner : ∀ viable s₁ w,
      Tends (fun depth => fitting (unifier depth) target ms s) (.done viable s₁) →
      s₁.graph.mostSpecific viable = [w] →
      Returns (s₁.renew .instantiate w).1 target (s₁.renew .instantiate w).2) :
    Ends fun depth => choose (unifier depth) u ms target s := by
  obtain ⟨o, ho⟩ := h
  apply ho.andThen
  intro viable s₁ hdone
  subst hdone
  split
  · exact ends_const (by simp)
  · next w hw => exact hwinner viable s₁ w ho hw
  · exact ends_const (by simp)

/-- A unification returns if the overload resolution or the unification of arguments that its rule
asks for comes to an end. -/
lemma returns_of_rule
    (hchoose : ∀ u ms target, s.graph.rule (s.graph.rep a) (s.graph.rep b) = .choose u ms target →
      Ends fun depth => choose (unifier depth) u ms target s)
    (hdescend : ∀ xs ys, s.graph.rule (s.graph.rep a) (s.graph.rep b) = .descend xs ys →
      Ends fun depth => unifyAll (unifier depth) xs ys s) : Returns a b s := by
  apply Ends.of_succ
  simp only [unifier, step]
  cases hrule : s.graph.rule (s.graph.rep a) (s.graph.rep b) with
  | same => exact ends_const (by simp)
  | assign var ty =>
    have hassign : assign var ty s ≠ .cut := by
      rw [assign]
      split_ifs <;> simp
    exact ends_const hassign
  | choose u ms target => exact hchoose u ms target hrule
  | descend xs ys => exact (hdescend xs ys hrule).map _
  | clash => exact ends_const (by simp)

/-! ### Engines -/

namespace Engine

variable {e : Engine}

/-- The unification of two types of the engine returns. -/
def Returns (e : Engine) (a b : TypeRef) : Prop :=
  ∃ depth, (e.unify depth a b).finished = true

lemma finished_unify_iff {depth : Nat} :
    (e.unify depth a b).finished = true ↔ unifier depth a b e.store ≠ .cut := by
  rw [unify]
  cases unifier depth a b e.store <;> simp [finished]

/-- A unification that succeeds ends in the graph that the run has left. -/
lemma unify_eq_done {depth : Nat} {e' : Engine} (h : e.unify depth a b = .done r e') :
    ∃ s, unifier depth a b e.store = .done r s ∧ e'.graph = s.graph := by
  rw [unify] at h
  cases hrun : unifier depth a b e.store with
  | cut => simp [hrun] at h
  | failed err s => simp [hrun] at h
  | done r' s =>
    simp only [hrun, done.injEq] at h
    obtain ⟨rfl, rfl⟩ := h
    exact ⟨s, rfl, rfl⟩

lemma unify_eq_failed {depth : Nat} {err : TypeError} {e' : Engine}
    (h : e.unify depth a b = .failed err e') :
    ∃ s, unifier depth a b e.store = .failed err s := by
  rw [unify] at h
  cases hrun : unifier depth a b e.store with
  | cut => simp [hrun] at h
  | failed err' s =>
    simp only [hrun, failed.injEq] at h
    exact ⟨s, by rw [h.1]⟩
  | done r s => simp [hrun] at h

lemma returns_iff : e.Returns a b ↔ Unification.Returns a b e.store := by
  simp only [Returns, finished_unify_iff, Unification.returns_iff]

end Engine

end Unification
