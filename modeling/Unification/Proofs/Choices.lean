import Unification.Proofs.Depth

/-!
# Resolutions of generic overload sets

An overload set is generic if it has a placeholder: trying or choosing a member of it makes new
variables. This file counts how many resolutions of generic overload sets a run starts, inside
trials too and also in a run that is cut short. The count of a deeper run is at least as great, and
the same once the run ends: `genericChoices_mono` and `genericChoices_eq`.
-/

namespace Unification

open Outcome

/-- The type has a placeholder somewhere, inside its overload sets included. -/
def Graph.isGeneric (g : Graph) (r : TypeRef) : Bool :=
  !(g.resolve r).placeholders.isEmpty

lemma Graph.isGeneric_eq_false_iff {g : Graph} {r : TypeRef} :
    g.isGeneric r = false ↔ (g.resolve r).placeholders = [] := by
  simp [isGeneric]

/-! ### Counting -/

/-- A count for what is done after a success, and zero if there was none. -/
def Outcome.after {σ α : Type} (o : Outcome σ α) (count : α → σ → Nat) : Nat :=
  match o with
  | done a s => count a s
  | _        => 0

/-- A count for each unification that may be run. -/
abbrev Tally := TypeRef → TypeRef → Store → Nat

section Tally

variable (unify : Unifier) (tally : Tally)

/-- The count over the pairs of two lists that come to be unified. -/
def tallyAll : List TypeRef → List TypeRef → Store → Nat
  | x :: xs, y :: ys, s => tally x y s + (unify x y s).after fun _ s => tallyAll xs ys s
  | _,       _,       _ => 0

/-- The count for the trial of a member. -/
def tallyTrial (target m : TypeRef) (s : Store) : Nat :=
  tally (trial target m s).1.1 (trial target m s).1.2 (trial target m s).2

/-- The count over the trials of members that come to be made. -/
def tallyTrials (target : TypeRef) : List TypeRef → Store → Nat
  | [],      _ => 0
  | m :: ms, s =>
    tallyTrial tally target m s + (fits unify target m s).after fun _ s => tallyTrials target ms s

/-- The count for the unification of the chosen member, if one is chosen. -/
def tallyWinner (target : TypeRef) (viable : List TypeRef) (s : Store) : Nat :=
  match s.graph.mostSpecific viable with
  | [w] => tally (s.renew .instantiate w).1 target (s.renew .instantiate w).2
  | _   => 0

/-- The count for the resolution of an overload set, with one for the set itself if it is
generic. -/
def tallyChoice (u : TypeRef) (ms : List TypeRef) (target : TypeRef) (s : Store) : Nat :=
  (if s.graph.isGeneric u then 1 else 0) + tallyTrials unify tally target ms s +
    (fitting unify target ms s).after (tallyWinner tally target)

/-- The count for one step, given the count for the parts. -/
def tallyStep (a b : TypeRef) (s : Store) : Nat :=
  match s.graph.rule (s.graph.rep a) (s.graph.rep b) with
  | .choose u ms target => tallyChoice unify tally u ms target s
  | .descend xs ys      => tallyAll unify tally xs ys s
  | _                   => 0

end Tally

/-- The number of resolutions of generic overload sets that the run starts. -/
def genericChoices : Nat → Tally
  | 0,         _, _, _ => 0
  | depth + 1, a, b, s => tallyStep (unifier depth) (genericChoices depth) a b s

/-! ### Greater depths -/

/-- A count is at most another one, and the same unless the run that it belongs to is cut short. -/
def Stays {α : Type} (o : Outcome Store α) (n n' : Nat) : Prop :=
  n ≤ n' ∧ (o ≠ .cut → n = n')

section Stays

variable {α β : Type} {o o' : Outcome Store α} {n n' : Nat}

lemma Stays.refl (o : Outcome Store α) (n : Nat) : Stays o n n :=
  ⟨le_rfl, fun _ => rfl⟩

lemma Stays.map (f : α → β) (h : Stays o n n') : Stays (o.map f) n n' :=
  ⟨h.1, fun hne => h.2 fun hcut => hne (map_eq_cut_iff.mpr hcut)⟩

/-- If a count stays, and the count for what follows does, then so does their sum. -/
lemma Stays.andThen {f : α → Store → Outcome Store β} {c c' : α → Store → Nat}
    (h : Stays o n n') (hrun : o.Below o') (hrest : ∀ a s, Stays (f a s) (c a s) (c' a s)) :
    Stays (o.andThen f) (n + o.after c) (n' + o'.after c') := by
  obtain ⟨hle, heq⟩ := h
  rcases hrun with rfl | rfl
  · exact ⟨Nat.le_add_right_of_le hle, fun hne => absurd rfl hne⟩
  · cases o with
    | cut => exact ⟨hle, fun hne => absurd rfl hne⟩
    | failed e s => exact ⟨hle, fun _ => heq (by simp)⟩
    | done a s =>
      obtain ⟨hle', heq'⟩ := hrest a s
      exact ⟨Nat.add_le_add hle hle', fun hne => congrArg₂ _ (heq (by simp)) (heq' hne)⟩

end Stays

/-- The second unifier gives every answer that the first gives, and the counts stay. -/
structure Tally.Below (unify : Unifier) (tally : Tally) (unify' : Unifier) (tally' : Tally) :
    Prop where
  run   : unify.Below unify'
  stays : ∀ a b s, Stays (unify a b s) (tally a b s) (tally' a b s)

section Below

variable {unify unify' : Unifier} {tally tally' : Tally}

lemma tallyAll_stays (h : Tally.Below unify tally unify' tally') (xs ys : List TypeRef)
    (s : Store) : Stays (unifyAll unify xs ys s) (tallyAll unify tally xs ys s)
      (tallyAll unify' tally' xs ys s) := by
  induction xs generalizing ys s with
  | nil => exact .refl _ _
  | cons x xs ih =>
    cases ys with
    | nil => exact .refl _ _
    | cons y ys => exact (h.stays x y s).andThen (h.run x y s) fun _ s => ih ys s

lemma tallyTrial_stays (h : Tally.Below unify tally unify' tally') (target m : TypeRef)
    (s : Store) :
    Stays (fits unify target m s) (tallyTrial tally target m s) (tallyTrial tally' target m s) := by
  obtain ⟨hle, heq⟩ := h.stays (trial target m s).1.1 (trial target m s).1.2 (trial target m s).2
  refine ⟨hle, fun hne => heq fun hcut => hne ?_⟩
  rw [fits_eq_verdict, hcut, verdict]

lemma tallyTrials_stays (h : Tally.Below unify tally unify' tally') (target : TypeRef)
    (ms : List TypeRef) (s : Store) :
    Stays (fitting unify target ms s) (tallyTrials unify tally target ms s)
      (tallyTrials unify' tally' target ms s) := by
  induction ms generalizing s with
  | nil => exact .refl _ _
  | cons m ms ih =>
    exact (tallyTrial_stays h target m s).andThen (fits_below h.run target m s)
      fun _ s => (ih s).map _

lemma tallyChoice_stays (h : Tally.Below unify tally unify' tally') (u : TypeRef)
    (ms : List TypeRef) (target : TypeRef) (s : Store) :
    Stays (choose unify u ms target s) (tallyChoice unify tally u ms target s)
      (tallyChoice unify' tally' u ms target s) := by
  obtain ⟨hle, heq⟩ := tallyTrials_stays h target ms s
  refine Stays.andThen ⟨Nat.add_le_add_left hle _, fun hne => congrArg _ (heq hne)⟩
    (fitting_below h.run target ms s) fun viable s => ?_
  simp only [tallyWinner]
  match s.graph.mostSpecific viable with
  | [] => exact .refl _ _
  | [w] => exact h.stays _ _ _
  | _ :: _ :: _ => exact .refl _ _

lemma tallyStep_below (h : Tally.Below unify tally unify' tally') :
    Tally.Below (step unify) (tallyStep unify tally) (step unify') (tallyStep unify' tally') where
  run := step_below h.run
  stays a b s := by
    simp only [step, tallyStep]
    cases s.graph.rule (s.graph.rep a) (s.graph.rep b) with
    | same => exact .refl _ _
    | assign var ty => exact .refl _ _
    | choose u ms target => exact tallyChoice_stays h u ms target s
    | descend xs ys => exact (tallyAll_stays h xs ys s).map _
    | clash => exact .refl _ _

end Below

lemma genericChoices_below_succ (depth : Nat) :
    Tally.Below (unifier depth) (genericChoices depth) (unifier (depth + 1))
      (genericChoices (depth + 1)) := by
  induction depth with
  | zero => exact ⟨unifier_below_succ 0, fun _ _ _ => ⟨Nat.zero_le _, fun h => absurd rfl h⟩⟩
  | succ depth ih => exact tallyStep_below ih

lemma genericChoices_below {d d' : Nat} (h : d ≤ d') :
    Tally.Below (unifier d) (genericChoices d) (unifier d') (genericChoices d') := by
  induction h with
  | refl => exact ⟨unifier_below le_rfl, fun _ _ _ => .refl _ _⟩
  | @step d' h ih =>
    refine ⟨unifier_below (Nat.le_succ_of_le h), fun a b s => ?_⟩
    obtain ⟨hle, heq⟩ := ih.stays a b s
    obtain ⟨hle', heq'⟩ := (genericChoices_below_succ d').stays a b s
    refine ⟨hle.trans hle', fun hne => ?_⟩
    rw [heq hne, heq' ((unifier_below h a b s).eq_of_ne_cut hne ▸ hne)]

/-- A deeper run starts at least as many resolutions. -/
theorem genericChoices_mono {d d' : Nat} (h : d ≤ d') (a b : TypeRef) (s : Store) :
    genericChoices d a b s ≤ genericChoices d' a b s :=
  ((genericChoices_below h).stays a b s).1

/-- Once the run ends, a deeper run starts no more resolutions. -/
theorem genericChoices_eq {d d' : Nat} (h : d ≤ d') {a b : TypeRef} {s : Store}
    (hend : unifier d a b s ≠ .cut) : genericChoices d a b s = genericChoices d' a b s :=
  ((genericChoices_below h).stays a b s).2 hend

end Unification
