import Unification.Proofs.Renumbering.Store

/-!
# Runs under a renumbering

A run does the same in two stores that are related by a renumbering: at every depth it ends in the
same way in both, with the same representative or an error of the same kind, and leaves stores that
are related again. One step over a unifier of this sort is of this sort, and so is every run:
`follows_unifier`. What matters is that nothing in a step depends on the order of numbers or on
nodes that the two types do not lead to.
-/

namespace Unification

open Outcome

namespace Outcome

variable {σ σ' α α' β β' : Type} {E : TypeError → TypeError → Prop} {V : α → α' → Prop}
  {W : β → β' → Prop} {S : σ → σ' → Prop} {o : Outcome σ α} {o' : Outcome σ' α'}

/-- Two runs end in the same way, with related errors or values, and in related states. -/
inductive Alike (E : TypeError → TypeError → Prop) (V : α → α' → Prop) (S : σ → σ' → Prop) :
    Outcome σ α → Outcome σ' α' → Prop where
  | done {a : α} {a' : α'} {s : σ} {s' : σ'} : V a a' → S s s' →
      Alike E V S (.done a s) (.done a' s')
  | failed {e e' : TypeError} {s : σ} {s' : σ'} : E e e' → S s s' →
      Alike E V S (.failed e s) (.failed e' s')
  | cut : Alike E V S .cut .cut

lemma Alike.finished_eq (h : Alike E V S o o') : o'.finished = o.finished := by
  cases h <;> rfl

lemma Alike.imp {E' : TypeError → TypeError → Prop} (h : Alike E V S o o')
    (hE : ∀ e e', E e e' → E' e e') : Alike E' V S o o' := by
  cases h with
  | done hv hs => exact .done hv hs
  | failed he hs => exact .failed (hE _ _ he) hs
  | cut => exact .cut

/-- Related endings are related by weaker relations too, where what is known of the states of the
two runs may be used. -/
lemma Alike.mono {E' : TypeError → TypeError → Prop} {V' : α → α' → Prop} {S' : σ → σ' → Prop}
    (h : Alike E V S o o') (hE : ∀ e e', E e e' → E' e e') (hV : ∀ a a', V a a' → V' a a')
    (hS : ∀ s s', o.EndsIn s → o'.EndsIn s' → S s s' → S' s s') : Alike E' V' S' o o' := by
  cases h with
  | done hv hs => exact .done (hV _ _ hv) (hS _ _ (endsIn_done.mpr rfl) (endsIn_done.mpr rfl) hs)
  | failed he hs =>
    exact .failed (hE _ _ he) (hS _ _ (endsIn_failed.mpr rfl) (endsIn_failed.mpr rfl) hs)
  | cut => exact .cut

lemma Alike.andThen {f : α → σ → Outcome σ β} {f' : α' → σ' → Outcome σ' β'}
    (h : Alike E V S o o')
    (hf : ∀ a a' s s', o = .done a s → V a a' → S s s' → Alike E W S (f a s) (f' a' s')) :
    Alike E W S (o.andThen f) (o'.andThen f') := by
  cases h with
  | done hv hs => exact hf _ _ _ _ rfl hv hs
  | failed he hs => exact .failed he hs
  | cut => exact .cut

lemma Alike.map {f : α → β} {f' : α' → β'} (h : Alike E V S o o')
    (hf : ∀ a a', V a a' → W (f a) (f' a')) : Alike E W S (o.map f) (o'.map f') := by
  cases h with
  | done hv hs => exact .done (hf _ _ hv) hs
  | failed he hs => exact .failed he hs
  | cut => exact .cut

end Outcome

namespace Renumbering

variable {φ : Renumbering} {unify : Unifier} {s s' : Store} {a b m target ty u v : TypeRef}
  {ms xs ys : List TypeRef}

/-- In related stores the unifier gives related answers. -/
def Follows (φ : Renumbering) (unify : Unifier) : Prop :=
  ∀ ⦃a b s s'⦄, φ.TracksStore s s' → a ∈ φ.types → b ∈ φ.types →
    a < s.graph.nodes.size → b < s.graph.nodes.size →
    (unify a b s).Alike φ.SameError φ.Sends φ.TracksStore (unify (φ.type a) (φ.type b) s')

lemma unifyAll_follows (hu : unify.Lawful) (hf : φ.Follows unify) (h : φ.TracksStore s s')
    (hxs : ∀ x ∈ xs, x ∈ φ.types ∧ x < s.graph.nodes.size)
    (hys : ∀ y ∈ ys, y ∈ φ.types ∧ y < s.graph.nodes.size) :
    (unifyAll unify xs ys s).Alike φ.SameError Eq φ.TracksStore
      (unifyAll unify (xs.map φ.type) (ys.map φ.type) s') := by
  induction xs generalizing ys s s' with
  | nil =>
    simp only [List.map_nil, unifyAll]
    exact .done rfl h
  | cons x xs ih =>
    cases ys with
    | nil =>
      simp only [List.map_nil, unifyAll]
      exact .done rfl h
    | cons y ys =>
      obtain ⟨hxT, hx⟩ := hxs x (by simp)
      obtain ⟨hyT, hy⟩ := hys y (by simp)
      simp only [List.map_cons, unifyAll]
      refine (hf h hxT hyT hx hy).andThen fun r r' s₁ s₁' hrun _ h₁ => ?_
      have hle := (hu.advances h.left hx hy (Or.inl ⟨r, hrun⟩)).1.size_le
      exact ih h₁ (fun z hz => (hxs z (by simp [hz])).imp_right fun hlt => hlt.trans_le hle)
        fun z hz => (hys z (by simp [hz])).imp_right fun hlt => hlt.trans_le hle

/-! ### Trials -/

lemma TracksStore.trial (h : φ.TracksStore s s') (hmT : m ∈ φ.types) (htT : target ∈ φ.types)
    (hm : m < s.graph.nodes.size) (ht : target < s.graph.nodes.size) :
    φ.Sends (trial target m s).1.1 (trial (φ.type target) (φ.type m) s').1.1 ∧
      φ.Sends (trial target m s).1.2 (trial (φ.type target) (φ.type m) s').1.2 ∧
      φ.TracksStore (trial target m s).2 (trial (φ.type target) (φ.type m) s').2 := by
  obtain ⟨hinst, h₁⟩ := h.renew .instantiate hmT hm
  have ht₁ := ht.trans_le (Store.quiet_renew .instantiate h.left hm).size_le
  obtain ⟨hprobe, h₂⟩ := h₁.renew .copy htT ht₁
  exact ⟨hinst, hprobe, h₂⟩

/-- Whether a member is rejected depends on the kind of the error only. -/
lemma verdict_alike {o o' : Outcome Store TypeRef} (k : Nat)
    (h : o.Alike φ.SameError φ.Sends φ.TracksStore o') :
    (verdict k o).Alike φ.SameError Eq φ.TracksStore (verdict k o') := by
  cases h with
  | done _ h => exact .done rfl (h.rewind k)
  | @failed e e' s s' he h =>
    simp only [verdict, TypeError.rejectsMember_eq_of_kind he.1]
    split_ifs
    · exact .done rfl (h.rewind k)
    · exact .failed he (h.rewind k)
  | cut => exact .cut

lemma fits_follows (hf : φ.Follows unify) (h : φ.TracksStore s s') (hmT : m ∈ φ.types)
    (htT : target ∈ φ.types) (hm : m < s.graph.nodes.size) (ht : target < s.graph.nodes.size) :
    (fits unify target m s).Alike φ.SameError Eq φ.TracksStore
      (fits unify (φ.type target) (φ.type m) s') := by
  obtain ⟨⟨hiT, hi⟩, ⟨hpT, hp⟩, h₂⟩ := h.trial hmT htT hm ht
  obtain ⟨-, -, hilt, hplt⟩ := trial_lawful h.left hm ht
  rw [fits_eq_verdict, fits_eq_verdict, h.mark, ← hi, ← hp]
  exact verdict_alike s.mark (hf h₂ hiT hpT hilt hplt)

lemma fitting_follows (hu : unify.Lawful) (hf : φ.Follows unify) (h : φ.TracksStore s s')
    (hms : ∀ m ∈ ms, m ∈ φ.types ∧ m < s.graph.nodes.size) (htT : target ∈ φ.types)
    (ht : target < s.graph.nodes.size) :
    (fitting unify target ms s).Alike φ.SameError
      (fun viable viable' => viable ⊆ ms ∧ viable.map φ.type = viable') φ.TracksStore
      (fitting unify (φ.type target) (ms.map φ.type) s') := by
  induction ms generalizing s s' with
  | nil => exact .done ⟨List.Subset.refl _, rfl⟩ h
  | cons m ms ih =>
    obtain ⟨hmT, hm⟩ := hms m (by simp)
    rw [List.map_cons, fitting, fitting]
    refine (fits_follows hf h hmT htT hm ht).andThen fun fit fit' s₁ s₁' hrun hfit h₁ => ?_
    have hle : s.graph.nodes.size ≤ s₁.graph.nodes.size := by
      rcases fits_cases hu h.left hm ht with ⟨-, hcut⟩ | ⟨_, _, hdone, hq, -⟩
      · cases hcut.symm.trans hrun
      · cases hdone.symm.trans hrun
        exact hq.size_le
    have hrest := ih h₁
      (fun z hz => (hms z (by simp [hz])).imp_right fun hlt => hlt.trans_le hle) (ht.trans_le hle)
    refine hrest.map ?_
    rintro rest _ ⟨hsub, rfl⟩
    subst hfit
    cases fit with
    | true => exact ⟨List.cons_subset_cons m hsub, rfl⟩
    | false => exact ⟨List.subset_cons_of_subset m hsub, rfl⟩

lemma choose_follows (hu : unify.Lawful) (hf : φ.Follows unify) (h : φ.TracksStore s s')
    (hms : ∀ m ∈ ms, m ∈ φ.types ∧ m < s.graph.nodes.size) (huT : u ∈ φ.types)
    (htT : target ∈ φ.types) (ht : target < s.graph.nodes.size) :
    (choose unify u ms target s).Alike φ.SameError φ.Sends φ.TracksStore
      (choose unify (φ.type u) (ms.map φ.type) (φ.type target) s') := by
  rw [choose, choose]
  refine (fitting_follows hu hf h hms htT ht).andThen ?_
  rintro viable _ s₁ s₁' hrun ⟨hsub, rfl⟩ h₁
  obtain ⟨-, hq, -⟩ := fitting_quiet hu h.left (fun m hm => (hms m hm).2) ht hrun
  have hviable : ∀ w ∈ viable, w ∈ φ.types := fun w hw => (hms w (hsub hw)).1
  have hbest : ∀ w ∈ s₁.graph.mostSpecific viable, w ∈ ms := fun w hw =>
    hsub (mostSpecific_subset _ _ hw)
  have hmap := h₁.graph.mostSpecific h₁.left h₁.right hviable
  simp only [hmap]
  generalize s₁.graph.mostSpecific viable = best at hbest ⊢
  rcases best with _ | ⟨w, _ | ⟨w', ws⟩⟩
  · exact .failed (h₁.graph.noMatch h₁.left h₁.right htT huT) h₁
  · obtain ⟨hwT, hw⟩ := hms w (hbest w (by simp))
    have hw₁ := hw.trans_le hq.size_le
    obtain ⟨⟨hiT, hi⟩, h₂⟩ := h₁.renew .instantiate hwT hw₁
    have hq₂ := Store.quiet_renew .instantiate h₁.left hw₁
    simp only [List.map_cons, List.map_nil, ← hi]
    exact hf h₂ hiT htT (Graph.renew_lt_size .instantiate h₁.left hw₁)
      (ht.trans_le (hq.trans hq₂).size_le)
  · have hties : ∀ c ∈ w :: w' :: ws, c ∈ φ.types := fun c hc => (hms c (hbest c hc)).1
    exact .failed (h₁.graph.ambiguous h₁.left h₁.right htT huT hties) h₁

/-! ### One step -/

lemma assign_follows (h : φ.TracksStore s s') (hv : v ∈ φ.types) (hty : ty ∈ φ.types)
    (hfree : s.graph.isFree v = true) (hlt : ty < s.graph.nodes.size) :
    (assign v ty s).Alike φ.SameError φ.Sends φ.TracksStore
      (assign (φ.type v) (φ.type ty) s') := by
  have hoccurs := h.graph.occursIn h.left h.right hv hty hlt
  have hunbound : s.graph.binding? v = none := by
    obtain ⟨name, hn⟩ := (s.graph.isFree_eq_true_iff v).mp hfree
    simp [Graph.binding?, hn, Node.binding?]
  rw [assign, assign, hoccurs]
  split_ifs with hocc
  · exact .failed (h.graph.infiniteType h.left h.right hv hty) h
  · rw [Graph.occursIn_eq_true_iff h.left hunbound hlt] at hocc
    exact .done ⟨hty, rfl⟩ (h.bind hv hty hfree hlt hocc)

/-- One step gives related answers if the unifier for the parts does. -/
theorem follows_step (hsep : φ.Separates) (hu : unify.Lawful) (hf : φ.Follows unify) :
    φ.Follows (step unify) := by
  intro a b s s' h haT hbT ha hb
  have ha' := Graph.rep_lt_size h.left ha
  have hb' := Graph.rep_lt_size h.left hb
  have haT' := h.graph.encloses.rep h.left haT
  have hbT' := h.graph.encloses.rep h.left hbT
  have hmeets := s.graph.rule_meets (s.graph.rep a) (s.graph.rep b)
  have hchildren : ∀ {r n}, r ∈ φ.types → s.graph.node? r = some n → ∀ c ∈ n.children,
      c ∈ φ.types ∧ c < s.graph.nodes.size := fun hr hn c hc =>
    ⟨h.graph.encloses.children hr hn c hc, h.left.child_lt hn hc⟩
  simp only [step, h.graph.rep h.left h.right haT, h.graph.rep h.left h.right hbT,
    h.graph.rule hsep haT' hbT']
  generalize s.graph.rule (s.graph.rep a) (s.graph.rep b) = rule at hmeets ⊢
  cases hmeets with
  | same _ => exact .done ⟨haT', rfl⟩ h
  | assignLeft hn _ => exact assign_follows h haT' hbT' (Graph.isFree_rep h.left hn) hb'
  | assignRight hn _ => exact assign_follows h hbT' haT' (Graph.isFree_rep h.left hn) ha'
  | chooseLeft hn => exact choose_follows hu hf h (hchildren haT' hn) haT' hbT' hb'
  | chooseRight hn => exact choose_follows hu hf h (hchildren hbT' hn) hbT' haT' ha'
  | descend hx hy =>
    exact (unifyAll_follows hu hf h (hchildren haT' hx) (hchildren hbT' hy)).map
      fun _ _ _ => ⟨haT', rfl⟩
  | clash _ _ => exact .failed (h.graph.incompatible h.left h.right haT' hbT') h

/-- Every run gives related answers in related stores. -/
theorem follows_unifier (hsep : φ.Separates) (depth : Nat) : φ.Follows (unifier depth) := by
  induction depth with
  | zero => exact fun _ _ _ _ _ _ _ _ _ => .cut
  | succ depth ih => exact follows_step hsep (lawful_unifier depth) ih

end Renumbering

end Unification
