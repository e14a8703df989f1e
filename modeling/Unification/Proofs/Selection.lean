import Unification.Proofs.OverloadOrder

/-!
# The member that an overload set is resolved to

Where no overload sets stand inside the members and the target, a trial is first-order unification:
a member fits if its instance and a copy of the target have a unifier. Resolving the overload set is
then described without any run: it fails if no member fits, or if several fit and none of them is
the most specific one, and otherwise it does what unifying an instance of the best member with the
target does. `Engine.unify_selects` has all of this.
-/

namespace Unification

open Outcome

/-! ### The most specific of a list -/

namespace Graph

variable {g g' : Graph} {rs : List TypeRef}

lemma foldl_max_specificity_le (rs : List TypeRef) (n k : Nat) :
    rs.foldl (fun n r => max n (g.specificity r)) n ≤ k ↔
      n ≤ k ∧ ∀ r ∈ rs, g.specificity r ≤ k := by
  induction rs generalizing n with
  | nil => simp
  | cons r rs ih => simp [ih, and_assoc]

/-- The most specific types of a list are those than which none is more specific. -/
lemma mostSpecific_eq_filter (g : Graph) (rs : List TypeRef) :
    g.mostSpecific rs = rs.filter fun r => ∀ r' ∈ rs, g.specificity r' ≤ g.specificity r := by
  apply List.filter_congr
  intro r hr
  have htop := foldl_max_specificity_le (g := g) rs 0
  simp only [Nat.zero_le, true_and] at htop
  rw [Bool.eq_iff_iff, beq_iff_eq, decide_eq_true_iff, ← htop]
  exact ⟨fun h => h.ge, fun h => le_antisymm ((htop _).mp le_rfl r hr) h⟩

/-- Of some types there is always one than which none is more specific. -/
lemma exists_mostSpecific (h : rs ≠ []) :
    ∃ r ∈ rs, ∀ r' ∈ rs, g.specificity r' ≤ g.specificity r := by
  induction rs with
  | nil => exact absurd rfl h
  | cons r rs ih =>
    by_cases hrs : rs = []
    · exact ⟨r, by simp, by simp [hrs]⟩
    · obtain ⟨w, hw, hmax⟩ := ih hrs
      by_cases hle : g.specificity r ≤ g.specificity w
      · exact ⟨w, by simp [hw], List.forall_mem_cons.mpr ⟨hle, hmax⟩⟩
      · refine ⟨r, by simp, List.forall_mem_cons.mpr ⟨le_rfl, fun r' hr' => ?_⟩⟩
        exact (hmax r' hr').trans (Nat.le_of_not_le hle)

end Graph

/-! ### Trials -/

section Trials

variable {s : Store} {m target t u : TypeRef} {ms : List TypeRef} {how : Renewal} {d : Nat}

/-- What a type is renewed to depends on how it reads. -/
lemma Store.renew_congr {r r' : TypeRef} (h : s.graph.resolve r = s.graph.resolve r') :
    s.renew how r = s.renew how r' := by
  simp only [Store.renew, Graph.renew, Draft.renew, h]

/-- A trial may be made with the representative of the target. -/
lemma trial_rep (hs : s.graph.WellFormed) (hm : m < s.graph.nodes.size)
    (ht : t < s.graph.nodes.size) : trial (s.graph.rep t) m s = trial t m s := by
  have hkeep := (Store.quiet_renew .instantiate hs hm).graph
  have hs₁ := Graph.wellFormed_renew .instantiate hs hm
  have hread : (s.renew .instantiate m).2.graph.resolve (s.graph.rep t) =
      (s.renew .instantiate m).2.graph.resolve t := by
    rw [hkeep.resolve_eq hs hs₁ (Graph.rep_lt_size hs ht), Graph.resolve_rep hs,
      hkeep.resolve_eq hs hs₁ ht]
  rw [trial, trial, Store.renew_congr hread]

/-- Without overload sets a trial that ends finds out whether its two sides have a unifier. -/
lemma value?_fits_eq_true_iff (hs : s.graph.WellFormed) (hm : m < s.graph.nodes.size)
    (ht : target < s.graph.nodes.size) (hmP : (s.graph.resolve m).Plain)
    (htP : (s.graph.resolve target).Plain)
    (hend : (fits (unifier d) target m s).value? ≠ none) :
    (fits (unifier d) target m s).value? = some true ↔
      ∃ θ, Unifies θ ((trial target m s).2.graph.resolve (trial target m s).1.1)
        ((trial target m s).2.graph.resolve (trial target m s).1.2) := by
  obtain ⟨-, hs₂, hi, hp⟩ := trial_lawful hs hm ht
  obtain ⟨⟨ρ, hinst⟩, ρ', hprobe⟩ := trial_trees hs hm ht
  have hiP : ((trial target m s).2.graph.resolve (trial target m s).1.1).Plain :=
    hinst ▸ hmP.renew _ ρ
  have hpP : ((trial target m s).2.graph.resolve (trial target m s).1.2).Plain :=
    hprobe ▸ htP.renew _ ρ'
  rw [fits_eq_verdict] at hend ⊢
  cases hrun : unifier d (trial target m s).1.1 (trial target m s).1.2 (trial target m s).2 with
  | cut => simp [hrun, verdict, value?] at hend
  | done r s₃ =>
    have hsolved := (solves_unifier d).done hs₂ hi hp hiP hpP hrun
    have hs₃ := ((lawful_unifier d).advances hs₂ hi hp (Or.inl ⟨r, hrun⟩)).2
    exact iff_of_true rfl ⟨_, (hsolved.isMostGeneral hs₂ hs₃).unifies⟩
  | failed err s₃ =>
    have hrefuted := (solves_unifier d).failed hs₂ hi hp hiP hpP hrun
    have hreject := (lawful_unifier d).rejects hs₂ hi hp hrun
    refine iff_of_false ?_ (hrefuted.not_unifies hs₂)
    simp [verdict, hreject, value?]

/-- An overload set and a type that is neither a variable nor an overload set are unified by
resolving the overload set, on whichever side it stands. -/
lemma unifier_eq_choose (hu : s.graph.node? (s.graph.rep u) = some (.union ms)) {n : Node}
    (hn : s.graph.node? (s.graph.rep t) = some n) (hvar : n.isVar = false)
    (hunion : n.isUnion = false) :
    unifier (d + 1) u t s = choose (unifier d) (s.graph.rep u) ms (s.graph.rep t) s ∧
      unifier (d + 1) t u s = choose (unifier d) (s.graph.rep u) ms (s.graph.rep t) s := by
  have hleft : s.graph.rule (s.graph.rep u) (s.graph.rep t) =
      .choose (s.graph.rep u) ms (s.graph.rep t) := by
    cases n <;> simp_all [Graph.rule, Node.isVar]
  have hright : s.graph.rule (s.graph.rep t) (s.graph.rep u) =
      .choose (s.graph.rep u) ms (s.graph.rep t) := by
    cases n <;> simp_all [Graph.rule, Node.isVar, Node.isUnion]
  simp only [unifier, step, hleft, hright, and_self]

/-- What a unification does depends on the representatives only. -/
lemma unifier_rep_right (hs : s.graph.WellFormed) (a b : TypeRef) :
    unifier d a (s.graph.rep b) s = unifier d a b s := by
  cases d with
  | zero => rfl
  | succ d => simp only [unifier, step, Graph.rep_rep hs]

end Trials

namespace Engine

variable {e : Engine} {ms : List TypeRef} {m t u w : TypeRef} {depth : Nat}

/-! ### Members that fit -/

/-- The member fits the type: a new instance of the member and a copy of the type have a unifier. -/
def Fits (e : Engine) (t m : TypeRef) : Prop :=
  let inst := e.renew .instantiate m
  let copy := inst.2.renew .copy t
  ∃ θ, Unifies θ (copy.2.graph.resolve inst.1) (copy.2.graph.resolve copy.1)

open Classical in
/-- The members that fit the type and than which no member that fits is more specific, in order and
as often as they occur. -/
noncomputable def best (e : Engine) (ms : List TypeRef) (t : TypeRef) : List TypeRef :=
  ms.filter fun m => e.Fits t m ∧ ∀ m' ∈ ms, e.Fits t m' → e.specificity m' ≤ e.specificity m

lemma best_subset (e : Engine) (ms : List TypeRef) (t : TypeRef) : e.best ms t ⊆ ms :=
  List.filter_subset_self _

/-- There is no best member only if no member fits. -/
lemma best_eq_nil_iff : e.best ms t = [] ↔ ∀ m ∈ ms, ¬ e.Fits t m := by
  classical
  constructor
  · intro h m hm hfit
    have hne : ms.filter (fun m => e.Fits t m) ≠ [] :=
      List.ne_nil_of_mem (List.mem_filter.mpr ⟨hm, decide_eq_true hfit⟩)
    obtain ⟨w, hw, hmax⟩ := Graph.exists_mostSpecific (g := e.graph) hne
    obtain ⟨hwm, hwfit⟩ := List.mem_filter.mp hw
    have hbest : w ∈ e.best ms t := by
      refine List.mem_filter.mpr ⟨hwm, decide_eq_true ⟨of_decide_eq_true hwfit, ?_⟩⟩
      intro m' hm' hfit'
      exact hmax m' (List.mem_filter.mpr ⟨hm', decide_eq_true hfit'⟩)
    simp [h] at hbest
  · intro h
    refine List.filter_eq_nil_iff.mpr fun m hm => ?_
    simp [h m hm]

/-- The overload set `u` and the type `t` of a well-formed engine, with no overload sets inside the
members or in the type, and no free variable for the type. -/
structure Chooses (e : Engine) (u : TypeRef) (ms : List TypeRef) (t : TypeRef) : Prop where
  wellFormed : e.WellFormed
  union      : e.graph.node? (e.rep u) = some (.union ms)
  left       : e.Has u
  right      : e.Has t
  bound      : e.isFree t = false
  members    : ∀ m ∈ ms, (e.graph.resolve m).Plain
  target     : (e.graph.resolve t).Plain

lemma Chooses.has (h : e.Chooses u ms t) : ∀ m ∈ ms, e.Has m :=
  fun _ hm => h.wellFormed.graph.child_lt h.union hm

lemma Chooses.rep_lt_size (h : e.Chooses u ms t) : e.rep t < e.graph.nodes.size :=
  Graph.rep_lt_size h.wellFormed.graph h.right

lemma Chooses.rep_plain (h : e.Chooses u ms t) : (e.graph.resolve (e.rep t)).Plain := by
  have hread := Graph.resolve_rep h.wellFormed.graph t
  exact hread.symm ▸ h.target

/-- Both ways round the unification resolves the overload set. -/
lemma Chooses.unify_eq (h : e.Chooses u ms t) (depth : Nat) :
    e.unify (depth + 1) u t =
        e.conclude (choose (unifier depth) (e.rep u) ms (e.rep t) e.store) ∧
      e.unify (depth + 1) t u = e.unify (depth + 1) u t := by
  have hs := h.wellFormed.graph
  obtain ⟨n, hn⟩ := Graph.exists_node? h.rep_lt_size
  have hvar : n.isVar = false := by
    cases n with
    | var name binding => exact absurd ((Graph.isFree_rep hs hn).symm.trans h.bound) (by simp)
    | _ => rfl
  have hunion : n.isUnion = false := by
    cases n with
    | union members => exact absurd h.rep_plain (not_plain_of_union (s := e.store) hs hn)
    | _ => rfl
  obtain ⟨hleft, hright⟩ := unifier_eq_choose (d := depth) h.union hn hvar hunion
  exact ⟨by rw [unify_eq_conclude, hleft]; rfl,
    by rw [unify_eq_conclude, unify_eq_conclude, hleft, hright]⟩

/-- A trial of a member that ends finds out whether it fits. -/
lemma Chooses.value?_fits (h : e.Chooses u ms t) (hm : m ∈ ms)
    (hend : (fits (unifier depth) (e.rep t) m e.store).value? ≠ none) :
    (fits (unifier depth) (e.rep t) m e.store).value? = some true ↔ e.Fits t m := by
  have hs := h.wellFormed.graph
  have htrial : trial (e.rep t) m e.store = trial t m e.store := trial_rep hs (h.has m hm) h.right
  rw [value?_fits_eq_true_iff hs (h.has m hm) h.rep_lt_size (h.members m hm) h.rep_plain hend,
    htrial]
  rfl

/-! ### What a resolution does -/

/-- What remains to be done when the members to decide between are known and the trials have left
this store. -/
def settle (depth : Nat) (e : Engine) (u t : TypeRef) (s : Store) :
    List TypeRef → Outcome Store TypeRef
  | []   => .failed (e.graph.noMatch (e.rep t) (e.rep u)) s
  | [w]  =>
    let inst := s.renew .instantiate w
    unifier depth inst.1 (e.rep t) inst.2
  | tied => .failed (e.graph.ambiguous (e.rep t) (e.rep u) tied) s

/-- The trials find the best members, and the resolution decides between these. -/
lemma Chooses.unify_cases (h : e.Chooses u ms t) (depth : Nat) :
    e.unify (depth + 1) u t = .cut ∨
      ∃ s, e.store.Quiet s ∧ s.graph.WellFormed ∧
        e.unify (depth + 1) u t = e.conclude (e.settle depth u t s (e.best ms t)) := by
  classical
  have hs := h.wellFormed.graph
  rw [(h.unify_eq depth).1, choose]
  rcases fitting_eq_filter (d := depth) hs h.wellFormed.trail (.refl e.store) hs h.has
    h.rep_lt_size with ⟨-, hcut⟩ | ⟨hall, s, hrun, hq, hs₁⟩
  · exact Or.inl (by rw [hcut, cut_andThen]; rfl)
  refine Or.inr ⟨s, hq, hs₁, ?_⟩
  -- what the trials left reads as before, so specificities and texts are those of before
  have hscore : ∀ m ∈ ms, s.graph.specificity m = e.specificity m := fun m hm => by
    rw [Graph.specificity, hq.graph.resolve_eq hs hs₁ (h.has m hm)]
    rfl
  have hviable : ∀ m, m ∈ ms.filter (fun m =>
      (fits (unifier depth) (e.rep t) m e.store).value? = some true) ↔ m ∈ ms ∧ e.Fits t m := by
    intro m
    rw [List.mem_filter, decide_eq_true_iff]
    exact and_congr_right fun hm => h.value?_fits hm (hall m hm)
  have hbest : s.graph.mostSpecific (ms.filter fun m =>
      (fits (unifier depth) (e.rep t) m e.store).value? = some true) = e.best ms t := by
    rw [Graph.mostSpecific_eq_filter, List.filter_filter, best]
    apply List.filter_congr
    intro m hm
    rw [Bool.eq_iff_iff, Bool.and_eq_true, decide_eq_true_iff, decide_eq_true_iff,
      decide_eq_true_iff, h.value?_fits hm (hall m hm), and_comm]
    refine and_congr_right fun _ => ⟨fun hmax m' hm' hfit => ?_, fun hmax m' hm' => ?_⟩
    · rw [← hscore m hm, ← hscore m' hm']
      exact hmax m' ((hviable m').mpr ⟨hm', hfit⟩)
    · obtain ⟨hm', hfit⟩ := (hviable m').mp hm'
      rw [hscore m hm, hscore m' hm']
      exact hmax m' hm' hfit
  have hrelates := (Store.shares_of_keeps hs hs hs₁ (.refl _) hq.graph hq.templates).relates
  have hrep : e.rep u < e.graph.nodes.size := Graph.lt_size_of_node? h.union
  rw [hrun, done_andThen, hbest]
  rcases hlist : e.best ms t with _ | ⟨w, _ | ⟨w', ws⟩⟩
  · have htext := (hrelates.noMatch hs hs₁ h.rep_lt_size hrep).2 fun _ _ => Iff.rfl
    exact congrArg (fun err => e.conclude (.failed err s)) htext
  · rfl
  · have htied : ∀ c ∈ w :: w' :: ws, c < e.graph.nodes.size := fun c hc =>
      h.has c (best_subset e ms t (hlist ▸ hc))
    have htext := (hrelates.ambiguous hs hs₁ h.rep_lt_size hrep htied).2 fun _ _ => Iff.rfl
    simp only [Renumbering.fixing, id, List.map_id] at htext
    exact congrArg (fun err => e.conclude (.failed err s)) htext

/-- A failure that leaves nothing but new nodes behind has nothing to take back. -/
lemma conclude_failed_of_quiet {s : Store} (err : TypeError) (hq : e.store.Quiet s) :
    ∃ e', e.conclude (.failed err s) = .failed err e' ∧ e'.graph = s.graph := by
  have hmark : s.mark = e.store.mark := congrArg List.length hq.trail
  have hback : s.rewind e.store.mark = s := by rw [← hmark, Store.rewind_mark]
  exact ⟨{ e with store := s.commit e.store.mark }, by simp only [conclude, hback, ite_self], rfl⟩

/-- The instance of the best member and the type, without overload sets, in the store in which they
are unified. -/
lemma Chooses.winner (h : e.Chooses u ms t) {s : Store} (hq : e.store.Quiet s)
    (hs : s.graph.WellFormed) (hw : w ∈ ms) :
    let inst := s.renew .instantiate w
    e.store.Quiet inst.2 ∧ inst.2.graph.WellFormed ∧ inst.1 < inst.2.graph.nodes.size ∧
      e.rep t < inst.2.graph.nodes.size ∧ (inst.2.graph.resolve inst.1).Plain ∧
      (inst.2.graph.resolve (e.rep t)).Plain := by
  obtain ⟨hq₂, hs₂, hi, ⟨ρ, htree⟩, hsame⟩ :=
    renew_after_quiet hq h.wellFormed.graph hs (h.has w hw)
  refine ⟨hq₂, hs₂, hi, h.rep_lt_size.trans_le hq₂.size_le, ?_, ?_⟩
  · rw [htree]
    exact (h.members w hw).renew _ ρ
  · have hread := hsame (e.rep t) h.rep_lt_size
    exact hread.symm ▸ h.rep_plain

/-- Unifying an instance of the best member in the store that the trials have left is unifying one
in the engine as it was. The types that there were keep their numbers, and new ones correspond. -/
lemma Chooses.winner_alike (h : e.Chooses u ms t) {s : Store} (hq : e.store.Quiet s)
    (hs : s.graph.WellFormed) (hw : w ∈ ms) (depth : Nat) :
    ∃ ψ : Renumbering, (∀ x, e.Has x → x ∈ ψ.types ∧ ψ.type x = x) ∧
      (∀ x, ¬ e.Has x → ¬ e.Has (ψ.type x)) ∧
      ((e.renew .instantiate w).2.unify depth (e.renew .instantiate w).1 t).Alike Eq ψ.Sends
        (fun e₁ e₁' => ψ.Relates e₁.graph e₁'.graph) (e.conclude (e.settle depth u t s [w])) := by
  have hg := h.wellFormed.graph
  have hshares := Store.shares_of_keeps hg hg hs (.refl _) hq.graph hq.templates
  have hwT : w ∈ {x | x < e.store.graph.nodes.size} := h.has w hw
  have htT : e.rep t ∈ {x | x < e.store.graph.nodes.size} := h.rep_lt_size
  have htracks := hshares.tracks h.wellFormed.trail (hq.trail.trans h.wellFormed.trail)
  obtain ⟨⟨hiT, hi⟩, htracks'⟩ := htracks.renew .instantiate (hshares.mem_shift hwT) hwT
  obtain ⟨hq₀, hs₀, hi₀, ht₀, -⟩ := h.winner (.refl _) hg hw
  have hrun := Renumbering.follows_unifier hshares.separates depth htracks' hiT
    (hshares.mem_shift htT) hi₀ ht₀
  rw [hi, hshares.type_shift hwT, hshares.type_shift htT] at hrun
  -- in the first run the type may stand for its representative
  have hrep : (e.store.renew .instantiate w).2.graph.rep t = e.rep t :=
    (Store.shares_of_keeps hg hg hs₀ (.refl _) hq₀.graph hq₀.templates).relates.rep hg hs₀ h.right
  rw [← hrep, unifier_rep_right hs₀, hrep] at hrun
  have hmark : e.store.mark = (e.renew .instantiate w).2.store.mark := rfl
  refine ⟨hshares.shift, fun x hx => ⟨hshares.mem_shift hx, hshares.type_shift hx⟩, fun x hx => ?_,
    (conclude_alike hrun hmark rfl).imp fun _ _ => Renumbering.eq_of_sameError_shift⟩
  exact Nat.not_lt.mpr (hq.size_le.trans (Renumbering.le_type_shift (Nat.le_of_not_lt hx)))

/-- How the unification of an overload set and a type ends, said by the members that fit. -/
structure Selects (e : Engine) (depth : Nat) (u : TypeRef) (ms : List TypeRef) (t : TypeRef)
    (o : Outcome Engine TypeRef) : Prop where
  /-- There is no match exactly if no member fits. -/
  noMatch   : (∃ err e', o = .failed err e' ∧ err.kind = .noMatch) ↔ ∀ m ∈ ms, ¬ e.Fits t m
  /-- The choice is ambiguous exactly if there are several best members. -/
  ambiguous : (∃ err e', o = .failed err e' ∧ err.kind = .ambiguous) ↔ 2 ≤ (e.best ms t).length
  /-- The ambiguous members are the best ones, and in either case all nodes are as they were. -/
  failure   : ∀ err e', o = .failed err e' →
    (err.kind = .noMatch → err = e.graph.noMatch (e.rep t) (e.rep u) ∧ e.graph.Keeps e'.graph) ∧
    (err.kind = .ambiguous → err = e.graph.ambiguous (e.rep t) (e.rep u) (e.best ms t) ∧
      e.graph.Keeps e'.graph)
  /-- One best member is instantiated and unified with the type. -/
  winner    : ∀ w, e.best ms t = [w] → ∃ ψ : Renumbering,
    (∀ x, e.Has x → x ∈ ψ.types ∧ ψ.type x = x) ∧ (∀ x, ¬ e.Has x → ¬ e.Has (ψ.type x)) ∧
      ((e.renew .instantiate w).2.unify depth (e.renew .instantiate w).1 t).Alike Eq ψ.Sends
        (fun e₁ e₁' => ψ.Relates e₁.graph e₁'.graph) o
  /-- The result reads as the type. -/
  result    : ∀ r e', o = .done r e' → e'.graph.resolve r = e'.graph.resolve t

/-- An error of the unification with an instance of a member is no failure of the choice. -/
lemma Chooses.kind_of_winner (h : e.Chooses u ms t) {s : Store} (hq : e.store.Quiet s)
    (hs : s.graph.WellFormed) (hw : w ∈ ms) {err : TypeError} {e' : Engine}
    (hrun : e.conclude (e.settle depth u t s [w]) = .failed err e') :
    err.kind ≠ .noMatch ∧ err.kind ≠ .ambiguous := by
  obtain ⟨-, hs₂, hi, ht, hiP, htP⟩ := h.winner hq hs hw
  rw [settle] at hrun
  cases hstore : unifier depth (s.renew .instantiate w).1 (e.rep t)
    (s.renew .instantiate w).2 with
  | done r s₁ => simp [hstore, conclude] at hrun
  | cut => simp [hstore, conclude] at hrun
  | failed err₁ s₁ =>
    simp only [hstore, conclude, failed.injEq] at hrun
    rcases ((solves_unifier depth).failed hs₂ hi ht hiP htP hstore).error with
      ⟨_, _, herr⟩ | ⟨_, _, herr⟩ <;> simp [← hrun.1, herr, TypeError.kind]

/-- After an instance of a member is unified with the representative of a type, the type still reads
as that. -/
lemma resolve_of_done (he : e.WellFormed) (hw : e.Has w) (ht : e.Has t) {s s' : Store} {r : TypeRef}
    (hq : e.store.Quiet s) (hs : s.graph.WellFormed)
    (hrun : unifier depth (s.renew .instantiate w).1 (e.rep t) (s.renew .instantiate w).2 =
      .done r s') :
    s'.graph.resolve (e.rep t) = s'.graph.resolve t := by
  obtain ⟨hq₁, hs₁, hi, -⟩ := renew_after_quiet hq he.graph hs hw
  have ht₁ := (Graph.rep_lt_size he.graph ht).trans_le hq₁.size_le
  obtain ⟨hadv, hs'⟩ := (lawful_unifier depth).advances hs₁ hi ht₁ (Or.inl ⟨r, hrun⟩)
  have hval := Graph.isValuation_resolve hs'
  exact ((hq₁.advances.trans hadv).graph.isValuation hval).rep he.graph t

/-- The result of the unification with an instance of a member reads as the type. -/
lemma Chooses.resolve_of_winner (h : e.Chooses u ms t) {s : Store} (hq : e.store.Quiet s)
    (hs : s.graph.WellFormed) (hw : w ∈ ms) {r : TypeRef} {e' : Engine}
    (hrun : e.conclude (e.settle depth u t s [w]) = .done r e') :
    e'.graph.resolve r = e'.graph.resolve t := by
  obtain ⟨-, hs₂, hi, ht, hiP, htP⟩ := h.winner hq hs hw
  rw [settle] at hrun
  cases hstore : unifier depth (s.renew .instantiate w).1 (e.rep t)
    (s.renew .instantiate w).2 with
  | failed err s₁ => simp [hstore, conclude] at hrun
  | cut => simp [hstore, conclude] at hrun
  | done r₁ s₁ =>
    simp only [hstore, conclude, done.injEq] at hrun
    obtain ⟨rfl, rfl⟩ := hrun
    have hs₁ := ((lawful_unifier depth).advances hs₂ hi ht (Or.inl ⟨_, hstore⟩)).2
    have hsolved := (solves_unifier depth).done hs₂ hi ht hiP htP hstore
    have hval := Graph.isValuation_resolve hs₁
    show s₁.graph.resolve r₁ = s₁.graph.resolve t
    rw [hsolved.result _ hval, ((hsolved.valuation _).mp hval).2]
    exact resolve_of_done h.wellFormed (h.has w hw) h.right hq hs hstore

/-- What remains to be done after the trials selects the best member. -/
lemma Chooses.selects_settle (h : e.Chooses u ms t) {s : Store} (hq : e.store.Quiet s)
    (hs : s.graph.WellFormed) (depth : Nat) :
    e.Selects depth u ms t (e.conclude (e.settle depth u t s (e.best ms t))) := by
  rcases hlist : e.best ms t with _ | ⟨w, _ | ⟨w', ws⟩⟩
  · obtain ⟨e', hrun, hgraph⟩ := conclude_failed_of_quiet (e.graph.noMatch (e.rep t) (e.rep u)) hq
    rw [show e.settle depth u t s [] = .failed _ s from rfl, hrun]
    refine ⟨iff_of_true ⟨_, _, rfl, by simp⟩ (best_eq_nil_iff.mp hlist),
      iff_of_false (by simp) (by simp [hlist]), ?_, by simp [hlist], by simp⟩
    rintro _ _ ⟨⟩
    exact ⟨fun _ => ⟨rfl, hgraph ▸ hq.graph⟩, by simp⟩
  · have hw : w ∈ ms := best_subset e ms t (by simp [hlist])
    have hfits : ¬ ∀ m ∈ ms, ¬ e.Fits t m := by simp [← best_eq_nil_iff, hlist]
    refine ⟨iff_of_false ?_ hfits, iff_of_false ?_ (by simp [hlist]), fun err e' hrun => ?_, ?_,
      fun r e' => h.resolve_of_winner hq hs hw⟩
    · rintro ⟨err, e', hrun, herr⟩
      exact (h.kind_of_winner hq hs hw hrun).1 herr
    · rintro ⟨err, e', hrun, herr⟩
      exact (h.kind_of_winner hq hs hw hrun).2 herr
    · obtain ⟨hmatch, htie⟩ := h.kind_of_winner hq hs hw hrun
      exact ⟨fun herr => absurd herr hmatch, fun herr => absurd herr htie⟩
    · rw [hlist]
      rintro _ ⟨⟩
      exact h.winner_alike hq hs hw depth
  · obtain ⟨e', hrun, hgraph⟩ := conclude_failed_of_quiet
      (e.graph.ambiguous (e.rep t) (e.rep u) (w :: w' :: ws)) hq
    rw [show e.settle depth u t s (w :: w' :: ws) = .failed _ s from rfl, hrun]
    have hfits : ¬ ∀ m ∈ ms, ¬ e.Fits t m := by simp [← best_eq_nil_iff, hlist]
    refine ⟨iff_of_false (by simp) hfits, iff_of_true ⟨_, _, rfl, by simp⟩ (by simp [hlist]), ?_,
      by simp [hlist], by simp⟩
    rintro _ _ ⟨⟩
    exact ⟨by simp, fun _ => ⟨by rw [hlist], hgraph ▸ hq.graph⟩⟩

/-- An overload set whose members have none inside can be unified with a type that has none. -/
lemma Chooses.returns (h : e.Chooses u ms t) : e.Returns u t := by
  have hs := h.wellFormed.graph
  refine returns_iff.mpr (returns_of_shallow hs h.left h.right ?_
    (.plain (h.target.mono fun _ => False.elim)))
  have hread : e.graph.resolve u = .union (e.rep u) (ms.map e.graph.resolve) := by
    rw [← Graph.resolve_rep hs u]
    exact Graph.resolve_union hs h.union
  show (e.graph.resolve u).Shallow
  rw [hread]
  refine .union fun tree hmem => ?_
  obtain ⟨m, hm, rfl⟩ := List.mem_map.mp hmem
  exact .plain ((h.members m hm).mono fun _ => False.elim)

/-- Let no overload set stand inside the members of an overload set or in a type, and let the type
stand for no free variable. Then the unification of the overload set and the type returns, on
whichever side they stand and with the same answer. It fails for want of a match exactly if no
member fits, and as ambiguous exactly if several members fit best, which are then the candidates; in
both cases no node is changed. Otherwise it does what unifying an instance of the best member with
the type does, and the result of a success reads as the type. -/
theorem unify_selects (he : e.Reachable) (hu : e.graph.node? (e.rep u) = some (.union ms))
    (hhas : e.Has u) (ht : e.Has t) (hfree : e.isFree t = false)
    (hplain : ∀ x, (∃ m ∈ ms, e.graph.Reaches m x) ∨ e.graph.Reaches t x →
      ∀ ms', e.graph.node? x ≠ some (.union ms')) :
    e.Returns u t ∧ e.Returns t u ∧
      ∀ depth, e.unify depth t u = e.unify depth u t ∧
        ((e.unify (depth + 1) u t).finished = true →
          e.Selects depth u ms t (e.unify (depth + 1) u t)) := by
  have hwf := he.wellFormed
  have hms : ∀ m ∈ ms, e.Has m := fun m hm => hwf.graph.child_lt hu hm
  have h : e.Chooses u ms t := by
    refine ⟨hwf, hu, hhas, ht, hfree, fun m hm => ?_, ?_⟩
    · exact Graph.everyUnion_resolve hwf.graph (hms m hm) fun x ms' hx hn =>
        hplain x (Or.inl ⟨m, hm, hx⟩) ms' hn
    · exact Graph.everyUnion_resolve hwf.graph ht fun x ms' hx hn => hplain x (Or.inr hx) ms' hn
  have hsides : ∀ depth, e.unify depth t u = e.unify depth u t := fun depth => by
    cases depth with
    | zero => rfl
    | succ depth => exact (h.unify_eq depth).2
  refine ⟨h.returns, ?_, fun depth => ⟨hsides depth, fun hend => ?_⟩⟩
  · obtain ⟨depth, hend⟩ := h.returns
    exact ⟨depth, by rw [hsides, hend]⟩
  · rcases h.unify_cases depth with hcut | ⟨s, hq, hs, hrun⟩
    · simp [hcut, finished] at hend
    · rw [hrun]
      exact h.selects_settle hq hs depth

/-- Of `Int -> c`, `c -> Int` and `Int -> String` two fit the type `Int -> Int` best. -/
theorem unify_selects_tie : 2 ≤ (overlapping.best [5, 6, 7] 10).length ∧
    ∃ e', overlapping.unify 4 8 10 =
        .failed (overlapping.graph.ambiguous 10 8 (overlapping.best [5, 6, 7] 10)) e' ∧
      overlapping.graph.Keeps e'.graph := by
  have hwf := reachable_overlapping.wellFormed
  have hset : overlapping.graph.node? 8 = some (.union [5, 6, 7]) := rfl
  have htarget : overlapping.Has 10 := by decide
  have hplain : ∀ x, (∃ m ∈ [5, 6, 7], overlapping.graph.Reaches m x) ∨
      overlapping.graph.Reaches 10 x → ∀ ms', overlapping.graph.node? x ≠ some (.union ms') := by
    have hnone : ∀ m ∈ [5, 6, 7, 10], m < overlapping.graph.nodes.size ∧
        ∀ x ∈ overlapping.graph.reachable m,
          (overlapping.graph.node? x).map Node.isUnion ≠ some true := by
      decide
    intro x hx ms' hn
    obtain ⟨m, hm, hreach⟩ : ∃ m ∈ [5, 6, 7, 10], overlapping.graph.Reaches m x := by
      rcases hx with ⟨m, hm, hreach⟩ | hreach
      · exact ⟨m, List.mem_append_left [10] hm, hreach⟩
      · exact ⟨10, by simp, hreach⟩
    obtain ⟨hlt, hall⟩ := hnone m hm
    exact hall x ((Graph.mem_reachable_iff hwf.graph.closed hlt).mpr hreach) (by rw [hn]; rfl)
  have hties : overlapping.contenders 3 [5, 6, 7] 10 = some [5, 6] := by decide +kernel
  obtain ⟨e₁, hrun⟩ := unify_of_contenders hwf hset htarget (by decide) hties le_rfl
  have hrep : overlapping.rep 8 = 8 ∧ overlapping.rep 10 = 10 := by decide
  obtain ⟨-, -, hselects⟩ := unify_selects (u := 8) (t := 10) reachable_overlapping
    (hrep.1.symm ▸ hset) (by decide) htarget (by decide) hplain
  have hselects := (hselects 3).2 (by rw [hrun]; rfl)
  obtain ⟨herr, hkeep⟩ := (hselects.failure _ _ hrun).2 (by simp)
  rw [hrep.1, hrep.2] at herr
  refine ⟨hselects.ambiguous.mp ⟨_, _, hrun, by simp⟩, e₁, ?_, hkeep⟩
  rw [hrun, ← herr, hrep.2]

end Engine

end Unification
