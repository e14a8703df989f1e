import Unification.Proofs.Registration

/-!
# Names in scopes

A scope is younger than its parent, so the way out of a scope comes to an end, and a name is looked
up in the nearest scope on that way that binds it. A binding is therefore seen from the scopes
inside its own, unless a nearer one hides it. Writing a binding changes what is seen from there, and
nothing else does: `Engine.find_nearest`.
-/

namespace Unification

open Relation

/-! ### The way out of a scope -/

namespace Scopes

variable {ss ss' : Scopes} {f s x y : ScopeRef} {key key' : String} {entry : Entry} {n m : Nat}

/-- One scope was made inside another. -/
def Inside (ss : Scopes) (x y : ScopeRef) : Prop :=
  ss.parent? x = some y

/-- A scope is younger than its parent. -/
def Forest (ss : Scopes) : Prop :=
  ∀ ⦃x y⦄, ss.Inside x y → y < x

/-- A binding of the name in the scope `f` would be seen from `s`: the way out of `s` leads to `f`,
and no scope that comes before `f` on the way binds the name. -/
structure Exposes (ss : Scopes) (s : ScopeRef) (key : String) (f : ScopeRef) : Prop where
  around : ReflTransGen ss.Inside s f
  nearer : ∀ x, ReflTransGen ss.Inside s x → TransGen ss.Inside x f → ss.own? x key = none

lemma Forest.le (h : ss.Forest) (hxy : ReflTransGen ss.Inside x y) : y ≤ x := by
  induction hxy with
  | refl => exact le_rfl
  | tail _ hyz ih => exact (h hyz).le.trans ih

lemma Forest.lt (h : ss.Forest) (hxy : TransGen ss.Inside x y) : y < x := by
  obtain ⟨z, hxz, hzy⟩ := TransGen.tail'_iff.mp hxy
  exact (h hzy).trans_le (h.le hxz)

/-- A binding is seen in its own scope, and from inside if the inner scope does not hide it. -/
lemma exposes_iff (h : ss.Forest) :
    ss.Exposes s key f ↔
      f = s ∨ ss.own? s key = none ∧ ∃ p, ss.parent? s = some p ∧ ss.Exposes p key f := by
  constructor
  · rintro ⟨haround, hnearer⟩
    rcases haround.cases_head with rfl | ⟨p, hp, hpf⟩
    · exact Or.inl rfl
    · refine Or.inr ⟨hnearer s .refl (TransGen.head' hp hpf), p, hp, hpf, fun x hx hxf => ?_⟩
      exact hnearer x (.head hp hx) hxf
  · rintro (rfl | ⟨hown, p, hp, haround, hnearer⟩)
    · refine ⟨.refl, fun x hx hxf => ?_⟩
      exact absurd (h.lt hxf) (Nat.not_lt.mpr (h.le hx))
    · refine ⟨.head hp haround, fun x hx hxf => ?_⟩
      rcases hx.cases_head with rfl | ⟨p', hp', hx⟩
      · exact hown
      · obtain rfl : p = p' := Option.some.inj (hp.symm.trans hp')
        exact hnearer x hx hxf

/-! ### Look-up -/

/-- A search that may go further out than the scope is old finds the nearest binding. -/
lemma search_eq_some_iff (h : ss.Forest) (hn : s < n) :
    ss.search key n s = some entry ↔ ∃ f, ss.Exposes s key f ∧ ss.own? f key = some entry := by
  induction n generalizing s with
  | zero => exact absurd hn (Nat.not_lt_zero s)
  | succ n ih =>
    simp only [exposes_iff h (s := s), search]
    cases hown : ss.own? s key with
    | some bound => simp [hown]
    | none =>
      cases hp : ss.parent? s with
      | none => simp [hown]
      | some p =>
        have hlt : p < n := (h hp).trans_le (Nat.le_of_lt_succ hn)
        simp [hown, ih hlt]

/-- It finds nothing only if there is no binding on the whole way. -/
lemma search_eq_none_iff (h : ss.Forest) (hn : s < n) :
    ss.search key n s = none ↔ ∀ f, ReflTransGen ss.Inside s f → ss.own? f key = none := by
  induction n generalizing s with
  | zero => exact absurd hn (Nat.not_lt_zero s)
  | succ n ih =>
    rw [search]
    cases hown : ss.own? s key with
    | some bound =>
      refine iff_of_false (by simp) fun hall => ?_
      simp [hall s .refl] at hown
    | none =>
      have hhead : (∀ f, ReflTransGen ss.Inside s f → ss.own? f key = none) ↔
          ∀ p, ss.Inside s p → ∀ f, ReflTransGen ss.Inside p f → ss.own? f key = none := by
        refine ⟨fun hall p hp f hf => hall f (.head hp hf), fun hall f hf => ?_⟩
        rcases hf.cases_head with rfl | ⟨p, hp, hf⟩
        · exact hown
        · exact hall p hp f hf
      rw [hhead]
      cases hp : ss.parent? s with
      | none => simp [Inside, hp]
      | some p =>
        have hlt : p < n := (h hp).trans_le (Nat.le_of_lt_succ hn)
        simp [Inside, hp, ih hlt]

/-- All searches that may go far enough find the same. -/
lemma search_eq_search (h : ss.Forest) (hn : s < n) (hm : s < m) :
    ss.search key n s = ss.search key m s := by
  ext entry
  rw [search_eq_some_iff h hn, search_eq_some_iff h hm]

/-- A search depends only on the scopes on the way. -/
lemma search_congr (hsame : ∀ x, ReflTransGen ss.Inside s x →
      ss'.own? x key = ss.own? x key ∧ ss'.parent? x = ss.parent? x) :
    ss'.search key n s = ss.search key n s := by
  induction n generalizing s with
  | zero => rfl
  | succ n ih =>
    obtain ⟨hown, hparent⟩ := hsame s .refl
    rw [search, search, hown, hparent]
    cases hp : ss.parent? s with
    | none => rfl
    | some p => simp only [Option.bind_some, ih fun x hx => hsame x (.head hp hx)]

/-! ### Writing and making scopes -/

lemma inside_set : (ss.set f key entry).Inside = ss.Inside := by
  funext x y
  rw [Inside, Inside, parent?_set]

lemma Forest.set (h : ss.Forest) : (ss.set f key entry).Forest := by
  rw [Forest, inside_set]
  exact h

@[simp]
lemma size_frames_set : (ss.set f key entry).frames.size = ss.frames.size := by
  simp [Scopes.set]

/-- What is seen in a scope does not depend on what the scope itself binds. -/
lemma exposes_set (h : ss.Forest) (hf : f < ss.frames.size) :
    (ss.set f key entry).Exposes s key f ↔ ss.Exposes s key f := by
  have hown : ∀ x, TransGen ss.Inside x f → (ss.set f key entry).own? x key = ss.own? x key := by
    intro x hx
    rw [own?_set ss x key key entry hf, if_neg fun hfx => (h.lt hx).ne hfx.1]
  constructor
  · rintro ⟨haround, hnearer⟩
    rw [inside_set] at haround hnearer
    exact ⟨haround, fun x hx hxf => (hown x hxf).symm.trans (hnearer x hx hxf)⟩
  · rintro ⟨haround, hnearer⟩
    refine ⟨by rwa [inside_set], fun x hx hxf => ?_⟩
    rw [inside_set] at hx hxf
    exact (hown x hxf).trans (hnearer x hx hxf)

/-- A new binding is found where it is seen. -/
lemma lookup_set_of_exposes (h : ss.Forest) (hf : f < ss.frames.size) (hs : s < ss.frames.size)
    (hexposes : ss.Exposes s key f) : (ss.set f key entry).lookup s key = some entry := by
  rw [lookup, search_eq_some_iff h.set (by simpa using hs)]
  exact ⟨f, (exposes_set h hf).mpr hexposes, by simp [own?_set ss f key key entry hf]⟩

/-- Where it is not seen, the same is found as before. -/
lemma search_set_of_not_exposes (h : ss.Forest) (hf : f < ss.frames.size)
    (hhidden : ¬ ss.Exposes s key f) :
    (ss.set f key entry).search key n s = ss.search key n s := by
  induction n generalizing s with
  | zero => rfl
  | succ n ih =>
    rw [exposes_iff h, not_or] at hhidden
    obtain ⟨hfs, hhidden⟩ := hhidden
    rw [search, search, own?_set ss s key key entry hf, if_neg fun hs => hfs hs.1, parent?_set]
    cases hown : ss.own? s key with
    | some bound => rfl
    | none =>
      cases hp : ss.parent? s with
      | none => rfl
      | some p => exact ih fun hpf => hhidden ⟨hown, p, hp, hpf⟩

/-- A binding is not found under another name. -/
lemma search_set_of_ne (hf : f < ss.frames.size) (hkey : key' ≠ key) :
    (ss.set f key entry).search key' n s = ss.search key' n s := by
  apply search_congr
  intro x _
  rw [own?_set ss x key key' entry hf, if_neg fun hx => hkey hx.2, parent?_set]
  exact ⟨rfl, rfl⟩

lemma lookup_set_of_hidden (h : ss.Forest) (hf : f < ss.frames.size)
    (hhidden : ¬ (key' = key ∧ ss.Exposes s key f)) :
    (ss.set f key entry).lookup s key' = ss.lookup s key' := by
  rw [lookup, lookup, size_frames_set]
  by_cases hkey : key' = key
  · subst hkey
    exact search_set_of_not_exposes h hf fun hexposes => hhidden ⟨rfl, hexposes⟩
  · exact search_set_of_ne hf hkey

/-- A new scope changes nothing for the others. -/
lemma lookup_push (h : ss.Forest) (parent : Option ScopeRef) (hs : s < ss.frames.size) :
    (ss.push parent).2.lookup s key = ss.lookup s key := by
  have hsize : (ss.push parent).2.frames.size = ss.frames.size + 1 := by simp [push]
  rw [lookup, lookup, hsize, search_eq_search h hs (Nat.lt_succ_of_lt hs)]
  apply search_congr
  intro x hx
  rw [own?_push, parent?_push, if_neg ((h.le hx).trans_lt hs).ne]
  exact ⟨rfl, rfl⟩

end Scopes

namespace Engine

variable {e e' : Engine} {op : Operation} {s : ScopeRef} {key : String} {entry : Entry}

/-! ### What is seen from a scope -/

/-- Looking the name up from the scope comes to an end with the nearest binding. -/
structure FindsNearest (e : Engine) (s : ScopeRef) (key : String) : Prop where
  /-- A search that may visit as many scopes as there are, or more, finds the same. -/
  ends   : ∀ n, e.scopes.frames.size ≤ n → e.scopes.search key n s = e.scopes.lookup s key
  /-- What is found is bound on the way out, and nothing nearer binds the name. -/
  found  : ∀ entry, e.find s key = .ok entry ↔
    ∃ f, e.scopes.Exposes s key f ∧ e.scopes.own? f key = some entry
  /-- The name is undefined if nothing on the way binds it, and there is no other error. -/
  missed : ∀ err, e.find s key = .error err ↔
    err = .undefined key ∧ ∀ f, ReflTransGen e.scopes.Inside s f → e.scopes.own? f key = none

/-- From the scopes that were there before the operation one sees the binding that it writes, where
nothing nearer hides it, and otherwise what was seen before. -/
structure Contained (e : Engine) (op : Operation) (e' : Engine) : Prop where
  seen   : ∀ f key entry, e.Writes op f key entry → ∀ s, e.HasScope s →
    e.scopes.Exposes s key f → e'.find s key = .ok entry
  unseen : ∀ s key, e.HasScope s →
    (∀ f entry, e.Writes op f key entry → ¬ e.scopes.Exposes s key f) →
      e'.find s key = e.find s key

lemma find_eq_ok_iff : e.find s key = .ok entry ↔ e.scopes.lookup s key = some entry := by
  rw [find]
  cases e.scopes.lookup s key <;> simp

lemma find_eq_error_iff {err : ScopeError} :
    e.find s key = .error err ↔ err = .undefined key ∧ e.scopes.lookup s key = none := by
  rw [find]
  cases e.scopes.lookup s key <;> simp [eq_comm]

lemma find_congr (h : e'.scopes.lookup s key = e.scopes.lookup s key) :
    e'.find s key = e.find s key := by
  rw [find, find, h]

/-- Where a scope is younger than its parent, a look-up finds the nearest binding. -/
lemma findsNearest (hforest : e.scopes.Forest) (hs : e.HasScope s) : e.FindsNearest s key where
  ends _ hn := Scopes.search_eq_search hforest (Nat.lt_of_lt_of_le hs hn) hs
  found entry := by
    rw [find_eq_ok_iff, Scopes.lookup, Scopes.search_eq_some_iff hforest hs]
  missed err := by
    rw [find_eq_error_iff, Scopes.lookup, Scopes.search_eq_none_iff hforest hs]

/-- What an operation does to the scopes is seen only where its binding is. -/
lemma Rescopes.contained (hforest : e.scopes.Forest) (h : e.Rescopes op e'.scopes) :
    e.Contained op e' := by
  generalize hss : e'.scopes = ss at h
  cases h with
  | @writes f key entry hf hwrites =>
    refine ⟨fun f' key' entry' hwrites' s hs hexposes => ?_, fun s key' hs hhidden => ?_⟩
    · obtain ⟨rfl, rfl, rfl⟩ := hwrites.unique hwrites'
      rw [find_eq_ok_iff, hss]
      exact Scopes.lookup_set_of_exposes hforest hf hs hexposes
    · apply find_congr
      rw [hss]
      refine Scopes.lookup_set_of_hidden hforest hf ?_
      rintro ⟨rfl, hexposes⟩
      exact hhidden f entry hwrites hexposes
  | opens parent hnone =>
    refine ⟨fun f key entry hwrites => absurd hwrites (hnone f key entry), fun s key hs _ => ?_⟩
    apply find_congr
    rw [hss, Scopes.lookup_push hforest parent hs]
  | keeps hnone =>
    refine ⟨fun f key entry hwrites => absurd hwrites (hnone f key entry), fun s key _ _ => ?_⟩
    exact find_congr (by rw [hss])

/-- In a reachable engine a scope is younger than its parent, so that a look-up comes to an end, and
it finds the nearest binding of the name. An operation changes what is found from a scope only by
writing a binding of the name that is seen from there, and then that binding is found. -/
theorem find_nearest (he : e.Reachable) :
    (∀ s p, e.scopes.parent? s = some p → p < s) ∧
      (∀ s key, e.HasScope s → e.FindsNearest s key) ∧
      ∀ depth op e', e.Admits op → e.perform depth op = some e' → e.Contained op e' := by
  have hforest : e.scopes.Forest := he.intact.parents
  refine ⟨fun s p hp => hforest hp, fun s key hs => findsNearest hforest hs, ?_⟩
  intro depth op e' hop h
  exact (rescopes_perform he.wellFormed hop h).contained hforest

/-- A scope that names a terminal, an inner scope that hides it, and a scope inside each of them. -/
def shadowed : Engine :=
  let e := (new {}).newScope.2
  let e := ((((e.newChild 0).2).newChild 1).2.newChild 0).2
  let e := e.attempt (e.ensureTerminal 0 "Int")
  e.attempt (e.ensureTerminal 1 "Int")

lemma reachable_shadowed : shadowed.Reachable := by
  have houter : ((new {}).newScope.2.newChild 0).2.Reachable :=
    .next (.next (.new _) .newScope) (.newChild (by decide))
  have hscopes := (houter.next (.newChild (show HasScope _ 1 by decide))).next
    (.newChild (show HasScope _ 0 by decide))
  have hint := hscopes.perform 0 (.ensureTerminal 0 "Int") (show HasScope _ 0 by decide) rfl
  exact hint.perform 0 (.ensureTerminal 1 "Int") (show HasScope _ 1 by decide) rfl

/-- Giving the name another meaning in the outermost scope is seen from the scope beside the one
that hides it, and not from the scope within. -/
theorem find_nearest_shadowed :
    let e' := shadowed.set 0 "Int" (.type 0)
    shadowed.find 3 "Int" = .ok (.type 2) ∧ e'.find 3 "Int" = .ok (.type 0) ∧
      shadowed.find 2 "Int" = .ok (.type 3) ∧ e'.find 2 "Int" = .ok (.type 3) := by
  intro e'
  have hforest : shadowed.scopes.Forest := reachable_shadowed.intact.parents
  obtain ⟨-, hfinds, hcontained⟩ := find_nearest reachable_shadowed
  have hset : shadowed.Contained (.set 0 "Int" (.type 0)) e' :=
    hcontained 0 _ e' ⟨by decide, show Has shadowed 0 by decide⟩ rfl
  have hown : ∀ s, shadowed.scopes.Exposes s "Int" s :=
    fun s => (Scopes.exposes_iff hforest).mpr (.inl rfl)
  have hbeside : shadowed.scopes.Exposes 3 "Int" 0 :=
    (Scopes.exposes_iff hforest).mpr (.inr ⟨rfl, 0, rfl, hown 0⟩)
  have hwithin : shadowed.scopes.Exposes 2 "Int" 1 :=
    (Scopes.exposes_iff hforest).mpr (.inr ⟨rfl, 1, rfl, hown 1⟩)
  have hinner : shadowed.find 2 "Int" = .ok (.type 3) :=
    ((hfinds 2 "Int" (by decide)).found _).mpr ⟨1, hwithin, rfl⟩
  refine ⟨((hfinds 3 "Int" (by decide)).found _).mpr ⟨0, hbeside, rfl⟩,
    hset.seen 0 "Int" _ (.set rfl) 3 (by decide) hbeside, hinner, ?_⟩
  rw [hset.unseen 2 "Int" (by decide), hinner]
  rintro f entry hwrites hexposes
  obtain ⟨rfl, -, -⟩ := (Writes.set rfl).unique hwrites
  have hnone := hexposes.nearer 1 (.single rfl) (.single rfl)
  exact absurd hnone (by decide)

end Engine

end Unification
