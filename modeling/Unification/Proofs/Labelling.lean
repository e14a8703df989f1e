import Unification.Proofs.Calls
import Unification.Proofs.Integrity

/-!
# Labels in a session

A session writes texts of the types of one engine with one table of labels, while the engine goes on
working between the texts. The table only grows: by the placeholders of what is written, each of
which gets its label once. A label that is a number is the count of the labels before it, so no two
placeholders share one. Hence a type that reads the same as when it was first written is written in
the same words again: `Engine.session_labels`.
-/

namespace Unification

open Relation

/-- The label of the node is a number: it is a constraint, or a variable without a name. -/
def Node.isNumbered : Node → Bool
  | var none _   => true
  | constraint _ => true
  | _            => false

/-- The label of the placeholder is a number. -/
def Placeholder.IsNumbered (p : Placeholder) : Prop :=
  p.kind = .flexible → p.name = none

/-- A placeholder of a graph has a number for its label if its node has. -/
lemma Graph.Shows.isNumbered {g : Graph} {p : Placeholder} (hp : g.Shows (.placeholder p))
    {n : Node} (hn : g.node? p.ref = some n) (hN : n.isNumbered = true) : p.IsNumbered := by
  cases hp with
  | flexible hp =>
    cases hp.symm.trans hn
    rename_i name
    cases name with
    | none => exact fun _ => rfl
    | some name => simp [Node.isNumbered] at hN
  | rigid hp => simp [Placeholder.IsNumbered]

/-! ### Tables of labels -/

/-- The label that is the number `n`. -/
def numeral (n : Nat) : String :=
  "'" ++ toString n

lemma numeral_injective : Function.Injective numeral := by
  intro m n h
  have hrepr : m.repr = n.repr := (String.append_right_inj "'").mp h
  have hdigits : Nat.toDigits 10 m = Nat.toDigits 10 n := by
    rw [← Nat.toList_repr, ← Nat.toList_repr, hrepr]
  rw [← Nat.ofDigitChars_ten_toDigits (n := m), hdigits, Nat.ofDigitChars_ten_toDigits]

namespace Labels

variable {ls : Labels} {p : Placeholder} {ps : List Placeholder} {t : Tree} {x y : TypeRef}
  {l : String}

/-- The number of entries below the newest entry of a reference. -/
def rankIn (r : TypeRef) : List (TypeRef × String) → Nat
  | []              => 0
  | entry :: older => if r = entry.1 then older.length else rankIn r older

/-- The number of labels that were given before that of a placeholder. -/
def rank (ls : Labels) (r : TypeRef) : Nat :=
  rankIn r ls.entries

/-- A placeholder without a label is put on top of the table. -/
lemma add_of_eq_none (h : ls.get? p.ref = none) :
    ls.add p = ⟨(p.ref, ls.spell p) :: ls.entries⟩ := by
  rw [add, h]

lemma add_of_isSome (h : (ls.get? p.ref).isSome) : ls.add p = ls := by
  obtain ⟨l, hl⟩ := Option.isSome_iff_exists.mp h
  rw [add, hl]

lemma isSome_get?_cons {k : TypeRef} {entries : List (TypeRef × String)} :
    ((Labels.mk ((k, l) :: entries)).get? x).isSome ↔
      x = k ∨ ((Labels.mk entries).get? x).isSome := by
  by_cases hx : x = k
  · simp [get?, hx]
  · simp [get?, List.lookup_cons, beq_false_of_ne hx, hx]

/-- Labelling a placeholder gives a label to it and to nothing else. -/
lemma isSome_get?_add_iff : ((ls.add p).get? x).isSome ↔ (ls.get? x).isSome ∨ x = p.ref := by
  cases h : ls.get? p.ref with
  | some l =>
    have hsome : (ls.get? p.ref).isSome := by rw [h, Option.isSome_some]
    rw [add_of_isSome hsome]
    refine ⟨Or.inl, ?_⟩
    rintro (hx | rfl)
    · exact hx
    · exact hsome
  | none =>
    rw [add_of_eq_none h, isSome_get?_cons]
    exact or_comm

lemma get?_foldl_add (h : ls.get? x = some l) : (ps.foldl add ls).get? x = some l := by
  induction ps generalizing ls with
  | nil => exact h
  | cons p ps ih => exact ih (get?_add_of_eq_some ls p h)

lemma isSome_get?_foldl_add_iff :
    ((ps.foldl add ls).get? x).isSome ↔ (ls.get? x).isSome ∨ ∃ p ∈ ps, p.ref = x := by
  induction ps generalizing ls with
  | nil => simp
  | cons p ps ih =>
    rw [List.foldl_cons, ih, isSome_get?_add_iff, or_assoc, List.exists_mem_cons_iff,
      eq_comm (a := x)]

/-- Labelling a tree changes no label. -/
lemma get?_addTree (h : ls.get? x = some l) : (ls.addTree t).get? x = some l :=
  get?_foldl_add h

/-- After a tree was labelled exactly its placeholders have labels besides those that had one. -/
theorem isSome_get?_addTree_iff :
    ((ls.addTree t).get? x).isSome ↔ (ls.get? x).isSome ∨ ∃ p ∈ t.placeholders, p.ref = x :=
  isSome_get?_foldl_add_iff

/-! ### Ranks -/

lemma rankIn_lt_length {entries : List (TypeRef × String)}
    (h : ((Labels.mk entries).get? x).isSome) : rankIn x entries < entries.length := by
  induction entries with
  | nil => simp [get?] at h
  | cons entry older ih =>
    rw [rankIn]
    split_ifs with hx
    · exact Nat.lt_succ_self _
    · exact (ih ((isSome_get?_cons.mp h).resolve_left hx)).trans (Nat.lt_succ_self _)

/-- No two placeholders have their labels at the same place. -/
lemma rank_inj (hx : (ls.get? x).isSome) (hy : (ls.get? y).isSome) (h : ls.rank x = ls.rank y) :
    x = y := by
  obtain ⟨entries⟩ := ls
  rw [rank, rank] at h
  induction entries with
  | nil => simp [get?] at hx
  | cons entry older ih =>
    rw [rankIn, rankIn] at h
    split_ifs at h with hxe hye hye
    · rw [hxe, hye]
    · exact absurd h (rankIn_lt_length ((isSome_get?_cons.mp hy).resolve_left hye)).ne'
    · exact absurd h (rankIn_lt_length ((isSome_get?_cons.mp hx).resolve_left hxe)).ne
    · exact ih ((isSome_get?_cons.mp hx).resolve_left hxe)
        ((isSome_get?_cons.mp hy).resolve_left hye) h

/-- A label keeps its place in the order. -/
lemma rank_add (h : (ls.get? x).isSome) : (ls.add p).rank x = ls.rank x := by
  cases hp : ls.get? p.ref with
  | some l => rw [add_of_isSome (by rw [hp, Option.isSome_some])]
  | none =>
    have hne : x ≠ p.ref := by
      rintro rfl
      simp [hp] at h
    rw [add_of_eq_none hp, rank, rankIn, if_neg hne, rank]

lemma rank_add_self (h : ls.get? p.ref = none) : (ls.add p).rank p.ref = ls.count := by
  rw [add_of_eq_none h, rank, rankIn, if_pos rfl, count]

lemma spell_of_isNumbered (h : p.IsNumbered) (ls : Labels) : ls.spell p = numeral ls.count := by
  obtain ⟨r, kind, name⟩ := p
  cases kind with
  | flexible =>
    obtain rfl : name = none := h rfl
    rfl
  | rigid => rfl

/-! ### Tables for a graph -/

/-- The labels are of nodes of the graph, and those that are numbers count the labels before
them. -/
structure Fits (ls : Labels) (g : Graph) : Prop where
  known  : ∀ ⦃x⦄, (ls.get? x).isSome → x < g.nodes.size
  number : ∀ ⦃x n l⦄, g.node? x = some n → n.isNumbered = true → ls.get? x = some l →
    l = numeral (ls.rank x)

lemma fits_empty (g : Graph) : Fits {} g :=
  ⟨by simp [get?], by simp [get?]⟩

/-- Different nodes whose labels are numbers have different labels. -/
lemma Fits.inj {g : Graph} (h : ls.Fits g) {m n : Node} (hm : g.node? x = some m)
    (hn : g.node? y = some n) (hmN : m.isNumbered = true) (hnN : n.isNumbered = true)
    (hx : ls.get? x = some l) (hy : ls.get? y = some l) : x = y := by
  have hrank : ls.rank x = ls.rank y :=
    numeral_injective ((h.number hm hmN hx).symm.trans (h.number hn hnN hy))
  exact rank_inj (by rw [hx, Option.isSome_some]) (by rw [hy, Option.isSome_some]) hrank

/-- Nodes keep their kind and name when they are bound. -/
lemma Fits.extends {g g' : Graph} (h : ls.Fits g) (hg : g.Extends g') : ls.Fits g' where
  known _ hx := (h.known hx).trans_le hg.size_le
  number x n' l hn' hN hx := by
    obtain ⟨n, hn⟩ := Graph.exists_node? (h.known (by rw [hx, Option.isSome_some]))
    obtain ⟨m, hm, hgrow⟩ := hg hn
    obtain rfl := Option.some.inj (hm.symm.trans hn')
    refine h.number hn ?_ hx
    cases hgrow with
    | refl => exact hN
    | bind name b =>
      cases name with
      | none => rfl
      | some name => simp [Node.isNumbered] at hN

/-- A new label fits if it is of a placeholder of the graph. -/
lemma Fits.add {g : Graph} (h : ls.Fits g) (hp : g.Shows (.placeholder p)) :
    (ls.add p).Fits g where
  known x hx := by
    rcases isSome_get?_add_iff.mp hx with hx | rfl
    · exact h.known hx
    · exact hp.ref_lt_size
  number x n l hn hN hx := by
    by_cases hold : (ls.get? x).isSome
    · obtain ⟨l', hl'⟩ := Option.isSome_iff_exists.mp hold
      obtain rfl := Option.some.inj ((get?_add_of_eq_some ls p hl').symm.trans hx)
      rw [rank_add hold]
      exact h.number hn hN hl'
    · -- the label is the new one
      have hnone : ls.get? x = none := by simpa using hold
      obtain rfl : x = p.ref :=
        (isSome_get?_add_iff.mp (by rw [hx, Option.isSome_some])).resolve_left hold
      rw [rank_add_self hnone, ← spell_of_isNumbered (hp.isNumbered hn hN)]
      rw [add_of_eq_none hnone] at hx
      simpa [get?] using hx.symm

lemma Fits.addTree {g : Graph} (h : ls.Fits g)
    (ht : ∀ p ∈ t.placeholders, g.Shows (.placeholder p)) : (ls.addTree t).Fits g := by
  rw [Labels.addTree]
  generalize t.placeholders = ps at ht
  induction ps generalizing ls with
  | nil => exact h
  | cons p ps ih => exact ih (h.add (ht p (by simp))) fun q hq => ht q (by simp [hq])

end Labels

/-- Trees are written alike where their templates have the same names and their placeholders the
same labels. -/
lemma Tree.textAfter_congr {names names' : TemplateRef → String} {label label' : TypeRef → String}
    {T : Set TypeRef} {U : Set TemplateRef} {t : Tree} (ht : t.Over T U)
    (hnames : ∀ f ∈ U, names' f = names f)
    (hlabels : ∀ p ∈ t.placeholders, label' p.ref = label p.ref) (opened : Bool) :
    t.textAfter names' label' opened = t.textAfter names label opened := by
  induction ht generalizing opened with
  | terminal => rw [textAfter, textAfter]
  | placeholder => rw [textAfter, textAfter, hlabels _ (by simp [placeholders])]
  | @inst f args hf _ ih =>
    have hargs : ∀ u ∈ args, ∀ opened,
        (id u).textAfter names' label' opened = u.textAfter names label opened := fun u hu =>
      ih u hu fun p hp => hlabels p (mem_placeholders_inst.mpr ⟨u, hu, hp⟩)
    have harrow := textArrow_map opened hargs
    have hall := textAll_map ", " fun u hu => hargs u hu false
    rw [List.map_id] at harrow hall
    rw [textAfter, textAfter, hnames f hf, harrow, hall]
  | @union r members _ _ ih =>
    have hall : textAll names' label' "|" (members.map id) = textAll names label "|" members :=
      textAll_map "|" fun u hu =>
        ih u hu (fun p hp => hlabels p (mem_placeholders_union.mpr ⟨u, hu, hp⟩)) false
    rw [List.map_id] at hall
    rw [textAfter, textAfter, hall]

/-! ### Sessions -/

namespace Engine

variable {e e' : Engine} {ls ls' : Labels} {s s' : Engine × Labels} {r x : TypeRef}

/-- One turn of a session: an operation of the engine, or a text of one of its types. -/
inductive Turn : Engine × Labels → Engine × Labels → Prop where
  | operate {e e' : Engine} {ls : Labels} : Next e e' → Turn (e, ls) (e', ls)
  | write {e : Engine} {ls : Labels} {r : TypeRef} : e.Has r → Turn (e, ls) (e, (e.renderIn ls r).2)

/-- A session that began without labels has come to this engine and this table. -/
def Session (e : Engine) (ls : Labels) : Prop :=
  ∃ e₀ : Engine, e₀.Reachable ∧ ReflTransGen Turn (e₀, {}) (e, ls)

/-- An operation changes no template. -/
lemma template?_next (he : e.WellFormed) (h : Next e e') {f : TemplateRef} {d : Template}
    (hd : e.graph.template? f = some d) : e'.graph.template? f = some d := by
  have hsame : e'.graph.templates = e.graph.templates → e'.graph.template? f = some d := by
    intro heq
    rwa [Graph.template?, heq]
  cases h with
  | addTerminal | addVar | addConstraint | addUnion => exact hd
  | addFunction hargs hresult =>
    exact hsame (quiet_addFunction he hargs hresult).1.store.templates
  | @declareTemplate t i e' _ h =>
    rw [declareTemplate] at h
    split_ifs at h
    cases h
    exact Graph.template?_define_of_eq_some hd
  | @applyTemplate t args r e' _ h =>
    rw [applyTemplate] at h
    split at h
    · split_ifs at h
      cases h
      exact hd
    · cases h
  | renew how hr => exact hsame (Graph.appends_renew how he.graph hr).templates
  | newScope | newChild _ | set _ _ _ => exact hd
  | register _ _ h =>
    rw [register] at h
    split at h
    · cases h
    · split at h <;> cases h <;> exact hd
  | ensureTerminal _ h =>
    rw [ensureTerminal] at h
    split at h <;> cases h <;> exact hd
  | @ensureTemplate scope name params t e' _ hparams h =>
    have hbounds := (withBounds_lawful he name hparams).1.store.templates
    rw [ensureTemplate] at h
    split at h
    · cases h
      exact hd
    · cases h
    · cases h
      refine Graph.template?_define_of_eq_some ?_
      rw [Graph.template?]
      exact hbounds ▸ hd
  | @unify depth a b _ ha hb h =>
    exact hsame (answer_keeps (q := .unify a b) he (by simp [Query.types, ha, hb]) h).1
  | @call depth callee args result _ hcallee hargs hresult h =>
    exact hsame (answer_keeps (q := .call callee args result) he
      (by simpa [Query.types, hcallee, hresult] using hargs) h).1

/-- What one turn leaves as it is: the engine stays well formed, and templates and labels stay. -/
structure Continues (s s' : Engine × Labels) : Prop where
  wellFormed : s'.1.WellFormed
  template?  : ∀ ⦃f d⦄, s.1.graph.template? f = some d → s'.1.graph.template? f = some d
  get?       : ∀ ⦃x l⦄, s.2.get? x = some l → s'.2.get? x = some l
  fits       : s.2.Fits s.1.graph → s'.2.Fits s'.1.graph

lemma Turn.continues (h : Turn s s') (hs : s.1.WellFormed) : Continues s s' := by
  cases h with
  | operate hnext =>
    obtain ⟨depth, op, hop, hperform⟩ := exists_perform_of_next hnext
    exact ⟨hs.next hnext, fun _ _ => template?_next hs hnext, fun _ _ hx => hx,
      fun hfits => hfits.extends (extends_perform hs hop hperform)⟩
  | write hr =>
    refine ⟨hs, fun _ _ hd => hd, fun _ _ => Labels.get?_addTree, fun hfits => ?_⟩
    exact hfits.addTree fun p hp => Graph.shows_of_mem_placeholders hs.graph hr hp

lemma Continues.trans {s'' : Engine × Labels} (h : Continues s s') (h' : Continues s' s'') :
    Continues s s'' where
  wellFormed := h'.wellFormed
  template? _ _ hd := h'.template? (h.template? hd)
  get? _ _ hx := h'.get? (h.get? hx)
  fits hfits := h'.fits (h.fits hfits)

/-- What a turn leaves as it is, any number of turns leave as it is. -/
lemma continues_of_turns (h : ReflTransGen Turn s s') (hs : s.1.WellFormed) : Continues s s' := by
  induction h with
  | refl => exact ⟨hs, fun _ _ hd => hd, fun _ _ hx => hx, fun hfits => hfits⟩
  | tail _ hturn ih => exact ih.trans (hturn.continues ih.wellFormed)

/-- In a session the engine is well formed and the table fits its graph. -/
lemma Session.fits (h : Session e ls) : e.WellFormed ∧ ls.Fits e.graph := by
  obtain ⟨e₀, he₀, hturns⟩ := h
  have hcontinues := continues_of_turns hturns he₀.wellFormed
  exact ⟨hcontinues.wellFormed, hcontinues.fits (Labels.fits_empty _)⟩

/-- A text is written again in the same words, as long as it is a text of the same tree. -/
lemma renderIn_again (he : e.WellFormed)
    (h : ReflTransGen Turn (e, (e.renderIn ls r).2) (e', ls'))
    (htree : e'.graph.resolve r = e.graph.resolve r) :
    (e'.renderIn ls' r).1 = (e.renderIn ls r).1 := by
  have hcontinues := continues_of_turns h he
  have hover : (e.graph.resolve r).Over Set.univ {f | ∃ d, e.graph.template? f = some d} := by
    refine Graph.Encloses.over_resolve (fun _ _ _ _ => Set.mem_univ _) he.graph ?_ (Set.mem_univ r)
    intro x _ t args hn
    obtain ⟨d, hd, -⟩ := he.graph.applies hn t args rfl
    exact ⟨d, hd⟩
  show Tree.textAfter _ _ false _ = Tree.textAfter _ _ false _
  rw [htree]
  refine Tree.textAfter_congr hover ?_ (fun p hp => ?_) false
  · rintro f ⟨d, hd⟩
    rw [Graph.templateName, Graph.templateName, hd, hcontinues.template? hd]
  · -- the placeholder had its label after the first text
    obtain ⟨l, hl⟩ := Option.isSome_iff_exists.mp
      (Labels.isSome_get?_addTree_iff.mpr (.inr ⟨p, hp, rfl⟩) :
        ((ls.addTree (e.graph.resolve r)).get? p.ref).isSome)
    rw [Labels.label, Labels.label, hl, Labels.get?_addTree (hcontinues.get? hl)]

/-- In a session a label stays as it was given. A text labels exactly the placeholders of its tree,
inside overload sets too. Different nodes have different numbers. A type whose tree is what it was
at an earlier text has that text again. -/
theorem session_labels (h : Session e ls) :
    (∀ {e' ls'}, ReflTransGen Turn (e, ls) (e', ls') → ∀ {x l}, ls.get? x = some l →
      ls'.get? x = some l) ∧
    (∀ r x, ((e.renderIn ls r).2.get? x).isSome ↔
      (ls.get? x).isSome ∨ ∃ p ∈ (e.graph.resolve r).placeholders, p.ref = x) ∧
    (∀ {x y m n l}, e.graph.node? x = some m → e.graph.node? y = some n → m.isNumbered = true →
      n.isNumbered = true → ls.get? x = some l → ls.get? y = some l → x = y) ∧
    (∀ {r e' ls'}, ReflTransGen Turn (e, (e.renderIn ls r).2) (e', ls') →
      e'.graph.resolve r = e.graph.resolve r → (e'.renderIn ls' r).1 = (e.renderIn ls r).1) := by
  obtain ⟨he, hfits⟩ := h.fits
  refine ⟨?_, ?_, ?_, ?_⟩
  · intro e' ls' hturns x l hx
    exact (continues_of_turns hturns he).get? hx
  · intro r x
    exact Labels.isSome_get?_addTree_iff
  · intro x y m n l hm hn hmN hnN hx hy
    exact hfits.inj hm hn hmN hnN hx hy
  · intro r e' ls' hturns htree
    exact renderIn_again he hturns htree

/-- Of two variables without names the second is written first, so the first is `'1`, and it is so
still after the second was bound. -/
theorem session_labels_second :
    let e := ((((new {}).addVar none).2.addVar none).2.addTerminal "Int").2
    let ls := (e.renderIn (e.renderIn {} 3).2 2).2
    ∃ r e', e.unify 1 3 4 = .done r e' ∧ (e'.renderIn ls 3).1 = "Int" ∧
      (e'.renderIn ls 2).1 = "'1" := by
  intro e ls
  have he : e.Reachable := .next (.next (.next (.new {}) (.addVar _)) (.addVar _)) (.addTerminal _)
  have hsession : Session e (e.renderIn {} 3).2 := ⟨e, he, .single (.write (by decide))⟩
  let e' : Engine := { e with store := (e.store.bind 3 4).commit 0 }
  have hunify : e.unify 1 3 4 = .done 4 e' := by rfl
  have hturn : Turn (e, ls) (e', ls) :=
    .operate (.unify (by decide) (by decide) (.inl ⟨4, hunify⟩))
  refine ⟨4, e', hunify, by decide +kernel, ?_⟩
  rw [(session_labels hsession).2.2.2 (.single hturn) (by rfl)]
  decide +kernel

end Engine

end Unification
