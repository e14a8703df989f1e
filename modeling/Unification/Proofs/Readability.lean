import Mathlib.Data.Set.Function
import Unification.Proofs.Labelling

/-!
# Texts can be read back

A text shows the outline of a tree: its terminals, its templates, the order of everything, and which
of its placeholders are the same. As long as names are told apart from the marks around them and
from each other, the outline can be read off the text character by character:
`Graph.Notes.uniquelyRead`. Since placeholders are numbered in reading order, two types have the
same text if and only if one outline becomes the other under a renaming of placeholders:
`Engine.render_eq_iff`.
-/

namespace Unification

/-! ### Outlines -/

namespace Tree

variable {t t' : Tree} {ts : List Tree} {ρ σ : TypeRef → TypeRef}

/-- The references of the placeholders of a tree, those inside overload sets included. -/
def refs (t : Tree) : Set TypeRef :=
  {r | ∃ p ∈ t.placeholders, p.ref = r}

mutual

/-- The tree with its placeholders renamed, and without what no text shows: the kinds and names of
placeholders, and the references of overload sets. -/
def outline (ρ : TypeRef → TypeRef) : Tree → Tree
  | terminal r name => terminal r name
  | placeholder p   => placeholder ⟨ρ p.ref, .flexible, none⟩
  | inst f args     => inst f (outlineAll ρ args)
  | union _ members => union 0 (outlineAll ρ members)

/-- The outlines of a list of trees. -/
def outlineAll (ρ : TypeRef → TypeRef) : List Tree → List Tree
  | []      => []
  | t :: ts => outline ρ t :: outlineAll ρ ts

end

lemma outlineAll_eq_map : outlineAll ρ ts = ts.map (outline ρ) := by
  induction ts with
  | nil => rfl
  | cons t ts ih => rw [outlineAll, ih, List.map_cons]

@[simp]
lemma outline_terminal {r : TypeRef} {name : String} :
    (terminal r name).outline ρ = terminal r name := by
  rw [outline]

@[simp]
lemma outline_placeholder {p : Placeholder} :
    (placeholder p).outline ρ = placeholder ⟨ρ p.ref, .flexible, none⟩ := by
  rw [outline]

@[simp]
lemma outline_inst {f : TemplateRef} : (inst f ts).outline ρ = inst f (ts.map (outline ρ)) := by
  rw [outline, outlineAll_eq_map]

@[simp]
lemma outline_union {r : TypeRef} : (union r ts).outline ρ = union 0 (ts.map (outline ρ)) := by
  rw [outline, outlineAll_eq_map]

lemma placeholders_outline (t : Tree) :
    (t.outline ρ).placeholders = t.placeholders.map fun p => ⟨ρ p.ref, .flexible, none⟩ := by
  induction t with
  | terminal r name => simp [placeholders]
  | placeholder p => simp [placeholders]
  | inst f args ih => rw [outline_inst, placeholders, placeholders, placeholdersAll_map ih]
  | union r members ih => rw [outline_union, placeholders, placeholders, placeholdersAll_map ih]

lemma refs_outline (t : Tree) : (t.outline ρ).refs = ρ '' t.refs := by
  ext x
  simp [refs, placeholders_outline]

lemma outline_outline (t : Tree) : (t.outline ρ).outline σ = t.outline (σ ∘ ρ) := by
  induction t with
  | terminal r name => simp
  | placeholder p => simp
  | inst f args ih =>
    simp only [outline_inst, List.map_map]
    congr 1
    exact List.map_congr_left ih
  | union r members ih =>
    simp only [outline_union, List.map_map]
    congr 1
    exact List.map_congr_left ih

lemma outline_congr (h : ∀ x ∈ t.refs, ρ x = σ x) : t.outline ρ = t.outline σ := by
  induction t with
  | terminal r name => simp
  | placeholder p => simp [h p.ref ⟨p, by simp [placeholders], rfl⟩]
  | inst f args ih =>
    rw [outline_inst, outline_inst]
    congr 1
    apply List.map_congr_left
    rintro u hu
    apply ih u hu
    rintro _ ⟨p, hp, rfl⟩
    exact h p.ref ⟨p, mem_placeholders_inst.mpr ⟨u, hu, hp⟩, rfl⟩
  | union r members ih =>
    rw [outline_union, outline_union]
    congr 1
    apply List.map_congr_left
    rintro u hu
    apply ih u hu
    rintro _ ⟨p, hp, rfl⟩
    exact h p.ref ⟨p, mem_placeholders_union.mpr ⟨u, hu, hp⟩, rfl⟩

/-- The outline has the text of the tree, if its placeholders have the labels of those that they
stand for. -/
lemma textAfter_outline {names : TemplateRef → String} {label : TypeRef → String} (t : Tree)
    (opened : Bool) :
    (t.outline ρ).textAfter names label opened = t.textAfter names (label ∘ ρ) opened := by
  induction t generalizing opened with
  | terminal r name => rw [outline_terminal, textAfter, textAfter]
  | placeholder p => rw [outline_placeholder, textAfter, textAfter, Function.comp_apply]
  | inst f args ih =>
    have harrow := textArrow_map opened ih
    have hall := textAll_map ", " fun u hu => ih u hu false
    simp only [outline_inst, textAfter, List.length_map, harrow, hall]
  | union r members ih =>
    rw [outline_union, textAfter, textAfter, textAll_map "|" fun u hu => ih u hu false]

/-- The trees differ in nothing but a one-to-one renaming of placeholders: overload sets are read as
lists of members, and variables are not told from constraints. -/
def Similar (t t' : Tree) : Prop :=
  ∃ ρ : TypeRef → TypeRef, Set.BijOn ρ t.refs t'.refs ∧ t.outline ρ = t'.outline id

end Tree

/-! ### Numbering in reading order -/

namespace Labels

variable {ls ls' : Labels} {S : Set TypeRef} {ρ : TypeRef → TypeRef} {p p' : Placeholder}

/-- The second table gives labels to the renamed placeholders when the first gives them. -/
structure Mirrors (ρ : TypeRef → TypeRef) (S : Set TypeRef) (ls ls' : Labels) : Prop where
  isSome : ∀ x ∈ S, (ls'.get? (ρ x)).isSome ↔ (ls.get? x).isSome
  rank   : ∀ x ∈ S, (ls.get? x).isSome → ls'.rank (ρ x) = ls.rank x
  count  : ls'.count = ls.count

lemma Mirrors.add (h : Mirrors ρ S ls ls') (hρ : Set.InjOn ρ S) (hp : p.ref ∈ S)
    (hp' : p'.ref = ρ p.ref) : Mirrors ρ S (ls.add p) (ls'.add p') := by
  have hiff := h.isSome p.ref hp
  rw [← hp'] at hiff
  by_cases hold : (ls.get? p.ref).isSome
  · rwa [add_of_isSome hold, add_of_isSome (hiff.mpr hold)]
  · have hnone : ls.get? p.ref = none := by simpa using hold
    have hnone' : ls'.get? p'.ref = none := by simpa using mt hiff.mp hold
    have hcount : (ls'.add p').count = (ls.add p).count := by
      simpa [add_of_eq_none hnone, add_of_eq_none hnone', Labels.count] using h.count
    refine ⟨fun x hx => ?_, fun x hx hsome => ?_, hcount⟩
    · rw [isSome_get?_add_iff, isSome_get?_add_iff, h.isSome x hx, hp', hρ.eq_iff hx hp]
    · by_cases hsome' : (ls.get? x).isSome
      · rw [rank_add hsome', rank_add ((h.isSome x hx).mpr hsome'), h.rank x hx hsome']
      · obtain rfl := (isSome_get?_add_iff.mp hsome).resolve_left hsome'
        rw [← hp', rank_add_self hnone, rank_add_self hnone', h.count]

lemma Mirrors.foldl_add (h : Mirrors ρ S ls ls') (hρ : Set.InjOn ρ S) {ps ps' : List Placeholder}
    (hps : List.Forall₂ (fun p p' => p'.ref = ρ p.ref) ps ps') (hS : ∀ p ∈ ps, p.ref ∈ S) :
    Mirrors ρ S (ps.foldl Labels.add ls) (ps'.foldl Labels.add ls') := by
  induction hps generalizing ls ls' with
  | nil => exact h
  | cons hp _ ih => exact ih (h.add hρ (hS _ (by simp)) hp) fun q hq => hS q (by simp [hq])

/-- Trees with the same outline number their placeholders alike. -/
lemma mirrors_addTree {t t' : Tree} (hρ : Set.InjOn ρ t.refs) (h : t.outline ρ = t'.outline id) :
    Mirrors ρ t.refs (({} : Labels).addTree t) (({} : Labels).addTree t') := by
  have hrefs : List.Forall₂ (fun p p' : Placeholder => p'.ref = ρ p.ref) t.placeholders
      t'.placeholders := by
    have hplaceholders := congrArg Tree.placeholders h
    rw [Tree.placeholders_outline, Tree.placeholders_outline, ← List.forall₂_eq_eq_eq,
      List.forall₂_map_left_iff, List.forall₂_map_right_iff] at hplaceholders
    exact hplaceholders.imp fun p p' hpp' => (congrArg Placeholder.ref hpp').symm
  have hempty : Mirrors ρ t.refs {} {} := ⟨by simp [get?], by simp [get?], rfl⟩
  exact hempty.foldl_add hρ hrefs fun p hp => ⟨p, hp, rfl⟩

end Labels

namespace Tree

variable {t t' : Tree}

/-- The number of the label that a placeholder of the tree has in a text of the tree alone. -/
def number (t : Tree) : TypeRef → Nat :=
  (({} : Labels).addTree t).rank

lemma number_injOn (t : Tree) : Set.InjOn t.number t.refs := by
  have hsome : ∀ x ∈ t.refs, ((({} : Labels).addTree t).get? x).isSome := fun x hx =>
    Labels.isSome_get?_addTree_iff.mpr (.inr hx)
  intro x hx y hy heq
  exact Labels.rank_inj (hsome x hx) (hsome y hy) heq

/-- Trees are similar if and only if they have the same outline when their placeholders are
numbered. -/
lemma outline_number_eq_iff : t.outline t.number = t'.outline t'.number ↔ t.Similar t' := by
  constructor
  · intro h
    have himage : t.number '' t.refs = t'.number '' t'.refs := by
      rw [← refs_outline, ← refs_outline, h]
    have hbij := t.number_injOn.bijOn_image
    have hbij' := t'.number_injOn.bijOn_image
    rw [himage] at hbij
    have hinv := hbij'.invOn_invFunOn
    refine ⟨Function.invFunOn t'.number t'.refs ∘ t.number, (hbij'.symm hinv.symm).comp hbij, ?_⟩
    calc t.outline (Function.invFunOn t'.number t'.refs ∘ t.number)
        = (t.outline t.number).outline (Function.invFunOn t'.number t'.refs) :=
          (outline_outline t).symm
      _ = (t'.outline t'.number).outline (Function.invFunOn t'.number t'.refs) := by rw [h]
      _ = t'.outline id := by
        rw [outline_outline]
        exact outline_congr fun x hx => hinv.1 hx
  · rintro ⟨ρ, hρ, h⟩
    have hmirrors := Labels.mirrors_addTree hρ.injOn h
    calc t.outline t.number = t.outline (t'.number ∘ ρ) := by
          refine outline_congr fun x hx => ?_
          exact (hmirrors.rank x hx (Labels.isSome_get?_addTree_iff.mpr (.inr hx))).symm
      _ = (t.outline ρ).outline t'.number := (outline_outline t).symm
      _ = t'.outline t'.number := by rw [h, outline_outline, Function.comp_id]

end Tree

/-! ### Words and marks -/

/-- The characters that stand between names in a text. -/
def marks : List Char :=
  ['\x27', '<', '>', '\x7b', '\x7d', '|', '(', ')', ',']

/-- The marks that can follow the text of a type. -/
def closingMarks : List Char :=
  ['>', '\x7d', '|', ')', ',']

lemma closingMarks_subset : closingMarks ⊆ marks := by
  decide

/-- A name that is told apart from what stands around it: it is not empty and has no marks in it. -/
def IsWord (name : String) : Prop :=
  name ≠ "" ∧ ∀ c ∈ name.toList, c ∉ marks

/-- Names of letters and digits are words. -/
lemma isWord_of_isAlphanum {name : String} (hne : name ≠ "")
    (h : ∀ c ∈ name.toList, c.isAlphanum = true) : IsWord name := by
  refine ⟨hne, fun c hc hmark => ?_⟩
  have hnot : ∀ c ∈ marks, c.isAlphanum = false := by simp [marks]
  exact absurd (h c hc) (by simp [hnot c hmark])

/-- The text goes on with a closing mark or is at its end. -/
def Closes (cs : List Char) : Prop :=
  ∀ c ∈ cs.head?, c ∈ closingMarks

lemma Closes.mem_marks {cs : List Char} (h : Closes cs) : ∀ c ∈ cs.head?, c ∈ marks :=
  fun c hc => closingMarks_subset (h c hc)

lemma closes_cons {c : Char} {cs : List Char} (h : c ∈ closingMarks) : Closes (c :: cs) := by
  simpa [Closes] using h

/-- A word ends where the next mark stands. -/
lemma word_append_inj {w w' cs cs' : List Char} (hw : ∀ c ∈ w, c ∉ marks)
    (hw' : ∀ c ∈ w', c ∉ marks) (hcs : ∀ c ∈ cs.head?, c ∈ marks)
    (hcs' : ∀ c ∈ cs'.head?, c ∈ marks) (h : w ++ cs = w' ++ cs') : w = w' ∧ cs = cs' := by
  have htake : ∀ {w cs : List Char}, (∀ c ∈ w, c ∉ marks) → (∀ c ∈ cs.head?, c ∈ marks) →
      (w ++ cs).takeWhile (· ∉ marks) = w := by
    intro w cs hw hcs
    rw [List.takeWhile_append_of_pos (by simpa using hw)]
    cases cs with
    | nil => simp
    | cons c cs => simp [hcs c (by simp)]
  have hword : w = w' := by rw [← htake hw hcs, h, htake hw' hcs']
  exact ⟨hword, List.append_cancel_left (hword ▸ h)⟩

lemma toList_numeral (n : Nat) : (numeral n).toList = '\x27' :: n.repr.toList := by
  simp [numeral]

/-- A number has no marks in it. -/
lemma notMem_marks_of_mem_repr {n : Nat} {c : Char} (h : c ∈ n.repr.toList) : c ∉ marks := by
  rw [Nat.toList_repr] at h
  have hdigit := Nat.isDigit_of_mem_toDigits (by decide) (by decide) h
  have hnot : ∀ c ∈ marks, c.isDigit = false := by simp [marks]
  exact fun hmark => by simp [hnot c hmark] at hdigit

/-- The mark at the front of a text: none if it begins with a name. -/
def Tree.front : Tree → Option Char
  | terminal _ _  => none
  | placeholder _ => some '\x27'
  | inst f _      => if f = functionTemplate then some '(' else none
  | union _ _     => some '\x7b'

/-- What is written in front of a type that is not a function. -/
def lead (opened : Bool) : List Char :=
  if opened then [')', ' ', '-', '>', ' '] else []

@[simp]
lemma lead_false : lead false = [] := rfl

namespace Graph

variable {g : Graph} {t t' : Tree} {ts ts' : List Tree} {cs cs' : List Char}

/-- The names of terminals and templates are words, and different for different terminals and for
different templates. -/
structure Legible (g : Graph) : Prop where
  terminal     : ∀ ⦃x name⦄, g.node? x = some (.terminal name) → IsWord name
  template     : ∀ ⦃f d⦄, g.template? f = some d → IsWord d.name
  terminal_inj : ∀ ⦃x y name⦄, g.node? x = some (.terminal name) →
    g.node? y = some (.terminal name) → x = y
  template_inj : ∀ ⦃f f' d d'⦄, g.template? f = some d → g.template? f' = some d' →
    d.name = d'.name → f = f'

/-- The tree is an outline with names from the graph. -/
inductive Notes (g : Graph) : Tree → Prop where
  | terminal {r : TypeRef} {name : String} : g.node? r = some (.terminal name) →
      Notes g (.terminal r name)
  | placeholder (n : Nat) : Notes g (.placeholder ⟨n, .flexible, none⟩)
  | arrow {param result : Tree} : Notes g param → Notes g result →
      Notes g (.inst functionTemplate [param, result])
  | inst {f : TemplateRef} {d : Template} {args : List Tree} : f ≠ functionTemplate →
      g.template? f = some d → (∀ u ∈ args, Notes g u) → Notes g (.inst f args)
  | union {members : List Tree} : (∀ u ∈ members, Notes g u) → Notes g (.union 0 members)

/-- The characters of the text of a tree whose placeholders are numbers. -/
def chars (g : Graph) (opened : Bool) (t : Tree) : List Char :=
  (t.textAfter g.templateName numeral opened).toList

/-- The characters of texts with a separator in front of each. -/
def charsAfter (g : Graph) (separator : String) (ts : List Tree) : List Char :=
  ts.flatMap fun t => separator.toList ++ g.chars false t

lemma chars_terminal (opened : Bool) {r : TypeRef} {name : String} :
    g.chars opened (.terminal r name) = lead opened ++ name.toList := by
  cases opened <;> simp [chars, Tree.textAfter, lead]

lemma chars_placeholder (opened : Bool) (n : Nat) :
    g.chars opened (.placeholder ⟨n, .flexible, none⟩) = lead opened ++ (numeral n).toList := by
  cases opened <;> simp [chars, Tree.textAfter, lead]

lemma chars_arrow (opened : Bool) {param result : Tree} :
    g.chars opened (.inst functionTemplate [param, result]) =
      (if opened then [',', ' '] else ['(']) ++ g.chars false param ++ g.chars true result := by
  cases opened <;> simp [chars, Tree.textAfter, Tree.textArrow]

lemma toList_textAll (separator : String) (t : Tree) (ts : List Tree) :
    (Tree.textAll g.templateName numeral separator (t :: ts)).toList =
      g.chars false t ++ g.charsAfter separator ts := by
  induction ts generalizing t with
  | nil => simp [Tree.textAll, chars, charsAfter]
  | cons u us ih => simp [Tree.textAll, ih u, chars, charsAfter]

lemma chars_inst (opened : Bool) {f : TemplateRef} {d : Template} (hf : f ≠ functionTemplate)
    (hd : g.template? f = some d) :
    g.chars opened (.inst f ts) = lead opened ++ (d.name.toList ++
      '<' :: ((Tree.textAll g.templateName numeral ", " ts).toList ++ ['>'])) := by
  have hname : g.templateName f = d.name := by rw [templateName, hd]
  cases opened <;> simp [chars, Tree.textAfter, hf, hname, lead]

lemma chars_union (opened : Bool) {r : TypeRef} :
    g.chars opened (.union r ts) = lead opened ++
      '\x7b' :: ((Tree.textAll g.templateName numeral "|" ts).toList ++ ['\x7d']) := by
  cases opened <;> simp [chars, Tree.textAfter, lead]

lemma notMem_closingMarks_of_front {c : Char} (h : t.front = some c) : c ∉ closingMarks := by
  cases t <;> simp only [Tree.front] at h
  · cases h
  · cases h
    decide
  · split_ifs at h
    cases h
    decide
  · cases h
    decide

/-- A type that is not a function closes the list in front of it. -/
lemma Notes.chars_eq (h : g.Notes t) (hfront : t.front ≠ some '(') (opened : Bool) :
    g.chars opened t = lead opened ++ g.chars false t := by
  cases h with
  | terminal => rw [chars_terminal, chars_terminal, lead_false, List.nil_append]
  | placeholder => rw [chars_placeholder, chars_placeholder, lead_false, List.nil_append]
  | arrow => simp [Tree.front] at hfront
  | inst hf hd => rw [chars_inst opened hf hd, chars_inst false hf hd, lead_false, List.nil_append]
  | union => rw [chars_union, chars_union, lead_false, List.nil_append]

lemma Notes.exists_front (hg : g.Legible) (h : g.Notes t) :
    ∃ c cs, g.chars false t = c :: cs ∧ (if c ∈ marks then some c else none) = t.front := by
  have hword : ∀ {name}, IsWord name → ∃ c cs, name.toList = c :: cs ∧ c ∉ marks := by
    rintro name ⟨hne, hmarks⟩
    obtain ⟨c, cs, hname⟩ := List.exists_cons_of_ne_nil (mt String.toList_eq_nil_iff.mp hne)
    exact ⟨c, cs, hname, hmarks c (by simp [hname])⟩
  cases h with
  | terminal hn =>
    obtain ⟨c, cs, hname, hc⟩ := hword (hg.terminal hn)
    exact ⟨c, cs, by simpa [chars_terminal, lead] using hname, by simp [hc, Tree.front]⟩
  | placeholder n => exact ⟨_, _, by rw [chars_placeholder, toList_numeral]; rfl,
      by simp [Tree.front, marks]⟩
  | arrow => exact ⟨_, _, by rw [chars_arrow]; rfl, by simp [Tree.front, marks]⟩
  | inst hf hd =>
    obtain ⟨c, cs, hname, hc⟩ := hword (hg.template hd)
    exact ⟨c, _, by rw [chars_inst false hf hd, hname]; rfl, by simp [hc, Tree.front, hf]⟩
  | union => exact ⟨_, _, by rw [chars_union]; rfl, by simp [Tree.front, marks]⟩

/-- After an open list a function goes on with it, and any other type closes it. -/
lemma Notes.head?_chars (h : g.Notes t) :
    (g.chars true t).head? = some (if t.front = some '(' then ',' else ')') := by
  by_cases hfront : t.front = some '('
  · rw [if_pos hfront]
    cases h with
    | arrow => simp [chars_arrow]
    | terminal | placeholder | union => simp [Tree.front] at hfront
    | inst hf => simp [Tree.front, hf] at hfront
  · rw [if_neg hfront, h.chars_eq hfront]
    simp [lead]

lemma Notes.closes_chars (h : g.Notes t) (cs : List Char) : Closes (g.chars true t ++ cs) := by
  intro c hc
  rw [List.head?_append, h.head?_chars] at hc
  obtain rfl := Option.some.inj hc
  split_ifs <;> decide

/-- The beginning of a text shows what kind of type it is of. -/
lemma Notes.front_eq (hg : g.Legible) (h : g.Notes t) (h' : g.Notes t') {opened : Bool}
    (heq : g.chars opened t ++ cs = g.chars opened t' ++ cs') : t.front = t'.front := by
  have hclosed : g.chars false t ++ cs = g.chars false t' ++ cs' → t.front = t'.front := by
    obtain ⟨c, ds, ht, hfront⟩ := h.exists_front hg
    obtain ⟨c', ds', ht', hfront'⟩ := h'.exists_front hg
    intro heq
    rw [ht, ht'] at heq
    rw [← hfront, ← hfront', (List.cons.inj heq).1]
  cases opened with
  | false => exact hclosed heq
  | true =>
    have hheads := congrArg List.head? heq
    rw [List.head?_append, List.head?_append, h.head?_chars, h'.head?_chars] at hheads
    by_cases hfront : t.front = some '(' <;> by_cases hfront' : t'.front = some '('
    · rw [hfront, hfront']
    · simp [hfront, hfront'] at hheads
    · simp [hfront, hfront'] at hheads
    · rw [h.chars_eq hfront, h'.chars_eq hfront', List.append_assoc, List.append_assoc] at heq
      exact hclosed (List.append_cancel_left heq)

/-- The name of a template has its arguments behind it. -/
lemma chars_terminal_ne_inst (hg : g.Legible) {opened : Bool} {r : TypeRef} {name : String}
    (hn : g.node? r = some (.terminal name)) {f : TemplateRef} {d : Template}
    (hf : f ≠ functionTemplate) (hd : g.template? f = some d) (hcs : Closes cs) :
    g.chars opened (.terminal r name) ++ cs ≠ g.chars opened (.inst f ts) ++ cs' := by
  intro heq
  rw [chars_terminal, chars_inst opened hf hd, List.append_assoc, List.append_assoc,
    List.append_assoc] at heq
  obtain ⟨-, rfl⟩ := word_append_inj (hg.terminal hn).2 (hg.template hd).2 hcs.mem_marks
    (by simp [marks]) (List.append_cancel_left heq)
  exact absurd (hcs '<' (by simp)) (by decide)

/-- The text of a tree can be read: what is in front of a closing mark belongs to one tree only. -/
def UniquelyRead (g : Graph) (t : Tree) : Prop :=
  ∀ ⦃t' opened cs cs'⦄, g.Notes t' → Closes cs → Closes cs' →
    g.chars opened t ++ cs = g.chars opened t' ++ cs' → t = t' ∧ cs = cs'

/-- The rest of a list can be read up to the mark at its end, if that is not the separator. -/
lemma charsAfter_inj {separator : String} {s e : Char}
    (hsep : separator.toList.head? = some s) (hs : s ∈ closingMarks) (he : e ∈ closingMarks)
    (hne : s ≠ e) (hts : ∀ t ∈ ts, g.UniquelyRead t) (hts' : ∀ t ∈ ts', g.Notes t)
    (heq : g.charsAfter separator ts ++ e :: cs = g.charsAfter separator ts' ++ e :: cs') :
    ts = ts' ∧ cs = cs' := by
  obtain ⟨ss, hsep⟩ := List.head?_eq_some_iff.mp hsep
  have hcloses : ∀ (ts : List Tree) (cs : List Char),
      Closes (g.charsAfter separator ts ++ e :: cs) := by
    intro ts cs
    cases ts with
    | nil => exact closes_cons he
    | cons t ts =>
      rw [charsAfter, List.flatMap_cons, hsep]
      exact closes_cons hs
  induction ts generalizing ts' with
  | nil =>
    cases ts' with
    | nil => exact ⟨rfl, (List.cons.inj heq).2⟩
    | cons t' ts' =>
      rw [charsAfter, charsAfter, List.flatMap_cons, hsep] at heq
      exact absurd (List.cons.inj heq).1.symm hne
  | cons t ts ih =>
    cases ts' with
    | nil =>
      rw [charsAfter, charsAfter, List.flatMap_cons, hsep] at heq
      exact absurd (List.cons.inj heq).1 hne
    | cons t' ts' =>
      simp only [charsAfter, List.flatMap_cons, List.append_assoc] at heq
      obtain ⟨rfl, hrest⟩ := hts t (by simp) (hts' t' (by simp)) (hcloses ts cs) (hcloses ts' cs')
        (List.append_cancel_left heq)
      obtain ⟨rfl, rfl⟩ := ih (fun u hu => hts u (by simp [hu])) (fun u hu => hts' u (by simp [hu]))
        hrest
      exact ⟨rfl, rfl⟩

/-- A list can be read up to the mark at its end. -/
lemma textAll_inj (hg : g.Legible) {separator : String} {s e : Char}
    (hsep : separator.toList.head? = some s) (hs : s ∈ closingMarks) (he : e ∈ closingMarks)
    (hne : s ≠ e) (hts : ∀ t ∈ ts, g.Notes t) (hread : ∀ t ∈ ts, g.UniquelyRead t)
    (hts' : ∀ t ∈ ts', g.Notes t)
    (heq : (Tree.textAll g.templateName numeral separator ts).toList ++ e :: cs =
      (Tree.textAll g.templateName numeral separator ts').toList ++ e :: cs') :
    ts = ts' ∧ cs = cs' := by
  -- no text of a type begins with the mark at the end
  have hend : ∀ {t : Tree} {cs cs' : List Char}, g.Notes t → e :: cs ≠ g.chars false t ++ cs' := by
    intro t cs cs' ht heq
    obtain ⟨c, ds, hchars, hfront⟩ := ht.exists_front hg
    rw [hchars] at heq
    obtain rfl := (List.cons.inj heq).1
    rw [if_pos (closingMarks_subset he)] at hfront
    exact notMem_closingMarks_of_front hfront.symm he
  have hnil : (Tree.textAll g.templateName numeral separator []).toList = [] := by
    simp [Tree.textAll]
  cases ts with
  | nil =>
    cases ts' with
    | nil =>
      rw [hnil] at heq
      exact ⟨rfl, (List.cons.inj heq).2⟩
    | cons t' ts' =>
      rw [hnil, toList_textAll, List.append_assoc] at heq
      exact absurd heq (hend (hts' t' (by simp)))
  | cons t ts =>
    cases ts' with
    | nil =>
      rw [hnil, toList_textAll, List.append_assoc] at heq
      exact absurd heq.symm (hend (hts t (by simp)))
    | cons t' ts' =>
      refine charsAfter_inj hsep hs he hne hread hts' ?_
      rw [toList_textAll, toList_textAll, List.append_assoc, List.append_assoc] at heq
      simp only [charsAfter, List.flatMap_cons, List.append_assoc] at heq ⊢
      rw [heq]

lemma uniquelyRead_terminal (hg : g.Legible) {r : TypeRef} {name : String}
    (hn : g.node? r = some (.terminal name)) : g.UniquelyRead (.terminal r name) := by
  intro t' opened cs cs' h' hcs hcs' heq
  have hfront := (Notes.terminal hn).front_eq hg h' heq
  cases h' with
  | @terminal r' name' hn' =>
    rw [chars_terminal, chars_terminal, List.append_assoc, List.append_assoc] at heq
    obtain ⟨hname, rfl⟩ := word_append_inj (hg.terminal hn).2 (hg.terminal hn').2 hcs.mem_marks
      hcs'.mem_marks (List.append_cancel_left heq)
    obtain rfl := String.toList_inj.mp hname
    obtain rfl := hg.terminal_inj hn hn'
    exact ⟨rfl, rfl⟩
  | inst hf hd => exact absurd heq (chars_terminal_ne_inst hg hn hf hd hcs)
  | _ => simp [Tree.front] at hfront

lemma uniquelyRead_placeholder (hg : g.Legible) (n : Nat) :
    g.UniquelyRead (.placeholder ⟨n, .flexible, none⟩) := by
  intro t' opened cs cs' h' hcs hcs' heq
  have hfront := (Notes.placeholder n).front_eq hg h' heq
  cases h' with
  | placeholder n' =>
    rw [chars_placeholder, chars_placeholder, List.append_assoc, List.append_assoc,
      toList_numeral, toList_numeral] at heq
    obtain ⟨hrepr, rfl⟩ := word_append_inj (fun _ => notMem_marks_of_mem_repr)
      (fun _ => notMem_marks_of_mem_repr) hcs.mem_marks hcs'.mem_marks
      (List.cons.inj (List.append_cancel_left heq)).2
    have hnum : numeral n = numeral n' := by
      rw [← String.toList_inj, toList_numeral, toList_numeral, hrepr]
    rw [numeral_injective hnum]
    exact ⟨rfl, rfl⟩
  | inst hf => simp [Tree.front, hf] at hfront
  | _ => simp [Tree.front] at hfront

lemma uniquelyRead_arrow (hg : g.Legible) {param result : Tree} (hparam : g.Notes param)
    (hresult : g.Notes result) (hread : g.UniquelyRead param) (hread' : g.UniquelyRead result) :
    g.UniquelyRead (.inst functionTemplate [param, result]) := by
  intro t' opened cs cs' h' hcs hcs' heq
  have hfront := (Notes.arrow hparam hresult).front_eq hg h' heq
  cases h' with
  | @arrow param' result' hparam' hresult' =>
    simp only [chars_arrow, List.append_assoc] at heq
    obtain ⟨rfl, htail⟩ := hread hparam' (hresult.closes_chars cs) (hresult'.closes_chars cs')
      (List.append_cancel_left heq)
    obtain ⟨rfl, rfl⟩ := hread' hresult' hcs hcs' htail
    exact ⟨rfl, rfl⟩
  | inst hf => simp [Tree.front, hf] at hfront
  | _ => simp [Tree.front] at hfront

lemma uniquelyRead_inst (hg : g.Legible) {f : TemplateRef} {d : Template}
    (hf : f ≠ functionTemplate) (hd : g.template? f = some d) (hts : ∀ t ∈ ts, g.Notes t)
    (hread : ∀ t ∈ ts, g.UniquelyRead t) : g.UniquelyRead (.inst f ts) := by
  intro t' opened cs cs' h' hcs hcs' heq
  have hfront := (Notes.inst hf hd hts).front_eq hg h' heq
  cases h' with
  | terminal hn => exact absurd heq.symm (chars_terminal_ne_inst hg hn hf hd hcs')
  | @inst f' d' ts' hf' hd' hts' =>
    rw [chars_inst opened hf hd, chars_inst opened hf' hd'] at heq
    simp only [List.append_assoc, List.cons_append, List.nil_append] at heq
    obtain ⟨hname, htail⟩ := word_append_inj (hg.template hd).2 (hg.template hd').2
      (by simp [marks]) (by simp [marks]) (List.append_cancel_left heq)
    obtain rfl := hg.template_inj hd hd' (String.toList_inj.mp hname)
    obtain ⟨rfl, rfl⟩ := textAll_inj hg (s := ',') (by simp) (by decide) (by decide) (by decide)
      hts hread hts' (List.cons.inj htail).2
    exact ⟨rfl, rfl⟩
  | _ => simp [Tree.front, hf] at hfront

lemma uniquelyRead_union (hg : g.Legible) (hts : ∀ t ∈ ts, g.Notes t)
    (hread : ∀ t ∈ ts, g.UniquelyRead t) : g.UniquelyRead (.union 0 ts) := by
  intro t' opened cs cs' h' hcs hcs' heq
  have hfront := (Notes.union hts).front_eq hg h' heq
  cases h' with
  | @union ts' hts' =>
    simp only [chars_union, List.append_assoc, List.cons_append, List.nil_append] at heq
    obtain ⟨rfl, rfl⟩ := textAll_inj hg (s := '|') (by simp) (by decide) (by decide) (by decide)
      hts hread hts' (List.cons.inj (List.append_cancel_left heq)).2
    exact ⟨rfl, rfl⟩
  | inst hf => simp [Tree.front, hf] at hfront
  | _ => simp [Tree.front] at hfront

/-- A text of an outline with names from the graph can be read. -/
theorem Notes.uniquelyRead (hg : g.Legible) (h : g.Notes t) : g.UniquelyRead t := by
  induction h with
  | terminal hn => exact uniquelyRead_terminal hg hn
  | placeholder n => exact uniquelyRead_placeholder hg n
  | arrow hparam hresult ih ih' => exact uniquelyRead_arrow hg hparam hresult ih ih'
  | inst hf hd hargs ih => exact uniquelyRead_inst hg hf hd hargs ih
  | union hmembers ih => exact uniquelyRead_union hg hmembers ih

/-- The outline of a resolved tree has names from the graph. -/
lemma notes_outline (hg : g.WellFormed) {d : Template}
    (hfun : g.template? functionTemplate = some d) (harity : d.arity = 2) {r : TypeRef}
    (ρ : TypeRef → TypeRef) (hr : r < g.nodes.size) : g.Notes ((g.resolve r).outline ρ) := by
  induction r using Acyclic.induct hg.closed hg.acyclic with
  | step r ih =>
    obtain ⟨n, hn⟩ := exists_node? hr
    have hchildren : ∀ c ∈ n.children, g.Notes ((g.resolve c).outline ρ) := fun c hc =>
      have hedge := (edge_of_node? hn).mpr hc
      ih c hedge (hg.closed hedge)
    match n, hn with
    | .terminal name, hn =>
      rw [resolve_terminal hn, Tree.outline_terminal]
      exact .terminal hn
    | .var name none, hn =>
      rw [resolve_free hn, Tree.outline_placeholder]
      exact .placeholder _
    | .var name (some b), hn =>
      rw [resolve_of_binding? hg (binding?_eq_some_iff.mpr ⟨name, hn⟩)]
      exact hchildren b (by simp [Node.children])
    | .constraint name, hn =>
      rw [resolve_constraint hn, Tree.outline_placeholder]
      exact .placeholder _
    | .inst f args, hn =>
      rw [resolve_inst hg hn, Tree.outline_inst, List.map_map]
      obtain ⟨d', hd', harity'⟩ := hg.applies hn f args rfl
      have hargs : ∀ u ∈ args.map (Tree.outline ρ ∘ g.resolve), g.Notes u := by
        intro u hu
        obtain ⟨c, hc, rfl⟩ := List.mem_map.mp hu
        exact hchildren c hc
      by_cases hf : f = functionTemplate
      · -- a function type has a parameter and a result
        obtain rfl := hf
        obtain rfl := Option.some.inj (hfun.symm.trans hd')
        obtain ⟨param, result, rfl⟩ := List.length_eq_two.mp (harity'.symm.trans harity)
        exact .arrow (hargs _ (by simp)) (hargs _ (by simp))
      · exact .inst hf hd' hargs
    | .union members, hn =>
      rw [resolve_union hg hn, Tree.outline_union, List.map_map]
      refine .union fun u hu => ?_
      obtain ⟨c, hc, rfl⟩ := List.mem_map.mp hu
      exact hchildren c hc

/-- No free variable with a name can be reached from the type. -/
def Anonymous (g : Graph) (r : TypeRef) : Prop :=
  ∀ v name, g.Reaches r v → g.node? v ≠ some (.var (some name) none)

/-- In a text of an anonymous type alone the labels are the numbers of the placeholders. -/
lemma label_eq_numeral (hg : g.WellFormed) {r : TypeRef} (hr : r < g.nodes.size)
    (hanon : g.Anonymous r) {p : Placeholder} (hp : p ∈ (g.resolve r).placeholders) :
    (({} : Labels).addTree (g.resolve r)).label p.ref =
      numeral ((g.resolve r).number p.ref) := by
  have hfits := (Labels.fits_empty g).addTree fun p hp => shows_of_mem_placeholders hg hr hp
  obtain ⟨l, hl⟩ := Option.isSome_iff_exists.mp
    (Labels.isSome_get?_addTree_iff.mpr (.inr ⟨p, hp, rfl⟩) :
      ((({} : Labels).addTree (g.resolve r)).get? p.ref).isSome)
  obtain ⟨hreach, hflexible, hrigid⟩ := mem_placeholders_resolve hg hr hp
  have hnumbered : ∃ n, g.node? p.ref = some n ∧ n.isNumbered = true := by
    cases hk : p.kind with
    | rigid => exact ⟨_, hrigid hk, rfl⟩
    | flexible =>
      cases hname : p.name with
      | none => exact ⟨_, hflexible hk, by rw [hname]; rfl⟩
      | some name => exact absurd (hname ▸ hflexible hk) (hanon p.ref name hreach)
  obtain ⟨n, hn, hN⟩ := hnumbered
  rw [Labels.label, hl, Option.getD_some, hfits.number hn hN hl]
  rfl

/-- The text of an anonymous type is that of its numbered outline. -/
lemma toList_render (hg : g.WellFormed) {r : TypeRef} (hr : r < g.nodes.size)
    (hanon : g.Anonymous r) :
    (g.render r).toList = g.chars false ((g.resolve r).outline (g.resolve r).number) := by
  rw [chars, Tree.textAfter_outline]
  exact congrArg String.toList (Tree.textAfter_congr (Tree.over_univ _) (fun _ _ => rfl)
    (fun p hp => label_eq_numeral hg hr hanon hp) false)

end Graph

namespace Engine

variable {e : Engine} {a b : TypeRef}

/-- Where names can be told apart, types without named variables have the same text if and only if
their trees are the same up to a renaming of placeholders. -/
theorem render_eq_iff (he : e.Reachable) (hnames : e.graph.Legible) (ha : e.Has a) (hb : e.Has b)
    (hanon : e.graph.Anonymous a) (hanon' : e.graph.Anonymous b) :
    e.render a = e.render b ↔ (e.graph.resolve a).Similar (e.graph.resolve b) := by
  have hg := he.wellFormed.graph
  obtain ⟨d, hd, harity⟩ := he.wellFormed.function
  rw [← Tree.outline_number_eq_iff, ← String.toList_inj, render, render,
    Graph.toList_render hg ha hanon, Graph.toList_render hg hb hanon']
  constructor
  · intro h
    have hnotes := fun {r} (hr : e.Has r) =>
      Graph.notes_outline hg hd harity (e.graph.resolve r).number hr
    have hend : Closes [] := by simp [Closes]
    exact ((hnotes ha).uniquelyRead hnames (hnotes hb) hend hend (congrArg (· ++ []) h)).1
  · intro h
    rw [h]

/-- A function of a variable and a function of a constraint, each in an overload set with its
placeholder, are written alike. -/
theorem render_eq_iff_overloads :
    let e := ((((new {}).addVar none).2.addConstraint none).2.addTerminal "Int").2
    let e := ((e.addFunction [2, 4] 2).2.addFunction [3, 4] 3).2
    let e := ((e.addUnion [6, 2]).2.addUnion [8, 3]).2
    e.render 9 = "\x7b('0, Int) -> '0|'0\x7d" ∧
      (e.graph.resolve 9).Similar (e.graph.resolve 10) := by
  intro e₀ e₁ e
  have he : e.Reachable := by
    refine .next (.next (.next (.next (.next (.next (.next (.new {}) (.addVar _))
      (.addConstraint _)) (.addTerminal _)) (.addFunction ?_ ?_)) (.addFunction ?_ ?_))
      (.addUnion ?_)) (.addUnion ?_)
    all_goals decide
  -- `Int` is the only terminal, and no variable has a name
  let expected : TypeRef → Node → Bool := fun x n =>
    match n with
    | .terminal name => x = 4 && name = "Int"
    | .var name _    => name.isNone
    | _              => true
  have hnode : ∀ {x n}, e.graph.node? x = some n → expected x n = true := by
    have hall : ∀ x < 11, (e.graph.node? x).all (expected x) = true := by decide
    intro x n h
    simpa [h] using hall x (Graph.lt_size_of_node? h)
  have hterminal : ∀ {x name}, e.graph.node? x = some (.terminal name) → x = 4 ∧ name = "Int" :=
    fun h => by simpa [expected] using hnode h
  have htemplate : ∀ {f d}, e.graph.template? f = some d → f = 0 ∧ d.name = "Function" := by
    intro f d h
    obtain ⟨hf, -⟩ := Array.getElem?_eq_some_iff.mp h
    obtain rfl : f = 0 := Nat.lt_one_iff.mp hf
    cases h
    exact ⟨rfl, rfl⟩
  have hnames : e.graph.Legible := by
    constructor
    · intro x name h
      rw [(hterminal h).2]
      exact isWord_of_isAlphanum (by simp) (by simp)
    · intro f d h
      rw [(htemplate h).2]
      exact isWord_of_isAlphanum (by simp) (by simp)
    · intro x y name hx hy
      rw [(hterminal hx).1, (hterminal hy).1]
    · intro f f' d d' h h' _
      rw [(htemplate h).1, (htemplate h').1]
  have hanon : ∀ r, e.graph.Anonymous r := by
    intro r v name _ h
    simpa [expected] using hnode h
  refine ⟨by decide +kernel, (render_eq_iff he hnames ?_ ?_ (hanon 9) (hanon 10)).mp ?_⟩
  all_goals decide +kernel

end Engine

end Unification
