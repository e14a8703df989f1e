import Unification.Proofs.Labelling

/-!
# Writing in one pass

The text of a type is defined in two steps: the tree is labelled, and then it is spelled with the
finished table. Here the two are done in one pass from left to right. A placeholder gets its label
when the writer comes to it, and the parameters of a curried function are gathered first and then
written like any other list. Both ways give the same text and leave the same table:
`Graph.renderIn_eq_write`.
-/

namespace Unification

namespace Tree

/-! ### Curried functions -/

/-- The parameters of a curried function type. Other types have none. -/
def params : Tree → List Tree
  | inst f [input, output] => if f = functionTemplate then input :: params output else []
  | _                      => []

/-- What is left of a curried function type without its parameters. -/
def result : Tree → Tree
  | inst f [input, output] =>
    if f = functionTemplate then result output else inst f [input, output]
  | t                      => t

@[simp]
lemma params_arrow (input output : Tree) :
    (inst functionTemplate [input, output]).params = input :: output.params := by
  rw [params, if_pos rfl]

@[simp]
lemma result_arrow (input output : Tree) :
    (inst functionTemplate [input, output]).result = output.result := by
  rw [result, if_pos rfl]

/-- Induction along a curried function: on the output, down to a type without parameters. -/
lemma arrow_induct {P : Tree → Prop}
    (arrow : ∀ input output, P output → P (inst functionTemplate [input, output]))
    (other : ∀ t : Tree, t.params = [] → t.result = t → P t) (t : Tree) : P t := by
  induction t using params.induct with
  | case1 input output ih => exact arrow input output ih
  | case2 f input output hf => exact other _ (by rw [params, if_neg hf]) (by rw [result, if_neg hf])
  | case3 t ht => exact other t (by rw [params]; exact ht) (by rw [result]; exact ht)

lemma sizeOf_params_le (t : Tree) : sizeOf t.params ≤ sizeOf t := by
  induction t using arrow_induct with
  | arrow input output ih =>
    simp only [params_arrow, inst.sizeOf_spec, List.cons.sizeOf_spec]
    omega
  | other t hparams _ =>
    rw [hparams]
    cases t <;> simp <;> omega

lemma sizeOf_result_le (t : Tree) : sizeOf t.result ≤ sizeOf t := by
  induction t using arrow_induct with
  | arrow input output ih =>
    simp only [result_arrow, inst.sizeOf_spec, List.cons.sizeOf_spec]
    omega
  | other t _ hresult => rw [hresult]

/-- What a function type is written from is smaller than the type. -/
lemma sizeOf_arrow_lt {f : TemplateRef} {args : List Tree}
    (h : f = functionTemplate ∧ args.length = 2) :
    sizeOf (inst f args).params < sizeOf (inst f args) ∧
      sizeOf (inst f args).result < sizeOf (inst f args) := by
  obtain ⟨rfl, hlength⟩ := h
  obtain ⟨input, output, rfl⟩ := List.length_eq_two.mp hlength
  have hparams := sizeOf_params_le output
  have hresult := sizeOf_result_le output
  simp only [params_arrow, result_arrow, inst.sizeOf_spec, List.cons.sizeOf_spec]
  omega

/-! ### The writer -/

section

variable (names : TemplateRef → String)

mutual

/-- Writes a tree, and labels its placeholders on the way. -/
def write (ls : Labels) : Tree → String × Labels
  | terminal _ name => (name, ls)
  | placeholder p   => ((ls.add p).label p.ref, ls.add p)
  | inst f args     =>
    if f = functionTemplate ∧ args.length = 2 then
      let list := writeAll ", " ls (inst f args).params
      let output := write list.2 (inst f args).result
      ("(" ++ list.1 ++ ") -> " ++ output.1, output.2)
    else
      let list := writeAll ", " ls args
      (names f ++ "<" ++ list.1 ++ ">", list.2)
  | union _ members =>
    let list := writeAll "|" ls members
    ("\x7b" ++ list.1 ++ "\x7d", list.2)
termination_by t => sizeOf t
decreasing_by
  · exact (sizeOf_arrow_lt ‹_›).1
  · exact (sizeOf_arrow_lt ‹_›).2
  · simp +arith
  · simp +arith

/-- Writes several trees with a separator between them. -/
def writeAll (separator : String) (ls : Labels) : List Tree → String × Labels
  | []      => ("", ls)
  | [t]     => write ls t
  | t :: ts =>
    let first := write ls t
    let rest := writeAll separator first.2 ts
    (first.1 ++ separator ++ rest.1, rest.2)
termination_by ts => sizeOf ts

end

end

variable {names : TemplateRef → String} {label : TypeRef → String} {t : Tree} {ts : List Tree}

lemma writeAll_cons_cons (separator : String) (ls : Labels) (x y : Tree) (ts : List Tree) :
    writeAll names separator ls (x :: y :: ts) =
      ((x.write names ls).1 ++ separator ++
          (writeAll names separator (x.write names ls).2 (y :: ts)).1,
        (writeAll names separator (x.write names ls).2 (y :: ts)).2) := by
  rw [writeAll]
  simp

/-! ### Texts of curried functions -/

lemma textAll_cons_cons (separator : String) (x y : Tree) (ts : List Tree) :
    textAll names label separator (x :: y :: ts) =
      x.text names label ++ separator ++ textAll names label separator (y :: ts) := by
  rw [textAll, text]
  simp

/-- A type without parameters closes the list of parameters in front of it. -/
lemma textAfter_of_params_eq_nil (h : t.params = []) :
    t.textAfter names label true = ") -> " ++ t.text names label := by
  cases t with
  | terminal r name => simp [text, textAfter]
  | placeholder p => simp [text, textAfter]
  | union r members => simp only [text, textAfter, if_true, Bool.false_eq_true, if_false,
      String.empty_append, String.append_assoc]
  | inst f args =>
    have hf : ¬ (f = functionTemplate ∧ args.length = 2) := by
      rintro ⟨rfl, hlength⟩
      obtain ⟨input, output, rfl⟩ := List.length_eq_two.mp hlength
      simp at h
    simp [text, textAfter, hf, String.append_assoc]

/-- A parameter and the output after it are written as a list of parameters and a result. -/
lemma text_append_textAfter (x t : Tree) :
    x.text names label ++ t.textAfter names label true =
      textAll names label ", " (x :: t.params) ++ ") -> " ++ t.result.text names label := by
  induction t using arrow_induct generalizing x with
  | arrow input output ih =>
    have htext : (inst functionTemplate [input, output]).textAfter names label true =
        ", " ++ (input.text names label ++ output.textAfter names label true) := by
      simp [text, textAfter, textArrow, String.append_assoc]
    rw [htext, ih, params_arrow, result_arrow, textAll_cons_cons]
    simp only [String.append_assoc]
  | other t hparams hresult =>
    rw [textAfter_of_params_eq_nil hparams, hparams, hresult, textAll, ← String.append_assoc, text]

/-- A function type is written as the list of its parameters and its result. -/
lemma text_arrow {f : TemplateRef} (h : f = functionTemplate ∧ ts.length = 2) :
    (inst f ts).text names label = "(" ++ textAll names label ", " (inst f ts).params ++ ") -> " ++
      (inst f ts).result.text names label := by
  obtain ⟨rfl, hlength⟩ := h
  obtain ⟨input, output, rfl⟩ := List.length_eq_two.mp hlength
  have htext : (inst functionTemplate [input, output]).text names label =
      "(" ++ (input.text names label ++ output.textAfter names label true) := by
    simp [text, textAfter, textArrow, String.append_assoc]
  rw [htext, text_append_textAfter, params_arrow, result_arrow]
  simp only [String.append_assoc]

end Tree

/-! ### One pass and two -/

namespace Labels

variable {ls : Labels} {t : Tree} {ts : List Tree}

/-- Labels the placeholders of several trees, from left to right. -/
def addAll (ls : Labels) (ts : List Tree) : Labels :=
  (Tree.placeholdersAll ts).foldl add ls

@[simp]
lemma addAll_nil (ls : Labels) : ls.addAll [] = ls :=
  rfl

@[simp]
lemma addAll_cons (ls : Labels) (t : Tree) (ts : List Tree) :
    ls.addAll (t :: ts) = (ls.addTree t).addAll ts := by
  rw [addAll, Tree.placeholdersAll, List.foldl_append, addAll, addTree]

lemma addTree_inst {f : TemplateRef} : ls.addTree (.inst f ts) = ls.addAll ts := by
  rw [addTree, Tree.placeholders, addAll]

lemma addTree_union {r : TypeRef} : ls.addTree (.union r ts) = ls.addAll ts := by
  rw [addTree, Tree.placeholders, addAll]

/-- The placeholders of a curried function are labelled in its parameters and then in its result. -/
lemma addTree_eq_params (ls : Labels) (t : Tree) :
    ls.addTree t = (ls.addAll t.params).addTree t.result := by
  induction t using Tree.arrow_induct generalizing ls with
  | arrow input output ih =>
    rw [Tree.params_arrow, Tree.result_arrow, addAll_cons, ← ih, addTree_inst, addAll_cons,
      addAll_cons, addAll_nil]
  | other t hparams hresult => rw [hparams, hresult, addAll_nil]

end Labels

namespace Tree

variable {names : TemplateRef → String} {ls : Labels} {t : Tree}

/-- A tree whose placeholders have labels is written in the same words ever after. -/
lemma text_foldl_add (ps : List Placeholder) (h : ∀ p ∈ t.placeholders, (ls.get? p.ref).isSome) :
    t.text names (ps.foldl Labels.add ls).label = t.text names ls.label := by
  refine textAfter_congr t.over_univ (fun _ _ => rfl) (fun p hp => ?_) false
  obtain ⟨l, hl⟩ := Option.isSome_iff_exists.mp (h p hp)
  rw [Labels.label, Labels.label, hl, Labels.get?_foldl_add hl]

/-- What is labelled later does not change the text of a tree. -/
lemma text_addAll (ls : Labels) (t : Tree) (ts : List Tree) :
    t.text names ((ls.addTree t).addAll ts).label = t.text names (ls.addTree t).label :=
  text_foldl_add _ fun p hp => Labels.isSome_get?_addTree_iff.mpr (.inr ⟨p, hp, rfl⟩)

/-- Nor does it change the texts of several trees. -/
lemma textAll_addTree (separator : String) (ls : Labels) (ts : List Tree) (t : Tree) :
    textAll names ((ls.addAll ts).addTree t).label separator ts =
      textAll names (ls.addAll ts).label separator ts := by
  have htext : ∀ u ∈ ts,
      u.text names ((ls.addAll ts).addTree t).label = u.text names (ls.addAll ts).label := by
    intro u hu
    refine text_foldl_add _ fun p hp => Labels.isSome_get?_foldl_add_iff.mpr (.inr ⟨p, ?_, rfl⟩)
    exact mem_placeholdersAll.mpr ⟨u, hu, hp⟩
  simpa using textAll_map (f := id) separator htext

mutual

/-- Writing a tree in one pass gives the text that it has when it is labelled first, and the same
table. -/
theorem write_eq (ls : Labels) (t : Tree) :
    t.write names ls = (t.text names (ls.addTree t).label, ls.addTree t) := by
  match t with
  | terminal r name => simp [write, text, textAfter, Labels.addTree, placeholders]
  | placeholder p => simp [write, text, textAfter, Labels.addTree, placeholders]
  | union r members =>
    rw [write, writeAll_eq, Labels.addTree_union]
    simp [text, textAfter]
  | inst f args =>
    rw [write]
    split_ifs with hf
    · -- the parameters keep their labels while the result is written
      have hparams := writeAll_eq ", " ls (inst f args).params
      have hresult := write_eq (ls.addAll (inst f args).params) (inst f args).result
      rw [text_arrow hf, Labels.addTree_eq_params, textAll_addTree]
      simp only [hparams, hresult]
    · rw [writeAll_eq, Labels.addTree_inst]
      simp [text, textAfter, hf]
termination_by sizeOf t
decreasing_by
  · simp +arith
  · exact (sizeOf_arrow_lt ‹_›).1
  · exact (sizeOf_arrow_lt ‹_›).2
  · simp +arith

/-- The same holds of several trees. -/
theorem writeAll_eq (separator : String) (ls : Labels) (ts : List Tree) :
    writeAll names separator ls ts =
      (textAll names (ls.addAll ts).label separator ts, ls.addAll ts) := by
  match ts with
  | [] => simp [writeAll, textAll, Labels.addAll, placeholdersAll]
  | [t] =>
    rw [writeAll, write_eq, Labels.addAll_cons, Labels.addAll_nil, textAll, text]
  | t :: u :: ts =>
    rw [writeAll_cons_cons, write_eq, writeAll_eq, textAll_cons_cons, Labels.addAll_cons ls,
      text_addAll]
termination_by sizeOf ts

end

end Tree

/-- The text of a type and the labels that it needs are those of the one-pass writer. -/
theorem Graph.renderIn_eq_write (g : Graph) (ls : Labels) (r : TypeRef) :
    g.renderIn ls r = (g.resolve r).write g.templateName ls := by
  rw [Tree.write_eq, renderIn]

end Unification
