import Unification.Proofs.Collapse.Basic

/-!
# A copy collapses to its source

Copying a type makes a new instance for every place at which the type has one, and a new placeholder
for every placeholder. Each new node stands for the type that it was copied from, and so the graph
with the copy collapses to a graph that has the source: `Source.Unfolds.holds`.
-/

namespace Unification

/-- Where the types of a copy come from, and what the copy takes from there. -/
structure Source where
  /-- The graph that has the source. -/
  graph : Graph
  /-- The types that a copy takes as they are. -/
  kept  : Set TypeRef
  /-- The placeholders that are replaced. -/
  refs  : Set TypeRef
  /-- The first reference of a new node. -/
  start : Nat

namespace Source

variable {S : Source} {m m' : TypeRef → TypeRef} {k k' : Nat} {c i x y z : TypeRef} {d d' : Draft}
  {n : Node} {p : Placeholder} {t : Tree} {V : Set Placeholder}

/-! ### What the new nodes stand for -/

/-- The type `c` of the copy is new or taken as it is, and stands for the type `y` of the source. It
is one of the first `k` types. -/
def StandsFor (S : Source) (m : TypeRef → TypeRef) (k : Nat) (c y : TypeRef) : Prop :=
  c < k ∧ (S.start ≤ c ∨ c ∈ S.kept) ∧ m c = S.graph.rep y

lemma StandsFor.mono (h : S.StandsFor m k c y) (hk : k ≤ k') (hm : ∀ z < k, m' z = m z) :
    S.StandsFor m' k' c y :=
  ⟨h.1.trans_le hk, h.2.1, (hm c h.1).trans h.2.2⟩

/-- What a new node may be. -/
inductive Copies (S : Source) (m : TypeRef → TypeRef) (chosen : Renaming) (x : TypeRef) :
    Node → Prop where
  | flexible {name : Option String} : S.graph.node? (m x) = some (.var name none) →
      chosen.get? (m x) = some x → Copies S m chosen x (.var name none)
  | rigid {name : Option String} : S.graph.node? (m x) = some (.constraint name) →
      chosen.get? (m x) = some x → Copies S m chosen x (.constraint name)
  | inst {f : TemplateRef} {xs ys : List TypeRef} : S.graph.node? (m x) = some (.inst f ys) →
      List.Forall₂ (S.StandsFor m x) xs ys → Copies S m chosen x (.inst f xs)

lemma Copies.mono {chosen chosen' : Renaming} (h : S.Copies m chosen x n)
    (hm : ∀ z ≤ x, m' z = m z)
    (hchosen : ∀ r i, chosen.get? r = some i → chosen'.get? r = some i) :
    S.Copies m' chosen' x n := by
  cases h with
  | flexible hn hget =>
    rw [← hm x le_rfl] at hn hget
    exact .flexible hn (hchosen _ _ hget)
  | rigid hn hget =>
    rw [← hm x le_rfl] at hn hget
    exact .rigid hn (hchosen _ _ hget)
  | inst hn hargs =>
    rw [← hm x le_rfl] at hn
    exact .inst hn (hargs.imp fun _ _ hc => hc.mono le_rfl fun z hz => hm z hz.le)

/-- The new nodes of the draft stand for types of the source, and so do the replacements. -/
structure Unfolds (S : Source) (m : TypeRef → TypeRef) (d : Draft) : Prop where
  le     : S.start ≤ d.graph.nodes.size
  old    : ∀ x < S.start, m x = x
  chosen : ∀ ⦃r i⦄, d.chosen.get? r = some i →
    r ∈ S.refs ∧ S.start ≤ i ∧ i < d.graph.nodes.size ∧ m i = r
  node   : ∀ ⦃x n⦄, S.start ≤ x → d.graph.node? x = some n → S.Copies m d.chosen x n

/-- The draft has grown, and its new nodes stand for types of the source as well. -/
structure UnfoldsTo (S : Source) (m : TypeRef → TypeRef) (d : Draft) (m' : TypeRef → TypeRef)
    (d' : Draft) : Prop where
  size_le : d.graph.nodes.size ≤ d'.graph.nodes.size
  agrees  : ∀ x < d.graph.nodes.size, m' x = m x
  unfolds : S.Unfolds m' d'

lemma UnfoldsTo.refl (h : S.Unfolds m d) : S.UnfoldsTo m d m d :=
  ⟨le_rfl, fun _ _ => rfl, h⟩

/-- A new node is added, which stands for the type `y`. -/
lemma Unfolds.add (h : S.Unfolds m d) (hgraph : d'.graph = (d.graph.add n).2)
    (hkeep : ∀ r i, d.chosen.get? r = some i → d'.chosen.get? r = some i)
    (hchosen : ∀ r i, d'.chosen.get? r = some i →
      d.chosen.get? r = some i ∨ r ∈ S.refs ∧ r = y ∧ i = d.graph.nodes.size)
    (hnode : S.Copies (Function.update m d.graph.nodes.size y) d'.chosen d.graph.nodes.size n) :
    S.UnfoldsTo m d (Function.update m d.graph.nodes.size y) d' := by
  have hlt : d.graph.nodes.size < d'.graph.nodes.size := by
    rw [hgraph, Graph.size_add]
    exact Nat.lt_succ_self _
  have hagrees : ∀ x < d.graph.nodes.size, Function.update m d.graph.nodes.size y x = m x :=
    fun x hx => Function.update_of_ne hx.ne _ _
  refine ⟨hlt.le, hagrees, ⟨h.le.trans hlt.le, ?_, ?_, ?_⟩⟩
  · exact fun x hx => (hagrees x (hx.trans_le h.le)).trans (h.old x hx)
  · intro r i hget
    rcases hchosen r i hget with hget | ⟨hmem, rfl, rfl⟩
    · obtain ⟨hmem, hle, hi, heq⟩ := h.chosen hget
      exact ⟨hmem, hle, hi.trans hlt, (hagrees i hi).trans heq⟩
    · exact ⟨hmem, h.le, hlt, Function.update_self ..⟩
  · intro x nd hx hn
    rw [hgraph, Graph.node?_add] at hn
    split_ifs at hn with heq
    · cases hn
      exact heq ▸ hnode
    · have hold := Graph.lt_size_of_node? hn
      exact (h.node hx hn).mono (fun z hz => hagrees z (hz.trans_lt hold)) hkeep

/-! ### Building a copy -/

/-- The replacement of a placeholder stands for the placeholder. -/
lemma Unfolds.replace (h : S.Unfolds m d) (hp : p.ref ∈ S.refs) (hs : S.graph.WellFormed)
    (hy : y < S.graph.nodes.size) (htree : S.graph.resolve y = .placeholder p) :
    ∃ m', S.UnfoldsTo m d m' (d.replace .copy p).2 ∧
      S.StandsFor m' (d.replace .copy p).2.graph.nodes.size (d.replace .copy p).1 y := by
  have hread := Graph.reads_rep hs hy
  rw [htree] at hread
  rw [Draft.replace]
  cases hget : d.chosen.get? p.ref with
  | some i =>
    obtain ⟨-, hle, hlt, heq⟩ := h.chosen hget
    refine ⟨m, .refl h, hlt, Or.inl hle, ?_⟩
    cases hread with
    | flexible | rigid => exact heq
  | none =>
    cases hrep : Renewal.copy.replacement p with
    | none => exact absurd (Renewal.replacement_eq_none_iff.mp hrep) id
    | some n =>
      have hcopy : ∀ chosen : Renaming, chosen.get? p.ref = some d.graph.nodes.size →
          S.Copies (Function.update m d.graph.nodes.size p.ref) chosen d.graph.nodes.size n := by
        intro chosen hchosen
        cases hread with
        | flexible hn =>
          cases hrep
          exact .flexible (by rwa [Function.update_self]) (by rwa [Function.update_self])
        | rigid hn =>
          cases hrep
          exact .rigid (by rwa [Function.update_self]) (by rwa [Function.update_self])
      refine ⟨Function.update m d.graph.nodes.size p.ref, h.add (n := n) rfl ?_ ?_ ?_, ?_, ?_, ?_⟩
      · intro r i hr
        have hne : r ≠ p.ref := by
          rintro rfl
          simp [hget] at hr
        simpa [Draft.record, Draft.add, Renaming.get?_insert_of_ne _ _ hne] using hr
      · intro r i hr
        by_cases hrp : r = p.ref
        · subst hrp
          simp only [Draft.record, Renaming.get?_insert_self, Option.some.injEq] at hr
          exact Or.inr ⟨hp, rfl, hr.symm⟩
        · left
          simpa [Draft.record, Draft.add, Renaming.get?_insert_of_ne _ _ hrp] using hr
      · exact hcopy _ (by simp [Draft.record, Draft.add])
      · simp [Draft.record, Draft.add]
      · exact Or.inl h.le
      · cases hread with
        | flexible | rigid => exact Function.update_self ..

lemma Unfolds.buildAll (ts : List Tree)
    (build : ∀ t ∈ ts, ∀ m d y, S.Unfolds m d → y < S.graph.nodes.size →
      S.graph.resolve y = t → ∃ m', S.UnfoldsTo m d m' (d.build .copy t).2 ∧
        S.StandsFor m' (d.build .copy t).2.graph.nodes.size (d.build .copy t).1 y)
    (h : S.Unfolds m d) {ys : List TypeRef} (hys : ∀ y ∈ ys, y < S.graph.nodes.size)
    (htrees : ys.map S.graph.resolve = ts) :
    ∃ m', S.UnfoldsTo m d m' (d.buildAll .copy ts).2 ∧
      List.Forall₂ (S.StandsFor m' (d.buildAll .copy ts).2.graph.nodes.size)
        (d.buildAll .copy ts).1 ys := by
  induction ts generalizing m d ys with
  | nil =>
    rw [List.map_eq_nil_iff] at htrees
    subst htrees
    exact ⟨m, .refl h, .nil⟩
  | cons t ts ih =>
    cases ys with
    | nil => simp at htrees
    | cons y ys =>
      obtain ⟨hy, hys⟩ := List.forall_mem_cons.mp hys
      obtain ⟨htree, htrees⟩ := List.cons.inj htrees
      obtain ⟨m₁, h₁, hfirst⟩ := build t (by simp) m d y h hy htree
      obtain ⟨m₂, h₂, hrest⟩ := ih (fun u hu => build u (by simp [hu])) h₁.unfolds hys htrees
      refine ⟨m₂, ⟨h₁.size_le.trans h₂.size_le, fun x hx => ?_, h₂.unfolds⟩, ?_⟩
      · rw [h₂.agrees x (hx.trans_le h₁.size_le), h₁.agrees x hx]
      · exact .cons (hfirst.mono h₂.size_le h₂.agrees) hrest

/-- What is built from the tree of a type stands for the type. -/
lemma Unfolds.build (hs : S.graph.WellFormed) (ht : t.Within S.kept V)
    (hV : ∀ p ∈ V, p.ref ∈ S.refs) (hkept : ∀ x ∈ S.kept, x < S.start) (h : S.Unfolds m d)
    (hy : y < S.graph.nodes.size) (htree : S.graph.resolve y = t) :
    ∃ m', S.UnfoldsTo m d m' (d.build .copy t).2 ∧
      S.StandsFor m' (d.build .copy t).2.graph.nodes.size (d.build .copy t).1 y := by
  have hread := Graph.reads_rep hs hy
  rw [htree] at hread
  induction ht generalizing m d y with
  | terminal hr =>
    rw [Draft.build]
    refine ⟨m, .refl h, (hkept _ hr).trans_le h.le, Or.inr hr, ?_⟩
    rw [h.old _ (hkept _ hr)]
    cases hread
    rfl
  | placeholder hp =>
    rw [Draft.build]
    exact h.replace (hV _ hp) hs hy htree
  | @inst f args hargs ih =>
    rw [Draft.build]
    obtain ⟨ys, hn, htrees⟩ := Graph.node?_rep_of_resolve_eq_inst hs hy htree
    obtain ⟨m₁, h₁, hall⟩ := h.buildAll args
      (fun u hu m d y h hy htree => ih u hu h hy htree (htree ▸ Graph.reads_rep hs hy))
      (fun z hz => hs.child_lt hn hz) htrees
    set d₁ := (d.buildAll .copy args).2
    have hagrees : ∀ x < d₁.graph.nodes.size,
        Function.update m₁ d₁.graph.nodes.size (S.graph.rep y) x = m₁ x := fun x hx =>
      Function.update_of_ne hx.ne _ _
    have hcopy : S.Copies (Function.update m₁ d₁.graph.nodes.size (S.graph.rep y)) d₁.chosen
        d₁.graph.nodes.size (.inst f (d.buildAll .copy args).1) :=
      .inst (by rwa [Function.update_self]) (hall.imp fun _ _ hc => hc.mono le_rfl hagrees)
    have h₂ : S.UnfoldsTo m₁ d₁ _ (d₁.add (.inst f (d.buildAll .copy args).1)).2 :=
      h₁.unfolds.add rfl (fun _ _ hget => hget) (fun _ _ hget => Or.inl hget) hcopy
    refine ⟨_, ⟨h₁.size_le.trans h₂.size_le, fun x hx => ?_, h₂.unfolds⟩, ?_, ?_, ?_⟩
    · rw [h₂.agrees x (hx.trans_le h₁.size_le), h₁.agrees x hx]
    · simp [Draft.add]
    · exact Or.inl h₁.unfolds.le
    · exact Function.update_self ..
  | union hover =>
    have hr := hover.mem_of_union
    rw [Draft.build]
    refine ⟨m, .refl h, (hkept _ hr).trans_le h.le, Or.inr hr, ?_⟩
    rw [h.old _ (hkept _ hr)]
    generalize hunion : Tree.union _ _ = tree at hread
    cases hread with
    | union => exact (Tree.union.inj hunion).1
    | _ => cases hunion

/-- The copy of a type that reads alike in the source stands for the type. -/
theorem exists_unfolds {g : Graph} (hs : S.graph.WellFormed) (hstart : S.start = g.nodes.size)
    (hkept : ∀ x ∈ S.kept, x < S.start) (hy : y < S.graph.nodes.size)
    (hread : S.graph.resolve y = g.resolve y) (hwithin : (g.resolve y).Within S.kept V)
    (hV : ∀ p ∈ V, p.ref ∈ S.refs) :
    ∃ m, S.Unfolds m (Draft.renew .copy { graph := g } y).2 ∧
      S.StandsFor m (g.renew .copy y).2.nodes.size (g.renew .copy y).1 y := by
  have h : S.Unfolds id { graph := g } := by
    refine ⟨hstart.le, fun _ _ => rfl, by simp [Renaming.get?], fun x n hx hn => ?_⟩
    exact absurd (Graph.lt_size_of_node? hn) (Nat.not_lt.mpr (hstart ▸ hx))
  obtain ⟨m, hunfolds, hstands⟩ := h.build hs hwithin hV hkept hy hread
  exact ⟨m, hunfolds.unfolds, hstands⟩

/-! ### The collapse -/

/-- Relates the new types and those that were taken as they are to the types that they stand for. -/
def collapse (S : Source) (C : Set TypeRef) (m : TypeRef → TypeRef) (g : Graph) : Collapse where
  shared := C
  live := {p | S.start ≤ p.ref ∧ g.Shows (.placeholder p)}
  image := m
  pairs x y := y < S.graph.nodes.size ∧ S.StandsFor m g.nodes.size x y

variable {C : Set TypeRef}

/-- A new placeholder stands for a placeholder that looks the same, and which it replaced. -/
lemma Unfolds.shows (h : S.Unfolds m d) (hp : p ∈ (S.collapse C m d.graph).live) :
    S.graph.Shows (.placeholder { p with ref := m p.ref }) ∧
      d.chosen.get? (m p.ref) = some p.ref := by
  obtain ⟨hle, hshow⟩ := hp
  cases hshow with
  | flexible hn =>
    cases h.node hle hn with
    | flexible hn' hget => exact ⟨.flexible hn', hget⟩
  | rigid hn =>
    cases h.node hle hn with
    | rigid hn' hget => exact ⟨.rigid hn', hget⟩

/-- A type and what it stands for read the same up to the references of placeholders. -/
lemma Unfolds.tree (h : S.Unfolds m d) (hd : d.graph.WellFormed) (hs : S.graph.WellFormed)
    (hC : ∀ x ∈ C, S.graph.node? x = d.graph.node? x) (hkept : ∀ x ∈ S.kept, x ∈ C ∧
      x < S.start ∧ ∃ name, S.graph.node? x = some (.terminal name))
    (hx : S.StandsFor m d.graph.nodes.size x y) :
    (d.graph.resolve x).Within C (S.collapse C m d.graph).live ∧
      S.graph.resolve y = (d.graph.resolve x).renumber m := by
  -- what a new node points to is older
  induction x using Nat.strong_induction_on generalizing y with
  | _ x ih =>
    obtain ⟨hlt, hcases, heq⟩ := hx
    rw [← Graph.resolve_rep hs y, ← heq]
    rcases hcases with hle | hmem
    · obtain ⟨n, hn⟩ := Graph.exists_node? hlt
      cases h.node hle hn with
      | flexible hn' =>
        rw [Graph.resolve_free hn, Graph.resolve_free hn', Tree.renumber_placeholder]
        exact ⟨.placeholder ⟨hle, .flexible hn⟩, rfl⟩
      | rigid hn' =>
        rw [Graph.resolve_constraint hn, Graph.resolve_constraint hn', Tree.renumber_placeholder]
        exact ⟨.placeholder ⟨hle, .rigid hn⟩, rfl⟩
      | inst hn' hargs =>
        rw [Graph.resolve_inst hd hn, Graph.resolve_inst hs hn', Tree.renumber_inst, List.map_map]
        have hread := hargs.imp fun c y hc => ih c hc.1 (hc.mono hlt.le fun _ _ => rfl)
        obtain ⟨hwithin, htrees⟩ := (List.forall₂_and_left _ _).mp hread
        refine ⟨.inst fun u hu => ?_, ?_⟩
        · obtain ⟨c, hc, rfl⟩ := List.mem_map.mp hu
          exact hwithin c hc
        · congr 1
          rw [← List.forall₂_eq_eq_eq, List.forall₂_map_left_iff, List.forall₂_map_right_iff]
          exact htrees.flip
    · obtain ⟨hC', hlt', name, hn⟩ := hkept x hmem
      have hn' := (hC x hC').symm.trans hn
      rw [h.old x hlt', Graph.resolve_terminal hn, Graph.resolve_terminal hn',
        Tree.renumber_terminal]
      exact ⟨.terminal hC', rfl⟩

/-- No type of the copy is a bound variable. -/
lemma Unfolds.rep_eq (h : S.Unfolds m d) (hC : ∀ x ∈ C, S.graph.node? x = d.graph.node? x)
    (hkept : ∀ x ∈ S.kept, x ∈ C ∧ x < S.start ∧ ∃ name, S.graph.node? x = some (.terminal name))
    (hx : S.StandsFor m d.graph.nodes.size x y) : d.graph.rep x = x := by
  apply Graph.rep_of_binding?_eq_none
  obtain ⟨hlt, hle | hmem, -⟩ := hx
  · obtain ⟨n, hn⟩ := Graph.exists_node? hlt
    cases h.node hle hn <;> simp [Graph.binding?, hn, Node.binding?]
  · obtain ⟨hx, -, name, hn⟩ := hkept x hmem
    simp [Graph.binding?, (hC x hx).symm.trans hn, Node.binding?]

/-- A graph with a copy collapses to the graph with the source. -/
theorem Unfolds.holds (h : S.Unfolds m d)
    (hshares : Store.Shares C ⟨d.graph, []⟩ ⟨S.graph, []⟩)
    (hsolid : ∀ x ∈ C, d.graph.isFree x = false) (hC : ∀ x ∈ C, x < S.start)
    (hkept : ∀ x ∈ S.kept, x ∈ C ∧ x < S.start ∧ ∃ name, S.graph.node? x = some (.terminal name)) :
    (S.collapse C m d.graph).Holds d.graph S.graph := by
  have hd := hshares.left
  have hs := hshares.right
  have htree := fun x y (hx : S.StandsFor m d.graph.nodes.size x y) =>
    h.tree hd hs hshares.node hkept hx
  have hrep : ∀ {x y}, S.StandsFor m d.graph.nodes.size x y → d.graph.rep x = x := fun hx =>
    h.rep_eq hshares.node hkept hx
  refine ⟨hshares, hsolid, ?_, ?_, ?_, ?_, ?_, ?_, ?_, ?_, ?_⟩
  · rintro _ ⟨p, hp, rfl⟩ _ ⟨q, hq, rfl⟩ heq
    have hpq := (h.shows hp).2
    change m p.ref = m q.ref at heq
    rw [heq, (h.shows hq).2] at hpq
    exact (Option.some.inj hpq).symm
  · rintro _ ⟨p, hp, rfl⟩
    exact ⟨hp.2.ref_lt_size, (h.shows hp).1.ref_lt_size⟩
  · exact fun x y hx => ⟨hx.2.1, hx.1⟩
  · exact fun x y hx => (htree x y hx.2).1
  · exact fun x y hx => (htree x y hx.2).2
  · rintro x y ⟨hy, hx⟩
    rw [hrep hx]
    exact ⟨Graph.rep_lt_size hs hy, hx.1, hx.2.1, by rw [Graph.rep_rep hs, hx.2.2]⟩
  · rintro x y t t' xs ys ⟨-, hlt, hcases, heq⟩ hn hn'
    have hy : S.graph.rep y = y :=
      Graph.rep_of_binding?_eq_none (by simp [Graph.binding?, hn', Node.binding?])
    rcases hcases with hle | hmem
    · cases h.node hle hn with
      | inst hm hargs =>
        rw [heq, hy, hn'] at hm
        cases hm
        have hstand := hargs.imp fun c y hc => hc.mono hlt.le fun _ _ => rfl
        exact ((List.forall₂_and_left _ _).mpr
          ⟨fun y hy => hs.child_lt hn' hy, hstand.flip⟩).flip
    · obtain ⟨hx, -, name, hm⟩ := hkept x hmem
      cases hn.symm.trans ((hshares.node x hx).symm.trans hm)
  · rintro x x' y y' ⟨-, hx⟩ ⟨-, hy⟩ heq
    rw [hrep hx, hrep hy] at heq
    rw [← hx.2.2, ← hy.2.2, heq]
  · rintro x y ⟨-, hx⟩ hmem
    rw [hrep hx] at hmem ⊢
    rw [← hx.2.2, h.old x (hC x hmem)]

/-- All placeholders of a copy are replacements of placeholders of the source. -/
lemma Unfolds.replaced (h : S.Unfolds m d)
    (hholds : (S.collapse C m d.graph).Holds d.graph S.graph)
    (hx : (S.collapse C m d.graph).pairs x y) (hrefs : S.refs = (S.graph.resolve y).outerRefs)
    {σ : TypeRef → TypeRef} (htree : d.graph.resolve x = (S.graph.resolve y).renumber σ)
    (hp : p ∈ (S.collapse C m d.graph).live) : (S.graph.resolve y).Replaced σ m p := by
  obtain ⟨hshow, hget⟩ := h.shows hp
  have hmem := (h.chosen hget).1
  rw [hrefs] at hmem
  obtain ⟨q, hq, href⟩ := hmem
  have hshow' := Graph.shows_of_mem_outerPlaceholders hholds.right hx.1 hq
  obtain rfl := hshow'.placeholder_inj hshow href
  refine ⟨_, hq, ?_, rfl⟩
  -- the replacement of the placeholder is live as well, and it has the same image
  have hlive : { p with ref := σ (m p.ref) } ∈ (S.collapse C m d.graph).live := by
    apply (hholds.within hx).mem
    rw [htree, Tree.outerPlaceholders_renumber]
    exact List.mem_map_of_mem hq
  have himage : m (σ (m p.ref)) = m p.ref := by
    have hback := hholds.tree hx
    rw [htree] at hback
    exact Tree.renumber_renumber_inv hback.symm hq
  have heq : σ (m p.ref) = p.ref := hholds.injOn ⟨_, hlive, rfl⟩ ⟨p, hp, rfl⟩ himage
  rw [heq]

end Source

end Unification
