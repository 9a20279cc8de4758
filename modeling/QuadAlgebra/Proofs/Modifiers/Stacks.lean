import QuadAlgebra.Proofs.Scope.Selections
import QuadAlgebra.Proofs.Updates.Drawing

/-!
# Stacks of operators

Above its pattern, the plan of a selection is a stack: below the result stands one operator after
another, and each feeds the one above it. Stacks are drawn from the top
(`Draft.Stacked.ends_attachAll`, `Draft.Stacked.ends_attachFilters`), and the lowest operator of a
stack is a site for a pattern (`Draft.Stacked.site`).
-/

namespace QuadAlgebra

namespace Draft

/-- A draft that consists of a result and of operators one below the other. -/
structure Stacked (d : Draft) (form : ResultForm) (ops : List (Operator Plan)) : Prop where
  sound : d.Sound
  size : d.size = ops.length + 2
  result : d.graph.operator? 1 = some (.result form)
  operator? : ∀ k : Nat, d.graph.operator? (k + 2) = ops[k]?
  inputs : ∀ id : Nat, d.graph.inputs id =
    if 1 ≤ id ∧ id ≤ ops.length then [⟨id + 1, 0, false⟩] else []
  succeeding : ∀ id : Nat, d.graph.succeeding id =
    if 2 ≤ id ∧ id ≤ ops.length + 1 then [⟨id - 1, 0, false⟩] else []

namespace Stacked

variable {d : Draft} {form : ResultForm} {ops : List (Operator Plan)}

/-- The cursor to the lowest operator, or to the result if there are no others. -/
def bottom (ops : List (Operator Plan)) : Cursor := ⟨ops.length + 1, 0⟩

theorem start (hd : d.graph = .empty) (form : ResultForm) :
    (d.withOperator (.result form)).Stacked form [] := by
  obtain ⟨graph, nextVar, nextSlot, wiring⟩ := d
  obtain rfl : graph = .empty := hd
  refine ⟨(sound_of_empty rfl).withOperator, rfl, rfl, fun k => rfl, fun id => ?_, fun id => ?_⟩
  · rw [if_neg fun h => absurd (Nat.le_trans h.1 h.2) (by decide), Draft.inputs_withOperator]
    exact Graph.inputs_empty id
  · rw [if_neg fun h => absurd (Nat.le_trans h.1 h.2) (by decide)]
    rcases id with _ | _ | id <;> rfl

theorem contains (h : d.Stacked form ops) {id : Nat} (hid : id ≤ ops.length + 1) :
    d.graph.contains id = true := by
  have hsize : d.graph.slots.length = ops.length + 2 := h.size
  exact (h.sound.tidy.live id).2 (hsize ▸ Nat.lt_succ_of_le hid)

/-- One more operator below the lowest one. -/
theorem withOperator (h : d.Stacked form ops) (op : Operator Plan) :
    ((d.withOperator op).withEdge d.size ⟨ops.length + 1, 0, false⟩).Stacked form
      (ops ++ [op]) := by
  have hsize : d.graph.slots.length = ops.length + 2 := h.size
  have hnew : (d.withOperator op).graph.contains d.size = true :=
    (Graph.contains_withOperator _).2 (.inl rfl)
  have htarget : (d.withOperator op).graph.contains (ops.length + 1) = true :=
    (Graph.contains_withOperator _).2 (.inr (h.contains (Nat.le_refl _)))
  have hfree : (d.withOperator op).graph.inputs (ops.length + 1) = [] := by
    rw [Draft.inputs_withOperator, h.inputs, if_neg (by omega)]
  have hnone : ∀ i ∈ (d.withOperator op).graph.inputs (ops.length + 1), i.operand < 0 := by
    rw [hfree]
    exact fun i hi => absurd hi List.not_mem_nil
  have hlength : (ops ++ [op]).length = ops.length + 1 := by simp
  refine ⟨h.sound.withOperator.withEdge hnew htarget hnone (Nat.succ_ne_zero _), ?_, ?_,
    fun k => ?_, fun id => ?_, fun id => ?_⟩
  · rw [Draft.size_withEdge, Draft.size_withOperator, h.size, hlength]
  · rw [Draft.operator?_withEdge, Draft.operator?_withOperator, if_neg, h.result]
    rw [h.size]
    exact fun he => absurd (Nat.succ.inj he) (Nat.succ_ne_zero _).symm
  · rw [Draft.operator?_withEdge, Draft.operator?_withOperator, h.size, h.operator?]
    by_cases hk : k = ops.length
    · subst hk
      rw [if_pos rfl, List.getElem?_concat_length]
    · rw [if_neg fun he => hk (Nat.add_right_cancel he), List.getElem?_append]
      split
      · rfl
      · next hge =>
        have hgt : 1 ≤ k - ops.length := by omega
        rw [List.getElem?_eq_none (by omega), List.getElem?_eq_none (by simpa using hgt)]
  · rw [Draft.inputs_withEdge h.sound.withOperator.tidy hnew htarget hnone, hlength]
    by_cases hid : id = ops.length + 1
    · subst hid
      rw [if_pos rfl, hfree, if_pos (by omega), h.size]
      rfl
    · rw [if_neg hid, Draft.inputs_withOperator, h.inputs]
      by_cases hle : 1 ≤ id ∧ id ≤ ops.length
      · rw [if_pos hle, if_pos (by omega)]
      · rw [if_neg hle, if_neg (by omega)]
  · change ((d.withOperator op).graph.withEdge d.size ⟨ops.length + 1, 0, false⟩).succeeding id = _
    rw [Graph.succeeding_withEdge hnew, hlength]
    change (if id = d.size then (d.graph.withOperator op).succeeding id ++ _
      else (d.graph.withOperator op).succeeding id) = _
    rw [Graph.succeeding_withOperator, h.succeeding, h.size]
    by_cases hid : id = ops.length + 2
    · subst hid
      rw [if_pos rfl, if_neg (by omega), if_pos (by omega)]
      rfl
    · rw [if_neg hid]
      by_cases hle : 2 ≤ id ∧ id ≤ ops.length + 1
      · rw [if_pos hle, if_pos (by omega)]
      · rw [if_neg hle, if_neg (by omega)]

/-! ## Drawing -/

/-- Numbers may be handed out. -/
theorem of_graph_eq {d' : Draft} (h : d.Stacked form ops) (hgraph : d'.graph = d.graph) :
    d'.Stacked form ops := by
  obtain ⟨graph, nextVar, nextSlot, wiring⟩ := d
  obtain ⟨graph', nextVar', nextSlot', wiring'⟩ := d'
  obtain rfl : graph' = graph := hgraph
  exact ⟨⟨h.sound.tidy, h.sound.root, h.sound.inputs_root⟩, h.size, h.result, h.operator?, h.inputs,
    h.succeeding⟩

theorem ends_attach (h : d.Stacked form ops) (op : Operator Plan) :
    ((bottom ops).attach op).Ends d fun c d' =>
      c = bottom (ops ++ [op]) ∧ d'.Stacked form (ops ++ [op]) := by
  intro c d' hrun
  rw [bottom, attach_runOn (h.contains (Nat.le_refl _))] at hrun
  obtain ⟨hc, rfl⟩ := Prod.mk.inj hrun
  obtain rfl := Except.ok.inj hc
  refine ⟨?_, h.withOperator op⟩
  rw [bottom, List.length_append, h.size]
  rfl

theorem ends_attachAll (h : d.Stacked form ops) (more : List (Operator Plan)) :
    ((bottom ops).attachAll more).Ends d fun c d' =>
      c = bottom (ops ++ more) ∧ d'.Stacked form (ops ++ more) := by
  rw [Cursor.attachAll]
  induction more generalizing d ops with
  | nil =>
      rw [List.append_nil]
      exact Edit.ends_pure.2 ⟨rfl, h⟩
  | cons op rest ih =>
      rw [List.foldlM_cons]
      refine (h.ends_attach op).bind fun c d₁ ⟨hc, h₁⟩ => ?_
      subst hc
      have hnext := ih h₁
      rwa [List.append_assoc, List.singleton_append] at hnext

end Stacked

end Draft

/-- A filter with plans for the existence patterns of its condition, which have been drawn aside. -/
def PlannedFilter (condition : Expression) (nested : List (Draw Plan)) (op : Operator Plan) :
    Prop :=
  ∃ (plans : List Plan) (slot : Option FilterSlot) (d d' : Draft),
    (nested.mapM id).runOn d = (.ok plans, d') ∧ op = filterOver condition plans slot

namespace Draft.Stacked

variable {d : Draft} {form : ResultForm} {ops : List (Operator Plan)} {p : Planner}

theorem ends_plansAside {nested : List (Draw Plan)} (hnested : PlansAside nested) :
    (nested.mapM id).Ends d fun _ d' => d'.graph = d.graph := by
  induction nested generalizing d with
  | nil =>
      rw [List.mapM_nil]
      exact Edit.ends_pure.2 rfl
  | cons draw rest ih =>
      rw [List.mapM_cons]
      refine Edit.ends_bind.2 ((hnested draw List.mem_cons_self d).mono fun plan d₁ h₁ => ?_)
      refine Edit.ends_bind.2 ((ih fun draw hdraw =>
        hnested draw (List.mem_cons_of_mem _ hdraw)).mono fun plans d₂ h₂ => ?_)
      exact Edit.ends_pure.2 (h₂.trans h₁)

theorem ends_attachFilter (h : d.Stacked form ops) {condition : Expression}
    {nested : List (Draw Plan)} (hnested : PlansAside nested) :
    (p.attachFilter condition nested (bottom ops)).Ends d fun c d' => ∃ op,
      PlannedFilter condition nested op ∧ c = bottom (ops ++ [op]) ∧
        d'.Stacked form (ops ++ [op]) := by
  intro c d' hrun
  obtain ⟨plans, d₁, hplans, hattach⟩ := attachFilter_eq_ok hrun
  have hgraph := ends_plansAside hnested plans d₁ hplans
  have h₁ : ({ d₁ with nextSlot := d₁.nextSlot + 1 } : Draft).Stacked form ops :=
    h.of_graph_eq hgraph
  exact ⟨_, ⟨plans, _, d, d₁, hplans, rfl⟩, h₁.ends_attach _ c d' hattach⟩

/-- Conditions on groups become filters, the first one on top. -/
theorem ends_attachFilters (h : d.Stacked form ops) {conditions : List Expression}
    {nested : List (List (Draw Plan))} (hnested : PlansAside nested.flatten)
    (hlength : conditions.length = nested.length) :
    ((conditions.zip nested).foldlM (fun c e => p.attachFilter e.1 e.2 c) (bottom ops)).Ends d
      fun c d' => ∃ filters,
        List.Forall₂ (fun (c : Expression × List (Draw Plan)) op => PlannedFilter c.1 c.2 op)
          (conditions.zip nested) filters ∧
          c = bottom (ops ++ filters) ∧ d'.Stacked form (ops ++ filters) := by
  induction conditions generalizing d ops nested with
  | nil =>
      refine Edit.ends_pure.2 ⟨[], .nil, ?_⟩
      rw [List.append_nil]
      exact ⟨rfl, h⟩
  | cons condition rest ih =>
      cases nested with
      | nil => cases hlength
      | cons plans others =>
          rw [List.zip_cons_cons, List.foldlM_cons]
          rw [List.flatten_cons] at hnested
          refine (h.ends_attachFilter fun draw hdraw =>
            hnested draw (List.mem_append_left _ hdraw)).bind fun c d₁ ⟨op, hop, hc, h₁⟩ => ?_
          subst hc
          refine (ih h₁ (fun draw hdraw => hnested draw (List.mem_append_right _ hdraw))
            (Nat.succ.inj hlength)).mono fun c d₂ ⟨filters, hfilters, hc, h₂⟩ => ?_
          rw [List.append_assoc, List.singleton_append] at hc h₂
          exact ⟨op :: filters, .cons hop hfilters, hc, h₂⟩

/-! ## The place of the pattern -/

theorem mem_preceding (h : d.Stacked form ops) {x y : Nat} (hx : x ∈ d.graph.preceding y) :
    1 ≤ y ∧ y ≤ ops.length := by
  have hlinked : d.graph.Linked := h.sound.tidy.both
  obtain ⟨e, he, rfl⟩ := (hlinked x y).1 hx
  rw [h.succeeding] at he
  split at he
  · obtain rfl := List.mem_singleton.1 he
    dsimp only
    omega
  · cases he

/-- A pattern can be planned below the lowest operator. -/
def site (h : d.Stacked form ops) : Site where
  base := d.graph
  target := ops.length + 1
  target_pos := Nat.succ_pos _
  target_lt := by
    have hsize : d.graph.slots.length = ops.length + 2 := h.size
    omega
  live := h.sound.tidy.live
  linked := h.sound.tidy.both
  root := h.sound.root
  root_free := by
    refine ⟨(h.succeeding 0).trans (if_neg (by omega)), List.eq_nil_iff_forall_not_mem.2 ?_⟩
    exact fun x hx => absurd (h.mem_preceding hx).1 (by decide)
  target_free := List.eq_nil_iff_forall_not_mem.2 fun x hx => by
    have := (h.mem_preceding hx).2
    omega
  descending id e he := by
    rw [h.succeeding] at he
    split at he
    · obtain rfl := List.mem_singleton.1 he
      exact Nat.sub_lt (by omega) Nat.one_pos
    · cases he

end Draft.Stacked

end QuadAlgebra
