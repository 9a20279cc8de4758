import QuadAlgebra.Proofs.Plan.Symmetry
import QuadAlgebra.Proofs.Semantics.Bags
import QuadAlgebra.Proofs.Semantics.Production

/-!
# Operators that stand in for another

Several operators may be read in the place of one: for each edge from it there is an edge from each
of them to the same operand (`Graph.standIns`). If together they have its rows, then as bags the
same rows arrive at those that read it (`Graph.deliver_alike`), who emit the same rows as before if
they do not care about the order (`Graph.Produces.of_standIns`).
-/

namespace QuadAlgebra

open List (Perm)

/-! ## Lists without repetitions -/

theorem distinctOf_sublist {α : Type} [BEq α] [LawfulBEq α] (l : List α) :
    (distinctOf l).Sublist l := by
  suffices ∀ seen : List α, ∃ kept : List α, kept.Sublist l ∧
      l.foldl (fun seen a => if seen.contains a then seen else a :: seen) seen =
        kept.reverse ++ seen by
    obtain ⟨kept, hkept, hfold⟩ := this []
    rwa [distinctOf, hfold, List.append_nil, List.reverse_reverse]
  induction l with
  | nil => exact fun seen => ⟨[], .slnil, rfl⟩
  | cons a rest ih =>
      intro seen
      rw [List.foldl_cons]
      split
      · obtain ⟨kept, hkept, hfold⟩ := ih seen
        exact ⟨kept, hkept.cons a, hfold⟩
      · obtain ⟨kept, hkept, hfold⟩ := ih (a :: seen)
        refine ⟨a :: kept, hkept.cons_cons a, ?_⟩
        rw [hfold, List.reverse_cons, List.append_assoc]
        rfl

/-- Ascending lists of the same numbers have the same numbers in the same order without
repetitions. -/
theorem distinctOf_eq_of_ascending {l r : List Nat} (hl : l.Pairwise (· ≤ ·))
    (hr : r.Pairwise (· ≤ ·)) (h : ∀ k, k ∈ l ↔ k ∈ r) : distinctOf l = distinctOf r := by
  refine List.Perm.eq_of_pairwise (fun a b _ _ => Nat.le_antisymm)
    (hl.sublist (distinctOf_sublist l))
    (hr.sublist (distinctOf_sublist r)) ?_
  exact (List.perm_ext_iff_of_nodup (nodup_distinctOf l) (nodup_distinctOf r)).2 fun k => by
    rw [mem_distinctOf, mem_distinctOf, h]

namespace Graph

/-! ## Edges -/

/-- What is read in the place of an input: others in the place of the operator, or just the
input. -/
def standIns (u : OperatorId) (others : List OperatorId) (i : Input) : List Input :=
  if i.source = u then others.map fun s => ⟨s, i.operand, i.feedback⟩ else [i]

section Edges

variable {γ : Type} {g g' : Graph γ} {u x : OperatorId} {others : List OperatorId} {i j : Input}

theorem mem_standIns : j ∈ standIns u others i ↔
    (i = j ∧ i.source ≠ u) ∨ (j.source ∈ others ∧ i = ⟨u, j.operand, j.feedback⟩) := by
  unfold standIns
  split
  · next h =>
    rw [List.mem_map]
    constructor
    · rintro ⟨s, hs, rfl⟩
      exact .inr ⟨hs, by rw [← h]⟩
    · rintro (⟨-, hne⟩ | ⟨hs, rfl⟩)
      · exact absurd h hne
      · exact ⟨_, hs, rfl⟩
  · next h =>
    rw [List.mem_singleton]
    constructor
    · exact fun hj => .inl ⟨hj.symm, h⟩
    · rintro (⟨hij, -⟩ | ⟨-, rfl⟩)
      · exact hij.symm
      · exact absurd rfl h

theorem ascending_inputs (t : OperatorId) : ((g.inputs t).map Input.operand).Pairwise (· ≤ ·) :=
  List.pairwise_map.2 (pairwise_stableSort Input.operand _)

/-- If just the edges of an operator have been replaced, its inputs are the former ones, with others
in the place of the operator. -/
theorem inputs_perm_standIns (h : g.Symmetric) (h' : g'.Symmetric) (hnodup : others.Nodup)
    (hreads : ∀ j, g'.Reads x j ↔ (g.Reads x j ∧ j.source ≠ u) ∨
      (j.source ∈ others ∧ g.Reads x ⟨u, j.operand, j.feedback⟩))
    (hfresh : ∀ s ∈ others, ∀ k f, g.Reads x ⟨u, k, f⟩ → ¬ g.Reads x ⟨s, k, f⟩) :
    (g'.inputs x).Perm ((g.inputs x).flatMap (standIns u others)) := by
  refine (List.perm_ext_iff_of_nodup (h'.inputs_spec x).1
    (List.nodup_flatMap.2 ⟨fun i _ => ?_, ?_⟩)).2
    fun j => ?_
  · unfold standIns
    split
    · exact hnodup.map fun s t hst => (Input.mk.inj hst).1
    · exact List.nodup_singleton i
  · -- an edge that stands in has not been there before
    refine (h.inputs_spec x).1.imp_of_mem fun {i j} hi hj hne l hli hlj => ?_
    have hi := h.linked.mem_inputs.1 hi
    have hj := h.linked.mem_inputs.1 hj
    rw [mem_standIns] at hli hlj
    rcases hli with ⟨rfl, hiu⟩ | ⟨hl, rfl⟩
    · rcases hlj with ⟨rfl, -⟩ | ⟨hl, rfl⟩
      · exact hne rfl
      · exact hfresh _ hl _ _ hj hi
    · rcases hlj with ⟨rfl, -⟩ | ⟨-, rfl⟩
      · exact hfresh _ hl _ _ hi hj
      · exact hne rfl
  · rw [h'.linked.mem_inputs, List.mem_flatMap]
    refine (hreads j).trans ?_
    simp only [mem_standIns, h.linked.mem_inputs]
    constructor
    · rintro (⟨hj, hu⟩ | ⟨hs, hj⟩)
      · exact ⟨j, hj, .inl ⟨rfl, hu⟩⟩
      · exact ⟨_, hj, .inr ⟨hs, rfl⟩⟩
    · rintro ⟨i, hi, ⟨rfl, hu⟩ | ⟨hs, rfl⟩⟩
      · exact .inl ⟨hi, hu⟩
      · exact .inr ⟨hs, hi⟩

/-- As bags, the same rows arrive on the same operands if every input is replaced by inputs on the
same operand that together deliver its rows. -/
theorem deliver_alike {y : OperatorId} {f : Input → List Input}
    (hinputs : (g'.inputs y).Perm ((g.inputs x).flatMap f))
    (hoperand : ∀ i ∈ g.inputs x, ∀ j ∈ f i, j.operand = i.operand)
    (hsome : ∀ i ∈ g.inputs x, f i ≠ []) {read read' : Input → List Row}
    (hread : ∀ i ∈ g.inputs x, (read i).Perm ((f i).flatMap read')) :
    (g.deliver read x).Alike (g'.deliver read' y) := by
  have hkeys : distinctOf ((g.inputs x).map Input.operand) =
      distinctOf ((g'.inputs y).map Input.operand) := by
    refine distinctOf_eq_of_ascending (ascending_inputs x) (ascending_inputs y) fun k => ?_
    rw [(hinputs.map _).mem_iff, List.mem_map, List.mem_map]
    constructor
    · rintro ⟨i, hi, rfl⟩
      obtain ⟨j, hj⟩ := List.exists_mem_of_ne_nil _ (hsome i hi)
      exact ⟨j, List.mem_flatMap.2 ⟨i, hi, hj⟩, hoperand i hi j hj⟩
    · rintro ⟨j, hj, rfl⟩
      obtain ⟨i, hi, hj⟩ := List.mem_flatMap.1 hj
      exact ⟨i, hi, (hoperand i hi j hj).symm⟩
  have hgroup (k : Nat) : (((g.inputs x).filter (·.operand == k)).flatMap read).Perm
      (((g'.inputs y).filter (·.operand == k)).flatMap read') := by
    have hfilter : ((g.inputs x).flatMap f).filter (·.operand == k) =
        ((g.inputs x).filter (·.operand == k)).flatMap f :=
      filter_flatMap_of_forall fun i hi j hj => by rw [hoperand i hi j hj]
    refine Perm.trans ?_ ((hfilter ▸ hinputs.filter _).symm.flatMap_right read')
    rw [List.flatMap_assoc]
    exact Perm.flatMap_left _ fun i hi => hread i (List.mem_filter.1 hi).1
  simp only [deliver, operandGroups, hkeys, List.map_map, Operands.Alike, List.forall₂_map_left_iff,
    List.forall₂_map_right_iff, List.forall₂_same]
  exact fun k _ => ⟨rfl, hgroup k⟩

theorem mem_standIns_operand (h : j ∈ standIns u others i) : j.operand = i.operand := by
  rcases mem_standIns.1 h with ⟨rfl, -⟩ | ⟨-, rfl⟩ <;> rfl

theorem standIns_ne_nil (h : others ≠ []) : standIns u others i ≠ [] := by
  unfold standIns
  split
  · simpa using h
  · exact List.cons_ne_nil _ _

end Edges

/-! ## Rows -/

/-- An operator that does not care about the order of rows produces the same rows where others,
which have the same rows together, stand in for one that it has read. -/
theorem Produces.of_standIns {G G' : Graph Plan} {src : Source} {limit : Nat} {u x : OperatorId}
    {others : List OperatorId} {op : Operator Plan} {rows : List Row}
    (h : G.Produces src limit x rows) (hop : G.operator? x = some op)
    (hop' : G'.operator? x = some op) (horder : op.IgnoresOrder)
    (hinputs : (G'.inputs x).Perm ((G.inputs x).flatMap (standIns u others))) (hsome : others ≠ [])
    (hforward : ∀ j ∈ G'.inputs x, j.feedback = false)
    (hproduces : ∀ j ∈ G'.inputs x, ∃ rows, G'.Produces src limit j.source rows)
    (hread : ∀ i ∈ G.inputs x, (G.produced src limit i.source).Perm
      ((standIns u others i).flatMap fun j => G'.produced src limit j.source)) :
    ∃ rows', G'.Produces src limit x rows' ∧ rows.Perm rows' := by
  have halike := deliver_alike hinputs (fun _ _ _ hj => mem_standIns_operand hj)
    (fun _ _ => standIns_ne_nil hsome) hread
  have hopened : (op.opened src limit).IgnoresOrder :=
    (Operator.ignoresOrder_withNested op _).2 horder
  obtain ⟨rows', hemit, hperm⟩ := Operator.emit_perm hopened src halike _ (h.emit_eq hop)
  refine ⟨rows', .emits _ hop' hforward (fun j hj => ?_) hemit, hperm⟩
  obtain ⟨rows, hrows⟩ := hproduces j hj
  exact hrows.produced_eq.symm ▸ hrows

end Graph

end QuadAlgebra
