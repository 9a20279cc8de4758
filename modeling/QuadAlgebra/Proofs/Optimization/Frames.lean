import QuadAlgebra.Proofs.Optimization.Matches
import QuadAlgebra.Proofs.Plan.Symmetry

/-!
# What rules leave alone

The steps of a rule change the inputs of few operators. `Graph.Spares` says that an operator reads
the same edges in the same order after some steps. A rule that takes an operator out of its place
changes the inputs of those that read it, and hardly anything else: there is one lemma for each rule
that moves operators. Every rule keeps symmetric graphs symmetric
(`Workspace.keptBySteps_symmetric`).
-/

namespace QuadAlgebra

/-! ## Symmetric graphs -/

namespace Graph

variable {γ : Type}

/-- No edit records an edge a second time. -/
theorem keptByEdits_single : KeptByEdits (fun _ => True) (Single (γ := γ)) where
  handedDown := Operator.handedDown_true
  only _ _ _ _ _ := trivial
  withOperator _ _ _ h x := by
    rw [succeeding_withOperator]
    exact h x
  connect _ _ := connect_keeps_single
  disconnect _ _ := disconnect_keeps_single
  remove _ := remove_keeps_single
  setOperator _ _ _ _ h := ends_setOperator_of fun _ x => by
    rw [succeeding_mapNode_operator]
    exact h x
  updateVariables _ h _ _ hrun x := (updateVariables_eq_ok hrun).2.succeeding x ▸ h x

theorem symmetric_iff {g : Graph γ} : g.Symmetric ↔ g.Balanced ∧ g.Single :=
  ⟨fun h => ⟨h.balanced, h.nodup⟩, fun h => ⟨h.1, h.2⟩⟩

end Graph

/-- No step of a rule makes the two sides of an edge disagree. -/
theorem Workspace.keptBySteps_symmetric {γ : Type} :
    Reshape.KeptBySteps (fun _ => True) fun w : Workspace γ => w.graph.Symmetric := by
  have hboth := (Graph.keptByEdits_balanced.and (Graph.keptByEdits_single (γ := γ))).toSteps
  simpa only [← Graph.symmetric_iff] using hboth

/-! ## Inputs that stay -/

namespace Graph

variable {γ : Type} {g g' : Graph γ} {x id s t : OperatorId}

/-- The operator reads the same edges in the same order in the second graph, which has no fewer
slots. -/
structure Spares (x : OperatorId) (g g' : Graph γ) : Prop where
  preceding : g'.preceding x = g.preceding x
  edges : ∀ s, g'.edgesBetween s x = g.edgesBetween s x
  length : g.slots.length ≤ g'.slots.length

namespace Spares

theorem refl : g.Spares x g := ⟨rfl, fun _ => rfl, le_rfl⟩

theorem trans {g'' : Graph γ} (h : g.Spares x g') (h' : g'.Spares x g'') :
    g.Spares x g'' :=
  ⟨h'.preceding.trans h.preceding, fun s => (h'.edges s).trans (h.edges s),
    h.length.trans h'.length⟩

/-- An operator that is spared has the inputs that it had. -/
theorem inputs (h : g.Spares x g') : g'.inputs x = g.inputs x := by
  rw [Graph.inputs, Graph.inputs, h.preceding]
  simp only [h.edges]

/-- Only the edges matter to who is spared. -/
theorem of_succeeding (hpreceding : g'.preceding x = g.preceding x)
    (hsucceeding : ∀ s, g'.succeeding s = g.succeeding s)
    (hlength : g.slots.length ≤ g'.slots.length) : g.Spares x g' :=
  ⟨hpreceding, fun s => by rw [edgesBetween, edgesBetween, hsucceeding], hlength⟩

/-- A new operator reads nothing, and nobody reads it. -/
theorem withOperator (op : Operator γ) : g.Spares x (g.withOperator op) :=
  of_succeeding (preceding_withOperator x) succeeding_withOperator (by simp)

/-- An edge to another operator spares this one. -/
theorem withEdge {e : Edge} (hs : g.contains s = true) (ht : g.contains e.target = true)
    (hx : e.target ≠ x) : g.Spares x (g.withEdge s e) := by
  refine ⟨?_, fun y => ?_, by simp⟩
  · rw [preceding_withEdge ht, if_neg hx.symm]
  · rw [edgesBetween, edgesBetween, succeeding_withEdge hs]
    split
    · rw [List.filter_append, List.filter_cons_of_neg (by simpa using hx), List.filter_nil,
        List.append_nil]
    · rfl

/-- To cut edges to another operator spares this one. -/
theorem cut (hx : t ≠ x) : g.Spares x (g.cut s t) := by
  refine ⟨?_, fun y => ?_, by simp [Graph.cut]⟩
  · rw [preceding_cut, if_neg hx.symm]
  · rw [edgesBetween, edgesBetween, succeeding_cut]
    split
    · rw [List.filter_filter]
      refine congrArg _ (List.filter_congr fun e _ => ?_)
      by_cases he : e.target = x
      · simp [he, hx.symm]
      · simp [he]
    · rfl

theorem setOperator (op : Operator γ) :
    g.Spares x (g.mapNode id fun n => { n with operator := op }) :=
  of_succeeding (preceding_mapNode_operator x) succeeding_mapNode_operator (by simp)

/-- Emptying a slot that the operator does not read from. -/
theorem emptied (hx : x ≠ id) (hid : g.edgesBetween id x = []) :
    g.Spares x (⟨g.slots.set id none⟩ : Graph γ) where
  preceding := by
    rw [Graph.preceding, node?_emptied, if_neg hx]
    rfl
  edges s := by
    by_cases hs : s = id
    · subst hs
      rw [hid, edgesBetween, succeeding, node?_emptied, if_pos rfl]
      rfl
    · rw [edgesBetween, edgesBetween, succeeding, node?_emptied, if_neg hs]
      rfl
  length := by simp

end Spares

/-- Connecting others spares an operator. -/
theorem connect_spares (operand : Nat) (feedback : Bool) (hx : t ≠ x) :
    (connect s t operand feedback).Ends g fun _ g' => g.Spares x g' :=
  ends_connect_of (fun _ _ _ => .refl) fun hs ht _ => .withEdge hs ht hx

/-- Disconnecting others spares an operator. -/
theorem disconnect_spares (hx : t ≠ x) :
    (disconnect s t).Ends g fun _ g' => g.Spares x g' :=
  ends_disconnect_cut (.cut hx)

instance (x : OperatorId) : IsPreorder (Graph γ) (Spares x) where
  refl _ := .refl
  trans _ _ _ := .trans

/-- A removal changes the inputs of those that read the operator. -/
theorem remove_spares (hx : x ≠ id) (hid : g.edgesBetween id x = []) :
    (remove id).Ends g fun _ g' => g.Spares x g' := by
  unfold remove
  refine Edit.ends_ite (fun _ => Edit.ends_bind.2 Edit.ends_fault) fun _ => ?_
  refine Edit.ends_bind.2 (ends_require.2 fun n hn => ?_)
  have htarget (e : Edge) (he : e ∈ n.succeeding) : e.target ≠ x := by
    rintro rfl
    refine edgesBetween_ne_nil.2 ⟨e, ?_, rfl⟩ hid
    simpa [succeeding, hn] using he
  refine (Edit.ends_forM (Spares x) fun s _ g' _ => disconnect_spares hx.symm).bind
    fun _ g₁ h₁ => ?_
  refine (Edit.ends_forM (Spares x) fun e he g' _ => disconnect_spares (htarget e he)).bind
    fun _ g₂ h₂ => ?_
  refine Edit.ends_bind.2 (Edit.ends_modify.2 (Edit.ends_pure.2 ?_))
  have h₂ := h₁.trans h₂
  exact h₂.trans (.emptied hx ((h₂.edges id).trans hid))

theorem setOperator_spares (op : Operator γ) :
    (setOperator id op).Ends g fun _ g' => g.Spares x g' :=
  ends_setOperator_of fun _ => .setOperator op

end Graph

/-! ## Steps of workspaces -/

/-- The graph of the workspace spares the operator. -/
def Workspace.Spares {γ : Type} (x : OperatorId) (w w' : Workspace γ) : Prop :=
  w.graph.Spares x w'.graph

instance {γ : Type} (x : OperatorId) : IsPreorder (Workspace γ) (Workspace.Spares x) where
  refl _ := .refl
  trans _ _ _ := .trans

namespace Reshape

open Edit

variable {γ : Type} {w : Workspace γ} {x id s t below : OperatorId}

theorem connect_spares (operand : Nat) (feedback : Bool) (hx : t ≠ x) :
    (connect s t operand feedback).Ends w fun _ w' => w.Spares x w' := by
  unfold connect onGraph
  exact ends_within.2 (Graph.connect_spares operand feedback hx)

theorem disconnect_spares (hx : t ≠ x) : (disconnect s t).Ends w fun _ w' => w.Spares x w' := by
  unfold disconnect onGraph
  exact ends_within.2 (Graph.disconnect_spares hx)

/-- Removing an operator that one does not read spares it. -/
theorem remove_spares (hx : x ≠ id) (hid : w.graph.edgesBetween id x = []) :
    (remove id).Ends w fun _ w' => w.Spares x w' := by
  unfold remove onGraph onIndex
  exact ends_bind.2
    (ends_within.2 ((Graph.remove_spares hx hid).mono fun _ _ h => ends_modify.2 h))

theorem replaceOperator_spares (op : Operator γ) :
    (replaceOperator id op).Ends w fun _ w' => w.Spares x w' := by
  unfold replaceOperator onGraph onIndex
  refine ends_bind.2 (ends_operator.2 fun _ _ => ends_bind.2 (ends_within.2 ?_))
  exact (Graph.setOperator_spares op).mono fun _ _ h => ends_modify.2 h

/-- Edges to other operators are moved. -/
theorem feedAll_spares {edges : List Edge} (hx : ∀ e ∈ edges, e.target ≠ x) :
    (feedAll s edges).Ends w fun _ w' => w.Spares x w' :=
  ends_forM (Workspace.Spares x) fun e he _ _ => connect_spares e.operand e.feedback (hx e he)

/-- The operators that are there already are not the new one. -/
theorem add_spares_of_lt (op : Operator γ) (hx : x < w.graph.slots.length) :
    (add op).Ends w fun n w' => w.Spares x w' ∧ n ≠ x := by
  unfold add onGraph onIndex Graph.add
  simp only [ends_bind, ends_within, ends_get, ends_set, ends_modify, ends_pure]
  exact ⟨.withOperator op, Nat.ne_of_gt hx⟩

/-- A new operator above another one is none of those that were there. -/
theorem above_spares (op : Operator γ) (hx : x < w.graph.slots.length) :
    (above s op).Ends w fun n w' => w.Spares x w' ∧ n ≠ x := by
  unfold above
  refine (add_spares_of_lt op hx).bind fun n w₁ ⟨h₁, hn⟩ => ?_
  refine (connect_spares 0 false hn).bind fun _ w₂ h₂ => ends_pure.2 ⟨h₁.trans h₂, hn⟩

/-- An operator put below another one spares the rest. -/
theorem insertBetween_spares {i : Input} (op : Operator γ) (hx : x < w.graph.slots.length)
    (hbelow : below ≠ x) : (insertBetween i below op).Ends w fun _ w' => w.Spares x w' := by
  unfold insertBetween
  refine (add_spares_of_lt op hx).bind fun n w₁ ⟨h₁, hn⟩ => ?_
  refine (disconnect_spares hbelow).bind fun _ w₂ h₂ => ?_
  refine (connect_spares 0 false hn).bind fun _ w₃ h₃ => ?_
  refine (connect_spares i.operand i.feedback hbelow).bind fun _ w₄ h₄ => ends_pure.2 ?_
  exact ((h₁.trans h₂).trans h₃).trans h₄

/-- Those that do not read an operator are not among its consumers. -/
theorem target_ne (hid : w.graph.edgesBetween id x = []) :
    ∀ e ∈ w.graph.succeeding id, e.target ≠ x := by
  rintro e he rfl
  exact Graph.edgesBetween_ne_nil.2 ⟨e, he, rfl⟩ hid

end Reshape

/-! ## Rules -/

namespace PlanRule

open Edit Reshape

variable {γ : Type} {w : Workspace γ} {x id below : OperatorId}

/-- A filter is distributed without touching operators that do not read it. -/
theorem distribute_spares (hx : x ≠ id) (hid : w.graph.edgesBetween id x = [])
    (hlt : x < w.graph.slots.length) (members : List OperatorId) :
    (distribute id members).Ends w fun _ w' => w.Spares x w' := by
  unfold distribute
  refine ends_bind.2 (ends_operator.2 fun op _ => ends_bind.2 (ends_look.2 ?_))
  refine (remove_spares hx hid).bind fun _ w₁ h₁ => ?_
  refine (ends_forM (Workspace.Spares x) fun s _ w₂ h₂ => ?_).mono fun _ _ h₂ => h₁.trans h₂
  have hx₂ : x < w₂.graph.slots.length := hlt.trans_le (h₁.length.trans h₂.length)
  refine (above_spares (x := x) op hx₂).bind fun n w₃ ⟨h₃, _⟩ => ?_
  exact (feedAll_spares (target_ne hid)).mono fun _ _ h₄ => h₃.trans h₄

/-- A filter is lowered without touching operators that do not read it or the one below. -/
theorem lower_spares (hx : x ≠ id) (hid : w.graph.edgesBetween id x = [])
    (hlt : x < w.graph.slots.length) (hbelow : below ≠ x) (targets : List OperatorId) :
    (lower id below targets).Ends w fun _ w' => w.Spares x w' := by
  unfold lower
  refine ends_bind.2 (ends_operator.2 fun op _ => ends_bind.2 (ends_look.2 ?_))
  refine (ends_forM (Workspace.Spares x) fun i _ w₁ h₁ => ?_).bind fun _ w₁ h₁ => ?_
  · exact (insertBetween_spares op (hlt.trans_le h₁.length) hbelow).bind
      fun _ _ h₂ => ends_pure.2 h₂
  · have hid₁ : w₁.graph.edgesBetween id x = [] := (h₁.edges id).trans hid
    refine ends_bind.2 (ends_look.2 ((remove_spares hx hid₁).bind fun _ w₂ h₂ => ?_))
    exact (feedAll_spares (target_ne hid₁)).mono fun _ _ h₃ => (h₁.trans h₂).trans h₃

/-- Scans keep their inputs when their variables are renamed. -/
theorem renameUnderScans_spares (hx : x ≠ id) (hid : w.graph.edgesBetween id x = [])
    (scans : List OperatorId) :
    (renameUnderScans.replace ((Match.only id).bindAll .scan scans)).Ends w
      fun _ w' => w.Spares x w' := by
  simp only [renameUnderScans, Match.all_bindAll, Match.all_only, List.nil_append, if_true,
    Match.root_bindAll, Match.root_only]
  refine ends_bind.2 (ends_operator.2 fun op _ => ?_)
  split
  · split
    · exact ends_fault
    · refine ends_bind.2 (ends_look.2 ?_)
      refine (ends_forM (Workspace.Spares x) fun s _ w₁ _ => ?_).bind fun _ w₁ h₁ =>
        (remove_spares hx ((h₁.edges id).trans hid)).mono fun _ _ h₂ => h₁.trans h₂
      unfold renameScan
      refine ends_bind.2 ((keeps_expectScan (P := w₁.Spares x) w₁ .refl).mono fun scan w₂ h₂ => ?_)
      refine (replaceOperator_spares (x := x) _).bind fun _ w₃ h₃ => ?_
      refine (disconnect_spares hx.symm).bind fun _ w₄ h₄ => ?_
      exact (feedAll_spares (target_ne hid)).mono fun _ _ h₅ =>
        ((h₂.trans h₃).trans h₄).trans h₅
  · exact ends_fault

end PlanRule

end QuadAlgebra
