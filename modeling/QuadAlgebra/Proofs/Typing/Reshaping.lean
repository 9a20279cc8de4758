import QuadAlgebra.Optimization.Catalogue
import QuadAlgebra.Proofs.Typing.Graphs

/-!
# Reshaping typed graphs

The steps that rules are made of keep a graph typed when the operators that they connect emit and
accept rows of one kind. Whatever passes an operator on solutions may as well go past it.
-/

namespace QuadAlgebra

/-- The operator reads and emits solutions. -/
def Operator.OnSolutions {γ : Type} (op : Operator γ) : Prop :=
  op.accepts = (· == .solution) ∧ op.emits? = some .solution

namespace Graph

variable {γ : Type} {good : γ → Prop} {g g' : Graph γ} {op : Operator γ} {id s : OperatorId}
  {k j : RowKind} {i : Input} {e : Edge}

/-- Consumers accept what an operator is known to emit. -/
theorem Typed.takes_of_mem_succeeding (h : g.Typed good) (hs : g.Emits s k)
    (he : e ∈ g.succeeding s) : g.Takes e.target k := by
  obtain ⟨j, hj, htarget⟩ := h.edges s e he
  obtain ⟨op, hop⟩ : ∃ op, g.operator? s = some op := Option.isSome_iff_exists.1 (by
    rw [operator?, Option.isSome_map]
    exact contains_of_mem_succeeding he)
  obtain rfl : j = k := Option.some.inj ((hj.emits op hop).symm.trans (hs.emits op hop))
  exact htarget

/-- Producers emit what an operator accepts. -/
theorem Typed.accepts_of_mem_inputs (h : g.Typed good) (hop : g.operator? id = some op)
    (hi : i ∈ g.inputs id) : ∃ k, g.Emits i.source k ∧ op.accepts k = true := by
  obtain ⟨k, hsource, htarget⟩ := h.of_mem_inputs hi
  exact ⟨k, hsource, htarget.takes op hop⟩

/-- What an operator on rows of one kind reads emits rows of that kind. -/
theorem Typed.emits_of_mem_inputs (h : g.Typed good) (hop : g.operator? id = some op)
    (honly : op.accepts = (· == k)) (hi : i ∈ g.inputs id) : g.Emits i.source k := by
  obtain ⟨j, hsource, haccepts⟩ := h.accepts_of_mem_inputs hop hi
  rw [honly] at haccepts
  exact beq_iff_eq.1 haccepts ▸ hsource

/-- No other operator stands at the root. -/
theorem Typed.ne_root (h : g.Typed good) (hop : g.operator? id = some op) (hne : op.kind ≠ .root) :
    id ≠ Graph.root := by
  rintro rfl
  rw [h.root] at hop
  exact hne (Option.some.inj hop ▸ rfl)

end Graph

/-- A change of a workspace that keeps the types in its graph. -/
def Workspace.KeepsKinds {γ : Type} (good : γ → Prop) (w w' : Workspace γ) : Prop :=
  w.graph.KeepsKinds good w'.graph

/-- Workspaces are preordered by the kinds they keep. -/
instance {γ : Type} (good : γ → Prop) : IsPreorder (Workspace γ) (Workspace.KeepsKinds good) where
  refl _ := Graph.KeepsKinds.refl
  trans _ _ _ h h' := Graph.KeepsKinds.trans h h'

namespace Reshape

variable {γ : Type} {good : γ → Prop} {w : Workspace γ} {op : Operator γ} {id s t : OperatorId}
  {k : RowKind}

/-! ## Looking -/

/-- Looking at the graph changes nothing. -/
theorem ends_look {α : Type} {f : Graph γ → α} {post : α → Workspace γ → Prop} :
    (look f).Ends w post ↔ post (f w.graph) w := by
  unfold look
  rw [Edit.ends_bind, Edit.ends_get, Edit.ends_pure]

/-- Reading an operator changes nothing and finds what stands there. -/
theorem ends_operator {post : Operator γ → Workspace γ → Prop} :
    (operator id).Ends w post ↔ ∀ op, w.graph.operator? id = some op → post op w := by
  unfold operator
  rw [Edit.ends_bind, Edit.ends_get]
  cases hop : w.graph.operator? id with
  | none => simpa using Edit.ends_fault
  | some op => simpa using Edit.ends_pure

/-! ## Single steps -/

variable (good)

/-- An edit of the graph that keeps its kinds keeps those of the workspace. -/
theorem ends_onGraph {α : Type} {edit : Edit (Graph γ) α}
    (h : edit.Ends w.graph fun _ g => w.graph.KeepsKinds good g) :
    (onGraph edit).Ends w fun _ w' => w.KeepsKinds good w' :=
  Edit.ends_within.2 (h.mono fun _ _ h => h)

/-- A new operator has its own kind and changes that of no other. -/
theorem ends_add (op : Operator γ) (hcovered : op.Covered good) :
    (add op).Ends w fun id w' => w.KeepsKinds good w' ∧ w'.graph.OfType id op := by
  unfold add onGraph onIndex Graph.add
  simp only [Edit.ends_bind, Edit.ends_within, Edit.ends_get, Edit.ends_set, Edit.ends_modify,
    Edit.ends_pure]
  refine ⟨Graph.KeepsKinds.withOperator hcovered, .of_operator? ?_⟩
  show (w.graph.withOperator op).operator? w.graph.slots.length = some op
  rw [Graph.operator?_withOperator, if_pos rfl]

/-- An edge between operands of one kind keeps the kinds. -/
theorem ends_connect {operand : Nat} {feedback : Bool} (hs : w.graph.Emits s k)
    (ht : w.graph.Takes t k) :
    (connect s t operand feedback).Ends w fun _ w' => w.KeepsKinds good w' :=
  ends_onGraph good (Graph.ends_connect hs ht)

/-- Taking edges away keeps the kinds. -/
theorem ends_disconnect : (disconnect s t).Ends w fun _ w' => w.KeepsKinds good w' :=
  ends_onGraph good Graph.ends_disconnect

/-- Removing an operator keeps the kinds of the others. -/
theorem ends_remove : (remove id).Ends w fun _ w' => w.KeepsKinds good w' := by
  unfold remove onIndex
  refine (ends_onGraph good Graph.ends_remove).bind fun _ w' h => ?_
  exact Edit.ends_modify.2 h

/-- An operator may be replaced by one that takes and emits the same kinds. -/
theorem ends_replaceOperator (op : Operator γ) {old : Operator γ}
    (hold : w.graph.operator? id = some old)
    (hroot : id ≠ Graph.root) (hcovered : op.Covered good) (hemits : op.emits? = old.emits?)
    (htakes : op.accepts = old.accepts) :
    (replaceOperator id op).Ends w fun _ w' => w.KeepsKinds good w' := by
  unfold replaceOperator onIndex
  refine Edit.ends_bind.2 (ends_operator.2 fun _ _ => ?_)
  refine (ends_onGraph good (Graph.ends_setOperator hold hroot hcovered hemits htakes)).bind
    fun _ w' h => ?_
  exact Edit.ends_modify.2 h

/-- Refreshing the index keeps the kinds. -/
theorem ends_refresh : (refresh : Reshape γ Unit).Ends w fun _ w' => w.KeepsKinds good w' :=
  ends_onGraph good (Graph.ends_updateVariables.mono fun _ _ h => h.1)

/-! ## Compound steps -/

/-- A new operator over one that emits what it takes has its own kind. -/
theorem ends_above (hcovered : op.Covered good) (hs : w.graph.Emits s k)
    (htakes : op.accepts k = true) :
    (above s op).Ends w fun id w' => w.KeepsKinds good w' ∧ w'.graph.OfType id op := by
  unfold above
  refine (ends_add good op hcovered).bind fun id w₁ ⟨h₁, hid⟩ => ?_
  refine (ends_connect good (h₁.emits hs) (hid.takes htakes)).bind fun _ w₂ h₂ => ?_
  exact Edit.ends_pure.2 ⟨h₁.trans h₂, hid.keeps h₂⟩

/-- A producer may feed all operands that take its kind. -/
theorem ends_feedAll {edges : List Edge} (hs : w.graph.Emits s k)
    (ht : ∀ e ∈ edges, w.graph.Takes e.target k) :
    (feedAll s edges).Ends w fun _ w' => w.KeepsKinds good w' :=
  Edit.ends_forM (Workspace.KeepsKinds good) fun e he _ h =>
    ends_connect good (h.emits hs) (h.takes (ht e he))

/-- The consumers of an operator may read one that emits the same kind. -/
theorem ends_redirectOutputs (htyped : w.graph.Typed good) (hs : w.graph.Emits s k)
    (ht : w.graph.Emits t k) : (redirectOutputs s t).Ends w fun _ w' => w.KeepsKinds good w' := by
  unfold redirectOutputs
  refine Edit.ends_bind.2 (ends_look.2 ?_)
  refine Edit.ends_forM (Workspace.KeepsKinds good) fun e he w₁ h₁ => ?_
  refine (ends_disconnect good).bind fun _ w₂ h₂ => ?_
  have htarget := h₂.takes (h₁.takes (htyped.takes_of_mem_succeeding hs he))
  exact (ends_connect good (h₂.emits (h₁.emits ht)) htarget).mono fun _ _ h₃ => h₂.trans h₃

/-- An operator on solutions may be put between two others on solutions. -/
theorem ends_insertBetween {i : Input} (hcovered : op.Covered good) (hon : op.OnSolutions)
    (hs : w.graph.Emits i.source .solution) (ht : w.graph.Takes t .solution) :
    (insertBetween i t op).Ends w fun _ w' => w.KeepsKinds good w' := by
  unfold insertBetween
  refine (ends_add good op hcovered).bind fun id w₁ ⟨h₁, hid⟩ => ?_
  refine (ends_disconnect good).bind fun _ w₂ h₂ => ?_
  have h₁₂ := h₁.trans h₂
  refine (ends_connect good (h₁₂.emits hs) ((hid.keeps h₂).takes (by rw [hon.1]; rfl))).bind
    fun _ w₃ h₃ => ?_
  have h₁₃ := h₁₂.trans h₃
  refine (ends_connect good ((hid.keeps (h₂.trans h₃)).emits hon.2) (h₁₃.takes ht)).bind
    fun _ w₄ h₄ => ?_
  exact Edit.ends_pure.2 (h₁₃.trans h₄)

/-- A removal cascade keeps the kinds of what is left. -/
theorem ends_cascadeFrom (bound : Nat) (pending : List OperatorId) :
    (cascadeFrom bound pending : Reshape γ Nat).Ends w fun _ w' => w.KeepsKinds good w' := by
  induction bound generalizing w pending with
  | zero => exact Edit.ends_pure.2 .refl
  | succ bound ih =>
      unfold cascadeFrom
      refine Edit.ends_bind.2 (Edit.ends_get.2 ?_)
      dsimp only
      split
      · exact Edit.ends_pure.2 .refl
      · refine (ends_remove good).bind fun _ w₁ h₁ => Edit.ends_bind.2 (Edit.ends_get.2 ?_)
        refine (ih _).bind fun _ w₂ h₂ => ?_
        exact Edit.ends_pure.2 (h₁.trans h₂)

/-- So does the whole cascade. -/
theorem ends_cascade : (cascade id : Reshape γ Nat).Ends w fun _ w' => w.KeepsKinds good w' := by
  unfold cascade
  exact Edit.ends_bind.2 (Edit.ends_get.2 (ends_cascadeFrom good _ _))

end Reshape

end QuadAlgebra
