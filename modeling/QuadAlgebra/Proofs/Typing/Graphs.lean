import QuadAlgebra.Proofs.Planning.Finish
import QuadAlgebra.Proofs.Typing.Edits
import QuadAlgebra.Proofs.Typing.Kinds

/-!
# Typed graphs

A graph is typed if every edge leads from an operator that emits rows of some kind to one that
accepts them, and every filter has the plans that its condition needs. What an operator emits and
accepts is said of its number, in a way that stays true when the operator is removed or replaced by
one of the same type; so it can be carried along while a graph is changed (`Graph.KeepsKinds`).
-/

namespace QuadAlgebra

namespace Graph

variable {γ : Type} {good : γ → Prop} {g g' g'' : Graph γ} {op : Operator γ} {s t id : OperatorId}
  {k : RowKind}

/-! ## Types of operators -/

/-- The operator with this number, as long as there is one, emits rows of the kind. -/
structure Emits (g : Graph γ) (id : OperatorId) (k : RowKind) : Prop where
  lt : id < g.slots.length
  emits : ∀ op, g.operator? id = some op → op.emits? = some k

/-- The operator with this number, as long as there is one, accepts rows of the kind. -/
structure Takes (g : Graph γ) (id : OperatorId) (k : RowKind) : Prop where
  lt : id < g.slots.length
  takes : ∀ op, g.operator? id = some op → op.accepts k = true

/-- Every edge carries rows of one kind from an operator that emits them to one that accepts
them. -/
structure Typed (good : γ → Prop) (g : Graph γ) : Prop where
  root : g.operator? root = some .root
  edges : ∀ s, ∀ e ∈ g.succeeding s, ∃ k, g.Emits s k ∧ g.Takes e.target k
  covered : ∀ id op, g.operator? id = some op → op.Covered good

theorem lt_of_operator? (h : g.operator? id = some op) : id < g.slots.length := by
  by_contra hlt
  rw [operator?, node?_eq_none (Nat.le_of_not_lt hlt)] at h
  cases h

/-- An operator emits the rows of its kind. -/
theorem Emits.of_operator? (h : g.operator? id = some op) (hk : op.emits? = some k) :
    g.Emits id k :=
  ⟨lt_of_operator? h, fun op' h' => by rw [h] at h'; exact Option.some.inj h' ▸ hk⟩

/-- An operator takes what it accepts. -/
theorem Takes.of_operator? (h : g.operator? id = some op) (hk : op.accepts k = true) :
    g.Takes id k :=
  ⟨lt_of_operator? h, fun op' h' => by rw [h] at h'; exact Option.some.inj h' ▸ hk⟩

theorem Typed.emits_root (h : g.Typed good) : g.Emits Graph.root .solution :=
  .of_operator? h.root rfl

/-- An input delivers rows that are accepted. -/
theorem Typed.of_mem_inputs (h : g.Typed good) {i : Input} (hi : i ∈ g.inputs id) :
    ∃ k, g.Emits i.source k ∧ g.Takes id k :=
  h.edges i.source _ (Graph.mem_inputs.1 hi).2

/-- More may be known of the plans nested in a typed graph. -/
theorem Typed.mono {good' : γ → Prop} (h : g.Typed good)
    (hgood : ∀ id op, g.operator? id = some op → ∀ e ∈ op.nested, good e.2 → good' e.2) :
    g.Typed good' :=
  ⟨h.root, h.edges, fun id op hop => (h.covered id op hop).mono (hgood id op hop)⟩

/-- The operator with this number, as long as there is one, emits and accepts what the given one
does. -/
structure OfType (g : Graph γ) (id : OperatorId) (op : Operator γ) : Prop where
  lt : id < g.slots.length
  same : ∀ op', g.operator? id = some op' → op'.emits? = op.emits? ∧ op'.accepts = op.accepts

/-- An operator is of its own type. -/
theorem OfType.of_operator? (h : g.operator? id = some op) : g.OfType id op :=
  ⟨lt_of_operator? h, fun op' h' => by rw [h] at h'; exact Option.some.inj h' ▸ ⟨rfl, rfl⟩⟩

theorem OfType.emits (h : g.OfType id op) (hk : op.emits? = some k) : g.Emits id k :=
  ⟨h.lt, fun op' h' => (h.same op' h').1.trans hk⟩

theorem OfType.takes (h : g.OfType id op) (hk : op.accepts k = true) : g.Takes id k :=
  ⟨h.lt, fun op' h' => (congrFun (h.same op' h').2 k).trans hk⟩

/-! ## Changes that keep types -/

/-- A change after which old operators emit and accept what they did, if they are there. -/
structure SameTypes (g g' : Graph γ) : Prop where
  length_le : g.slots.length ≤ g'.slots.length
  types : ∀ id < g.slots.length, ∀ op', g'.operator? id = some op' →
    ∃ op, g.operator? id = some op ∧ op'.emits? = op.emits? ∧ op'.accepts = op.accepts

namespace SameTypes

/-- Operators of the same types emit the same kinds of rows. -/
theorem emits (h : g.SameTypes g') (hs : g.Emits id k) : g'.Emits id k := by
  refine ⟨Nat.lt_of_lt_of_le hs.lt h.length_le, fun op' h' => ?_⟩
  obtain ⟨op, hop, hemits, -⟩ := h.types id hs.lt op' h'
  exact hemits.trans (hs.emits op hop)

/-- Operators of the same types accept the same kinds of rows. -/
theorem takes (h : g.SameTypes g') (ht : g.Takes id k) : g'.Takes id k := by
  refine ⟨Nat.lt_of_lt_of_le ht.lt h.length_le, fun op' h' => ?_⟩
  obtain ⟨op, hop, -, haccepts⟩ := h.types id ht.lt op' h'
  rw [haccepts]
  exact ht.takes op hop

theorem refl : g.SameTypes g := ⟨Nat.le_refl _, fun _ _ op hop => ⟨op, hop, rfl, rfl⟩⟩

theorem trans (h : g.SameTypes g') (h' : g'.SameTypes g'') : g.SameTypes g'' := by
  refine ⟨Nat.le_trans h.length_le h'.length_le, fun id hid op'' hop'' => ?_⟩
  obtain ⟨op', hop', hemits', haccepts'⟩ :=
    h'.types id (Nat.lt_of_lt_of_le hid h.length_le) op'' hop''
  obtain ⟨op, hop, hemits, haccepts⟩ := h.types id hid op' hop'
  exact ⟨op, hop, hemits'.trans hemits, haccepts'.trans haccepts⟩

/-- Operators that have only been removed leave the types of the others. -/
theorem of_operator? (hlength : g'.slots.length = g.slots.length)
    (hop : ∀ id op, g'.operator? id = some op → g.operator? id = some op) : g.SameTypes g' :=
  ⟨Nat.le_of_eq hlength.symm, fun id _ op h => ⟨op, hop id op h, rfl, rfl⟩⟩

end SameTypes

/-- A change that keeps the types of operators and after which a typed graph is typed. -/
structure KeepsKinds (good : γ → Prop) (g g' : Graph γ) : Prop extends SameTypes g g' where
  typed : g.Typed good → g'.Typed good

namespace KeepsKinds

theorem refl : g.KeepsKinds good g := ⟨.refl, id⟩

theorem trans (h : g.KeepsKinds good g') (h' : g'.KeepsKinds good g'') : g.KeepsKinds good g'' :=
  ⟨h.toSameTypes.trans h'.toSameTypes, fun ht => h'.typed (h.typed ht)⟩

instance : IsPreorder (Graph γ) (KeepsKinds good) where
  refl _ := refl
  trans _ _ _ h h' := h.trans h'

/-- Operators and edges may be taken away. -/
theorem of_sub (hlength : g'.slots.length = g.slots.length)
    (hroot : g'.operator? Graph.root = g.operator? Graph.root)
    (hop : ∀ id op, g'.operator? id = some op → g.operator? id = some op)
    (hsucceeding : ∀ id, ∀ e ∈ g'.succeeding id, e ∈ g.succeeding id) :
    g.KeepsKinds good g' := by
  have hsame : g.SameTypes g' := .of_operator? hlength hop
  refine ⟨hsame, fun h => ⟨hroot.trans h.root, fun s e he => ?_, fun id op h' =>
    h.covered id op (hop id op h')⟩⟩
  obtain ⟨k, hs, ht⟩ := h.edges s e (hsucceeding s e he)
  exact ⟨k, hsame.emits hs, hsame.takes ht⟩

/-- Graphs with the same edges and operators have the same kinds. -/
theorem of_sameEdges (h : g.SameEdges g') : g.KeepsKinds good g' :=
  of_sub h.length (h.operator? _) (fun id _ h' => h.operator? id ▸ h') fun id _ he =>
    h.succeeding id ▸ he

/-- A new operator. -/
theorem withOperator (hcovered : op.Covered good) : g.KeepsKinds good (g.withOperator op) := by
  have hold {id : OperatorId} (hid : id < g.slots.length) :
      (g.withOperator op).operator? id = g.operator? id := by
    rw [operator?_withOperator, if_neg (Nat.ne_of_lt hid)]
  have hsame : g.SameTypes (g.withOperator op) :=
    ⟨by rw [length_withOperator]; exact Nat.le_succ _, fun id hid op' h' =>
      ⟨op', hold hid ▸ h', rfl, rfl⟩⟩
  refine ⟨hsame, fun h => ⟨?_, fun s e he => ?_, fun id op' h' => ?_⟩⟩
  · rw [hold (lt_of_operator? h.root), h.root]
  · rw [succeeding_withOperator] at he
    obtain ⟨k, hs, ht⟩ := h.edges s e he
    exact ⟨k, hsame.emits hs, hsame.takes ht⟩
  · rw [operator?_withOperator] at h'
    split at h'
    · exact Option.some.inj h' ▸ hcovered
    · exact h.covered id op' h'

/-- More edges between operators of matching types. -/
theorem of_edges (hlength : g'.slots.length = g.slots.length)
    (hop : ∀ id, g'.operator? id = g.operator? id)
    (hsucceeding : ∀ id, ∀ e ∈ g'.succeeding id,
      e ∈ g.succeeding id ∨ ∃ k, g.Emits id k ∧ g.Takes e.target k) :
    g.KeepsKinds good g' := by
  have hsame : g.SameTypes g' := .of_operator? hlength fun id _ h => hop id ▸ h
  refine ⟨hsame, fun h => ⟨(hop _).trans h.root, fun s e he => ?_, fun id op h' =>
    h.covered id op (hop id ▸ h')⟩⟩
  obtain ⟨k, hs, ht⟩ := (hsucceeding s e he).elim (h.edges s e) fun h => h
  exact ⟨k, hsame.emits hs, hsame.takes ht⟩

/-- An edge may be added where its rows are accepted. -/
theorem withEdge {e : Edge} (hs : g.Emits s k) (ht : g.Takes e.target k) :
    g.KeepsKinds good (g.withEdge s e) := by
  refine of_edges length_withEdge operator?_withEdge fun x e' he' => ?_
  unfold succeeding at he' ⊢
  rw [node?_withEdge] at he'
  cases hn : g.node? x with
  | none => simp [hn] at he'
  | some n =>
      simp only [hn, Option.map_some, Option.getD_some] at he' ⊢
      split at he'
      · next hx =>
        rcases List.mem_append.1 he' with he' | he'
        · exact .inl he'
        · exact .inr ⟨k, hx ▸ hs, List.mem_singleton.1 he' ▸ ht⟩
      · exact .inl he'

/-- Another operator of the same type in the place of one. -/
theorem replace {old : Operator γ} (hold : g.operator? id = some old) (hroot : id ≠ Graph.root)
    (hop : ∀ x, g'.operator? x = if x = id then some op else g.operator? x)
    (hlength : g'.slots.length = g.slots.length)
    (hsucceeding : ∀ x, g'.succeeding x = g.succeeding x) (hcovered : op.Covered good)
    (hemits : op.emits? = old.emits?) (haccepts : op.accepts = old.accepts) :
    g.KeepsKinds good g' := by
  have hsame : g.SameTypes g' := by
    refine ⟨Nat.le_of_eq hlength.symm, fun x _ op' h' => ?_⟩
    rw [hop] at h'
    split at h'
    · next hx => exact ⟨old, hx ▸ hold, Option.some.inj h' ▸ ⟨hemits, haccepts⟩⟩
    · exact ⟨op', h', rfl, rfl⟩
  refine ⟨hsame, fun h => ⟨?_, fun s e he => ?_, fun x op' h' => ?_⟩⟩
  · rw [hop, if_neg hroot.symm, h.root]
  · obtain ⟨k, hs, ht⟩ := h.edges s e (hsucceeding s ▸ he)
    exact ⟨k, hsame.emits hs, hsame.takes ht⟩
  · rw [hop] at h'
    split at h'
    · exact Option.some.inj h' ▸ hcovered
    · exact h.covered x op' h'

end KeepsKinds

/-- An operator keeps its type. -/
theorem OfType.keeps (ht : g.OfType id op) (h : g.KeepsKinds good g') : g'.OfType id op := by
  refine ⟨Nat.lt_of_lt_of_le ht.lt h.length_le, fun op' h' => ?_⟩
  obtain ⟨op₁, hop, hemits, haccepts⟩ := h.types id ht.lt op' h'
  obtain ⟨hemits', haccepts'⟩ := ht.same op₁ hop
  exact ⟨hemits.trans hemits', haccepts.trans haccepts'⟩

/-! ## Steps that keep types -/

/-- An operator is required and found, or the edit fails. -/
theorem ends_require {post : Node γ → Graph γ → Prop} :
    (require id).Ends g post ↔ ∀ n, g.node? id = some n → post n g := by
  unfold require
  rw [Edit.ends_bind, Edit.ends_get]
  cases hn : g.node? id with
  | none => simpa using Edit.ends_fault
  | some n => simpa using Edit.ends_pure

/-- Only operators that are there are connected: by nothing new if the edge is recorded already, and
by one new edge otherwise. -/
theorem ends_connect_of {operand : Nat} {feedback : Bool} {post : Unit → Graph γ → Prop}
    (hold : g.contains s = true → g.contains t = true → ⟨t, operand, feedback⟩ ∈ g.succeeding s →
      post () g)
    (hnew : g.contains s = true → g.contains t = true → ⟨t, operand, feedback⟩ ∉ g.succeeding s →
      post () (g.withEdge s ⟨t, operand, feedback⟩)) :
    (connect s t operand feedback).Ends g post := by
  unfold connect
  refine Edit.ends_bind.2 (Edit.ends_get.2 (Edit.ends_ite
    (fun _ => Edit.ends_bind.2 Edit.ends_fault) fun ht => ?_))
  have ht : g.contains t = true := by simpa using ht
  refine Edit.ends_bind.2 (ends_require.2 fun n hn => ?_)
  have hs : g.contains s = true := by simp [contains, hn]
  have hedges : n.succeeding = g.succeeding s := by simp [succeeding, hn]
  rw [hedges]
  exact Edit.ends_ite
    (fun hmem => Edit.ends_pure.2 (hold hs ht (List.contains_iff_mem.1 hmem)))
    fun hmem => Edit.ends_modify.2 (hnew hs ht (mt List.contains_iff_mem.2 hmem))

/-- Two operators may be connected where rows are accepted. -/
theorem ends_connect {operand : Nat} {feedback : Bool} (hs : g.Emits s k) (ht : g.Takes t k) :
    (connect s t operand feedback).Ends g fun _ g' => g.KeepsKinds good g' :=
  ends_connect_of (fun _ _ _ => .refl) fun _ _ _ => .withEdge hs ht

/-- A node may forget edges. -/
theorem succeeding_mapNode_sub {f : Node γ → Node γ}
    (hf : ∀ n, ∀ e ∈ (f n).succeeding, e ∈ n.succeeding) (x : OperatorId) :
    ∀ e ∈ (g.mapNode id f).succeeding x, e ∈ g.succeeding x := by
  unfold succeeding
  rw [node?_mapNode]
  cases g.node? x with
  | none => simp
  | some n =>
      split
      · exact fun e he => hf n e he
      · exact fun e he => he

/-- To change what else a node records keeps its operator. -/
theorem operator?_mapNode {f : Node γ → Node γ} (hf : ∀ n, (f n).operator = n.operator)
    (x : OperatorId) : (g.mapNode id f).operator? x = g.operator? x := by
  unfold operator?
  rw [node?_mapNode]
  split
  · cases g.node? x <;> simp [hf]
  · rfl

/-- To forget edges keeps the kinds of rows. -/
theorem KeepsKinds.mapNode {f : Node γ → Node γ} (hf : ∀ n, (f n).operator = n.operator)
    (hsub : ∀ n, ∀ e ∈ (f n).succeeding, e ∈ n.succeeding) :
    g.KeepsKinds good (g.mapNode id f) :=
  .of_sub (length_mapNode f) (operator?_mapNode hf _) (fun x _ h => operator?_mapNode hf x ▸ h)
    (succeeding_mapNode_sub hsub)

/-- To disconnect operators keeps the kinds of rows. -/
theorem ends_disconnect : (disconnect s t).Ends g fun _ g' => g.KeepsKinds good g' := by
  unfold disconnect
  simp only [Edit.ends_bind, ends_require, Edit.ends_modify]
  intro _ _ _ _
  refine .trans (.mapNode (f := fun n =>
    { n with succeeding := n.succeeding.filter (·.target != t) }) (fun _ => rfl) fun n e he => ?_)
    (.mapNode (f := fun n => { n with preceding := n.preceding.filter (· != s) }) (fun _ => rfl)
      fun n e he => he)
  exact (List.mem_filter.1 he).1

/-- A node that has been taken out is gone. -/
theorem node?_emptied (x : OperatorId) :
    (⟨g.slots.set id none⟩ : Graph γ).node? x = if x = id then none else g.node? x := by
  unfold node?
  rw [List.getElem?_set]
  by_cases hx : id = x
  · subst hx
    by_cases hlt : id < g.slots.length <;> simp [hlt]
  · rw [if_neg hx, if_neg (Ne.symm hx)]

/-- Any node but the root may be taken out. -/
theorem KeepsKinds.emptied (hid : id ≠ Graph.root) :
    g.KeepsKinds good ⟨g.slots.set id none⟩ := by
  refine .of_sub (by simp) ?_ (fun x op h => ?_) fun x e he => ?_
  · rw [operator?, node?_emptied, if_neg hid.symm, operator?]
  · rw [operator?, node?_emptied] at h
    split at h
    · cases h
    · exact h
  · rw [succeeding, node?_emptied] at he
    split at he
    · cases he
    · exact he

/-- An operator may be removed with all of its edges. -/
theorem ends_remove : (remove id).Ends g fun _ g' => g.KeepsKinds good g' := by
  unfold remove
  split
  · exact Edit.ends_bind.2 Edit.ends_fault
  · next hid =>
    refine Edit.ends_bind.2 (ends_require.2 fun n _ => ?_)
    refine Edit.Ends.bind (Edit.ends_forM (KeepsKinds good) fun source _ g' _ =>
      ends_disconnect) fun _ g₁ h₁ => ?_
    refine Edit.Ends.bind (Edit.ends_forM (KeepsKinds good) fun edge _ g' _ =>
      ends_disconnect) fun _ g₂ h₂ => ?_
    rw [Edit.ends_bind, Edit.ends_modify]
    exact Edit.ends_pure.2 (h₁.trans (h₂.trans (.emptied hid)))

/-! ### Operators in the place of others -/

theorem succeeding_mapNode_operator (x : OperatorId) :
    (g.mapNode id fun n => { n with operator := op }).succeeding x = g.succeeding x := by
  simp only [succeeding, node?_mapNode]
  split
  · cases g.node? x <;> rfl
  · rfl

theorem preceding_mapNode_operator (x : OperatorId) :
    (g.mapNode id fun n => { n with operator := op }).preceding x = g.preceding x := by
  simp only [preceding, node?_mapNode]
  split
  · cases g.node? x <;> rfl
  · rfl

theorem operator?_mapNode_operator (hid : g.contains id = true) (x : OperatorId) :
    (g.mapNode id fun n => { n with operator := op }).operator? x =
      if x = id then some op else g.operator? x := by
  rw [operator?, node?_mapNode]
  split
  · next hx =>
    obtain ⟨n, hn⟩ := Option.isSome_iff_exists.1 hid
    simp [hx, hn]
  · rfl

/-- An operator that is there gives its place to another one. -/
theorem ends_setOperator_of {post : Unit → Graph γ → Prop}
    (h : g.contains id = true → post () (g.mapNode id fun n => { n with operator := op })) :
    (setOperator id op).Ends g post := by
  unfold setOperator
  refine Edit.ends_bind.2 (ends_require.2 fun n hn => Edit.ends_modify.2 (h ?_))
  simp [contains, hn]

/-- Another operator of the same type is put into a slot. -/
theorem ends_setOperator {old : Operator γ} (hold : g.operator? id = some old)
    (hroot : id ≠ Graph.root) (hcovered : op.Covered good) (hemits : op.emits? = old.emits?)
    (htakes : op.accepts = old.accepts) :
    (setOperator id op).Ends g fun _ g' => g.KeepsKinds good g' := by
  exact ends_setOperator_of fun hid => .replace hold hroot (operator?_mapNode_operator hid)
    (length_mapNode _) succeeding_mapNode_operator hcovered hemits htakes

/-- To compute variable sets keeps the kinds of rows, and succeeds only in graphs with an order. -/
theorem ends_updateVariables :
    updateVariables.Ends g fun _ g' => g.KeepsKinds good g' ∧
      ∃ order, g'.topologicalOrder = .ok order := by
  intro _ g' h
  obtain ⟨⟨order, horder⟩, hsame⟩ := updateVariables_eq_ok h
  exact ⟨.of_sameEdges hsame, order, hsame.topologicalOrder.trans horder⟩

end Graph

end QuadAlgebra
