import QuadAlgebra.Proofs.Typing.Reshaping

/-!
# Graphs described by their edges

`g.Wired size ops reads` describes a graph by the number of its slots, the operators in them and the
inputs that each operator reads; both sides of its edges agree. Each step that a rule takes turns
one description into another, so what a rule makes of a graph can be read off its steps.
-/

namespace QuadAlgebra

/-- A loop carries along what depends on the part of the list that has been dealt with. -/
theorem Edit.ends_forM_of_step {σ α : Type} {l : List α} {f : α → Edit σ PUnit} {s : σ}
    (P : List α → σ → Prop) (hstart : P [] s)
    (hstep : ∀ done a rest, l = done ++ a :: rest → ∀ s', P done s' →
      (f a).Ends s' fun _ s'' => P (done ++ [a]) s'') :
    (l.forM f).Ends s fun _ s' => P l s' := by
  suffices ∀ done rest, l = done ++ rest → ∀ s', P done s' →
      (rest.forM f).Ends s' fun _ s'' => P l s'' from this [] l rfl s hstart
  intro done rest
  induction rest generalizing done with
  | nil =>
      intro hl s' h
      rw [List.append_nil] at hl
      exact Edit.ends_pure.2 (hl ▸ h)
  | cons a rest ih =>
      intro hl s' h
      rw [List.forM_eq_forM, List.forM_cons]
      refine (hstep done a rest hl s' h).bind fun _ s'' h' => ?_
      exact ih (done ++ [a]) (by rw [hl, List.append_assoc]; rfl) s'' h'

namespace Graph

variable {γ : Type} {g : Graph γ} {id s t : OperatorId} {op : Operator γ} {size : Nat}
  {ops : OperatorId → Option (Operator γ)} {reads : OperatorId → Input → Prop}

/-- An operator reads an input, as its producer records it. -/
def Reads (g : Graph γ) (id : OperatorId) (i : Input) : Prop :=
  ⟨id, i.operand, i.feedback⟩ ∈ g.succeeding i.source

/-- Nothing is read in the empty graph. -/
theorem not_reads_empty (i : Input) : ¬ (empty : Graph γ).Reads id i := by
  rw [Reads, succeeding_empty]
  exact List.not_mem_nil

/-- What an operator reads leads to it. -/
theorem leads_iff (h : g.Linked) : g.Leads s t ↔ ∃ i, g.Reads t i ∧ i.source = s := by
  constructor
  · intro hst
    obtain ⟨-, e, he, rfl⟩ := mem_consumers.1 hst
    exact ⟨⟨s, e.operand, e.feedback⟩, he, rfl⟩
  · rintro ⟨i, hi, rfl⟩
    exact mem_consumers.2 ⟨h.contains_target hi, _, hi, rfl⟩

/-- The graph has so many slots and these operators, and they read these inputs. -/
structure Wired (g : Graph γ) (size : Nat) (ops : OperatorId → Option (Operator γ))
    (reads : OperatorId → Input → Prop) : Prop where
  linked : g.Linked
  length : g.slots.length = size
  operator? : ∀ x, g.operator? x = ops x
  reads : ∀ x i, g.Reads x i ↔ reads x i

namespace Wired

/-- Every graph is described by its own operators and edges. -/
theorem of_linked (h : g.Linked) : g.Wired g.slots.length g.operator? g.Reads :=
  ⟨h, rfl, fun _ => rfl, fun _ _ => Iff.rfl⟩

/-- Descriptions matter up to what they say of each operator and each edge. -/
theorem congr {ops' : OperatorId → Option (Operator γ)} {reads' : OperatorId → Input → Prop}
    (h : g.Wired size ops reads) (hops : ∀ x, ops x = ops' x)
    (hreads : ∀ x i, reads x i ↔ reads' x i) : g.Wired size ops' reads' :=
  ⟨h.linked, h.length, fun x => (h.operator? x).trans (hops x),
    fun x i => (h.reads x i).trans (hreads x i)⟩

/-- The operators of a graph are those that the description knows. -/
theorem contains_iff (h : g.Wired size ops reads) : g.contains id = true ↔ ops id ≠ none := by
  rw [← h.operator?, Graph.operator?, contains, Ne, Option.map_eq_none_iff, ← Ne,
    Option.ne_none_iff_isSome]

/-- The ends of an edge are there. -/
theorem ends_of_reads (h : g.Wired size ops reads) {i : Input} (hi : reads id i) :
    ops id ≠ none ∧ ops i.source ≠ none := by
  have hread := (h.reads id i).2 hi
  exact ⟨h.contains_iff.1 (h.linked.contains_target hread),
    h.contains_iff.1 (contains_of_mem_succeeding hread)⟩

/-- No operator has a number from the size on. -/
theorem eq_none_of_le (h : g.Wired size ops reads) (hid : size ≤ id) : ops id = none := by
  rw [← h.operator?, Graph.operator?, node?_eq_none (h.length ▸ hid)]
  rfl

theorem lt_of_ne_none (h : g.Wired size ops reads) (hid : ops id ≠ none) : (id : Nat) < size :=
  Nat.lt_of_not_le fun hle => hid (h.eq_none_of_le hle)

/-- The inputs that an operator has recorded are the edges to it. -/
theorem mem_inputs (h : g.Wired size ops reads) {i : Input} : i ∈ g.inputs id ↔ reads id i :=
  h.linked.mem_inputs.trans (h.reads id i)

/-- The edges that a producer has recorded are the edges from it. -/
theorem mem_succeeding (h : g.Wired size ops reads) {e : Edge} :
    e ∈ g.succeeding s ↔ reads e.target ⟨s, e.operand, e.feedback⟩ :=
  h.reads e.target ⟨s, e.operand, e.feedback⟩

end Wired

/-! ## Steps -/

/-- What is read is known from what the producers have recorded. -/
theorem reads_congr {g' : Graph γ} (h : ∀ x, g'.succeeding x = g.succeeding x) {i : Input} :
    g'.Reads id i ↔ g.Reads id i := by
  rw [Reads, Reads, h]

/-- A new operator gets the next number and has no edges. -/
theorem wired_add (h : g.Wired size ops reads) (op : Operator γ) :
    (add op).Ends g fun n g' =>
      n = size ∧ g'.Wired (size + 1) (fun x => if x = n then some op else ops x) reads := by
  unfold add
  simp only [Edit.ends_bind, Edit.ends_get, Edit.ends_set, Edit.ends_pure]
  refine ⟨h.length, h.linked.withOperator, ?_, fun x => ?_, fun x i => ?_⟩
  · rw [← h.length]
    exact length_withOperator op
  · exact (operator?_withOperator x).trans (by rw [h.operator?])
  · exact (reads_congr succeeding_withOperator).trans (h.reads x i)

/-- A new edge is read by its target, and nothing else changes. -/
theorem reads_withEdge (hs : g.contains s = true) {e : Edge} {i : Input} :
    (g.withEdge s e).Reads id i ↔
      g.Reads id i ∨ id = e.target ∧ i = ⟨s, e.operand, e.feedback⟩ := by
  obtain ⟨source, operand, feedback⟩ := i
  rw [Reads, Reads, succeeding_withEdge hs]
  dsimp only
  by_cases hsource : source = s
  · rw [if_pos hsource, List.mem_append, List.mem_singleton, hsource]
    refine or_congr Iff.rfl ⟨fun he => ?_, fun ⟨hid, hi⟩ => ?_⟩
    · subst he
      exact ⟨rfl, rfl⟩
    · obtain ⟨-, rfl, rfl⟩ := Input.mk.inj hi
      rw [hid]
  · rw [if_neg hsource]
    refine ⟨.inl, fun h => h.resolve_right fun ⟨_, hi⟩ => hsource (Input.mk.inj hi).1⟩

/-- An edge is drawn between operators that are there. -/
theorem wired_connect (h : g.Wired size ops reads) (operand : Nat) (feedback : Bool) :
    (connect s t operand feedback).Ends g fun _ g' => ops s ≠ none ∧ ops t ≠ none ∧
      g'.Wired size ops fun x i => reads x i ∨ x = t ∧ i = ⟨s, operand, feedback⟩ := by
  refine ends_connect_of (fun hs ht hmem => ?_) fun hs ht _ => ?_
  · refine ⟨h.contains_iff.1 hs, h.contains_iff.1 ht, h.congr (fun _ => rfl) fun x i => ?_⟩
    rw [or_iff_left_of_imp]
    rintro ⟨rfl, rfl⟩
    exact (h.reads _ _).1 hmem
  · refine ⟨h.contains_iff.1 hs, h.contains_iff.1 ht, h.linked.withEdge hs ht,
      length_withEdge.trans h.length, fun x => ?_, fun x i => ?_⟩
    · exact (operator?_withEdge x).trans (h.operator? x)
    · exact (reads_withEdge hs).trans (or_congr (h.reads x i) Iff.rfl)

/-- The graph without the edges from one operator to another. -/
def cut (g : Graph γ) (s t : OperatorId) : Graph γ :=
  (g.mapNode s fun n => { n with succeeding := n.succeeding.filter (·.target != t) }).mapNode t
    fun n => { n with preceding := n.preceding.filter (· != s) }

/-- Where edges are cut, the producer forgets those to the one consumer. -/
theorem succeeding_cut (x : OperatorId) : (g.cut s t).succeeding x =
    if x = s then (g.succeeding x).filter (·.target != t) else g.succeeding x := by
  simp only [cut, succeeding, node?_mapNode]
  cases g.node? x <;> rcases eq_or_ne x s with rfl | hs <;> rcases eq_or_ne x t with rfl | ht <;>
    simp [*]

theorem preceding_cut (x : OperatorId) : (g.cut s t).preceding x =
    if x = t then (g.preceding x).filter (· != s) else g.preceding x := by
  simp only [cut, preceding, node?_mapNode]
  cases g.node? x <;> rcases eq_or_ne x s with rfl | hs <;> rcases eq_or_ne x t with rfl | ht <;>
    simp [*]

theorem operator?_cut (x : OperatorId) : (g.cut s t).operator? x = g.operator? x := by
  simp only [cut, operator?, node?_mapNode]
  cases g.node? x <;> rcases eq_or_ne x s with rfl | hs <;> rcases eq_or_ne x t with rfl | ht <;>
    simp [*]

/-- To cut the edges between two operators leaves all other edges. -/
theorem wired_cut (h : g.Wired size ops reads) : (g.cut s t).Wired size ops
    fun x i => reads x i ∧ ¬ (x = t ∧ i.source = s) := by
  have hmem (x : OperatorId) (e : Edge) :
      e ∈ (g.cut s t).succeeding x ↔ e ∈ g.succeeding x ∧ ¬ (e.target = t ∧ x = s) := by
    rw [succeeding_cut]
    by_cases hs : x = s <;> simp [hs]
  refine ⟨fun x y => ?_, by simpa [cut] using h.length, fun x => ?_, fun x i => ?_⟩
  · have hlinked := h.linked x y
    rw [preceding_cut]
    simp only [hmem]
    by_cases hy : y = t
    · rw [if_pos hy, List.mem_filter, hlinked]
      constructor
      · rintro ⟨⟨e, he, rfl⟩, hne⟩
        exact ⟨e, ⟨he, fun hboth => bne_iff_ne.1 hne hboth.2⟩, rfl⟩
      · rintro ⟨e, ⟨he, hnot⟩, rfl⟩
        exact ⟨⟨e, he, rfl⟩, bne_iff_ne.2 fun hx => hnot ⟨hy, hx⟩⟩
    · rw [if_neg hy, hlinked]
      constructor
      · rintro ⟨e, he, rfl⟩
        exact ⟨e, ⟨he, fun hboth => hy hboth.1⟩, rfl⟩
      · rintro ⟨e, ⟨he, -⟩, rfl⟩
        exact ⟨e, he, rfl⟩
  · rw [← h.operator?]
    exact operator?_cut x
  · exact (hmem i.source _).trans (and_congr (h.reads x i) Iff.rfl)

/-- Disconnecting two operators is to cut the edges between them, if it succeeds. -/
theorem ends_disconnect_cut {post : PUnit → Graph γ → Prop} (h : post ⟨⟩ (g.cut s t)) :
    (disconnect s t).Ends g post := by
  unfold disconnect
  simp only [Edit.ends_bind, ends_require, Edit.ends_modify]
  exact fun _ _ _ _ => h

/-- Without the edges between two operators nothing else changes. -/
theorem wired_disconnect (h : g.Wired size ops reads) :
    (disconnect s t).Ends g fun _ g' =>
      g'.Wired size ops fun x i => reads x i ∧ ¬ (x = t ∧ i.source = s) :=
  ends_disconnect_cut (wired_cut h)

/-- Emptying the slot of an operator without edges changes no edges. -/
theorem succeeding_emptied (h : g.Wired size ops reads)
    (halone : ∀ x i, reads x i → x ≠ id ∧ i.source ≠ id) (x : OperatorId) :
    (⟨g.slots.set id none⟩ : Graph γ).succeeding x = g.succeeding x := by
  rw [succeeding, node?_emptied]
  split
  · next hx =>
    symm
    refine List.eq_nil_iff_forall_not_mem.2 fun e he => ?_
    exact (halone e.target ⟨x, e.operand, e.feedback⟩ (h.mem_succeeding.1 he)).2 hx
  · rfl

/-- A node without edges is recorded by nobody. -/
theorem preceding_emptied (h : g.Wired size ops reads)
    (halone : ∀ x i, reads x i → x ≠ id ∧ i.source ≠ id) (x : OperatorId) :
    (⟨g.slots.set id none⟩ : Graph γ).preceding x = g.preceding x := by
  rw [preceding, node?_emptied]
  split
  · next hx =>
    symm
    refine List.eq_nil_iff_forall_not_mem.2 fun y hy => ?_
    obtain ⟨e, he, htarget⟩ := (h.linked y x).1 hy
    exact (halone e.target ⟨y, e.operand, e.feedback⟩ (h.mem_succeeding.1 he)).1
      (htarget.trans hx)
  · rfl

/-- Once all its edges are gone an operator can be taken out. -/
theorem wired_emptied (h : g.Wired size ops reads)
    (halone : ∀ x i, reads x i → x ≠ id ∧ i.source ≠ id) :
    (⟨g.slots.set id none⟩ : Graph γ).Wired size
    (fun x => if x = id then none else ops x) reads := by
  have hsucceeding := succeeding_emptied h halone
  refine ⟨fun x y => ?_, by simpa using h.length, fun x => ?_, fun x i =>
    (reads_congr hsucceeding).trans (h.reads x i)⟩
  · rw [hsucceeding, preceding_emptied h halone]
    exact h.linked x y
  · rw [Graph.operator?, node?_emptied]
    split
    · rfl
    · exact h.operator? x

/-- The first part of a removal leaves an operator without edges. -/
theorem wired_detach (h : g.Wired size ops reads) {n : Node γ} (hn : g.node? id = some n) :
    (n.preceding.forM fun source => disconnect source id).Ends g fun _ g₁ =>
      (n.succeeding.forM fun edge => disconnect id edge.target).Ends g₁ fun _ g₂ =>
        g₂.Wired size ops fun x i => reads x i ∧ x ≠ id ∧ i.source ≠ id := by
  have hpreceding {x : OperatorId} {i : Input} (hi : reads x i) (hx : x = id) :
      i.source ∈ n.preceding := by
    have hlinked := (h.linked i.source x).2 ⟨_, (h.reads x i).2 hi, rfl⟩
    simpa [preceding, hx, hn] using hlinked
  have hsucceeding {x : OperatorId} {i : Input} (hi : reads x i) (hsource : i.source = id) :
      ∃ e ∈ n.succeeding, e.target = x := by
    have hread : _ ∈ g.succeeding i.source := (h.reads x i).2 hi
    rw [hsource] at hread
    exact ⟨_, by simpa [succeeding, hn] using hread, rfl⟩
  refine (Edit.ends_forM_of_step (fun done g' => g'.Wired size ops fun x i =>
    reads x i ∧ ¬ (x = id ∧ i.source ∈ done)) (h.congr (fun _ => rfl) (by simp))
      fun done a rest _ g' h' => ?_).mono fun _ g₁ h₁ => ?_
  · refine (wired_disconnect h').mono fun _ g'' h'' => h''.congr (fun _ => rfl) fun x i => ?_
    simp only [List.mem_append, List.mem_singleton]
    tauto
  refine (Edit.ends_forM_of_step (fun done g' => g'.Wired size ops fun x i =>
    (reads x i ∧ ¬ (x = id ∧ i.source ∈ n.preceding)) ∧
      ¬ (i.source = id ∧ ∃ e ∈ done, e.target = x)) (h₁.congr (fun _ => rfl) (by simp))
        fun done e rest _ g' h' => ?_).mono fun _ g₂ h₂ => ?_
  · refine (wired_disconnect h').mono fun _ g'' h'' => h''.congr (fun _ => rfl) fun x i => ?_
    simp only [List.mem_append, List.mem_singleton, or_and_right, exists_or, exists_eq_left]
    rw [and_assoc]
    refine and_congr_right fun _ => ?_
    constructor
    · rintro ⟨hdone, he⟩ ⟨hs, hx | hx⟩
      · exact hdone ⟨hs, hx⟩
      · exact he ⟨hx.symm, hs⟩
    · intro hnot
      exact ⟨fun hdone => hnot ⟨hdone.1, .inl hdone.2⟩, fun he => hnot ⟨he.2, .inr he.1.symm⟩⟩
  · refine h₂.congr (fun _ => rfl) fun x i => ?_
    constructor
    · rintro ⟨⟨hi, hleft⟩, hright⟩
      exact ⟨hi, fun hx => hleft ⟨hx, hpreceding hi hx⟩,
        fun hsource => hright ⟨hsource, hsucceeding hi hsource⟩⟩
    · rintro ⟨hi, hx, hsource⟩
      exact ⟨⟨hi, fun hleft => hx hleft.1⟩, fun hright => hsource hright.1⟩

/-- To remove an operator takes all of its edges away. The root is not removed. -/
theorem wired_remove (h : g.Wired size ops reads) :
    (remove id).Ends g fun _ g' =>
      id ≠ root ∧ g'.Wired size (fun x => if x = id then none else ops x)
      fun x i => reads x i ∧ x ≠ id ∧ i.source ≠ id := by
  unfold remove
  refine Edit.ends_ite (fun _ => Edit.ends_bind.2 Edit.ends_fault) fun hid => ?_
  refine Edit.ends_bind.2 (ends_require.2 fun n hn => ?_)
  refine (wired_detach h hn).bind fun _ g₁ h₁ => h₁.bind fun _ g₂ h₂ => ?_
  rw [Edit.ends_bind, Edit.ends_modify]
  exact Edit.ends_pure.2 ⟨hid, wired_emptied h₂ fun x i hi => hi.2⟩

/-- An operator takes the place of another one, with its edges. -/
theorem wired_setOperator (h : g.Wired size ops reads) (op : Operator γ) :
    (setOperator id op).Ends g fun _ g' => ops id ≠ none ∧
      g'.Wired size (fun x => if x = id then some op else ops x) reads := by
  refine ends_setOperator_of fun hid => ⟨h.contains_iff.1 hid, fun x y => ?_,
    by simpa using h.length, fun x => ?_,
    fun x i => (reads_congr succeeding_mapNode_operator).trans (h.reads x i)⟩
  · rw [succeeding_mapNode_operator, preceding_mapNode_operator]
    exact h.linked x y
  · rw [operator?_mapNode_operator hid, h.operator?]

/-- To compute the variable sets changes neither operators nor edges. -/
theorem wired_updateVariables (h : g.Wired size ops reads) :
    updateVariables.Ends g fun _ g' => g'.Wired size ops reads := by
  intro _ g' hrun
  obtain ⟨-, hsame⟩ := updateVariables_eq_ok hrun
  refine ⟨fun x y => ?_, hsame.length.trans h.length, fun x =>
    (hsame.operator? x).trans (h.operator? x), fun x i =>
      (reads_congr hsame.succeeding).trans (h.reads x i)⟩
  rw [hsame.succeeding, hsame.preceding]
  exact h.linked x y

end Graph

/-! ## Steps of workspaces -/

namespace Reshape

variable {γ : Type} {w : Workspace γ} {id s t : OperatorId} {op : Operator γ} {size : Nat}
  {ops : OperatorId → Option (Operator γ)} {reads : OperatorId → Input → Prop}

theorem wired_add (h : w.graph.Wired size ops reads) (op : Operator γ) :
    (add op).Ends w fun n w' =>
      n = size ∧ w'.graph.Wired (size + 1) (fun x => if x = n then some op else ops x) reads := by
  unfold add onIndex onGraph
  refine Edit.ends_bind.2 (Edit.ends_within.2 ((Graph.wired_add h op).mono fun n g' h' => ?_))
  exact Edit.ends_bind.2 (Edit.ends_modify.2 (Edit.ends_pure.2 h'))

theorem wired_connect (h : w.graph.Wired size ops reads) (operand : Nat) (feedback : Bool) :
    (connect s t operand feedback).Ends w fun _ w' => ops s ≠ none ∧ ops t ≠ none ∧
      w'.graph.Wired size ops fun x i => reads x i ∨ x = t ∧ i = ⟨s, operand, feedback⟩ := by
  unfold connect onGraph
  exact Edit.ends_within.2 (Graph.wired_connect h operand feedback)

theorem wired_disconnect (h : w.graph.Wired size ops reads) :
    (disconnect s t).Ends w fun _ w' =>
      w'.graph.Wired size ops fun x i => reads x i ∧ ¬ (x = t ∧ i.source = s) := by
  unfold disconnect onGraph
  exact Edit.ends_within.2 (Graph.wired_disconnect h)

theorem wired_remove (h : w.graph.Wired size ops reads) :
    (remove id).Ends w fun _ w' => id ≠ Graph.root ∧
      w'.graph.Wired size (fun x => if x = id then none else ops x)
        fun x i => reads x i ∧ x ≠ id ∧ i.source ≠ id := by
  unfold remove onIndex onGraph
  refine Edit.ends_bind.2 (Edit.ends_within.2 ((Graph.wired_remove h).mono fun _ g' h' => ?_))
  exact Edit.ends_modify.2 h'

theorem wired_replaceOperator (h : w.graph.Wired size ops reads) (op : Operator γ) :
    (replaceOperator id op).Ends w fun _ w' => ops id ≠ none ∧
      w'.graph.Wired size (fun x => if x = id then some op else ops x) reads := by
  unfold replaceOperator onIndex onGraph
  refine Edit.ends_bind.2 (ends_operator.2 fun _ _ => ?_)
  refine Edit.ends_bind.2
    (Edit.ends_within.2 ((Graph.wired_setOperator h op).mono fun _ g' h' => ?_))
  exact Edit.ends_modify.2 h'

/-- Several new edges from one producer. -/
theorem wired_feedAll (h : w.graph.Wired size ops reads) (edges : List Edge) :
    (feedAll s edges).Ends w fun _ w' => w'.graph.Wired size ops fun x i =>
      reads x i ∨ ∃ e ∈ edges, x = e.target ∧ i = ⟨s, e.operand, e.feedback⟩ := by
  refine Edit.ends_forM_of_step (fun (done : List Edge) (w' : Workspace γ) =>
    w'.graph.Wired size ops fun x i =>
      reads x i ∨ ∃ e ∈ done, x = e.target ∧ i = ⟨s, e.operand, e.feedback⟩)
      (h.congr (fun _ => rfl) (by simp)) fun done e rest _ w' h' => ?_
  refine (wired_connect h' e.operand e.feedback).mono fun _ w'' ⟨_, _, h''⟩ =>
    h''.congr (fun _ => rfl) fun x i => ?_
  simp only [List.mem_append, List.mem_singleton, or_and_right, exists_or, exists_eq_left, or_assoc]

/-- Who has read one operator reads another one in its place, over the same operands. -/
theorem wired_redirectOutputs (h : w.graph.Wired size ops reads) (hne : s ≠ t) :
    (redirectOutputs s t).Ends w fun _ w' => w'.graph.Wired size ops fun x i =>
      reads x i ∧ i.source ≠ s ∨ i.source = t ∧ reads x ⟨s, i.operand, i.feedback⟩ := by
  unfold redirectOutputs
  refine Edit.ends_bind.2 (ends_look.2 ?_)
  refine (Edit.ends_forM_of_step (fun (done : List Edge) (w' : Workspace γ) =>
    w'.graph.Wired size ops fun x i => (reads x i ∧ ¬ (i.source = s ∧ ∃ e ∈ done, e.target = x)) ∨
      ∃ e ∈ done, x = e.target ∧ i = ⟨t, e.operand, e.feedback⟩)
        (h.congr (fun _ => rfl) (by simp)) fun done e rest _ w₁ h₁ => ?_).mono fun _ w' h' =>
          h'.congr (fun _ => rfl) fun x i => ?_
  · refine (wired_disconnect h₁).bind fun _ w₂ h₂ => ?_
    refine (wired_connect h₂ e.operand e.feedback).mono fun _ w₃ ⟨_, _, h₃⟩ =>
      h₃.congr (fun _ => rfl) fun x i => ?_
    simp only [List.mem_append, List.mem_singleton, or_and_right, exists_or, exists_eq_left]
    constructor
    · rintro ((⟨⟨hi, hnot⟩, hnot'⟩ | ⟨hnew, -⟩) | hnew)
      · refine .inl ⟨hi, ?_⟩
        rintro ⟨hs, hdone | rfl⟩
        · exact hnot ⟨hs, hdone⟩
        · exact hnot' ⟨rfl, hs⟩
      · exact .inr (.inl hnew)
      · exact .inr (.inr hnew)
    · rintro (⟨hi, hnot⟩ | ⟨e', he', rfl, rfl⟩ | hnew)
      · exact .inl (.inl ⟨⟨hi, fun ⟨hs, hdone⟩ => hnot ⟨hs, .inl hdone⟩⟩,
          fun ⟨hx, hs⟩ => hnot ⟨hs, .inr hx.symm⟩⟩)
      · exact .inl (.inr ⟨⟨e', he', rfl, rfl⟩, fun ⟨_, hs⟩ => hne hs.symm⟩)
      · exact .inr hnew
  · have hout (x : OperatorId) (k : Nat) (f : Bool) :
        (⟨x, k, f⟩ : Edge) ∈ w.graph.succeeding s ↔ reads x ⟨s, k, f⟩ := h.mem_succeeding
    refine or_congr (and_congr_right fun hi => not_congr ?_) ?_
    · rw [and_iff_left_iff_imp]
      intro hs
      exact ⟨⟨x, i.operand, i.feedback⟩, (hout _ _ _).2 (hs ▸ hi), rfl⟩
    · constructor
      · rintro ⟨e, he, rfl, rfl⟩
        exact ⟨rfl, (hout _ _ _).1 he⟩
      · rintro ⟨rfl, hread⟩
        exact ⟨⟨x, i.operand, i.feedback⟩, (hout _ _ _).2 hread, rfl, rfl⟩

/-- An operator that is put between two others reads the one, and is read by the other over the same
operand. -/
theorem wired_insertBetween (h : w.graph.Wired size ops reads) {i : Input} (op : Operator γ) :
    (insertBetween i t op).Ends w fun n w' =>
      n = size ∧
        w'.graph.Wired (size + 1) (fun x => if x = n then some op else ops x) fun x j =>
          reads x j ∧ ¬ (x = t ∧ j.source = i.source) ∨ x = n ∧ j = ⟨i.source, 0, false⟩ ∨
            x = t ∧ j = ⟨n, i.operand, i.feedback⟩ := by
  unfold insertBetween
  refine (wired_add h op).bind fun n w₁ ⟨hn, h₁⟩ => ?_
  refine (wired_disconnect h₁).bind fun _ w₂ h₂ => ?_
  refine (wired_connect h₂ 0 false).bind fun _ w₃ ⟨_, _, h₃⟩ => ?_
  refine (wired_connect h₃ i.operand i.feedback).bind fun _ w₄ ⟨_, _, h₄⟩ => ?_
  exact Edit.ends_pure.2 ⟨hn, h₄.congr (fun _ => rfl) fun x j => or_assoc⟩

/-- A workspace whose variable sets are computed again keeps its operators and edges. -/
theorem wired_refresh (h : w.graph.Wired size ops reads) :
    (refresh : Reshape γ Unit).Ends w fun _ w' => w'.graph.Wired size ops reads := by
  unfold refresh onGraph
  exact Edit.ends_within.2 (Graph.wired_updateVariables h)

end Reshape

end QuadAlgebra
