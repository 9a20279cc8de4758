import Mathlib.Data.List.Nodup
import QuadAlgebra.Proofs.Semantics.Rounds

/-!
# Graphs that grow

A graph is linked if both sides of every edge know of it. A tidy graph is linked, has no gaps,
records every edge once, and lets no operator read two edges on one operand. In such a graph the
inputs of an operator are its edges in the order of their operands, so that a new operator has none
(`inputs_withOperator`) and a new edge on a new operand comes last (`inputs_withEdge`); both leave
the inputs of all other operators as they are.

A graph is ranked if some rank rises along every forward edge; then it has a topological order.
Ranks survive a new edge into an operator that nobody reads yet.
-/

namespace QuadAlgebra

namespace Graph

variable {γ : Type} {g : Graph γ} {id s t : OperatorId} {op : Operator γ} {e : Edge}

/-- Graphs with the same nodes are equal. -/
theorem ext_node? {g' : Graph γ} (hlength : g.slots.length = g'.slots.length)
    (h : ∀ id, g.node? id = g'.node? id) : g = g' := by
  obtain ⟨slots⟩ := g
  obtain ⟨slots'⟩ := g'
  refine congrArg Graph.mk (List.ext_getElem hlength fun k hk hk' => ?_)
  have hnode := h k
  rwa [node?, node?, List.getElem?_eq_getElem hk, List.getElem?_eq_getElem hk'] at hnode

/-! ## Linked graphs -/

/-- Both sides of every edge know of it. -/
def Linked (g : Graph γ) : Prop := ∀ s t, s ∈ g.preceding t ↔ ∃ e ∈ g.succeeding s, e.target = t

/-- The inputs of an operator are the edges to it that producers have recorded. -/
theorem Linked.mem_inputs (h : g.Linked) {i : Input} :
    i ∈ g.inputs t ↔ ⟨t, i.operand, i.feedback⟩ ∈ g.succeeding i.source := by
  rw [Graph.mem_inputs, and_iff_right_iff_imp]
  exact fun he => (h i.source t).2 ⟨_, he, rfl⟩

/-- Edges lead to operators that are there. -/
theorem Linked.contains_target (h : g.Linked) (he : e ∈ g.succeeding s) :
    g.contains e.target = true := by
  have hs := (h s e.target).2 ⟨e, he, rfl⟩
  unfold preceding at hs
  unfold contains
  cases hn : g.node? e.target with
  | none => simp [hn] at hs
  | some n => rfl

/-! ## Tidy graphs -/

/-- A graph that has only grown: no number is free, both sides know the edges, and the operands of
each operator ascend. -/
structure Tidy (g : Graph γ) : Prop where
  live : ∀ id, g.contains id = true ↔ id < g.slots.length
  both : ∀ s t, s ∈ g.preceding t ↔ ∃ e ∈ g.succeeding s, e.target = t
  nodup : ∀ s, (g.succeeding s).Nodup
  ascending : ∀ t, (g.inputs t).Pairwise fun i j => i.operand < j.operand

/-- Some rank rises along every forward edge. -/
def Ranked (g : Graph γ) : Prop :=
  ∃ rank : OperatorId → Nat, ∀ t, ∀ i ∈ g.inputs t, i.feedback = false → rank i.source < rank t

/-- Whether nobody reads an operator. -/
def Unread (g : Graph γ) (id : OperatorId) : Prop := ∀ t, ∀ i ∈ g.inputs t, i.source ≠ id

/-- The inputs of an operator in a tidy graph. -/
theorem Tidy.mem_inputs (h : g.Tidy) {i : Input} :
    i ∈ g.inputs t ↔ ⟨t, i.operand, i.feedback⟩ ∈ g.succeeding i.source :=
  Linked.mem_inputs h.both

/-- All numbers below the size belong to operators. -/
theorem Tidy.mem_ids (h : g.Tidy) : id ∈ g.ids ↔ id < g.slots.length :=
  Graph.mem_ids.trans (h.live id)

theorem Tidy.contains_target (h : g.Tidy) (he : e ∈ g.succeeding s) :
    g.contains e.target = true := Linked.contains_target h.both he

/-- An edge that is recorded once is one input. -/
theorem Tidy.nodup_inputs (h : ∀ s, (g.succeeding s).Nodup) : (g.inputs t).Nodup := by
  refine (stableSort_perm _ _).nodup_iff.2 (List.nodup_flatMap.2 ⟨fun s _ => ?_, ?_⟩)
  · refine ((h s).filter _).map_on fun a ha b hb hab => ?_
    have hta : a.target = t := beq_iff_eq.1 (List.mem_filter.1 ha).2
    have htb : b.target = t := beq_iff_eq.1 (List.mem_filter.1 hb).2
    cases a
    cases b
    simp_all
  · refine (nodup_distinctOf _).imp fun {a b} hab => List.disjoint_left.2 fun x hx hx' => hab ?_
    obtain ⟨e, -, rfl⟩ := List.mem_map.1 hx
    obtain ⟨e', -, he⟩ := List.mem_map.1 hx'
    exact (congrArg Input.source he).symm

/-- The inputs of an operator are the only list of its edges with ascending operands. -/
theorem inputs_eq (hnodup : ∀ s, (g.succeeding s).Nodup) {l : List Input}
    (hl : l.Pairwise fun i j => i.operand < j.operand) (hmem : ∀ i, i ∈ g.inputs t ↔ i ∈ l) :
    g.inputs t = l := by
  have hperm : (g.inputs t).Perm l :=
    (List.perm_ext_iff_of_nodup (Tidy.nodup_inputs hnodup)
      (hl.imp fun hlt he => by simp [he] at hlt)).2 hmem
  have hsorted : (g.inputs t).Pairwise fun i j => i.operand ≤ j.operand :=
    pairwise_stableSort Input.operand _
  have hkeys : (l.map Input.operand).Nodup := List.pairwise_map.2 (hl.imp Nat.ne_of_lt)
  refine hperm.eq_of_pairwise (fun i j hi hj hij hji => ?_) hsorted (hl.imp Nat.le_of_lt)
  exact List.inj_on_of_nodup_map hkeys ((hmem i).1 hi) hj (Nat.le_antisymm hij hji)

/-- The topological order of a ranked graph. -/
theorem topologicalOrder_of_ranked (htidy : g.Tidy) (h : g.Ranked) :
    ∃ order, g.topologicalOrder = .ok order := by
  obtain ⟨rank, hrank⟩ := h
  have hforward : ∀ x, ∀ y ∈ g.forward x, rank x < rank y := by
    intro x y hy
    obtain ⟨-, e, he, rfl, hf⟩ := mem_forward.1 hy
    exact hrank e.target ⟨x, e.operand, e.feedback⟩ (htidy.mem_inputs.2 he) hf
  exact topologicalOrder_of_rank hforward

/-- What arrives at an operator of a tidy graph, edge by edge. -/
theorem Tidy.deliver_eq (h : g.Tidy) (read : Input → List Row) :
    g.deliver read id = (g.inputs id).map fun i => (i.operand, read i) := by
  have hasc := h.ascending id
  simp only [deliver, operandGroups]
  generalize g.inputs id = inputs at hasc ⊢
  have hkeys : (inputs.map Input.operand).Nodup :=
    List.pairwise_map.2 (hasc.imp Nat.ne_of_lt)
  have hdistinct : distinctOf (inputs.map Input.operand) = inputs.map Input.operand := by
    unfold distinctOf
    suffices ∀ (l seen : List Nat), (seen.reverse ++ l).Nodup →
        l.foldl (fun seen a => if seen.contains a then seen else a :: seen) seen =
          l.reverse ++ seen by
      rw [this _ [] (by simpa using hkeys), List.append_nil, List.reverse_reverse]
    intro l
    induction l with
    | nil => exact fun seen _ => rfl
    | cons a rest ih =>
        intro seen hn
        have ha : a ∉ seen := fun hs =>
          (List.nodup_append.1 hn).2.2 a (List.mem_reverse.2 hs) a List.mem_cons_self rfl
        rw [List.foldl_cons, if_neg fun hc => ha (List.contains_iff_mem.1 hc),
          ih (a :: seen) (by simpa using hn)]
        simp
  rw [hdistinct, List.map_map, List.map_map]
  refine List.map_congr_left fun i hi => ?_
  have honly : (inputs.filter fun j => j.operand == i.operand) = [i] := by
    obtain ⟨l, r, rfl⟩ := List.append_of_mem hi
    have hne := hkeys
    rw [List.map_append, List.map_cons, List.nodup_middle, List.nodup_cons] at hne
    rw [List.filter_append, List.filter_cons_of_pos (by simp)]
    have hl : l.filter (fun j => j.operand == i.operand) = [] := by
      refine List.filter_eq_nil_iff.2 fun j hj hij => hne.1 ?_
      exact List.mem_append_left _ (List.mem_map.2 ⟨j, hj, beq_iff_eq.1 hij⟩)
    have hr : r.filter (fun j => j.operand == i.operand) = [] := by
      refine List.filter_eq_nil_iff.2 fun j hj hij => hne.1 ?_
      exact List.mem_append_right _ (List.mem_map.2 ⟨j, hj, beq_iff_eq.1 hij⟩)
    rw [hl, hr]
    rfl
  simp [honly]

/-! ## A new operator -/

/-- The graph with one more operator, which has no edges yet. -/
def withOperator (g : Graph γ) (op : Operator γ) : Graph γ := ⟨g.slots ++ [some (.isolated op)]⟩

@[simp] theorem length_withOperator (op : Operator γ) :
    (g.withOperator op).slots.length = g.slots.length + 1 := by
  simp [withOperator]

/-- Beyond the size there are no nodes. -/
theorem node?_eq_none (h : g.slots.length ≤ id) : g.node? id = none := by
  rw [node?, List.getElem?_eq_none h]
  rfl

/-- A new operator is a node of its own, without edges. -/
theorem node?_withOperator (x : OperatorId) :
    (g.withOperator op).node? x =
      if x = g.slots.length then some (.isolated op) else g.node? x := by
  unfold node? withOperator
  rcases Nat.lt_trichotomy x g.slots.length with hx | hx | hx
  · rw [List.getElem?_append_left hx, if_neg (Nat.ne_of_lt hx)]
  · simp [hx]
  · rw [List.getElem?_append_right (Nat.le_of_lt hx), if_neg (Nat.ne_of_gt hx)]
    rw [List.getElem?_eq_none (by simp; omega), List.getElem?_eq_none (Nat.le_of_lt hx)]

theorem succeeding_withOperator (x : OperatorId) :
    (g.withOperator op).succeeding x = g.succeeding x := by
  unfold succeeding
  rw [node?_withOperator]
  split
  · next hx => rw [hx, node?_eq_none (Nat.le_refl _)]; rfl
  · rfl

theorem preceding_withOperator (x : OperatorId) :
    (g.withOperator op).preceding x = g.preceding x := by
  unfold preceding
  rw [node?_withOperator]
  split
  · next hx => rw [hx, node?_eq_none (Nat.le_refl _)]; rfl
  · rfl

theorem operator?_withOperator (x : OperatorId) :
    (g.withOperator op).operator? x = if x = g.slots.length then some op else g.operator? x := by
  unfold operator?
  rw [node?_withOperator]
  split <;> rfl

@[simp] theorem inputs_withOperator (x : OperatorId) :
    (g.withOperator op).inputs x = g.inputs x := by
  simp only [inputs, edgesBetween, succeeding_withOperator, preceding_withOperator]

/-- Nobody feeds what is not there. -/
theorem inputs_of_length_le (h : g.Tidy) {x : OperatorId} (hx : g.slots.length ≤ x) :
    g.inputs x = [] := by
  refine List.eq_nil_iff_forall_not_mem.2 fun i hi => ?_
  have hlive := (h.live _).1 (h.contains_target (h.mem_inputs.1 hi))
  exact absurd hlive (Nat.not_lt.2 hx)

/-- Just one number more belongs to an operator. -/
theorem contains_withOperator (x : OperatorId) :
    (g.withOperator op).contains x = true ↔ x = g.slots.length ∨ g.contains x = true := by
  unfold contains
  rw [node?_withOperator]
  split <;> simp [*]

/-- A new operator leaves both sides of all edges as they were. -/
theorem Linked.withOperator (h : g.Linked) : (g.withOperator op).Linked := fun s t => by
  rw [preceding_withOperator, succeeding_withOperator]
  exact h s t

/-- A new operator keeps a graph tidy. -/
theorem Tidy.withOperator (h : g.Tidy) : (g.withOperator op).Tidy where
  live x := by
    rw [contains_withOperator, h.live, length_withOperator, Nat.lt_succ_iff_lt_or_eq, or_comm]
  both := Linked.withOperator h.both
  nodup s := by
    rw [succeeding_withOperator]
    exact h.nodup s
  ascending t := by
    rw [inputs_withOperator]
    exact h.ascending t

/-- A new operator may get any rank. -/
theorem Ranked.withOperator (h : g.Ranked) : (g.withOperator op).Ranked := by
  obtain ⟨rank, hrank⟩ := h
  exact ⟨rank, fun t i hi => hrank t i (by rwa [inputs_withOperator] at hi)⟩

/-- Nobody reads an operator that has just been added. -/
theorem unread_withOperator (h : g.Tidy) : (g.withOperator op).Unread g.slots.length := by
  intro t i hi hsource
  rw [inputs_withOperator, h.mem_inputs] at hi
  have hlive := (h.live _).1 (contains_of_mem_succeeding hi)
  exact absurd (hsource ▸ hlive) (Nat.lt_irrefl _)

/-! ## The empty graph -/

theorem node?_empty (x : OperatorId) :
    (empty : Graph γ).node? x = if x = root then some (.isolated .root) else none := by
  rcases x with _ | x <;> rfl

/-- The empty graph holds its root and nothing else. -/
theorem operator?_empty (x : OperatorId) :
    (empty : Graph γ).operator? x = if x = root then some .root else none := by
  rw [operator?, node?_empty]
  split <;> rfl

theorem eq_root_of_empty (hop : (empty : Graph γ).operator? id = some op) :
    id = root ∧ op = .root := by
  rw [operator?_empty] at hop
  split at hop
  · next hid => exact ⟨hid, (Option.some.inj hop).symm⟩
  · cases hop

@[simp] theorem succeeding_empty (x : OperatorId) : (empty : Graph γ).succeeding x = [] := by
  rw [succeeding, node?_empty]
  split <;> rfl

@[simp] theorem preceding_empty (x : OperatorId) : (empty : Graph γ).preceding x = [] := by
  rw [preceding, node?_empty]
  split <;> rfl

@[simp] theorem inputs_empty (x : OperatorId) : (empty : Graph γ).inputs x = [] := by
  rw [inputs, preceding_empty]
  rfl

theorem linked_empty : (empty : Graph γ).Linked := fun s t => by simp

/-! ## A new edge -/

/-- The graph with one more edge. -/
def withEdge (g : Graph γ) (source : OperatorId) (e : Edge) : Graph γ :=
  (g.mapNode source fun n => { n with succeeding := n.succeeding ++ [e] }).mapNode e.target
    fun n => { n with preceding := n.preceding ++ [source] }

/-- Only one node is changed. -/
theorem node?_mapNode (f : Node γ → Node γ) (x : OperatorId) :
    (g.mapNode id f).node? x = if x = id then (g.node? x).map f else g.node? x := by
  unfold node? mapNode
  rw [List.getElem?_modify]
  by_cases hx : x = id
  · subst hx
    cases g.slots[x]? <;> simp
  · rw [if_neg hx]
    simp [Ne.symm hx]

@[simp] theorem length_mapNode (f : Node γ → Node γ) :
    (g.mapNode id f).slots.length = g.slots.length := by
  simp [mapNode]

@[simp] theorem length_withEdge : (g.withEdge s e).slots.length = g.slots.length := by
  simp [withEdge]

/-- An edge is recorded at both of its ends. -/
theorem node?_withEdge (x : OperatorId) :
    (g.withEdge s e).node? x = (g.node? x).map fun n =>
      { n with
        succeeding := if x = s then n.succeeding ++ [e] else n.succeeding
        preceding := if x = e.target then n.preceding ++ [s] else n.preceding } := by
  unfold withEdge
  rw [node?_mapNode, node?_mapNode]
  cases g.node? x with
  | none => simp
  | some n => split <;> split <;> simp

theorem operator?_withEdge (x : OperatorId) :
    (g.withEdge s e).operator? x = g.operator? x := by
  unfold operator?
  rw [node?_withEdge]
  cases g.node? x <;> rfl

theorem contains_withEdge (x : OperatorId) :
    (g.withEdge s e).contains x = g.contains x := by
  unfold contains
  rw [node?_withEdge]
  cases g.node? x <;> rfl

/-- The producer records a new edge after those that it had. -/
theorem succeeding_withEdge (hs : g.contains s = true) (x : OperatorId) :
    (g.withEdge s e).succeeding x =
      if x = s then g.succeeding x ++ [e] else g.succeeding x := by
  unfold succeeding
  rw [node?_withEdge]
  unfold contains at hs
  by_cases hx : x = s
  · obtain ⟨n, hn⟩ := Option.isSome_iff_exists.1 hs
    simp [hx, hn]
  · cases g.node? x <;> simp [hx]

/-- The consumer records the producer once more. -/
theorem preceding_withEdge (ht : g.contains e.target = true) (x : OperatorId) :
    (g.withEdge s e).preceding x =
      if x = e.target then g.preceding x ++ [s] else g.preceding x := by
  unfold preceding
  rw [node?_withEdge]
  unfold contains at ht
  by_cases hx : x = e.target
  · obtain ⟨n, hn⟩ := Option.isSome_iff_exists.1 ht
    simp [hx, hn]
  · cases g.node? x <;> simp [hx]

/-- A new edge between operators that are there is known to both sides. -/
theorem Linked.withEdge (h : g.Linked) (hs : g.contains s = true)
    (ht : g.contains e.target = true) : (g.withEdge s e).Linked := by
  intro x y
  rw [preceding_withEdge ht, succeeding_withEdge hs]
  by_cases hy : y = e.target
  · by_cases hx : x = s
    · subst hy hx
      simp
    · rw [if_pos hy, if_neg hx, List.mem_append, h]
      simp [hx]
  · rw [if_neg hy, h]
    by_cases hx : x = s
    · rw [if_pos hx]
      constructor
      · rintro ⟨e', he', rfl⟩
        exact ⟨e', List.mem_append_left _ he', rfl⟩
      · rintro ⟨e', he', rfl⟩
        rcases List.mem_append.1 he' with he' | he'
        · exact ⟨e', he', rfl⟩
        · exact absurd (congrArg Edge.target (List.mem_singleton.1 he')) hy
    · rw [if_neg hx]

section NewEdge

variable (htidy : g.Tidy) (hs : g.contains s = true) (ht : g.contains e.target = true)
  (hnew : ∀ i ∈ g.inputs e.target, i.operand < e.operand)

include htidy hnew in
/-- An edge over a new operand has not been recorded. -/
theorem not_mem_succeeding : e ∉ g.succeeding s := fun he =>
  absurd (hnew ⟨s, e.operand, e.feedback⟩ (htidy.mem_inputs.2 he)) (Nat.lt_irrefl _)

include htidy hs hnew in
theorem nodup_withEdge (x : OperatorId) : ((g.withEdge s e).succeeding x).Nodup := by
  rw [succeeding_withEdge hs]
  split
  · next hx =>
    refine List.nodup_append.2 ⟨htidy.nodup x, by simp, fun a ha b hb hab => ?_⟩
    rw [List.mem_singleton.1 hb] at hab
    exact not_mem_succeeding htidy hnew (hx ▸ hab ▸ ha)
  · exact htidy.nodup x

include htidy hs ht hnew in
/-- A new edge on a new operand is the last input of its target and of no concern to others. -/
theorem inputs_withEdge (x : OperatorId) :
    (g.withEdge s e).inputs x =
      if x = e.target then g.inputs x ++ [⟨s, e.operand, e.feedback⟩] else g.inputs x := by
  refine inputs_eq (nodup_withEdge htidy hs hnew) ?_ fun i => ?_
  · split
    · next hx =>
      refine List.pairwise_append.2 ⟨htidy.ascending x, List.pairwise_singleton _ _, ?_⟩
      intro i hi j hj
      rw [List.mem_singleton.1 hj]
      exact hnew i (hx ▸ hi)
    · exact htidy.ascending x
  · have hmem : i ∈ (g.withEdge s e).inputs x ↔
        ⟨x, i.operand, i.feedback⟩ ∈ (g.withEdge s e).succeeding i.source :=
      (Linked.withEdge htidy.both hs ht).mem_inputs
    rw [hmem, succeeding_withEdge hs]
    obtain ⟨source, k, f⟩ := i
    obtain ⟨target, k', f'⟩ := e
    by_cases hsource : source = s <;> by_cases hx : x = target <;>
      simp [hsource, hx, htidy.mem_inputs]

include htidy hs ht hnew in
/-- A new edge over the highest operand keeps a graph tidy. -/
theorem Tidy.withEdge : (g.withEdge s e).Tidy where
  live x := by rw [contains_withEdge, length_withEdge, htidy.live]
  both := Linked.withEdge htidy.both hs ht
  nodup := nodup_withEdge htidy hs hnew
  ascending x := by
    rw [inputs_withEdge htidy hs ht hnew]
    split
    · next hx =>
      refine List.pairwise_append.2 ⟨htidy.ascending x, List.pairwise_singleton _ _, ?_⟩
      intro i hi j hj
      rw [List.mem_singleton.1 hj]
      exact hnew i (hx ▸ hi)
    · exact htidy.ascending x

include htidy hs ht hnew in
/-- Ranks survive an edge back and an edge into an operator that nobody reads. -/
theorem Ranked.withEdge (h : g.Ranked)
    (hback : e.feedback = true ∨ (s ≠ e.target ∧ g.Unread e.target)) :
    (g.withEdge s e).Ranked := by
  obtain ⟨rank, hrank⟩ := h
  rcases hback with hback | ⟨hne, hunread⟩
  · refine ⟨rank, fun t i hi hf => ?_⟩
    rw [inputs_withEdge htidy hs ht hnew] at hi
    split at hi
    · rcases List.mem_append.1 hi with hi | hi
      · exact hrank t i hi hf
      · rw [List.mem_singleton.1 hi, hback] at hf
        exact absurd hf Bool.noConfusion
    · exact hrank t i hi hf
  · refine ⟨fun x => if x = e.target then rank x + rank s + 1 else rank x, fun t i hi hf => ?_⟩
    rw [inputs_withEdge htidy hs ht hnew] at hi
    split at hi
    · next htarget =>
      rcases List.mem_append.1 hi with hi | hi
      · have hlt := hrank t i hi hf
        simp only [hunread t i hi, htarget, if_true, if_false]
        rw [htarget] at hlt
        omega
      · obtain rfl := List.mem_singleton.1 hi
        simp only [hne, htarget, if_true, if_false]
        omega
    · next htarget =>
      simp only [hunread t i hi, htarget, if_false]
      exact hrank t i hi hf

end NewEdge

end Graph

end QuadAlgebra
