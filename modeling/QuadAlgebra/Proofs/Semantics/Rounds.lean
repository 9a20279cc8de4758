import QuadAlgebra.Proofs.Ordered.Laws
import QuadAlgebra.Proofs.Plan.Walks
import QuadAlgebra.Semantics.Plan

/-!
# What rounds come to rest at

The equations of a graph say that every operator has the rows that it emits from the rows of its
producers. A round gives every operator its rows from the producers of the same round and, over
feedback edges, from the round before (`round_spec`). Rounds stop for one of two reasons: nothing
has changed, and then the rounds before and after agree, or no operator is on a loop, and then
there was a single round whose feedback edges delivered nothing (`rounds_spec`).

So what is collected in the end solves the equations if some operator is on a loop, or if nothing
is read over a feedback edge. Otherwise it solves the equations in which feedback edges deliver
nothing (`Plan.evaluate_solves`), and these may have other solutions
(`evaluate_ignores_feedback`).
-/

namespace QuadAlgebra

/-- The rows of an operator; none if it has not been evaluated. -/
def Assignment.rows (a : Assignment) (id : OperatorId) : List Row := (a.lookup id).getD []

namespace Graph

/-! ## What arrives at an operator -/

section Inputs

variable {γ : Type} {g : Graph γ} {i : Input} {id : OperatorId}

theorem mem_inputs : i ∈ g.inputs id ↔
    i.source ∈ g.preceding id ∧ ⟨id, i.operand, i.feedback⟩ ∈ g.succeeding i.source := by
  rw [inputs, (stableSort_perm _ _).mem_iff, List.mem_flatMap]
  constructor
  · rintro ⟨s, hs, hi⟩
    obtain ⟨⟨t, k, f⟩, he, rfl⟩ := List.mem_map.1 hi
    obtain ⟨he, ht⟩ := List.mem_filter.1 he
    have ht : t = id := beq_iff_eq.1 ht
    exact ⟨mem_distinctOf.1 hs, ht ▸ he⟩
  · rintro ⟨hs, he⟩
    exact ⟨i.source, mem_distinctOf.2 hs, List.mem_map.2
      ⟨_, List.mem_filter.2 ⟨he, beq_self_eq_true id⟩, rfl⟩⟩

theorem source_mem_ids (h : i ∈ g.inputs id) : i.source ∈ g.ids :=
  mem_ids.2 (contains_of_mem_succeeding (mem_inputs.1 h).2)

/-- What is read forward is read from a forward producer. -/
theorem mem_forward_of_mem_inputs (hid : id ∈ g.ids) (h : i ∈ g.inputs id)
    (hi : i.feedback = false) : id ∈ g.forward i.source :=
  mem_forward.2 ⟨mem_ids.1 hid, _, (mem_inputs.1 h).2, rfl, hi⟩

theorem leads_of_mem_inputs (hid : id ∈ g.ids) (h : i ∈ g.inputs id) : g.Leads i.source id :=
  mem_consumers.2 ⟨mem_ids.1 hid, _, (mem_inputs.1 h).2, rfl⟩

/-- What arrives at an operator if every edge delivers the given rows. -/
def deliver (g : Graph γ) (read : Input → List Row) (id : OperatorId) : Operands :=
  (g.operandGroups id).map fun group => (group.1, group.2.flatMap read)

theorem deliver_congr {read read' : Input → List Row} (h : ∀ i ∈ g.inputs id, read i = read' i) :
    g.deliver read id = g.deliver read' id := by
  unfold deliver operandGroups
  rw [List.map_map, List.map_map]
  refine List.map_congr_left fun k _ => ?_
  exact Prod.ext rfl (List.flatMap_congr fun i hi => h i (List.mem_filter.1 hi).1)

theorem operandRows_eq (previous current : Assignment) :
    g.operandRows previous current id =
      g.deliver (fun i => (if i.feedback then previous else current).rows i.source) id := rfl

theorem operandRows_congr {previous current previous' current' : Assignment}
    (hprevious : ∀ i ∈ g.inputs id, i.feedback = true →
      previous.rows i.source = previous'.rows i.source)
    (hcurrent : ∀ i ∈ g.inputs id, i.feedback = false →
      current.rows i.source = current'.rows i.source) :
    g.operandRows previous current id = g.operandRows previous' current' id := by
  rw [operandRows_eq, operandRows_eq]
  refine deliver_congr fun i hi => ?_
  cases hf : i.feedback with
  | true => exact hprevious i hi hf
  | false => exact hcurrent i hi hf

end Inputs

/-! ## Equations -/

variable {g : Graph Outcome} {src : Source} {looped order : List OperatorId}
  {previous current : Assignment} {id : OperatorId}

/-- What an operator emits from what arrives at it. -/
def respond (g : Graph Outcome) (src : Source) (operands : Operands) (id : OperatorId) :
    Except Error (List Row) := do
  let op ← g.operator id
  (op.withNested (op.nested.map fun e => (e.1, e.2.map Evaluation.solutions))).emit src id operands

/-- An assignment solves the equations of a graph if every operator has exactly what it emits from
the rows of its producers: the same rows if it is on a loop, the same list of rows otherwise. What
feedback edges deliver is given by an assignment of its own. -/
structure Solves (g : Graph Outcome) (src : Source) (fedBack a : Assignment) : Prop where
  assigned : ∀ id, (a.lookup id).isSome = true ↔ id ∈ g.ids
  onLoop : ∀ id ∈ g.ids, g.OnLoop id →
    ∃ emitted, g.respond src (g.operandRows fedBack a id) id = .ok emitted ∧
      ∀ row, row ∈ a.rows id ↔ row ∈ emitted
  plain : ∀ id ∈ g.ids, ¬ g.OnLoop id →
    g.respond src (g.operandRows fedBack a id) id = .ok (a.rows id)

theorem emitAt_eq_ok_iff {rows : List Row} :
    g.emitAt src looped previous current id = .ok rows ↔
      ∃ emitted, g.respond src (g.operandRows previous current id) id = .ok emitted ∧
        rows = if looped.contains id then (OrdSet.ofList emitted).toList else emitted := by
  simp only [emitAt, respond]
  cases g.operator id with
  | error e => simp [bind, Except.bind]
  | ok op =>
      simp only [bind, Except.bind, pure, Except.pure]
      split
      · next h => simp [h]
      · next rows' h => simp [h, eq_comm]

theorem emitAt_congr {current' : Assignment}
    (h : ∀ i ∈ g.inputs id, i.feedback = false → current.rows i.source = current'.rows i.source) :
    g.emitAt src looped previous current id = g.emitAt src looped previous current' id := by
  simp only [emitAt, operandRows_congr (fun _ _ _ => rfl) h]

/-! ## One round -/

/-- What holds in the middle of a round, when some operators have been evaluated. -/
structure Partial (g : Graph Outcome) (src : Source) (looped : List OperatorId)
    (previous : Assignment) (done : List OperatorId) (current : Assignment) : Prop where
  assigned : ∀ id, (current.lookup id).isSome = true ↔ id ∈ done
  emitted : ∀ id ∈ done, g.emitAt src looped previous current id = .ok (current.rows id)

theorem rows_cons_of_ne {x : OperatorId} {rows : List Row} (h : x ≠ id) :
    Assignment.rows ((id, rows) :: current) x = Assignment.rows current x := by
  simp only [Assignment.rows, List.lookup_cons, beq_false_of_ne h]

@[simp] theorem rows_cons_self {rows : List Row} :
    Assignment.rows ((id, rows) :: current) id = rows := by
  simp [Assignment.rows]

theorem not_mem_done (horder : g.IsTopological order) {done rest : List OperatorId}
    (he : order = done ++ id :: rest) : id ∉ done := fun hd => by
  have hnodup := horder.nodup
  rw [he] at hnodup
  exact (List.nodup_append.1 hnodup).2.2 id hd id List.mem_cons_self rfl

/-- Neither the operators before one in the order nor that one itself read it forward. -/
theorem source_ne_of_done (horder : g.IsTopological order) {done rest : List OperatorId}
    (he : order = done ++ id :: rest) {x : OperatorId} (hx : x ∈ done ++ [id]) {i : Input}
    (hi : i ∈ g.inputs x) (hf : i.feedback = false) : i.source ≠ id := by
  intro hsource
  obtain ⟨l₁, l₂, hl⟩ := List.append_of_mem hx
  have hsplit : order = l₁ ++ x :: (l₂ ++ rest) := by
    rw [he, List.append_cons, hl, List.append_assoc, List.cons_append]
  have hxids : x ∈ g.ids := (horder.mem_iff x).1 (by simp [hsplit])
  have hbefore := horder.producers_before l₁ x (l₂ ++ rest) hsplit i.source
    (source_mem_ids hi) (mem_forward_of_mem_inputs hxids hi hf)
  rw [hsource] at hbefore
  refine not_mem_done horder he ?_
  rcases l₂.eq_nil_or_concat with rfl | ⟨m, y, rfl⟩
  · obtain ⟨rfl, -⟩ := List.append_inj' hl rfl
    exact hbefore
  · rw [List.concat_eq_append, ← List.cons_append, ← List.append_assoc] at hl
    obtain ⟨rfl, -⟩ := List.append_inj' hl rfl
    exact List.mem_append_left _ hbefore

theorem Partial.step (horder : g.IsTopological order) {done rest : List OperatorId}
    (he : order = done ++ id :: rest) (h : g.Partial src looped previous done current)
    {rows : List Row} (hrows : g.emitAt src looped previous current id = .ok rows) :
    g.Partial src looped previous (done ++ [id]) ((id, rows) :: current) := by
  -- what has been evaluated before is read as before
  have keep : ∀ x ∈ done ++ [id], g.emitAt src looped previous ((id, rows) :: current) x =
      g.emitAt src looped previous current x := fun x hx =>
    emitAt_congr fun i hi hf => rows_cons_of_ne (source_ne_of_done horder he hx hi hf)
  constructor
  · intro x
    rw [List.lookup_cons, List.mem_append, List.mem_singleton, ← h.assigned x]
    by_cases hx : x = id
    · simp [hx]
    · simp [beq_false_of_ne hx, hx]
  · intro x hx
    rw [keep x hx]
    rcases List.mem_append.1 hx with hx | hx
    · have hne : x ≠ id := fun hxid => not_mem_done horder he (hxid ▸ hx)
      rw [rows_cons_of_ne hne]
      exact h.emitted x hx
    · obtain rfl := List.mem_singleton.1 hx
      rw [rows_cons_self]
      exact hrows

/-- In a round every operator emits from the rows that its producers have at the end of it. -/
theorem round_spec (horder : g.IsTopological order)
    (h : g.round src looped order previous = .ok current) :
    (∀ id, (current.lookup id).isSome = true ↔ id ∈ g.ids) ∧
      ∀ id ∈ g.ids, g.emitAt src looped previous current id = .ok (current.rows id) := by
  suffices ∀ (rest done : List OperatorId) (acc : Assignment), order = done ++ rest →
      g.Partial src looped previous done acc →
      (rest.foldlM (fun current id => do
        return (id, ← g.emitAt src looped previous current id) :: current) acc) = .ok current →
      g.Partial src looped previous order current by
    have hall := this order [] [] rfl ⟨fun id => by simp, fun id h => absurd h List.not_mem_nil⟩ h
    exact ⟨fun id => (hall.assigned id).trans (horder.mem_iff id),
      fun id hid => hall.emitted id ((horder.mem_iff id).2 hid)⟩
  intro rest
  induction rest with
  | nil =>
      intro done acc he hacc h
      rw [List.append_nil] at he
      cases h
      exact he ▸ hacc
  | cons id rest ih =>
      intro done acc he hacc h
      rw [List.foldlM_cons] at h
      cases hrows : g.emitAt src looped previous acc id with
      | error e => simp [hrows, bind, Except.bind] at h
      | ok rows =>
          simp only [hrows, bind, Except.bind, pure, Except.pure] at h
          exact ih (done ++ [id]) ((id, rows) :: acc) (by simp [he])
            (hacc.step horder he hrows) h

theorem rows_map {l : List OperatorId} (a : OperatorId → List Row) {x : OperatorId}
    (hx : x ∈ l) : Assignment.rows (l.map fun id => (id, a id)) x = a x := by
  induction l with
  | nil => cases hx
  | cons y rest ih =>
      by_cases h : x = y
      · subst h
        exact rows_cons_self
      · exact (rows_cons_of_ne h).trans (ih (List.mem_of_ne_of_mem h hx))

/-- A round is determined by what every operator emits from the rows of its producers. -/
theorem round_eq_ok (horder : g.IsTopological order) {a : OperatorId → List Row}
    (h : ∀ id ∈ g.ids, ∃ emitted, g.respond src
      (g.deliver (fun i => if i.feedback then previous.rows i.source else a i.source) id) id =
        .ok emitted ∧
      a id = if looped.contains id then (OrdSet.ofList emitted).toList else emitted) :
    g.round src looped order previous = .ok (order.reverse.map fun id => (id, a id)) := by
  suffices ∀ rest done : List OperatorId, order = done ++ rest →
      rest.foldlM (fun current id => do
        return (id, ← g.emitAt src looped previous current id) :: current)
        (done.reverse.map fun id => (id, a id)) = .ok (order.reverse.map fun id => (id, a id)) from
    this order [] rfl
  intro rest
  induction rest with
  | nil =>
      intro done he
      rw [he, List.append_nil]
      rfl
  | cons id rest ih =>
      intro done he
      have hid : id ∈ g.ids := (horder.mem_iff id).1 (by simp [he])
      obtain ⟨emitted, hemitted, hrows⟩ := h id hid
      -- the producers that are read forward have been evaluated before
      have hread : g.operandRows previous (done.reverse.map fun id => (id, a id)) id =
          g.deliver (fun i => if i.feedback then previous.rows i.source else a i.source) id := by
        rw [operandRows_eq]
        refine deliver_congr fun i hi => ?_
        cases hf : i.feedback with
        | true => rfl
        | false =>
            have hdone := horder.producers_before done id rest he i.source (source_mem_ids hi)
              (mem_forward_of_mem_inputs hid hi hf)
            exact rows_map a (List.mem_reverse.2 hdone)
      have hemit : g.emitAt src looped previous (done.reverse.map fun id => (id, a id)) id =
          .ok (a id) := emitAt_eq_ok_iff.2 ⟨emitted, hread ▸ hemitted, hrows⟩
      rw [List.foldlM_cons, hemit]
      have hnext := ih (done ++ [id]) (by simp [he])
      rw [List.reverse_append] at hnext
      exact hnext

/-- What a round leaves is determined by the rows. -/
theorem round_eq_map (horder : g.IsTopological order)
    (h : g.round src looped order previous = .ok current) :
    current = order.reverse.map fun id => (id, current.rows id) := by
  have hround := round_eq_ok horder (a := current.rows) fun id hid => by
    obtain ⟨emitted, hemitted, hrows⟩ := emitAt_eq_ok_iff.1 ((round_spec horder h).2 id hid)
    refine ⟨emitted, ?_, hrows⟩
    rw [operandRows_eq] at hemitted
    rw [← hemitted]
    refine congrArg (g.respond src · id) (deliver_congr fun i _ => ?_)
    cases i.feedback <;> rfl
  exact Except.ok.inj (h.symm.trans hround)

/-! ## All rounds -/

/-- Rounds stop after one that repeats the round before it, or after a single one if nothing is on
a loop. -/
theorem rounds_spec {limit left before n : Nat}
    (h : g.rounds src looped order limit left before previous = .ok (current, n)) :
    (looped ≠ [] ∧ g.round src looped order current = .ok current) ∨
      (looped = [] ∧ g.round src looped order previous = .ok current) := by
  induction left generalizing before previous with
  | zero => cases h
  | succ left ih =>
      rw [rounds] at h
      cases hround : g.round src looped order previous with
      | error e => simp [hround, bind, Except.bind] at h
      | ok next =>
          simp only [hround, bind, Except.bind, pure, Except.pure] at h
          split at h
          · next hstop =>
            cases h
            by_cases hl : looped = []
            · exact Or.inr ⟨hl, rfl⟩
            · rw [Bool.or_eq_true, List.isEmpty_iff, beq_iff_eq] at hstop
              obtain rfl := hstop.resolve_left hl
              exact Or.inl ⟨hl, hround⟩
          · next hgo =>
            rcases ih h with h | ⟨hl, -⟩
            · exact Or.inl h
            · simp [hl] at hgo

/-- Rounds that have come to an end end in the same way under a higher limit. -/
theorem rounds_le {limit limit' left left' before n : Nat}
    (h : g.rounds src looped order limit left before previous = .ok (current, n))
    (hle : left ≤ left') :
    g.rounds src looped order limit' left' before previous = .ok (current, n) := by
  induction left generalizing left' before previous with
  | zero => cases h
  | succ left ih =>
      obtain ⟨left', rfl⟩ : ∃ k, left' = k + 1 := ⟨left' - 1, by omega⟩
      rw [rounds] at h ⊢
      cases hround : g.round src looped order previous with
      | error e => simp [hround, bind, Except.bind] at h
      | ok next =>
          simp only [hround, bind, Except.bind] at h ⊢
          split at h
          · next hstop =>
            rw [if_pos hstop]
            exact h
          · next hgo =>
            rw [if_neg hgo]
            exact ih h (by omega)

/-- A round over the members of the loops solves the equations. -/
theorem solves_of_round (horder : g.IsTopological order)
    (h : g.round src g.loopMembers order previous = .ok current) :
    g.Solves src previous current := by
  obtain ⟨hassigned, hemit⟩ := round_spec horder h
  refine ⟨hassigned, fun id hid hloop => ?_, fun id hid hplain => ?_⟩
  · obtain ⟨emitted, hrespond, hrows⟩ := emitAt_eq_ok_iff.1 (hemit id hid)
    refine ⟨emitted, hrespond, fun row => ?_⟩
    rw [hrows, if_pos (List.contains_iff_mem.2 (mem_loopMembers.2 hloop)), OrdSet.mem_toList,
      OrdSet.mem_ofList]
  · obtain ⟨emitted, hrespond, hrows⟩ := emitAt_eq_ok_iff.1 (hemit id hid)
    rw [if_neg fun hc => hplain (mem_loopMembers.1 (List.contains_iff_mem.1 hc))] at hrows
    rw [hrespond, hrows]

/-- Solving the equations with and without deliveries over feedback edges. -/
theorem Solves.feedback_iff {a : Assignment} (h : g.Solves src [] a)
    (hplain : ∀ id, ¬ g.OnLoop id) :
    g.Solves src a a ↔ ∀ id ∈ g.ids, g.respond src (g.operandRows a a id) id =
      g.respond src (g.operandRows [] a id) id := by
  constructor
  · intro ha id hid
    rw [ha.plain id hid (hplain id), h.plain id hid (hplain id)]
  · intro hsame
    refine ⟨h.assigned, fun id _ hloop => absurd hloop (hplain id), fun id hid hid' => ?_⟩
    rw [hsame id hid, h.plain id hid hid']

end Graph

/-! ## Evaluation -/

/-- The rows that the operators have in the end, and the number of rounds before the last one. -/
def Graph.finalRows (g : Graph Outcome) (src : Source) (limit : Nat) :
    Except Error (Assignment × Nat) := do
  let order ← g.topologicalOrder
  g.rounds src g.loopMembers order limit limit 0 []

theorem Graph.finalRows_le {g : Graph Outcome} {src : Source} {limit limit' : Nat}
    {final : Assignment × Nat} (h : g.finalRows src limit = .ok final) (hle : limit ≤ limit') :
    g.finalRows src limit' = .ok final := by
  rw [finalRows] at h ⊢
  cases horder : g.topologicalOrder with
  | error e => simp [horder, bind, Except.bind] at h
  | ok order =>
      rw [horder] at h
      exact rounds_le h hle

theorem Graph.evaluate_eq (g : Graph Outcome) (src : Source) (limit : Nat) :
    g.evaluate src limit =
      g.finalRows src limit >>= fun final => g.collect final.1 (final.2 + 1) := by
  simp only [evaluate, finalRows, bind_assoc]

/-- What is returned is collected from the rows in the end. -/
theorem Graph.evaluate_eq_ok {g : Graph Outcome} {src : Source} {limit : Nat} {e : Evaluation}
    (h : g.evaluate src limit = .ok e) :
    ∃ last n, g.finalRows src limit = .ok (last, n) ∧ g.collect last (n + 1) = .ok e := by
  rw [evaluate_eq] at h
  cases hfinal : g.finalRows src limit with
  | error e => simp [hfinal, bind, Except.bind] at h
  | ok final =>
      rw [hfinal] at h
      exact ⟨final.1, final.2, rfl, h⟩

namespace Plan

/-- The graph of a plan with what its nested plans evaluate to. -/
def opened (p : Plan) (src : Source) (limit : Nat) : Graph Outcome :=
  p.graph.mapNested (·.evaluate src limit)

theorem evaluate_eq (p : Plan) (src : Source) (limit : Nat) :
    p.evaluate src limit = (p.opened src limit).evaluate src limit :=
  Plan.fold_eq (Graph.evaluate src limit) p

/-- What an evaluation returns is collected from an assignment that solves the equations of the
graph if some operator is on a loop. If none is, it solves the equations in which feedback edges
deliver nothing, and thus the full ones only if no operator tells the difference. -/
theorem evaluate_solves {p : Plan} {src : Source} {limit : Nat} {e : Evaluation}
    (h : p.evaluate src limit = .ok e) :
    ∃ (a : Assignment) (n : Nat), (p.opened src limit).collect a n = .ok e ∧
      ((∃ id, (p.opened src limit).OnLoop id) → (p.opened src limit).Solves src a a) ∧
      ((∀ id, ¬ (p.opened src limit).OnLoop id) → (p.opened src limit).Solves src [] a ∧
        ((p.opened src limit).Solves src a a ↔ ∀ id ∈ (p.opened src limit).ids,
          (p.opened src limit).respond src ((p.opened src limit).operandRows a a id) id =
            (p.opened src limit).respond src ((p.opened src limit).operandRows [] a id) id)) := by
  rw [evaluate_eq] at h
  generalize p.opened src limit = g at h ⊢
  rw [Graph.evaluate] at h
  cases horder : g.topologicalOrder with
  | error e => simp [horder, bind, Except.bind] at h
  | ok order =>
      simp only [horder, bind, Except.bind] at h
      have htop := Graph.topologicalOrder_spec horder
      split at h
      · cases h
      · next a hrounds =>
        obtain ⟨a, n⟩ := a
        refine ⟨a, n + 1, h, ?_⟩
        rcases Graph.rounds_spec hrounds with ⟨hloop, hround⟩ | ⟨hloop, hround⟩
        · have hsolves := Graph.solves_of_round htop hround
          obtain ⟨id, hid⟩ := List.exists_mem_of_ne_nil _ hloop
          exact ⟨fun _ => hsolves, fun hnone => absurd (Graph.mem_loopMembers.1 hid) (hnone id)⟩
        · have hsolves := Graph.solves_of_round htop hround
          refine ⟨fun ⟨id, hid⟩ => ?_, fun hnone => ⟨hsolves, hsolves.feedback_iff hnone⟩⟩
          have hmem := Graph.mem_loopMembers.2 hid
          rw [hloop] at hmem
          exact absurd hmem List.not_mem_nil

/-- A union that reads the root and itself. -/
def unionFedBack {γ : Type} : Graph γ :=
  ⟨[some ⟨.root, [], [⟨1, 0, false⟩], ∅, ∅⟩,
    some ⟨.union, [0, 1], [⟨1, 1, true⟩, ⟨2, 0, false⟩], ∅, ∅⟩,
    some ⟨.result (.select []), [1], [], ∅, ∅⟩]⟩

theorem unionFedBack_solves :
    ∃ (a : Assignment) (n : Nat),
      (opened ⟨unionFedBack⟩ ⟨.empty, .empty⟩ defaultIterations).collect a n =
        .ok ⟨some (.select []), [∅], [], [], [], 2⟩ ∧
      (opened ⟨unionFedBack⟩ ⟨.empty, .empty⟩ defaultIterations).Solves ⟨.empty, .empty⟩ a a := by
  have heval : Plan.evaluate ⟨.empty, .empty⟩ defaultIterations ⟨unionFedBack⟩ =
      .ok ⟨some (.select []), [∅], [], [], [], 2⟩ := by decide +kernel
  obtain ⟨a, n, hcollect, hloop, -⟩ := evaluate_solves heval
  exact ⟨a, n, hcollect, hloop ⟨1, Graph.mem_loopMembers.1 (by decide +kernel)⟩⟩

/-- A result that reads the root over a feedback edge. -/
def rootFedBack {γ : Type} : Graph γ :=
  ⟨[some ⟨.root, [], [⟨1, 0, true⟩], ∅, ∅⟩, some ⟨.result (.select []), [0], [], ∅, ∅⟩]⟩

/-- Without loops a feedback edge delivers nothing, although the full equations ask for more. -/
theorem evaluate_ignores_feedback :
    (rootFedBack : Graph Plan).verifyEdges = .ok () ∧
      (rootFedBack : Graph Plan).topologicalOrder = .ok [1, 0] ∧
      Plan.evaluate ⟨.empty, .empty⟩ defaultIterations ⟨rootFedBack⟩ =
        .ok ⟨some (.select []), [], [], [], [], 1⟩ ∧
      ¬ ∃ (a : Assignment) (n : Nat),
        (opened ⟨rootFedBack⟩ ⟨.empty, .empty⟩ defaultIterations).collect a n =
          .ok ⟨some (.select []), [], [], [], [], 1⟩ ∧
        (opened ⟨rootFedBack⟩ ⟨.empty, .empty⟩ defaultIterations).Solves ⟨.empty, .empty⟩ a a := by
  refine ⟨by decide +kernel, by decide +kernel, by decide +kernel, ?_⟩
  rintro ⟨a, n, hcollect, hsolves⟩
  have hopen : opened ⟨rootFedBack⟩ ⟨.empty, .empty⟩ defaultIterations = rootFedBack := rfl
  rw [hopen] at hcollect hsolves
  have hloops : (rootFedBack : Graph Outcome).loopMembers = [] := by decide +kernel
  have hnone : ∀ id, ¬ (rootFedBack : Graph Outcome).OnLoop id := fun id hloop =>
    List.not_mem_nil (hloops ▸ Graph.mem_loopMembers.2 hloop)
  have hgroups : (rootFedBack : Graph Outcome).operandGroups 1 = [(0, [⟨0, 0, true⟩])] := by
    decide +kernel
  have hresults : (rootFedBack : Graph Outcome).results = [1] := by decide +kernel
  -- the result has to show what the root emits
  have hroot : a.rows 0 = [.solution ∅] :=
    (Except.ok.inj (hsolves.plain 0 (by decide +kernel) (hnone 0))).symm
  have hresult := hsolves.plain 1 (by decide +kernel) (hnone 1)
  rw [Graph.operandRows, hgroups] at hresult
  have hshown : (a.rows 0 ++ []) ++ [] = a.rows 1 := Except.ok.inj hresult
  rw [hroot, List.append_nil, List.append_nil] at hshown
  rw [Graph.collect, hresults, List.foldlM_cons] at hcollect
  simp only [List.foldlM_nil, bind_pure] at hcollect
  have hadded : Evaluation.addResult ⟨none, [], [], [], [], n⟩ 1 (.select []) (a.rows 1) =
      .ok ⟨some (.select []), [], [], [], [], 1⟩ := hcollect
  rw [← hshown] at hadded
  cases hadded

end Plan

end QuadAlgebra
