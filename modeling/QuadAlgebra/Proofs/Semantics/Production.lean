import QuadAlgebra.Proofs.Optimization.Edges
import QuadAlgebra.Proofs.Variables.Rounds

/-!
# What operators produce

`Graph.Produces` says which rows an operator of a plan emits if nothing before it is read over a
feedback edge. It speaks of that operator and of those before it only, so it can be carried from one
plan to another in which these are the same, whatever comes behind them.

An operator produces one list of rows (`Graph.Produces.unique`). In the end of an evaluation it has
just these rows, unless the root is on a loop (`Graph.Produces.rows_eq`), and in a graph without
feedback edges every operator produces what it has in the end (`Graph.produces_of_finalRows`).
-/

namespace QuadAlgebra

namespace Graph

variable {γ : Type} {G : Graph Plan} {src : Source} {limit : Nat} {id : OperatorId}
  {rows : List Row}

/-- No edge is a feedback edge. -/
def Forward (g : Graph γ) : Prop := ∀ s, ∀ e ∈ g.succeeding s, e.feedback = false

theorem forward_iff {g : Graph γ} :
    g.Forward ↔ ∀ s ∈ g.ids, ∀ e ∈ g.succeeding s, e.feedback = false :=
  ⟨fun h s _ => h s, fun h s e he => h s (mem_ids.2 (contains_of_mem_succeeding he)) e he⟩

theorem Forward.inputs {g : Graph γ} (h : g.Forward) (hlinked : g.Linked) :
    ∀ i ∈ g.inputs id, i.feedback = false := fun i hi =>
  h i.source _ (hlinked.mem_inputs.1 hi)

/-- If there is an order, producers can be numbered before their consumers. -/
theorem Forward.exists_rank {g : Graph γ} (h : g.Forward) (hlinked : g.Linked)
    {order : List OperatorId} (horder : g.IsTopological order) :
    ∃ rank : OperatorId → Nat, ∀ x, ∀ i ∈ g.inputs x, rank i.source < rank x := by
  obtain ⟨rank, hrank⟩ := horder.exists_rank
  refine ⟨rank, fun x i hi => hrank _ (source_mem_ids hi) x (mem_forward.2 ⟨?_, ?_⟩)⟩
  · exact hlinked.contains_target (hlinked.mem_inputs.1 hi)
  · exact ⟨_, hlinked.mem_inputs.1 hi, rfl, h.inputs hlinked i hi⟩

/-- The rows that an operator emits, made of the rows that its producers emit. The root emits a
single empty solution, whatever it reads. -/
inductive Produces (G : Graph Plan) (src : Source) (limit : Nat) : OperatorId → List Row → Prop
  | root {id : OperatorId} (h : G.operator? id = some .root) : Produces G src limit id [.solution ∅]
  | emits {id : OperatorId} {op : Operator Plan} {rows : List Row} (read : Input → List Row)
    (hop : G.operator? id = some op) (hforward : ∀ i ∈ G.inputs id, i.feedback = false)
    (hread : ∀ i ∈ G.inputs id, Produces G src limit i.source (read i))
    (h : (op.opened src limit).emit src id (G.deliver read id) = .ok rows) :
    Produces G src limit id rows

namespace Produces

theorem eq_of_root (h : G.Produces src limit id rows) (hroot : G.operator? id = some .root) :
    rows = [.solution ∅] := by
  cases h with
  | root _ => rfl
  | emits read hop hforward hread h =>
      obtain rfl := Option.some.inj (hop.symm.trans hroot)
      exact (Except.ok.inj h).symm

/-- Operators emit but one list of rows. -/
theorem unique {rows' : List Row} (h : G.Produces src limit id rows)
    (h' : G.Produces src limit id rows') : rows = rows' := by
  induction h generalizing rows' with
  | root hroot => exact (h'.eq_of_root hroot).symm
  | emits read hop hforward hread h ih =>
      cases h' with
      | root hroot => exact eq_of_root (.emits read hop hforward hread h) hroot
      | emits read' hop' _ hread' h' =>
          obtain rfl := Option.some.inj (hop.symm.trans hop')
          rw [deliver_congr fun i hi => ih i hi (hread' i hi)] at h
          exact Except.ok.inj (h.symm.trans h')

/-- What an operator produces depends on what is before it only. -/
theorem transfer {G' : Graph Plan} (before : OperatorId → Prop)
    (hbefore : ∀ x, before x → G'.operator? x = G.operator? x ∧ G'.inputs x = G.inputs x ∧
      ∀ i ∈ G.inputs x, before i.source)
    (h : G.Produces src limit id rows) (hid : before id) : G'.Produces src limit id rows := by
  induction h with
  | root hroot => exact .root ((hbefore _ hid).1.trans hroot)
  | emits read hop hforward _ hemit ih =>
      obtain ⟨hsame, hinputs, hsources⟩ := hbefore _ hid
      refine .emits read (hsame.trans hop) (hinputs ▸ hforward)
        (fun i hi => ih i (hinputs ▸ hi) (hsources i (hinputs ▸ hi))) ?_
      rwa [deliver, operandGroups, hinputs]

/-- The operators of which this speaks are there. -/
theorem mem_ids (h : G.Produces src limit id rows) : id ∈ G.ids := by
  cases h with
  | root h => exact mem_ids_of_operator? h
  | emits _ hop _ _ _ => exact mem_ids_of_operator? hop

/-- A loop through such an operator goes through the root. -/
theorem onLoop_root (h : G.Produces src limit id rows) (hlinked : G.Linked) (hloop : G.OnLoop id) :
    ∃ r, G.operator? r = some .root ∧ G.OnLoop r := by
  induction h with
  | root h => exact ⟨_, h, hloop⟩
  | @emits id _ _ _ _ _ _ _ ih =>
      obtain ⟨y, hy, hlast⟩ := Relation.TransGen.tail'_iff.1 hloop
      obtain ⟨-, e, he, rfl⟩ := mem_consumers.1 hlast
      exact ih ⟨y, e.operand, e.feedback⟩ (hlinked.mem_inputs.2 he)
        (Relation.TransGen.head'_iff.2 ⟨_, hlast, hy⟩)

end Produces

theorem not_onLoop_of_reads (h : ∀ i, ¬ G.Reads id i) : ¬ G.OnLoop id := fun hloop => by
  obtain ⟨y, -, hlast⟩ := Relation.TransGen.tail'_iff.1 hloop
  obtain ⟨-, e, he, rfl⟩ := mem_consumers.1 hlast
  exact h ⟨y, e.operand, e.feedback⟩ he

/-! ## What arrives -/

section Arriving

variable {g : Graph γ}

/-- The groups of inputs contain every input once. -/
theorem operandGroups_perm : ((g.operandGroups id).flatMap Prod.snd).Perm (g.inputs id) := by
  simp only [operandGroups, List.flatMap_map]
  have hnodup := nodup_distinctOf ((g.inputs id).map Input.operand)
  have hmem (i : Input) (hi : i ∈ g.inputs id) :
      i.operand ∈ distinctOf ((g.inputs id).map Input.operand) :=
    mem_distinctOf.2 (List.mem_map.2 ⟨i, hi, rfl⟩)
  generalize distinctOf ((g.inputs id).map Input.operand) = keys at hnodup hmem
  generalize g.inputs id = inputs at hmem
  induction keys generalizing inputs with
  | nil =>
      rw [List.eq_nil_iff_forall_not_mem.2 fun i hi => absurd (hmem i hi) List.not_mem_nil]
      rfl
  | cons k keys ih =>
      obtain ⟨hk, hnodup⟩ := List.nodup_cons.1 hnodup
      have hothers (l : Nat) (hl : l ∈ keys) : (inputs.filter (·.operand == l)) =
          (inputs.filter (!·.operand == k)).filter (·.operand == l) := by
        rw [List.filter_filter]
        refine List.filter_congr fun i _ => ?_
        by_cases hi : i.operand = l
        · have hne : l ≠ k := fun h => hk (h ▸ hl)
          simp [hi, hne]
        · simp [hi]
      rw [List.flatMap_cons, List.flatMap_congr hothers]
      refine ((ih hnodup _ fun i hi => ?_).append_left _).trans (List.filter_append_perm _ inputs)
      obtain ⟨hi, hne⟩ := List.mem_filter.1 hi
      exact (List.mem_cons.1 (hmem i hi)).resolve_left (by simpa using hne)

/-- All rows that arrive, as a bag. -/
theorem rows_deliver_perm (read : Input → List Row) :
    (g.deliver read id).rows.Perm ((g.inputs id).flatMap read) := by
  rw [Operands.rows, deliver, List.flatMap_map, ← List.flatMap_assoc]
  exact operandGroups_perm.flatMap_right read

/-- Solutions arrive if solutions are delivered. -/
theorem deliver_solutions (found : Input → List Solution) :
    g.deliver (fun i => (found i).map .solution) id = solutionOperands
      ((g.operandGroups id).map fun group => (group.1, group.2.flatMap found)) := by
  rw [deliver, solutionOperands, List.map_map]
  refine List.map_congr_left fun group _ => ?_
  simp only [Function.comp_apply, List.map_flatMap]

end Arriving

/-- A scan that reads the root only has its solutions once for each edge from the root. -/
theorem produces_scan (src : Source) (limit : Nat) {scan : IndexScan}
    (hroot : G.operator? root = some .root) (hop : G.operator? id = some (.scan scan))
    (hfed : ∀ i ∈ G.inputs id, i.source = root ∧ i.feedback = false) :
    G.Produces src limit id
      ((List.replicate (G.inputs id).length (src.scan scan)).flatten.map .solution) := by
  refine .emits (fun _ => [∅].map .solution) hop (fun i hi => (hfed i hi).2)
    (fun i hi => (hfed i hi).1 ▸ .root hroot) ?_
  rw [deliver_solutions fun _ => [∅], ← operandGroups_perm.length_eq]
  refine (Operator.emit_scan scan).trans ?_
  have hunits (l : List Input) : joinSolutions (l.flatMap fun _ => [∅]) (src.scan scan) =
      (List.replicate l.length (src.scan scan)).flatten := by
    rw [joinSolutions, List.flatMap_assoc, List.flatMap_def, ← List.map_const']
    refine congrArg List.flatten (List.map_congr_left fun _ _ => ?_)
    exact joinSolutions_unit (src.scan scan)
  simp only [List.flatMap_map, ← List.flatMap_assoc, hunits]

/-! ## Evaluation -/

theorem exists_operator?_of_mem_ids (hid : id ∈ G.ids) : ∃ op, G.operator? id = some op :=
  Option.isSome_iff_exists.1 (by simpa [operator?, contains] using Graph.mem_ids.1 hid)

/-- Opening a plan changes no edges. -/
theorem onLoop_opened : (Plan.opened ⟨G⟩ src limit).OnLoop id ↔ G.OnLoop id := by
  have hleads : (Plan.opened ⟨G⟩ src limit).Leads = G.Leads := by
    funext x y
    simp only [Leads, Walk.Step, mem_consumers, Plan.opened, contains_mapNested,
      succeeding_mapNested]
  rw [OnLoop, OnLoop, hleads]

/-- In a round that succeeds operators have what they emit from the rows of that round. -/
theorem exists_emit_of_round {looped order : List OperatorId} {previous current : Assignment}
    (horder : (Plan.opened ⟨G⟩ src limit).IsTopological order)
    (hround : (Plan.opened ⟨G⟩ src limit).round src looped order previous = .ok current)
    {op : Operator Plan} (hop : G.operator? id = some op)
    (hforward : ∀ i ∈ G.inputs id, i.feedback = false) : ∃ emitted,
      (op.opened src limit).emit src id (G.deliver (fun i => current.rows i.source) id) =
        .ok emitted ∧
      current.rows id = if looped.contains id then (OrdSet.ofList emitted).toList else emitted := by
  have hid : id ∈ (Plan.opened ⟨G⟩ src limit).ids := by
    rw [ids_opened]
    exact mem_ids_of_operator? hop
  obtain ⟨emitted, hemitted, hrows⟩ :=
    emitAt_eq_ok_iff.1 ((round_spec horder hround).2 id hid)
  refine ⟨emitted, ?_, hrows⟩
  have hdeliver : (Plan.opened ⟨G⟩ src limit).operandRows previous current id =
      G.deliver (fun i => current.rows i.source) id := by
    rw [operandRows_eq, deliver, deliver, operandGroups, operandGroups, inputs_opened]
    change (G.deliver _ id : Operands) = G.deliver _ id
    exact deliver_congr fun i hi => by rw [hforward i hi]; rfl
  rwa [hdeliver, respond_opened hop] at hemitted

/-- In the end operators have what they produce, unless the root is on a loop. -/
theorem Produces.rows_eq (h : G.Produces src limit id rows) (hlinked : G.Linked)
    (hroot : ∀ r, G.operator? r = some .root → ¬ G.OnLoop r) {a : Assignment} {n : Nat}
    (ha : (Plan.opened ⟨G⟩ src limit).finalRows src limit = .ok (a, n)) : a.rows id = rows := by
  obtain ⟨previous, order, horder, -, hround⟩ := exists_concludes ha
  have hplain {x : OperatorId} {l : List Row} (hx : G.Produces src limit x l) :
      ¬ (Plan.opened ⟨G⟩ src limit).loopMembers.contains x = true := fun hc => by
    have hloop := onLoop_opened.1 (mem_loopMembers.1 (List.contains_iff_mem.1 hc))
    obtain ⟨r, hr, hloop⟩ := hx.onLoop_root hlinked hloop
    exact hroot r hr hloop
  induction h with
  | @root id h =>
      have hid : id ∈ (Plan.opened ⟨G⟩ src limit).ids := by
        rw [ids_opened]
        exact mem_ids_of_operator? h
      obtain ⟨emitted, hemitted, hrows⟩ := emitAt_eq_ok_iff.1
        ((round_spec (topologicalOrder_spec horder) hround).2 id hid)
      rw [hrows, if_neg (hplain (.root h))]
      rw [respond_opened h] at hemitted
      exact (Except.ok.inj hemitted).symm
  | @emits id op rows read hop hforward hread h ih =>
      obtain ⟨emitted, hemitted, hrows⟩ :=
        exists_emit_of_round (topologicalOrder_spec horder) hround hop hforward
      rw [hrows, if_neg (hplain (.emits read hop hforward hread h))]
      rw [deliver_congr ih, h] at hemitted
      exact (Except.ok.inj hemitted).symm

/-- An evaluation that succeeds has ordered the operators and has made a round. -/
theorem exists_order_of_finalRows {a : Assignment} {n : Nat}
    (ha : (Plan.opened ⟨G⟩ src limit).finalRows src limit = .ok (a, n)) :
    (∃ order, G.topologicalOrder = .ok order) ∧ 0 < limit := by
  obtain ⟨previous, order, horder, -⟩ := exists_concludes ha
  refine ⟨⟨order, by rwa [Plan.opened, topologicalOrder_mapNested] at horder⟩, ?_⟩
  cases limit with
  | zero =>
      rw [finalRows, horder] at ha
      cases ha
  | succ => exact Nat.succ_pos _

/-- Without feedback edges all operators produce what they have in the end. -/
theorem produces_of_finalRows (hlinked : G.Linked) (hforward : G.Forward) {a : Assignment} {n : Nat}
    (ha : (Plan.opened ⟨G⟩ src limit).finalRows src limit = .ok (a, n)) (hid : id ∈ G.ids) :
    G.Produces src limit id (a.rows id) := by
  obtain ⟨previous, order, horder, -, hround⟩ := exists_concludes ha
  have htop : G.IsTopological order := by
    rw [Plan.opened, topologicalOrder_mapNested] at horder
    exact topologicalOrder_spec horder
  obtain ⟨rank, hrank⟩ := htop.exists_rank
  -- producers come before their consumers in the order
  induction hn : rank id using Nat.strong_induction_on generalizing id with
  | _ n ih =>
      obtain ⟨op, hop⟩ := exists_operator?_of_mem_ids hid
      obtain ⟨emitted, hemitted, hrows⟩ :=
        exists_emit_of_round (topologicalOrder_spec horder) hround hop (hforward.inputs hlinked)
      rw [if_neg fun hc => htop.not_onLoop hforward id
        (onLoop_opened.1 (mem_loopMembers.1 (List.contains_iff_mem.1 hc)))] at hrows
      refine .emits (fun i => a.rows i.source) hop (hforward.inputs hlinked) (fun i hi => ?_)
        (hrows ▸ hemitted)
      have hsource := source_mem_ids hi
      have hlt := hrank i.source hsource id
        (mem_forward_of_mem_inputs hid hi (hforward.inputs hlinked i hi))
      exact ih _ (hn ▸ hlt) hsource rfl

open Classical in
/-- What the operator produces; nothing, if it does not produce anything. -/
noncomputable def produced (G : Graph Plan) (src : Source) (limit : Nat) (id : OperatorId) :
    List Row :=
  if h : ∃ rows, G.Produces src limit id rows then h.choose else []

theorem Produces.produced_eq (h : G.Produces src limit id rows) :
    G.produced src limit id = rows := by
  have hexists : ∃ rows, G.Produces src limit id rows := ⟨rows, h⟩
  rw [produced, dif_pos hexists]
  exact hexists.choose_spec.unique h

/-- What an operator produces it emits from what its producers produce. -/
theorem Produces.emit_eq (h : G.Produces src limit id rows) {op : Operator Plan}
    (hop : G.operator? id = some op) : (op.opened src limit).emit src id
      (G.deliver (fun i => G.produced src limit i.source) id) = .ok rows := by
  cases h with
  | root hroot =>
      obtain rfl := Option.some.inj (hroot.symm.trans hop)
      rfl
  | emits read hop' _ hread h =>
      obtain rfl := Option.some.inj (hop'.symm.trans hop)
      rw [← h, deliver_congr fun i hi => (hread i hi).produced_eq]

/-- If all operators produce something, one round evaluates a graph without feedback edges. -/
theorem exists_finalRows (hlinked : G.Linked) (hforward : G.Forward) {order : List OperatorId}
    (horder : G.topologicalOrder = .ok order) (hlimit : 0 < limit)
    (hproduces : ∀ id ∈ G.ids, ∃ rows, G.Produces src limit id rows) :
    ∃ a n, (Plan.opened ⟨G⟩ src limit).finalRows src limit = .ok (a, n) := by
  have horder' : (Plan.opened ⟨G⟩ src limit).topologicalOrder = .ok order := by
    rw [Plan.opened, topologicalOrder_mapNested, horder]
  have hloops : (Plan.opened ⟨G⟩ src limit).loopMembers = [] :=
    List.eq_nil_iff_forall_not_mem.2 fun id hid =>
      (topologicalOrder_spec horder).not_onLoop hforward id
      (onLoop_opened.1 (mem_loopMembers.1 hid))
  have hround : (Plan.opened ⟨G⟩ src limit).round src [] order [] =
      .ok (order.reverse.map fun id => (id, G.produced src limit id)) := by
    refine round_eq_ok (topologicalOrder_spec horder') fun id hid => ?_
    rw [ids_opened] at hid
    obtain ⟨rows, hrows⟩ := hproduces id hid
    obtain ⟨op, hop⟩ := exists_operator?_of_mem_ids hid
    refine ⟨rows, ?_, hrows.produced_eq⟩
    rw [respond_opened hop, ← hrows.emit_eq hop, deliver, deliver, operandGroups, operandGroups,
      inputs_opened]
    change (op.opened src limit).emit src id (G.deliver _ id) = _
    refine congrArg _ (deliver_congr fun i hi => ?_)
    rw [hforward.inputs hlinked i hi]
    rfl
  refine ⟨order.reverse.map fun id => (id, G.produced src limit id), 0, ?_⟩
  rw [finalRows, horder', hloops]
  cases limit with
  | zero => exact absurd hlimit (Nat.lt_irrefl 0)
  | succ left =>
      simp only [bind, Except.bind, rounds, hround]
      rfl

end Graph

end QuadAlgebra
