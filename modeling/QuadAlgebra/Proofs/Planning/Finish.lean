import QuadAlgebra.Proofs.Planning.Feeding

/-!
# Finished plans

A plan is finished by computing the variable sets of its operators, which leaves its edges alone
and fails unless they have a topological order. A finished plan with one result that has been fed
with a bag of solutions evaluates in one round, to the solutions of that bag (`evaluate_finished`).
-/

namespace QuadAlgebra

namespace Graph

variable {γ : Type} {g g' : Graph γ}

/-! ## Variable sets -/

/-- Two graphs with the same operators and edges. -/
structure SameEdges (g g' : Graph γ) : Prop where
  length : g'.slots.length = g.slots.length
  operator? : ∀ id, g'.operator? id = g.operator? id
  contains : ∀ id, g'.contains id = g.contains id
  preceding : ∀ id, g'.preceding id = g.preceding id
  succeeding : ∀ id, g'.succeeding id = g.succeeding id

namespace SameEdges

theorem refl (g : Graph γ) : g.SameEdges g :=
  ⟨rfl, fun _ => rfl, fun _ => rfl, fun _ => rfl, fun _ => rfl⟩

theorem trans {g'' : Graph γ} (h : g.SameEdges g') (h' : g'.SameEdges g'') : g.SameEdges g'' :=
  ⟨h'.length.trans h.length, fun id => (h'.operator? id).trans (h.operator? id),
    fun id => (h'.contains id).trans (h.contains id),
    fun id => (h'.preceding id).trans (h.preceding id),
    fun id => (h'.succeeding id).trans (h.succeeding id)⟩

/-- Storing variable sets changes no edges. -/
theorem mapNode (id : OperatorId) (certain possible : VarSet) : g.SameEdges
    (g.mapNode id fun n => { n with certain := certain, possible := possible }) := by
  refine ⟨length_mapNode _, fun x => ?_, fun x => ?_, fun x => ?_, fun x => ?_⟩
  all_goals
    simp only [Graph.operator?, Graph.contains, Graph.preceding, Graph.succeeding, node?_mapNode]
    split
    · cases g.node? x <;> rfl
    · rfl

theorem inputs (h : g.SameEdges g') (id : OperatorId) : g'.inputs id = g.inputs id := by
  simp only [Graph.inputs, edgesBetween, h.preceding, h.succeeding]

theorem tidy (h : g.SameEdges g') (hg : g.Tidy) : g'.Tidy where
  live id := by rw [h.contains, h.length, hg.live]
  both s t := by rw [h.preceding, h.succeeding, hg.both]
  nodup s := by rw [h.succeeding]; exact hg.nodup s
  ascending t := by rw [h.inputs]; exact hg.ascending t

theorem topologicalOrder (h : g.SameEdges g') : g'.topologicalOrder = g.topologicalOrder :=
  topologicalOrder_congr h.succeeding h.contains h.length

end SameEdges

theorem updateVariables_eq_ok (h : updateVariables.runOn g = (.ok (), g')) :
    (∃ order, g.topologicalOrder = .ok order) ∧ g.SameEdges g' := by
  rw [updateVariables, Edit.runOn_bind, Edit.runOn_get] at h
  cases hbounds : g.bounds with
  | error e => simp [hbounds] at h
  | ok values =>
      simp only [hbounds, Edit.runOn_set, Prod.mk.injEq, true_and] at h
      refine ⟨?_, ?_⟩
      · rw [bounds, propagate] at hbounds
        cases horder : g.topologicalOrder with
        | error e => simp [horder, bind, Except.bind] at hbounds
        | ok order => exact ⟨order, rfl⟩
      · subst h
        clear hbounds
        induction values generalizing g with
        | nil => exact .refl g
        | cons v rest ih => exact (SameEdges.mapNode v.1 v.2.certain v.2.possible).trans ih

end Graph

/-! ## Evaluation -/

theorem solutionOperands_of_forall {operands : Operands}
    (h : ∀ o ∈ operands, ∃ l : List Solution, o.2 = l.map .solution) :
    ∃ l, operands = solutionOperands l := by
  induction operands with
  | nil => exact ⟨[], rfl⟩
  | cons o rest ih =>
      obtain ⟨k, rows⟩ := o
      obtain ⟨l, hl⟩ := h _ List.mem_cons_self
      obtain ⟨tail, htail⟩ := ih fun o ho => h o (List.mem_cons_of_mem _ ho)
      refine ⟨(k, l) :: tail, ?_⟩
      rw [htail]
      exact congrArg (· :: solutionOperands tail) (Prod.ext rfl hl)

variable {src : Source} {limit : Nat} {G : Graph Plan}

/-- A graph of tame operators is tame. -/
theorem tame_opened (h : ∀ id ∈ G.ids, ∃ op, G.operator? id = some op ∧ op.IsTame src limit) :
    (Plan.opened ⟨G⟩ src limit).Tame src := by
  intro id hid operands hoperands
  rw [Graph.ids_opened] at hid
  obtain ⟨op, hop, htame⟩ := h id hid
  obtain ⟨l, rfl⟩ := solutionOperands_of_forall hoperands
  rw [Graph.respond_opened hop]
  exact htame id l

/-- The flow through a tame graph. -/
theorem scene_stage (htidy : G.Tidy) (hroot : G.operator? Graph.root = some .root)
    (htame : (Plan.opened ⟨G⟩ src limit).Tame src) {order : List OperatorId}
    (horder : (Plan.opened ⟨G⟩ src limit).IsTopological order) :
    Scene src limit G fun n => ((Plan.opened ⟨G⟩ src limit).stage src order n).found :=
  ⟨htidy, hroot, Graph.flow_stage htame horder⟩

theorem operator?_opened {id : OperatorId} : (Plan.opened ⟨G⟩ src limit).operator? id =
    (G.operator? id).map fun op =>
      op.withNested (op.nested.map fun e => (e.1, e.2.evaluate src limit)) := by
  rw [Plan.opened, Graph.operator?, Graph.node?_mapNested, Graph.operator?]
  cases G.node? id <;> rfl

theorem kind_withNested {γ δ : Type} (op : Operator γ) (nested : List (Nat × δ)) :
    (op.withNested nested).kind = op.kind := by
  cases op <;> rfl

theorem mem_results_opened {id : OperatorId} {op : Operator Plan} (hid : id ∈ G.ids)
    (hop : G.operator? id = some op) :
    id ∈ (Plan.opened ⟨G⟩ src limit).results ↔ op.kind = .result := by
  rw [Graph.results, Graph.find, List.mem_filter, Graph.ids_opened, and_iff_right hid, Graph.kind?,
    operator?_opened, hop]
  simp [kind_withNested]

theorem mem_ids_of_mem_results {id : OperatorId}
    (h : id ∈ (Plan.opened ⟨G⟩ src limit).results) : id ∈ G.ids := by
  rw [← Graph.ids_opened G src limit]
  exact List.mem_of_mem_filter h

/-- If one operator is a result, the results of the graph are just this one. -/
theorem results_opened {result : OperatorId}
    (h : ∀ id ∈ G.ids, ∃ op, G.operator? id = some op ∧ (op.kind = .result ↔ id = result))
    (hresult : result ∈ G.ids) : (Plan.opened ⟨G⟩ src limit).results = [result] := by
  have hmem : ∀ id, id ∈ (Plan.opened ⟨G⟩ src limit).results ↔ id = result := by
    intro id
    constructor
    · intro hid
      obtain ⟨op, hop, hiff⟩ := h id (mem_ids_of_mem_results hid)
      exact hiff.1 ((mem_results_opened (mem_ids_of_mem_results hid) hop).1 hid)
    · rintro rfl
      obtain ⟨op, hop, hiff⟩ := h id hresult
      exact (mem_results_opened hresult hop).2 (hiff.2 rfl)
  have hnodup : (Plan.opened ⟨G⟩ src limit).results.Nodup :=
    (List.nodup_range.filter _).filter _
  refine List.perm_singleton.1 ((List.perm_ext_iff_of_nodup hnodup (by simp)).2 fun id => ?_)
  rw [hmem, List.mem_singleton]

/-- The solutions that a selection of some variables shows. -/
def shownSolutions (vars : List Variable) (rows : List Solution) : List Solution :=
  if vars.isEmpty then rows else rows.map fun s => s.filter fun v _ => vars.contains v

theorem collect_result {g : Graph Outcome} {a : Assignment} {n : Nat} {result : OperatorId}
    {vars : List Variable} {rows : List Solution} (hresults : g.results = [result])
    (hop : g.operator? result = some (.result (.select vars)))
    (hrows : a.rows result = rows.map .solution) :
    g.collect a n = .ok ⟨some (.select vars), shownSolutions vars rows, [], [], [], n⟩ := by
  rw [Graph.collect, hresults, List.foldlM_cons]
  simp only [hop, List.foldlM_nil, bind_pure]
  change Evaluation.addResult _ result _ (a.rows result) = _
  rw [hrows, Evaluation.addResult]
  simp only [expectSolutions_map, shownSolutions]
  rfl

theorem ranked_empty : (Graph.empty : Graph Plan).Ranked :=
  ⟨fun _ => 0, fun t _ hi => absurd (Graph.inputs_empty t ▸ hi) List.not_mem_nil⟩

/-- A draft that holds only its root. -/
theorem sound_of_empty {d : Draft} (h : d.graph = .empty) : d.Sound := by
  refine ⟨⟨fun id => ?_, fun s t => ?_, fun s => ?_, fun t => ?_⟩, ?_, ?_⟩
  · rw [h]
    rcases id with _ | id
    · exact ⟨fun _ => Nat.zero_lt_one, fun _ => rfl⟩
    · exact ⟨fun hc => absurd hc Bool.false_ne_true, fun hlt => absurd hlt (by simp [Graph.empty])⟩
  · exact h ▸ Graph.linked_empty s t
  · simp [h]
  · simp [h]
  · rw [h]
    rfl
  · rw [h, Graph.inputs_empty]

/-- A tame graph without feedback edges is evaluated in one round. -/
theorem rounds_opened {g : Graph Outcome} {order : List OperatorId} (htame : g.Tame src)
    (horder : g.IsTopological order) (hloops : g.loopMembers = []) (hlimit : 0 < limit) :
    g.rounds src g.loopMembers order limit limit 0 [] = .ok (g.stage src order 1, 0) := by
  obtain ⟨left, rfl⟩ : ∃ left, limit = left + 1 := ⟨limit - 1, by omega⟩
  have hround := htame.runs horder 0
  rw [hloops] at hround ⊢
  rw [Graph.rounds]
  change (Except.bind (g.round src [] order (g.stage src order 0)) _) = _
  rw [hround]
  rfl

section Finished

variable {d d' : Draft} {vars : List Variable} {rows : List Solution}
  (hd : d.graph = .empty)
  (hfed : Fed src limit d.size 0 (d.withOperator (.result (.select vars))) d' [rows])

include hd hfed

theorem operator?_finished {id : OperatorId} (hid : id < d'.size) :
    ∃ op, d'.graph.operator? id = some op ∧ op.IsTame src limit ∧
      (op.kind = .result ↔ id = d.size) := by
  have hsound := sound_of_empty hd
  have hsize : d.size = 1 := by rw [Draft.size, hd]; rfl
  rcases Nat.lt_trichotomy id d.size with hlt | rfl | hgt
  · obtain rfl : id = Graph.root := Nat.lt_one_iff.1 (hsize ▸ hlt)
    refine ⟨.root, hfed.ext.sound.root, fun id l => ⟨_, Operator.emit_root⟩, ?_⟩
    exact ⟨fun h => absurd h (by decide), fun h => absurd (h ▸ hlt) (Nat.lt_irrefl _)⟩
  · refine ⟨.result (.select vars), ?_, fun id l => ⟨_, Operator.emit_result _⟩, ?_⟩
    · rw [hfed.ext.operator?_eq _ (by simp), Draft.operator?_withOperator, if_pos rfl]
    · exact ⟨fun _ => rfl, fun _ => rfl⟩
  · obtain ⟨op, hop, htame, hkind⟩ := hfed.tame id (Draft.size_withOperator ▸ hgt) hid
    exact ⟨op, hop, htame, fun h => absurd h hkind,
      fun h => absurd (h ▸ hgt) (Nat.lt_irrefl _)⟩

theorem forward_finished (id : OperatorId) : ∀ i ∈ d'.graph.inputs id, i.feedback = false := by
  have hsound := sound_of_empty hd
  have hsize : d.size = 1 := by rw [Draft.size, hd]; rfl
  intro i hi
  rcases Nat.lt_trichotomy id d.size with hlt | rfl | hgt
  · obtain rfl : id = Graph.root := Nat.lt_one_iff.1 (hsize ▸ hlt)
    rw [hfed.ext.sound.inputs_root] at hi
    exact absurd hi List.not_mem_nil
  · obtain ⟨producers, -, hin, -⟩ := hfed.feeds
    rw [hin, Draft.inputs_withOperator, hsound.inputs_eq_nil (Nat.le_refl _),
      List.nil_append] at hi
    obtain ⟨p, -, rfl⟩ := List.mem_map.1 hi
    rfl
  · exact hfed.forward id (Draft.size_withOperator ▸ hgt) i hi

variable (hfinish : Graph.updateVariables.runOn d'.graph = (.ok (), G))

include hfinish

theorem operator?_of_finish {id : OperatorId} (hid : id ∈ G.ids) :
    ∃ op, G.operator? id = some op ∧ op.IsTame src limit ∧ (op.kind = .result ↔ id = d.size) := by
  obtain ⟨-, hedges⟩ := Graph.updateVariables_eq_ok hfinish
  rw [hedges.operator?]
  rw [(hedges.tidy hfed.ext.sound.tidy).mem_ids, hedges.length] at hid
  exact operator?_finished hd hfed hid

omit hd in
theorem result_of_finish : G.operator? d.size = some (.result (.select vars)) := by
  obtain ⟨-, hedges⟩ := Graph.updateVariables_eq_ok hfinish
  rw [hedges.operator?, hfed.ext.operator?_eq _ (by simp), Draft.operator?_withOperator, if_pos rfl]

theorem tame_of_finish : (Plan.opened ⟨G⟩ src limit).Tame src :=
  tame_opened fun _ hid => by
    obtain ⟨op, hop, htame, -⟩ := operator?_of_finish hd hfed hfinish hid
    exact ⟨op, hop, htame⟩

theorem not_onLoop_of_finish {order : List OperatorId}
    (hspec : (Plan.opened ⟨G⟩ src limit).IsTopological order) (id : OperatorId) :
    ¬ (Plan.opened ⟨G⟩ src limit).OnLoop id := by
  obtain ⟨-, hedges⟩ := Graph.updateVariables_eq_ok hfinish
  have htidy : G.Tidy := hedges.tidy hfed.ext.sound.tidy
  refine hspec.not_onLoop (fun s e he => ?_) id
  have hin := (htidy.opened src limit).mem_inputs (i := ⟨s, e.operand, e.feedback⟩).2 he
  rw [Graph.inputs_opened, hedges.inputs] at hin
  exact forward_finished hd hfed _ _ hin

/-- The result reads one producer, which has the solutions that it was fed with. -/
theorem found_of_finish {order : List OperatorId}
    (hspec : (Plan.opened ⟨G⟩ src limit).IsTopological order) :
    (((Plan.opened ⟨G⟩ src limit).stage src order 1).found d.size).Perm rows := by
  obtain ⟨-, hedges⟩ := Graph.updateVariables_eq_ok hfinish
  have htidy : G.Tidy := hedges.tidy hfed.ext.sound.tidy
  have hloops := not_onLoop_of_finish hd hfed hfinish hspec
  have hroot : G.operator? Graph.root = some .root := by
    rw [hedges.operator?, hfed.ext.sound.root]
  have hscene := scene_stage htidy hroot (tame_of_finish hd hfed hfinish) hspec
  obtain ⟨producers, hlen, hin, hrows⟩ := hfed.feeds
  obtain ⟨s, rfl⟩ := List.length_eq_one_iff.1 hlen
  have hop := result_of_finish hfed hfinish
  have hread : G.inputs d.size = [⟨s, 0, false⟩] := by
    rw [hedges.inputs, hin, Draft.inputs_withOperator,
      (sound_of_empty hd).inputs_eq_nil (Nat.le_refl _)]
    rfl
  have hperm := hrows G _ hscene hloops fun id _ _ => ⟨hedges.operator? id, hedges.inputs id⟩
  have hshown := (hscene.step hop 0 (Operator.emit_result _)).2 (hloops _)
  rw [hread] at hshown
  simp only [List.map_cons, List.map_nil, Scene.read, Bool.false_eq_true, if_false,
    List.flatMap_cons, List.flatMap_nil, List.append_nil, Nat.zero_add] at hshown
  rw [hshown]
  exact (List.forall₂_cons.1 hperm).1

/-- A finished plan whose one result has been fed evaluates to the solutions that it was fed
with. -/
theorem evaluate_finished (hlimit : 0 < limit) :
    ∃ found : List Solution, found.Perm rows ∧ Plan.evaluate src limit ⟨G⟩ =
      .ok ⟨some (.select vars), shownSolutions vars found, [], [], [], 1⟩ := by
  obtain ⟨⟨order, horder⟩, hedges⟩ := Graph.updateVariables_eq_ok hfinish
  have htame := tame_of_finish hd hfed hfinish
  have htop : (Plan.opened ⟨G⟩ src limit).topologicalOrder = .ok order := by
    rw [← horder, ← hedges.topologicalOrder]
    exact Graph.topologicalOrder_congr (Graph.succeeding_mapNested _ G)
      (Graph.contains_mapNested _ G) (Graph.length_mapNested _ G)
  have hspec := Graph.topologicalOrder_spec htop
  have hmembers : (Plan.opened ⟨G⟩ src limit).loopMembers = [] :=
    List.eq_nil_iff_forall_not_mem.2 fun id hid =>
      not_onLoop_of_finish hd hfed hfinish hspec id (Graph.mem_loopMembers.1 hid)
  have hresult : d.size ∈ G.ids := by
    rw [(hedges.tidy hfed.ext.sound.tidy).mem_ids, hedges.length]
    exact Nat.lt_of_lt_of_le (by simp) hfed.ext.size_le
  refine ⟨_, found_of_finish hd hfed hfinish hspec, ?_⟩
  rw [Plan.evaluate_eq, Graph.evaluate, htop]
  change Except.bind ((Plan.opened ⟨G⟩ src limit).rounds src _ order limit limit 0 []) _ = _
  rw [rounds_opened htame hspec hmembers hlimit]
  refine collect_result (results_opened (fun id hid => ?_) hresult) ?_ ?_
  · obtain ⟨op, hop, -, hkind⟩ := operator?_of_finish hd hfed hfinish hid
    exact ⟨op, hop, hkind⟩
  · rw [operator?_opened, result_of_finish hfed hfinish]
    rfl
  · exact (Graph.stage_ofSolutions htame hspec 1).rows_eq d.size

end Finished

end QuadAlgebra
