import QuadAlgebra.Proofs.Scope.Patterns
import QuadAlgebra.Proofs.Typing.Documents

/-!
# Scopes bound rows from above

Whatever is drawn below a cursor with some labels keeps to them in all rounds of every evaluation
(`FeedsWithin.shows`), as long as the graph that is evaluated in the end holds the drawn operators
as they were drawn. So the rows that a group delivers bind nothing but its scope and the variable of
the graph that it is drawn in, and a selection of all variables cuts nothing off the solutions of
its pattern (`Group.delivers_scope`).
-/

namespace QuadAlgebra

/-! ## Labels of finished graphs -/

/-- The operator reads what rules derive. -/
def Operator.isMatcher {γ : Type} : Operator γ → Bool
  | .matchTriple _ | .matchAtom _ => true
  | _ => false

/-- A graph that holds what has been drawn since a draft. Matchers are linked later on. -/
structure Graph.Completes (G : Graph Plan) (d d' : Draft) : Prop where
  root : G.operator? Graph.root = some .root
  operator? : ∀ id : Nat, d.size ≤ id → id < d'.size → G.operator? id = d'.graph.operator? id
  inputs : ∀ (id : Nat) op, d.size ≤ id → id < d'.size → G.operator? id = some op →
    op.isMatcher = false → G.inputs id = d'.graph.inputs id

/-- Rows keep to the labels of their operators. -/
def Labels.Bound (L : Labels) (id : OperatorId) (D : VarSet) : Prop :=
  (id : Nat) < L.size → ∀ v ∈ D, v ∈ (L.label id).emits

section Labelled

variable {γ δ : Type} {g : Graph γ} {T : OperatorId → VarSet → Prop} {id : OperatorId}
  {op : Operator δ} {D : VarSet} {L : Labels}

/-- Matchers read no solutions. -/
theorem Graph.Makes.starts_of_matcher (h : g.Makes T id op D) (hop : op.isMatcher = true) :
    op.Starts D := by
  cases op with
  | matchTriple p | matchAtom a =>
      cases h with
      | starts h => exact h
      | turns i _ E _ h => exact h.elim
      | «extends» hkind => cases hkind
      | joins hkind => cases hkind
  | _ => cases hop

theorem Graph.Makes.eq_empty_of_root (h : g.Makes T id (.root : Operator δ) D) : D = ∅ := by
  cases h with
  | starts h => exact h
  | turns i _ E _ h => exact h.elim
  | «extends» hkind => cases hkind
  | joins hkind => cases hkind

/-- What an operator that fits its label makes of rows that it may read keeps to the label. -/
theorem Operator.Fits.makes (h : op.Fits (L.label id))
    (hread : ∀ i ∈ g.inputs id, (i.source : Nat) < L.size ∧
      (L.label i.source).emits ⊆ (L.label id).reads i.operand)
    (hmakes : g.Makes L.Bound id op D) : ∀ v ∈ D, v ∈ (L.label id).emits := by
  have hbound {i : Input} (hi : i ∈ g.inputs id) {E : VarSet} (hE : L.Bound i.source E) :
      ∀ v ∈ E, v ∈ (L.label id).reads i.operand :=
    fun v hv => (hread i hi).2 (hE (hread i hi).1 v hv)
  cases hmakes with
  | starts hstarts => exact h.starts D hstarts
  | turns i hi E hE hturns => exact h.turns i.operand E D hturns (hbound hi hE)
  | «extends» hop i j hi hj _ _ E F hE hF hD =>
      intro v hv
      rw [hD, OrdSet.mem_union] at hv
      rcases hv with hv | hv
      · exact h.merges (.inl hop) _ (hbound hi hE v hv)
      · exact h.merges (.inl hop) _ (hbound hj hF v hv)
  | joins hop part hpart hD =>
      intro v hv
      obtain ⟨i, hi, hv⟩ := (hD v).1 hv
      obtain ⟨j, hj, -, hT⟩ := hpart i hi
      exact h.merges (.inr hop) _ (hbound hj hT v hv)

end Labelled

/-- What operators make of rows that keep to labels keeps to labels. -/
theorem Graph.Completes.closed {G : Graph Plan} {d d' : Draft} {L : Labels}
    (hG : G.Completes d d') (h : d'.graph.Labelled d.graph L) (hlinked : d.graph.Linked)
    (hold : ∀ id : Nat, id < d.size → id ≠ Graph.root → (L.label id).emits = Set.univ) :
    G.Closed L.Bound := by
  intro id op D hop hmakes hid
  rcases Nat.lt_or_ge id d.size with hlt | hge
  · intro v hv
    by_cases hroot : id = Graph.root
    · rw [hroot, hG.root] at hop
      obtain rfl := Option.some.inj hop
      rw [hmakes.eq_empty_of_root] at hv
      exact absurd hv (OrdSet.not_mem_empty v)
    · rw [hold id hlt hroot]
      trivial
  · have hlast : (id : Nat) < d'.size := Nat.lt_of_lt_of_eq hid h.length.symm
    have hfits := h.fits id op hge ((hG.operator? id hge hlast).symm.trans hop)
    cases hmatcher : op.isMatcher with
    | true => exact hfits.starts D (hmakes.starts_of_matcher hmatcher)
    | false =>
        -- all inputs of a new operator are new
        refine hfits.makes (fun i hi => ?_) hmakes
        rw [hG.inputs id op hge hlast hop hmatcher] at hi
        have hreads : d'.graph.Reads id i := h.linked.mem_inputs.1 hi
        have hsource := (Graph.Wired.of_linked h.linked).lt_of_ne_none
          ((Graph.Wired.of_linked h.linked).ends_of_reads hreads).2
        refine ⟨Nat.lt_of_lt_of_eq hsource h.length, (h.edges id i hreads).resolve_left
          fun hi => ?_⟩
        have hlt := (Graph.Wired.of_linked hlinked).lt_of_ne_none
          ((Graph.Wired.of_linked hlinked).ends_of_reads hi).1
        exact absurd hge (Nat.not_le.2 hlt)

/-! ## Drawings below a cursor -/

/-- The graph holds what has been drawn below a cursor that nothing else feeds. -/
def Graph.HoldsBelow (G : Graph Plan) (c : Cursor) (draw : DrawInto) : Prop :=
  ∃ d d' : Draft, d.Sound ∧ (c.target : Nat) < d.size ∧ d.graph.inputs c.target = [] ∧
    (draw c).runOn d = (.ok (), d') ∧ G.Completes d d' ∧
      G.inputs c.target = d'.graph.inputs c.target

/-- All that is said of a draft is what may be fed to a cursor. -/
def Labels.start (d : Draft) (c : Cursor) (V : Set Variable) : Labels :=
  ⟨d.size, fun id =>
    ⟨fun k => {v | id = c.target ∧ k = c.operand ∧ v ∈ V}, {_v | id ≠ Graph.root}⟩⟩

section Drawings

variable {d d' : Draft} {c : Cursor} {V : Set Variable} {draw : DrawInto} {G : Graph Plan}
  {src : Source} {limit : Nat}

theorem Draft.Sound.labelled (hd : d.Sound) (c : Cursor) (V : Set Variable) :
    d.graph.Labelled d.graph (.start d c V) where
  linked := hd.tidy.both
  length := rfl
  length_le := Nat.le_refl _
  root := hd.root
  root_emits := Set.eq_empty_of_forall_notMem fun _ h => h rfl
  kept _ _ := rfl
  fits _ _ hid hop := absurd (Graph.lt_of_operator? hop) (Nat.not_lt.2 hid)
  edges _ _ hi := .inl hi

/-- The drawing ends with a labelled graph. -/
theorem FeedsWithin.labelled (h : FeedsWithin V draw) (hd : d.Sound)
    (hc : (c.target : Nat) < d.size) (hrun : (draw c).runOn d = (.ok (), d')) :
    ∃ L, Labels.start d c V ≤ L ∧ d'.graph.Labelled d.graph L := by
  have htakes : (Labels.start d c V).Takes c V := ⟨hc, fun v hv => ⟨rfl, rfl, hv⟩⟩
  obtain ⟨L, hle, hd', -⟩ := h d.graph _ c htakes d (hd.labelled c V) () d' hrun
  exact ⟨L, hle, hd'⟩

/-- The rows that a drawing delivers to its cursor bind what they may bind, in all rounds. -/
theorem FeedsWithin.shows (h : FeedsWithin V draw) (hd : d.Sound)
    (hc : (c.target : Nat) < d.size) (hrun : (draw c).runOn d = (.ok (), d'))
    (hG : G.Completes d d') {i : Input} (hi : i ∈ d'.graph.inputs c.target)
    (hnew : i ∉ d.graph.inputs c.target) {s : Solution}
    (hs : (Plan.opened ⟨G⟩ src limit).Shows src i.source s) : ∀ v ∈ s.keySet, v ∈ V := by
  obtain ⟨L, hle, hd'⟩ := h.labelled hd hc hrun
  have hlabel : ∀ id : Nat, id < d.size → L.label id = (Labels.start d c V).label id := hle.2
  have hclosed : G.Closed L.Bound := hG.closed hd' hd.tidy.both fun id hid hroot => by
    rw [hlabel id hid]
    exact Set.eq_univ_of_forall fun _ => hroot
  have hreads : d'.graph.Reads c.target i := hd'.linked.mem_inputs.1 hi
  have hsource := (Graph.Wired.of_linked hd'.linked).lt_of_ne_none
    ((Graph.Wired.of_linked hd'.linked).ends_of_reads hreads).2
  have hbound := hs.of_closed (hclosed.mapNested _) (Nat.lt_of_lt_of_eq hsource hd'.length)
  intro v hv
  have hlinked : d.graph.Linked := hd.tidy.both
  have hedge := (hd'.edges c.target i hreads).resolve_left fun h => hnew (hlinked.mem_inputs.2 h)
  rw [hlabel c.target hc] at hedge
  exact (hedge (hbound v hv)).2.2

/-- What a drawing delivers in the last round, from that round or fed back to it, binds what it may
bind. -/
theorem FeedsWithin.delivers (h : FeedsWithin V draw) (hholds : G.HoldsBelow c draw)
    {previous last : Assignment} (hlast : (Plan.opened ⟨G⟩ src limit).Concludes src previous last)
    {read : Input → List Row}
    (hread : ∀ i, read i = previous.rows i.source ∨ read i = last.rows i.source) {s : Solution}
    (hs : .solution s ∈ ((Plan.opened ⟨G⟩ src limit).deliver read c.target).rows) :
    ∀ v ∈ s.keySet, v ∈ V := by
  obtain ⟨d, d', hd, hc, hfree, hrun, hG, hinputs⟩ := hholds
  obtain ⟨order, horder, hreached, hround⟩ := hlast
  obtain ⟨o, ho, hmem⟩ := List.mem_flatMap.1 hs
  obtain ⟨i, hi, -, hshown⟩ := (Graph.mem_deliver ho).2 _ hmem
  have hshows : (Plan.opened ⟨G⟩ src limit).Shows src i.source s := by
    rcases hread i with he | he
    · exact hreached.shows horder (he ▸ hshown)
    · exact (hreached.next hround).shows horder (he ▸ hshown)
  rw [Graph.inputs_opened, hinputs] at hi
  exact h.shows hd hc hrun hG hi (hfree ▸ List.not_mem_nil) hshows

end Drawings

/-! ## Selections of all variables -/

section Returned

variable {d d₁ : Draft} {G : Graph Plan} {src : Source} {limit n : Nat} {result : OperatorId}
  {form : ResultForm} {vars : List Variable} {previous last : Assignment} {e : Evaluation}

/-- Nothing reads the rows of a result. -/
theorem Graph.Typed.not_onLoop_result (h : G.Typed Plan.Typed)
    (hop : G.operator? result = some (.result form)) :
    ¬ (Plan.opened ⟨G⟩ src limit).OnLoop result := by
  intro hloop
  obtain ⟨x, hleads, -⟩ := Relation.TransGen.head'_iff.1 hloop
  obtain ⟨-, edge, hedge, -⟩ := Graph.mem_consumers.1 hleads
  rw [Plan.opened, Graph.succeeding_mapNested] at hedge
  obtain ⟨k, hemits, -⟩ := h.edges result edge hedge
  cases hemits.emits _ hop

/-- A result has the rows that arrive at it. -/
theorem Graph.Concludes.rows_result (h : (Plan.opened ⟨G⟩ src limit).Concludes src previous last)
    (htyped : G.Typed Plan.Typed) (hop : G.operator? result = some (.result form)) :
    last.rows result = ((Plan.opened ⟨G⟩ src limit).operandRows previous last result).rows := by
  obtain ⟨order, horder, -, hround⟩ := h
  have hspec := Graph.topologicalOrder_spec horder
  have hid : result ∈ (Plan.opened ⟨G⟩ src limit).ids := by
    rw [Graph.ids_opened]
    exact Graph.mem_ids_of_operator? hop
  have hplain := (Graph.solves_of_round hspec hround).plain result hid
    (htyped.not_onLoop_result hop)
  rw [Graph.respond_opened hop] at hplain
  exact (Except.ok.inj hplain).symm

/-- What a selection returns is shown of the rows of its result. -/
theorem solutions_of_collect {g : Graph Outcome} {a : Assignment} (hresults : g.results = [result])
    (hop : g.operator? result = some (.result (.select vars))) (h : g.collect a n = .ok e) :
    ∃ rows : List Solution, a.rows result = rows.map .solution ∧
      e.solutions = shownSolutions vars rows := by
  cases hfound : expectSolutions result (a.rows result) with
  | ok found =>
      have hrows := eq_map_of_expectSolutions hfound
      rw [collect_result hresults hop hrows] at h
      exact ⟨found, hrows, congrArg Evaluation.solutions (Except.ok.inj h).symm⟩
  | error error =>
      rw [Graph.collect, hresults, List.foldlM_cons] at h
      simp only [hop, List.foldlM_nil, bind_pure] at h
      change Evaluation.addResult _ result _ (a.rows result) = _ at h
      simp [Evaluation.addResult, hfound, bind, Except.bind] at h

end Returned

section Finished

variable {d d₁ : Draft} {G : Graph Plan} {src : Source} {limit : Nat} {form : ResultForm}
  {V : Set Variable} {draw : DrawInto} (hd : d.graph = .empty) (hdraw : FeedsWithin V draw)
  (hrun : (draw ⟨d.size, 0⟩).runOn (d.withOperator (.result form)) = (.ok (), d₁))
  (hfinish : Graph.updateVariables.runOn d₁.graph = (.ok (), G))

include hd hdraw hrun hfinish

theorem completes_of_finish : G.Completes (d.withOperator (.result form)) d₁ := by
  obtain ⟨-, hedges⟩ := Graph.updateVariables_eq_ok hfinish
  have hbase : (d.withOperator (.result form)).Sound := (sound_of_empty hd).withOperator
  obtain ⟨L, -, hlabelled⟩ := hdraw.labelled hbase (by simp) hrun
  refine ⟨?_, fun id _ _ => hedges.operator? id, fun id _ _ _ _ _ => hedges.inputs id⟩
  rw [hedges.operator?, hlabelled.kept _ hlabelled.root_lt_old]
  exact hbase.root

/-- Below a result there are no others. -/
theorem results_of_finish : G.operator? d.size = some (.result form) ∧
    (Plan.opened ⟨G⟩ src limit).results = [d.size] := by
  obtain ⟨-, hedges⟩ := Graph.updateVariables_eq_ok hfinish
  have hbase : (d.withOperator (.result form)).Sound := (sound_of_empty hd).withOperator
  have hsize : d.size = 1 := by rw [Draft.size, hd]; rfl
  obtain ⟨L, -, hlabelled⟩ := hdraw.labelled hbase (by simp) hrun
  have hkept {id : Nat} (hid : id < d.size + 1) :
      G.operator? id = if id = d.size then some (.result form) else d.graph.operator? id := by
    rw [hedges.operator?, hlabelled.kept id (Nat.lt_of_lt_of_eq hid Draft.size_withOperator.symm)]
    exact Draft.operator?_withOperator id
  have hresult : G.operator? d.size = some (.result form) := by
    rw [hkept (Nat.lt_succ_self _), if_pos rfl]
  refine ⟨hresult, results_opened (fun id hid => ?_) (Graph.mem_ids_of_operator? hresult)⟩
  obtain ⟨node, hnode⟩ := Option.isSome_iff_exists.1 (Graph.mem_ids.1 hid)
  have hop : G.operator? id = some node.operator := by rw [Graph.operator?, hnode]; rfl
  refine ⟨node.operator, hop, ?_⟩
  rcases Nat.lt_or_ge id (d.size + 1) with hlt | hge
  · rw [hkept hlt] at hop
    split at hop
    · next he => exact iff_of_true (Option.some.inj hop ▸ rfl) he
    · next hne =>
      obtain rfl : id = Graph.root :=
        Nat.lt_one_iff.1 (hsize ▸ Nat.lt_of_le_of_ne (Nat.le_of_lt_succ hlt) hne)
      rw [(sound_of_empty hd).root] at hop
      rw [← Option.some.inj hop]
      exact iff_of_false (by decide) hne
  · have hfits := hlabelled.fits id _ (Draft.size_withOperator.trans_le hge)
      ((hedges.operator? id).symm.trans hop)
    exact iff_of_false hfits.inner (Nat.ne_of_gt hge)

/-- The plan holds what has been drawn below the result. -/
theorem holdsBelow_of_finish : G.HoldsBelow ⟨d.size, 0⟩ draw := by
  obtain ⟨-, hedges⟩ := Graph.updateVariables_eq_ok hfinish
  have hsound := sound_of_empty hd
  refine ⟨_, d₁, hsound.withOperator, by simp, ?_, hrun,
    completes_of_finish hd hdraw hrun hfinish, hedges.inputs _⟩
  rw [Draft.inputs_withOperator, hsound.inputs_eq_nil (Nat.le_refl _)]

/-- What arrives at the result of a selection binds nothing but what may be fed to it. -/
theorem arriving_within {previous last : Assignment}
    (h : (Plan.opened ⟨G⟩ src limit).Concludes src previous last) {s : Solution}
    (hs : .solution s ∈ ((Plan.opened ⟨G⟩ src limit).operandRows previous last d.size).rows) :
    ∀ v ∈ s.keySet, v ∈ V := by
  rw [Graph.operandRows_eq] at hs
  refine hdraw.delivers (holdsBelow_of_finish hd hdraw hrun hfinish) h (fun i => ?_) hs
  split
  · exact .inl rfl
  · exact .inr rfl

end Finished

section Shown

variable {d d₁ : Draft} {G : Graph Plan} {src : Source} {limit : Nat} {vars : List Variable}
  {scope : VarSet} {draw : DrawInto} {e : Evaluation} (hdraw : FeedsWithin {v | v ∈ scope} draw)
  (hvars : ∀ v, v ∈ scope → v ∈ vars) (hd : d.graph = .empty)
  (hrun : (draw ⟨d.size, 0⟩).runOn (d.withOperator (.result (.select vars))) = (.ok (), d₁))
  (hfinish : Graph.updateVariables.runOn d₁.graph = (.ok (), G)) (htyped : G.Typed Plan.Typed)

include hdraw hvars hd hrun hfinish htyped

/-- A selection that shows all variables that its drawing may bind shows in full whatever arrives
at its result. -/
theorem FeedsWithin.shown {previous last : Assignment} {n : Nat}
    (hlast : (Plan.opened ⟨G⟩ src limit).Concludes src previous last)
    (hcollect : (Plan.opened ⟨G⟩ src limit).collect last n = .ok e) :
    e.solutions.map .solution =
      ((Plan.opened ⟨G⟩ src limit).operandRows previous last d.size).rows := by
  obtain ⟨hop, hresults⟩ : _ ∧ (Plan.opened ⟨G⟩ src limit).results = [d.size] :=
    results_of_finish hd hdraw hrun hfinish
  have hrows := hlast.rows_result htyped hop
  obtain ⟨rows, hfound, hshown⟩ := solutions_of_collect hresults
    (by rw [operator?_opened, hop]; rfl) hcollect
  have harriving := hfound.symm.trans hrows
  rw [hshown, shownSolutions_eq hvars fun s hs v t hv => ?_, harriving]
  refine arriving_within hd hdraw hrun hfinish hlast ?_ v (Solution.mem_keySet.2 ⟨t, hv⟩)
  exact harriving ▸ List.mem_map_of_mem hs

theorem FeedsWithin.returns (h : Plan.evaluate src limit ⟨G⟩ = .ok e) :
    ∃ previous last, (Plan.opened ⟨G⟩ src limit).Concludes src previous last ∧
      e.solutions.map .solution =
        ((Plan.opened ⟨G⟩ src limit).operandRows previous last d.size).rows := by
  rw [Plan.evaluate_eq] at h
  obtain ⟨last, n, hfinal, hcollect⟩ := Graph.evaluate_eq_ok h
  obtain ⟨previous, hlast⟩ := Graph.exists_concludes hfinal
  exact ⟨previous, last, hlast,
    hdraw.shown hvars hd hrun hfinish htyped hlast hcollect⟩

end Shown

/-! ## Groups -/

/-- In every round, the rows that a group delivers to its cursor bind nothing but the scope of the
group and the variable of the graph that it is drawn in; so they bind no interim variable unless
these do. The plan of a selection of all variables holds its pattern below the result, and what
arrives there in the last round is returned in full. -/
theorem Group.delivers_scope {p : Planner} (hp : p.ReadsStore) (g : Group) :
    (∀ (graph : Option Item) (c : Cursor) (d d' : Draft), d.Sound → (c.target : Nat) < d.size →
      (g.draw p graph c).runOn d = (.ok (), d') → ∀ G : Graph Plan, G.Completes d d' →
        ∀ (src : Source) (limit : Nat), ∀ i ∈ d'.graph.inputs c.target,
          i ∉ d.graph.inputs c.target → ∀ s : Solution,
            (Plan.opened ⟨G⟩ src limit).Shows src i.source s →
              (∀ v ∈ s.keySet, v ∈ g.scope ∨ graph = some (.var v)) ∧
                ((∀ v, v ∈ g.scope ∨ graph = some (.var v) → v.isInterim = false) →
                  ∀ v ∈ s.keySet, v.isInterim = false)) ∧
    ((∀ v ∈ g.scope, v.isInterim = false) → ∀ (d d' : Draft) (prepared : Prepared),
      ((Query.selectAll g).prepare p).runOn d = (.ok prepared, d') →
        ∃ result : OperatorId,
          prepared.plan.graph.HoldsBelow ⟨result, 0⟩ (g.draw p none) ∧
            ∀ (src : Source) (limit : Nat) (e : Evaluation),
              prepared.plan.evaluate src limit = .ok e → ∃ previous last,
                (prepared.plan.opened src limit).Concludes src previous last ∧
                  e.solutions.map .solution =
                    ((prepared.plan.opened src limit).operandRows previous last result).rows) := by
  constructor
  · intro graph c d d' hd hc hrun G hG src limit i hi hnew s hs
    have hgraph : ∀ v ∈ Item.vars graph.toList, graph = some (.var v) := fun v hv =>
      Option.mem_toList.1 (Item.mem_vars.1 hv)
    have hfeeds : FeedsWithin {v | v ∈ g.scope ∨ graph = some (.var v)} (g.draw p graph) :=
      g.feedsWithin hp (fun _ hv => .inl hv) fun v hv => .inr (hgraph v hv)
    have hbinds := hfeeds.shows hd hc hrun hG hi hnew hs
    exact ⟨hbinds, fun hnamed v hv => hnamed v (hbinds v hv)⟩
  · intro hnamed d d' prepared hprepare
    have htyped := (Query.selectAll g).ends_prepare (p := p) prepared d' hprepare
    have hprepared : (Draw.prepared p.dataset ((Query.selectAll g).draw p)).runOn d =
        (.ok prepared, d') := hprepare
    obtain ⟨d₁, G, hbuild, hfinish, rfl⟩ := prepared_eq_ok hprepared
    rw [selectAll_draw_runOn] at hbuild
    have hfeeds : FeedsWithin {v | v ∈ g.scope} (g.draw p none) :=
      g.feedsWithin hp (fun _ hv => hv) fun _ hv => absurd (Item.mem_vars.1 hv) List.not_mem_nil
    have hshown : ∀ v, v ∈ g.scope → v ∈ (Query.selectAll g).shownVariables := fun v hv =>
      List.mem_filter.2 ⟨OrdSet.mem_toList.2 hv, by simp [hnamed v hv]⟩
    exact ⟨d.cleared.size, holdsBelow_of_finish rfl hfeeds hbuild hfinish,
      fun src limit e h => hfeeds.returns hshown rfl hbuild hfinish htyped.graph h⟩

/-- Whom somebody knows through somebody else. -/
def indirect : Group :=
  ⟨[.path ⟨.var ⟨"x"⟩, .sequence (.predicate (.iri "knows")) (.predicate (.iri "knows")),
    .var ⟨"y"⟩⟩]⟩

/-- Two people that know each other through a third one. -/
def threePeople : Source :=
  ⟨.ofList [⟨none, ⟨.iri "a", .iri "knows", .iri "b"⟩⟩,
    ⟨none, ⟨.iri "b", .iri "knows", .iri "c"⟩⟩], .empty⟩

theorem delivers_scope_indirect : ∃ (prepared : Prepared) (e : Evaluation) (result : OperatorId)
    (previous last : Assignment),
    (((Query.selectAll indirect).prepare (.ofStore .empty)).runOn .empty).1 = .ok prepared ∧
    prepared.plan.evaluate threePeople defaultIterations = .ok e ∧
    e.solutions = [((∅ : Solution).insert ⟨"x"⟩ (.iri "a")).insert ⟨"y"⟩ (.iri "c")] ∧
    (prepared.plan.opened threePeople defaultIterations).Concludes threePeople previous last ∧
    e.solutions.map .solution = ((prepared.plan.opened threePeople defaultIterations).operandRows
      previous last result).rows ∧
    ∀ i ∈ prepared.plan.graph.inputs result, ∀ s : Solution,
      (prepared.plan.opened threePeople defaultIterations).Shows threePeople i.source s →
        ∀ v ∈ s.keySet, v.isInterim = false := by
  have heval : ((((Query.selectAll indirect).prepare (.ofStore .empty)).runOn .empty).1 >>=
      fun prepared => prepared.plan.evaluate threePeople defaultIterations).map
        Evaluation.solutions =
      .ok [((∅ : Solution).insert ⟨"x"⟩ (.iri "a")).insert ⟨"y"⟩ (.iri "c")] := by
    decide +kernel
  have hnamed : ∀ v ∈ indirect.scope, v.isInterim = false := by decide +kernel
  have hstore : (Planner.ofStore .empty).ReadsStore := ⟨_, _, rfl⟩
  cases hrun : ((Query.selectAll indirect).prepare (.ofStore .empty)).runOn .empty with
  | mk outcome after =>
      rw [hrun] at heval
      cases outcome with
      | error error => cases heval
      | ok prepared =>
          replace heval : (prepared.plan.evaluate threePeople defaultIterations).map
            Evaluation.solutions = _ := heval
          cases he : prepared.plan.evaluate threePeople defaultIterations with
          | error error =>
              rw [he] at heval
              cases heval
          | ok e =>
              rw [he] at heval
              obtain ⟨hbounds, hreturned⟩ := indirect.delivers_scope hstore
              obtain ⟨result, ⟨d, d', hsound, hlt, hfed, hdrawn, hcompletes, hinputs⟩, hlast⟩ :=
                hreturned hnamed .empty after prepared hrun
              obtain ⟨previous, last, hconcludes, hrows⟩ := hlast threePeople defaultIterations e he
              refine ⟨prepared, e, result, previous, last, rfl, he, Except.ok.inj heval, hconcludes,
                hrows, fun i hi s hs => ?_⟩
              exact (hbounds none ⟨result, 0⟩ d d' hsound hlt hdrawn _ hcompletes threePeople
                defaultIterations i (hinputs ▸ hi) (hfed ▸ List.not_mem_nil) s hs).2
                  fun v hv => hnamed v (hv.resolve_right nofun)

end QuadAlgebra
