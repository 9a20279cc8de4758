import QuadAlgebra.Proofs.Capabilities.Patterns
import QuadAlgebra.Proofs.Plan.Symmetry
import QuadAlgebra.Proofs.Typing.Documents

/-!
# Documents within the capabilities of an evaluator

Whatever document is compiled, its plans and all plans nested in them contain only operators that
the capabilities of the evaluator allow (`Document.compile_allowed`): those of the plan before
optimization, because every construct that needs an ability requires it, and those after it, because
rules hand down what is allowed.
-/

namespace QuadAlgebra

open Edit

variable {c : Capabilities} {p : Planner} {graph : Option Item} {d : Draft}

/-! ## Plans of their own -/

/-- A prepared plan is within the capabilities that its draft keeps. -/
theorem ends_prepared_allowed {dataset : Dataset} {build : Draw Unit}
    (hbuild : build.Keeps (Draft.Within c)) :
    (Draw.prepared dataset build).Ends d fun prepared _ => prepared.plan.Within c := by
  intro prepared d' hrun
  obtain ⟨d₁, G, hbuilt, hfinish, rfl⟩ := prepared_eq_ok hrun
  have hdrawn := hbuild _ (draft_within_empty d) () d₁ hbuilt
  exact Plan.within_iff.2 (hdrawn.congr (Graph.updateVariables_eq_ok hfinish).2.operator?)

/-- A result needs no capability. -/
theorem addResult_keeps (form : ResultForm) : (Draw.addResult form).Keeps (Draft.Within c) :=
  (Draw.add_keeps (.plain (by simp [Operator.kind, Capabilities.gated]))).bind fun _ => keeps_pure

/-- Sharing inputs adds no operator. -/
theorem shareInputs_keeps {first : Cursor} {others : List Cursor} :
    (Draw.shareInputs first others).Keeps (Draft.Within c) :=
  keeps_get.bind fun _ => keeps_forM fun _ _ => keeps_forM fun _ _ => Cursor.feed_keeps

/-! ## Queries -/

/-- A construction is allowed where its template names no graph beyond the capabilities. -/
theorem construct_within {template : List QuadPattern}
    (h : c.namedGraphs = false → ∀ q ∈ template, q.graph = none) :
    (Operator.construct template).Within c :=
  .of_allows (Capabilities.allows_of_onOneGraph h (by simp [Operator.kind])) rfl

/-- The pattern of a query is drawn within the capabilities. -/
theorem feedsAllowed_drawPattern (hscans : p.ScansPatterns) (pattern : Option Group) :
    FeedsAllowed p.config.capabilities (drawPattern p none pattern) := by
  cases pattern with
  | some g => exact g.feedsAllowed hscans fun _ => rfl
  | none => exact feedsAllowed_probe fun _ => rfl

/-- Every query is drawn within the capabilities. -/
theorem Query.draw_keeps (q : Query) (hscans : p.ScansPatterns) :
    (q.draw p).Keeps (Draft.Within p.config.capabilities) := by
  have hsolutions : FeedsAllowed p.config.capabilities (q.drawSolutions p none) :=
    q.feedsAllowed hscans fun _ => rfl
  unfold Query.draw
  split
  · exact (addResult_keeps _).bind hsolutions
  · next template =>
    refine (addResult_keeps _).bind fun _ => FeedsAllowed.attach (construct_within fun _ q hq => ?_)
      hsolutions _
    obtain ⟨t, -, rfl⟩ := List.mem_map.1 hq
    rfl
  · refine (addResult_keeps _).bind fun _ => FeedsAllowed.attach
      (.plain (by simp [Operator.kind, Capabilities.gated])) (feedsAllowed_drawPattern hscans _) _
  · exact (addResult_keeps _).bind fun _ => FeedsAllowed.attach
      (.plain (by simp [Operator.kind, Capabilities.gated])) hsolutions _

/-! ## Updates -/

/-- Behind the check the templates name no graph unless that is allowed. -/
theorem yields_requireTemplates (p : Planner) (template : List QuadPattern) :
    (p.requireTemplates template).Yields (Draft.Within c) fun _ =>
      p.config.capabilities.namedGraphs = false → ∀ q ∈ template, q.graph = none := by
  unfold Planner.requireTemplates
  split
  · refine fun d hd => (Planner.yields_require _ _ d hd).mono fun _ _ ⟨h, hnamed⟩ => ⟨h, ?_⟩
    exact fun hnone => absurd hnamed (by simp [hnone])
  · next hplain =>
    refine yields_pure fun _ q hq => ?_
    by_contra hgraph
    exact hplain (List.any_eq_true.2 ⟨q, hq, Option.isSome_iff_ne_none.2 hgraph⟩)

/-- A change is attached within the capabilities of its template. -/
theorem attachChange_keeps {cursor : Cursor} {change : Operator Plan} {template : List QuadPattern}
    (hchange : change.kind ∈ [.insert, .delete])
    (h : c.namedGraphs = false → ∀ q ∈ template, q.graph = none) :
    (Planner.attachChange cursor change template).Keeps (Draft.Within c) := by
  refine (Cursor.attach_keeps (.plain ?_)).bind fun _ => Cursor.attach_keeps (construct_within h)
  revert hchange
  cases change.kind <;> decide

/-- Checking the data of an update adds no operator. -/
theorem checkData_keeps {inserting : Bool} {quads : List QuadPattern} :
    (checkData inserting quads).Keeps (Draft.Within c) :=
  keeps_forM fun _ _ => keeps_optionally Draw.keeps_malformed
    (keeps_ite Draw.keeps_malformed keeps_pure)

/-- Checking a deletion template adds no operator. -/
theorem checkDeletion_keeps {template : List QuadPattern} :
    (checkDeletion template).Keeps (Draft.Within c) := by
  unfold checkDeletion
  split
  · exact Draw.keeps_malformed
  · exact keeps_pure

/-- Data is inserted and deleted within the capabilities. -/
theorem drawData_keeps (inserting : Bool) (quads : List QuadPattern) :
    (drawData p inserting quads).Keeps (Draft.Within p.config.capabilities) :=
  (addResult_keeps _).bind fun _ => checkData_keeps.bind fun _ =>
    (yields_requireTemplates p quads).bind fun _ hquads =>
      (attachChange_keeps (by cases inserting <;> simp [Operator.kind]) hquads).bind fun _ =>
        feedsAllowed_probe (fun _ => rfl) _

/-- A change that is left out if its template is empty. -/
theorem attachUnlessEmpty_keeps {α : Type} {cursor : Cursor} {change : Operator Plan}
    {template : List QuadPattern} {next : List Cursor → Draw α}
    (hchange : change.kind ∈ [.insert, .delete])
    (h : c.namedGraphs = false → ∀ q ∈ template, q.graph = none)
    (hnext : ∀ cursors, (next cursors).Keeps (Draft.Within c)) :
    (if template.isEmpty then pure [] >>= next else do
      let cursor' ← Planner.attachChange cursor change template
      next [cursor']).Keeps (Draft.Within c) :=
  keeps_ite (hnext []) ((attachChange_keeps hchange h).bind fun _ => hnext _)

/-- A modification is drawn within the capabilities. -/
theorem Modification.draw_keeps (m : Modification) (hscans : p.ScansPatterns) :
    (m.draw p).Keeps (Draft.Within p.config.capabilities) := by
  refine checkDeletion_keeps.bind fun _ => ?_
  have hrequire : (Planner.require p.config.capabilities.namedGraphs "WITH").Yields
      (Draft.Within p.config.capabilities) fun _ =>
        p.config.capabilities.namedGraphs = false → m.within = none := fun d hd =>
    (Planner.yields_require _ _ d hd).mono fun _ _ ⟨h, hnamed⟩ =>
      ⟨h, fun hnone => absurd hnamed (by simp [hnone])⟩
  refine keeps_checked hrequire (fun h _ => by simpa using h) fun hwithin => ?_
  refine (addResult_keeps _).bind fun result => ?_
  refine (yields_requireTemplates p _).bind fun _ hdelete => ?_
  refine (yields_requireTemplates p _).bind fun _ hinsert => ?_
  refine attachUnlessEmpty_keeps (by simp [Operator.kind]) hdelete fun deleting => ?_
  refine attachUnlessEmpty_keeps (by simp [Operator.kind]) hinsert fun inserting => ?_
  dsimp only
  cases deleting ++ inserting with
  | nil => exact Draw.keeps_malformed
  | cons first others =>
      refine (m.pattern.feedsAllowed hscans (fun hnone => ?_) first).bind fun _ => shareInputs_keeps
      rw [hwithin hnone]
      split <;> rfl

/-- A command that needs no ability concerns no named graph alone. -/
theorem GraphCommand.onOneGraph_of_feature {command : GraphCommand} (h : command.feature? = none) :
    command.OnOneGraph := by
  cases command with
  | load source destination silent =>
      cases destination with
      | none => rfl
      | some d => cases h
  | clear target silent | drop target silent => cases target <;> simp_all [feature?, OnOneGraph]
  | create graph silent => cases h

/-- Every update operation is drawn within the capabilities. -/
theorem UpdateOperation.draw_keeps (op : UpdateOperation) (hscans : p.ScansPatterns) :
    (op.draw p).Keeps (Draft.Within p.config.capabilities) := by
  cases op with
  | insertData quads => exact drawData_keeps true quads
  | deleteData quads => exact drawData_keeps false quads
  | deleteWhere quads =>
      refine (addResult_keeps _).bind fun _ => checkDeletion_keeps.bind fun _ => ?_
      refine (yields_requireTemplates p quads).bind fun _ hquads => ?_
      exact (attachChange_keeps (by simp [Operator.kind]) hquads).bind fun _ =>
        Group.feedsAllowed _ hscans (fun _ => rfl) _
  | modify change => exact change.draw_keeps hscans
  | command command =>
      refine (addResult_keeps _).bind fun _ => ?_
      have hcommand (h : p.config.capabilities.namedGraphs = false → command.OnOneGraph)
          (cursor : Cursor) : (do
            (← cursor.attach (.command command)).attachSource (.probe none) : Draw Unit).Keeps
              (Draft.Within p.config.capabilities) :=
        FeedsAllowed.attach (.of_allows (Capabilities.allows_of_onOneGraph h
          (by cases command <;> simp [Operator.kind, GraphCommand.kind])) rfl)
          (feedsAllowed_probe fun _ => rfl) cursor
      dsimp only
      split
      · exact (Planner.yields_require _ _).bind fun _ hnamed =>
          hcommand (fun hnone => absurd hnamed (by simp [hnone])) _
      · next hfeature =>
        refine hcommand (fun _ => GraphCommand.onOneGraph_of_feature ?_) _
        cases hf : command.feature? with
        | none => rfl
        | some feature => exact absurd hf (hfeature feature)

/-! ## Rule programs -/

/-- A rule head needs no capability. -/
theorem RuleHead.draw_keeps (head : RuleHead) : head.draw.Keeps (Draft.Within c) := by
  cases head with
  | triple t =>
      exact (Draw.add_keeps (.plain (by simp [Operator.kind, Capabilities.gated]))).bind fun _ =>
        Keeps.bind (fun _ hd => ends_modify.2 hd) fun _ => keeps_pure
  | atom a =>
      exact (Draw.add_keeps (.plain (by simp [Operator.kind, Capabilities.gated]))).bind fun _ =>
        Keeps.bind (fun _ hd => ends_modify.2 hd) fun _ => keeps_pure

/-- A rule is drawn within the capabilities. -/
theorem Rule.draw_keeps (r : Rule) (result : Cursor) (hscans : p.ScansPatterns) :
    (r.draw p result).Keeps (Draft.Within p.config.capabilities) := by
  refine (keeps_mapM fun head _ => head.draw_keeps.bind fun _ =>
    Cursor.feed_keeps.bind fun _ => keeps_pure).bind fun heads => ?_
  split
  · exact Draw.keeps_malformed
  · exact (r.body.feedsAllowed hscans (fun _ => rfl) _).bind fun _ => shareInputs_keeps

/-- Attaching an edge leaves the operators. -/
theorem pushSucceeding_keeps {ops : OperatorId → Option (Operator Plan)} {s : OperatorId}
    {e : Edge} : (Graph.pushSucceeding s e).Keeps fun g => ∀ x, g.operator? x = ops x := by
  intro g hops
  unfold Graph.pushSucceeding
  refine ends_bind.2 (Graph.ends_require.2 fun n _ => ends_modify.2 fun x => ?_)
  exact (Graph.operator?_mapNode (f := fun n => { n with succeeding := n.succeeding ++ [e] })
    (fun _ => rfl) x).trans (hops x)

/-- Linking what the wiring has left open leaves the operators. -/
theorem Wiring.link_keeps {ops : OperatorId → Option (Operator Plan)} (w : Wiring) :
    w.link.Keeps fun g => ∀ x, g.operator? x = ops x := by
  have hall (producers consumers : List OperatorId) :
      (linkAll producers consumers).Keeps fun g => ∀ x, g.operator? x = ops x :=
    keeps_forM fun _ _ => keeps_forM fun _ _ => pushSucceeding_keeps
  refine (hall _ _).bind fun _ => (hall _ _).bind fun _ => fun g hops => ends_modify.2 fun x => ?_
  exact (Graph.operator?_setParents x).trans (hops x)

/-- A rule program is drawn within the capabilities. -/
theorem RuleProgram.draw_keeps (r : RuleProgram) (hscans : p.ScansPatterns) :
    (r.draw p).Keeps (Draft.Within p.config.capabilities) :=
  (addResult_keeps _).bind fun result =>
    (keeps_forM fun rule _ => rule.draw_keeps (p := { p with inRules := true }) result hscans).bind
      fun _ => keeps_get.bind fun _ => Draw.keeps_of_operators fun _ => Wiring.link_keeps _

/-! ## Documents -/

/-- Whatever dataset a query or an operation chooses, its plan is within the capabilities. -/
theorem ends_prepare_allowed {clause : Option DatasetClause} {build : Planner → Draw Unit}
    (hscans : p.ScansPatterns) (hbuild : ∀ p' : Planner, p'.ScansPatterns →
      (build p').Keeps (Draft.Within p'.config.capabilities)) :
    (do
      let p' ← p.within clause
      Draw.prepared p'.dataset (build p')).Ends d fun prepared _ =>
        prepared.plan.Within p.config.capabilities := by
  refine (Planner.ends_within clause).bind fun p' d₁ hp' => ?_
  have hcapabilities : p'.config.capabilities = p.config.capabilities := by rw [hp']
  rw [← hcapabilities]
  refine ends_prepared_allowed (hbuild p' ?_)
  rw [hp']
  exact hscans

/-- Every plan that a document prepares is within the capabilities. -/
theorem Document.allowed_prepare (doc : Document) (hscans : p.ScansPatterns) :
    (doc.prepare p).Ends d fun plans _ =>
      ∀ prepared ∈ plans, prepared.plan.Within p.config.capabilities :=
  ends_prepare_of
    (fun q _ _ => ends_prepare_allowed hscans fun _ h => q.draw_keeps h)
    (fun _ _ op _ => ends_prepare_allowed hscans fun _ h => op.draw_keeps h)
    fun r _ _ => ends_prepared_allowed (r.draw_keeps hscans)

/-- Optimization keeps a prepared plan within its capabilities. -/
theorem Planner.within_optimizePrepared {prepared optimized : Prepared}
    (h : prepared.plan.Within c) (hoptimized : p.optimizePrepared prepared = .ok optimized) :
    optimized.plan.Within c := by
  obtain ⟨o, ho, rfl⟩ := optimizePrepared_eq_ok hoptimized
  exact h.optimize (fun rule hrule => List.mem_of_mem_filter hrule) ho

/-- Whatever document is compiled, every operator of its plans and of the plans nested in them is
one that the capabilities of the evaluator allow. Without named graphs no scan or probe has a graph,
no quad of a template has one, and commands concern the default graph or all graphs; without
federation there is no service, and without streaming there is no window. -/
theorem Document.compile_allowed {doc : Document} {plans : List Prepared} {d' : Draft}
    (hscans : p.ScansPatterns) (hcompile : (doc.compile p).runOn d = (.ok plans, d'))
    {prepared : Prepared} (hprepared : prepared ∈ plans) {part : Plan}
    (hpart : part.PartOf prepared.plan) {id : OperatorId} {op : Operator Plan}
    (hop : part.graph.operator? id = some op) : p.config.capabilities.Allows op := by
  have hends : (doc.compile p).Ends d fun plans _ =>
      ∀ prepared ∈ plans, prepared.plan.Within p.config.capabilities := by
    unfold Document.compile
    refine (doc.allowed_prepare hscans).bind fun drawn d₁ hwithin optimized d₂ hrun => ?_
    have hok : drawn.mapM p.optimizePrepared = .ok optimized := congrArg Prod.fst hrun
    intro prepared hprepared
    obtain ⟨plan, hplan, ho⟩ := exists_of_forall₂ (forall₂_of_mapM_ok hok).flip hprepared
    exact p.within_optimizePrepared (hwithin plan hplan) ho
  have hplan := (hends plans d' hcompile prepared hprepared).partOf hpart
  exact (Plan.within_iff.1 hplan id op hop).allowed

/-- The planner for an empty store whose evaluator knows one graph only. -/
def Planner.ofOneGraph : Planner :=
  { Planner.ofStore .empty with config := { Config.standard with capabilities := .localOnly } }

theorem compile_allowed_unnamed : ∃ prepared d',
    (unnamed.compile .ofOneGraph).runOn .empty = (.ok [prepared], d') ∧
    ∀ part : Plan, part.PartOf prepared.plan → ∀ id op, part.graph.operator? id = some op →
      Capabilities.localOnly.Allows op := by
  have hone : ((unnamed.compile .ofOneGraph).runOn .empty).1.map List.length = .ok 1 := by
    decide +kernel
  cases hok : ((unnamed.compile .ofOneGraph).runOn .empty).1 with
  | error e => rw [hok] at hone; cases hone
  | ok plans =>
      rw [hok] at hone
      obtain ⟨prepared, rfl⟩ := List.length_eq_one_iff.1 (Except.ok.inj hone)
      refine ⟨prepared, _, Prod.ext hok rfl, fun part hpart id op hop => ?_⟩
      exact Document.compile_allowed (p := .ofOneGraph) (Planner.scansPatterns_ofStore rfl)
        (Prod.ext hok rfl) (List.mem_singleton.2 rfl) hpart hop

end QuadAlgebra
