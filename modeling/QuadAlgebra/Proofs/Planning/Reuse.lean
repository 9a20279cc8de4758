import QuadAlgebra.Planning.Translator
import QuadAlgebra.Proofs.Planning.Growth

/-!
# Translators can be reused

Between two calls a translator is outside of rules, and its graph is whatever the last call has
left. A call does what the preparation of its document does in a draft that has handed out as many
numbers (`Call.follows`): it has the same outcome, hands out the same numbers, and puts the dataset
and the wiring back whether it succeeds or fails. The graph that it finds does not matter, because
the preparation has none. So a call on a used translator is a call on a fresh one
(`Translator.perform_after`).
-/

namespace QuadAlgebra

open Edit

variable {α β : Type} {p : Planner} {t : Translator} {d : Draft}

/-! ## Preparing a plan -/

/-- The graph that has been built and the dataset, if the variable sets can be computed. -/
def Graph.prepared (g : Graph Plan) (dataset : Dataset) : Except Error Prepared :=
  (updateVariables.runOn g).1.map fun _ => ⟨⟨(updateVariables.runOn g).2⟩, dataset⟩

theorem Draw.prepared_runOn (dataset : Dataset) (build : Draw Unit) (d : Draft) :
    (Draw.prepared dataset build).runOn d =
      match build.runOn d.cleared with
      | (.ok (), built) =>
        (built.graph.prepared dataset, built.cleared)
      | (.error e, built) => (.error e, built.cleared) := by
  have hrun : (Draw.prepared dataset build).runOn d =
      (fun drawn : Except Error Unit × Draft =>
        (drawn.1.map fun _ => ⟨⟨drawn.2.graph⟩, dataset⟩, drawn.2.cleared))
        ((do build; Draw.onGraph Graph.updateVariables : Draw Unit).runOn d.cleared) := rfl
  rw [hrun, runOn_bind]
  rcases build.runOn d.cleared with ⟨_ | _, built⟩ <;> rfl

namespace Translate

theorem attempt_runOn (step : Translate α) (t : Translator) :
    (attempt step).runOn t = (.ok (step.runOn t).1, (step.runOn t).2) := rfl

theorem pass_runOn (outcome : Except Error α) (t : Translator) :
    (pass outcome).runOn t = (outcome, t) := rfl

theorem drawing_runOn (draw : Planner → Draw α) (t : Translator) :
    (drawing p draw).runOn t =
      (((draw (t.planner p)).runOn t.draft).1,
        t.drawn ((draw (t.planner p)).runOn t.draft).2) := rfl

theorem start_runOn (t : Translator) :
    start.runOn t = (.ok t.dataset, { t with graph := .empty }) := rfl

theorem takeWiring_runOn (t : Translator) :
    takeWiring.runOn t = (.ok (t.rules.getD .none), { t with rules := none }) := rfl

/-! ## Following a preparation -/

/-- Outside of rules the step has the outcome of a preparation with the planner of the translator,
in any draft that has handed out as many numbers, and leaves everything as it was but the numbers
and the graph. -/
def Follows (p : Planner) (step : Translate α) (prepare : Planner → Draw α) : Prop :=
  ∀ (t : Translator) (d : Draft), t.rules = none → t.nextVar = d.nextVar →
    t.nextSlot = d.nextSlot →
    ∃ graph, step.runOn t = (((prepare (t.planner p)).runOn d).1,
      { t with
        graph := graph
        nextVar := ((prepare (t.planner p)).runOn d).2.nextVar
        nextSlot := ((prepare (t.planner p)).runOn d).2.nextSlot })

namespace Follows

variable {step : Translate α} {prepare : Planner → Draw α}

theorem bind {next : α → Translate β} {following : Planner → α → Draw β}
    (h : Follows p step prepare) (hnext : ∀ a, Follows p (next a) fun q => following q a) :
    Follows p (step >>= next) fun q => prepare q >>= following q := by
  intro t d hrules hvar hslot
  obtain ⟨graph, hstep⟩ := h t d hrules hvar hslot
  rw [runOn_bind, runOn_bind, hstep]
  rcases (prepare (t.planner p)).runOn d with ⟨e | a, d₁⟩
  · exact ⟨graph, rfl⟩
  · exact hnext a _ d₁ hrules rfl rfl

theorem pure (a : α) : Follows p (Pure.pure a) fun _ => Pure.pure a := by
  intro t d hrules hvar hslot
  refine ⟨t.graph, ?_⟩
  rw [runOn_pure, runOn_pure, ← hvar, ← hslot]

theorem singleton (h : Follows p step prepare) :
    Follows p (do return [← step]) fun q => do return [← prepare q] :=
  h.bind fun a => .pure [a]

theorem mapM {step : β → Translate α} {prepare : Planner → β → Draw α}
    (h : ∀ b, Follows p (step b) fun q => prepare q b) (bs : List β) :
    Follows p (bs.mapM step) fun q => bs.mapM (prepare q) := by
  induction bs with
  | nil => simpa only [List.mapM_nil] using Follows.pure []
  | cons b rest ih =>
      simp only [List.mapM_cons]
      exact (h b).bind fun a => ih.bind fun as => .pure (a :: as)

end Follows

/-- A plan is built in a graph of its own, whatever graph is found. -/
theorem follows_plan (draw : Planner → Draw Unit) :
    Follows p (plan p draw) fun q => Draw.prepared q.dataset (draw q) := by
  intro t d hrules hvar hslot
  have hdraft : Translator.draft { t with graph := .empty } = d.cleared := by
    rw [Translator.draft, hrules, hvar, hslot]
    rfl
  have hplanner : Translator.planner p { t with graph := .empty } = t.planner p := rfl
  rw [plan, runOn_bind, start_runOn]
  dsimp only
  rw [runOn_bind, drawing_runOn, hdraft, hplanner, Draw.prepared_runOn]
  rcases (draw (t.planner p)).runOn d.cleared with ⟨e | u, built⟩
  · refine ⟨built.graph, ?_⟩
    rw [Translator.drawn, hrules]
    rfl
  · refine ⟨.empty, ?_⟩
    rw [Translator.drawn, hrules]
    rfl

/-! ## Datasets -/

theorem require_runOn (enabled : Bool) (feature : String) (d : Draft) :
    (Planner.require enabled feature).runOn d =
      (if enabled then .ok () else .error (.unsupported (.capability feature)), d) := by
  cases enabled <;> rfl

/-- A translator takes over the dataset that a planner would read, and keeps its own to go back to;
where the planner stops the translator stops and keeps its dataset. -/
theorem enterDataset_cases (p : Planner) (clause : Option DatasetClause) (t : Translator)
    (d : Draft) :
    (∃ e, (enterDataset p clause).runOn t = (.error e, t) ∧
      ((t.planner p).within clause).runOn d = (.error e, d)) ∨
    ∃ previous dataset,
      (enterDataset p clause).runOn t = (.ok previous, { t with dataset := dataset }) ∧
      ((t.planner p).within clause).runOn d =
        (.ok (Translator.planner p { t with dataset := dataset }), d) ∧
      previous.getD dataset = t.dataset := by
  cases clause with
  | none => exact .inr ⟨none, t.dataset, rfl, rfl, rfl⟩
  | some c =>
      have hsame : t.drawn t.draft = t := by
        rcases t with ⟨_, _ | _, _, _, _⟩ <;> rfl
      rw [Planner.within, enterDataset]
      by_cases hnamed : c.namedGraphs.isEmpty
      · rw [if_neg (by simp [hnamed]), if_neg (by simp [hnamed])]
        exact .inr ⟨some t.dataset, .ofClause c, rfl, rfl, rfl⟩
      · rw [if_pos (by simp [hnamed]), if_pos (by simp [hnamed]), runOn_bind, runOn_bind,
          drawing_runOn, require_runOn, require_runOn, hsame]
        by_cases hable : (t.planner p).config.capabilities.namedGraphs
        · rw [if_pos hable]
          exact .inr ⟨some t.dataset, .ofClause c, rfl, rfl, rfl⟩
        · rw [if_neg hable]
          exact .inl ⟨_, rfl, rfl⟩

theorem follows_within (clause : Option DatasetClause) {step : Translate α}
    {prepare : Planner → Draw α} (h : Follows p step prepare) :
    Follows p (within p clause step) fun q => q.within clause >>= prepare := by
  intro t d hrules hvar hslot
  rw [within, runOn_bind, runOn_bind]
  rcases enterDataset_cases p clause t d with ⟨e, henter, hwithin⟩ |
    ⟨previous, dataset, henter, hwithin, hprevious⟩
  · refine ⟨t.graph, ?_⟩
    rw [henter, hwithin, ← hvar, ← hslot]
  · obtain ⟨graph, hstep⟩ := h { t with dataset := dataset } d hrules hvar hslot
    refine ⟨graph, ?_⟩
    rw [henter, hwithin]
    dsimp only
    rw [runOn_bind, attempt_runOn, hstep]
    simp only [runOn_bind, leaveDataset, runOn_modify, pass_runOn, hprevious]

/-! ## Documents -/

theorem follows_query (q : Query) : Follows p (query p q) fun p => q.prepare p :=
  follows_within q.dataset (follows_plan _)

theorem follows_operation (op : UpdateOperation) :
    Follows p (operation p op) fun p => op.prepare p :=
  follows_within op.dataset? (follows_plan _)

/-- The wiring of a rule program is there while its rules are planned, and only then. -/
theorem follows_rules (r : RuleProgram) : Follows p (rules p r) fun p => r.prepare p := by
  intro t d hrules hvar hslot
  have hdraft : Translator.draft { t with graph := .empty, rules := some .none } = d.cleared := by
    rw [Translator.draft, hvar, hslot]
    rfl
  have hplanner : Translator.planner p { t with graph := .empty, rules := some .none } =
      { t.planner p with inRules := true } := rfl
  have hdraw : r.draw (t.planner p) = (do
      drawRules r { t.planner p with inRules := true }
      Draw.onGraph (← get).wiring.link) := by
    simp only [RuleProgram.draw, drawRules, bind_assoc]
  simp only [RuleProgram.prepare, Draw.prepared_runOn, hdraw, rules, runOn_bind, start_runOn,
    runOn_modify, attempt_runOn, drawing_runOn, hdraft, hplanner, takeWiring_runOn, pass_runOn]
  rcases (drawRules r { t.planner p with inRules := true }).runOn
    d.cleared with ⟨e | u, built⟩
  · refine ⟨built.graph, ?_⟩
    rw [hrules]
    rfl
  · simp only [onGraph, Draw.onGraph, runOn_within, Translator.drawn, runOn_get, Option.map_some,
      Option.getD_some]
    rcases built.wiring.link.runOn built.graph with ⟨e | u, linked⟩
    · refine ⟨linked, ?_⟩
      rw [hrules]
    · refine ⟨.empty, ?_⟩
      rw [hrules]
      rfl

theorem follows_document (doc : Document) :
    Follows p (document p doc) fun p => doc.prepare p := by
  cases doc with
  | query q => exact (follows_query q).singleton
  | update u => exact .mapM follows_operation u.operations
  | rules r => exact (follows_rules r).singleton

end Translate

/-! ## Calls -/

/-- The preparation of what a call asks for. -/
def Call.prepare (p : Planner) : Call → Draw (List Prepared)
  | .document d => d.prepare p
  | .query q => do return [← q.prepare p]
  | .operation op => do return [← op.prepare p]
  | .rules r => do return [← r.prepare p]

theorem Call.follows (call : Call) :
    Translate.Follows p (call.perform p) fun p => call.prepare p := by
  cases call with
  | document d => exact Translate.follows_document d
  | query q => exact (Translate.follows_query q).singleton
  | operation op => exact (Translate.follows_operation op).singleton
  | rules r => exact (Translate.follows_rules r).singleton

namespace Translator

/-- A call puts the dataset and the wiring back, whatever its outcome. -/
theorem call_keeps (call : Call) (hrules : t.rules = none) :
    ((call.perform p).runOn t).2.dataset = t.dataset ∧
      ((call.perform p).runOn t).2.rules = none := by
  obtain ⟨graph, hrun⟩ := call.follows t ⟨.empty, t.nextVar, t.nextSlot, .none⟩ hrules rfl rfl
  rw [hrun]
  exact ⟨rfl, hrules⟩

/-- The outcome of a call does not depend on the graph that is found. -/
theorem call_graph (call : Call) (hrules : t.rules = none) :
    ((call.perform p).runOn t).1 =
      ((call.perform p).runOn (fresh t.dataset t.nextVar t.nextSlot)).1 := by
  obtain ⟨_, hrun⟩ := call.follows t ⟨.empty, t.nextVar, t.nextSlot, .none⟩ hrules rfl rfl
  obtain ⟨_, hfresh⟩ := call.follows (fresh t.dataset t.nextVar t.nextSlot)
    ⟨.empty, t.nextVar, t.nextSlot, .none⟩ rfl rfl rfl
  have hplanner : (fresh t.dataset t.nextVar t.nextSlot).planner p = t.planner p := by
    rw [planner, planner, hrules]
    rfl
  rw [hrun, hfresh, hplanner]

theorem after_keeps (calls : List Call) (hrules : t.rules = none) :
    (t.after p calls).dataset = t.dataset ∧ (t.after p calls).rules = none := by
  induction calls generalizing t with
  | nil => exact ⟨rfl, hrules⟩
  | cons call rest ih =>
      obtain ⟨hdataset, hnone⟩ := call_keeps (p := p) call hrules
      obtain ⟨hrest, hnone'⟩ := ih hnone
      exact ⟨hrest.trans hdataset, hnone'⟩

/-- A translator can be reused after any calls, successful or not: it has the dataset that it was
created with and no wiring, and a further call has the outcome that it has on a fresh translator
whose numbers start where those of the used one have got to. -/
theorem perform_after (p : Planner) (dataset : Dataset) (nextVar nextSlot : Nat)
    (calls : List Call) :
    let used := (fresh dataset nextVar nextSlot).after p calls
    used.dataset = dataset ∧ used.rules = none ∧
      ∀ call : Call, ((call.perform p).runOn used).1 =
        ((call.perform p).runOn (fresh dataset used.nextVar used.nextSlot)).1 := by
  intro used
  obtain ⟨hdataset, hrules⟩ := after_keeps (p := p) (t := fresh dataset nextVar nextSlot) calls rfl
  refine ⟨hdataset, hrules, fun call => ?_⟩
  have hsame := call_graph (p := p) call hrules
  rwa [hdataset] at hsame

-- A call that fails can leave operators behind.
example (p : Planner) (dataset : Dataset) (nextVar nextSlot : Nat) :
    let used := (fresh dataset nextVar nextSlot).after p
      [.operation (.insertData [⟨none, ⟨.var ⟨"x"⟩, .term (.iri "p"), .term (.iri "o")⟩⟩])]
    used.graph.slots.length = 2 := rfl

end Translator

end QuadAlgebra
