import QuadAlgebra.Proofs.Typing.Patterns

/-!
# Compiled plans are typed

Queries, updates and rule programs are planned to typed plans, and optimizing keeps them typed. So a
compiled plan never hands an operator rows that it cannot read, and its evaluation fails at remote
calls and at the limit on rounds only (`Document.evaluate_compile`).
-/

namespace QuadAlgebra

variable {d : Draft} {p : Planner}

/-! ## Results -/

/-- The drawing of a whole plan keeps an empty draft typed. -/
def BuildsTyped (build : Draw Unit) : Prop :=
  ∀ d : Draft, d.graph.Typed Plan.Typed → d.wiring.Typed d.graph →
    build.Ends d fun _ d' => d.KeepsKinds d'

/-- A plan is typed if what it is built by is. -/
theorem ends_prepared {dataset : Dataset} {build : Draw Unit} (hbuild : BuildsTyped build) :
    (Draw.prepared dataset build).Ends d fun prepared _ => prepared.plan.Typed := by
  intro prepared d' hrun
  obtain ⟨d₁, G, hbuilt, hfinish, rfl⟩ := prepared_eq_ok hrun
  obtain ⟨htyped, -⟩ :=
    (hbuild _ typed_empty (wiring_none_typed _) () d₁ hbuilt).graph_of_empty
  obtain ⟨hkeeps, hordered⟩ := Graph.ends_updateVariables () G hfinish
  exact .of_graph (hkeeps.typed htyped) hordered

/-- A result is added for what it shows. -/
theorem ends_addResult (form : ResultForm) : (Draw.addResult form).Ends d fun c d' =>
    d.KeepsKinds d' ∧ d'.graph.OfType c.target (.result form) := by
  unfold Draw.addResult
  exact (Draw.ends_add (.result form) trivial).bind fun _ _ h => Edit.ends_pure.2 h

/-- A result under one operator over solutions. -/
theorem buildsTyped_over {form : ResultForm} {op : Operator Plan} {draw : DrawInto} {k : RowKind}
    (hcovered : op.Covered Plan.Typed) (hk : op.emits? = some k) (hform : form.accepts k = true)
    (hop : op.accepts .solution = true) (hdraw : DrawsSolutions draw) : BuildsTyped (do
      let result ← Draw.addResult form
      draw (← result.attach op)) := by
  intro d htyped _
  refine (ends_addResult form).bind fun result d₁ ⟨h₁, hresult⟩ => ?_
  refine (Cursor.ends_attach op hcovered hk (hresult.takes hform)).bind fun c d₂ ⟨h₂, hc⟩ => ?_
  have h₁₂ := h₁.trans h₂
  exact (hdraw d₂ c (h₁₂.graph.typed htyped) (hc.takes hop)).mono fun _ _ h₃ => h₁₂.trans h₃

/-! ## Queries -/

/-- A pattern feeds whatever takes solutions. -/
theorem drawsSolutions_drawPattern (graph : Option Item) (pattern : Option Group) :
    DrawsSolutions (drawPattern p graph pattern) := by
  cases pattern with
  | some g => exact g.drawsSolutions p graph
  | none => exact .attachSource (.probe graph) ⟨rfl, rfl⟩ trivial

/-- Every form of a query is drawn by typed steps. -/
theorem Query.buildsTyped (q : Query) : BuildsTyped (q.draw p) := by
  unfold Query.draw
  split
  · intro d htyped _
    refine (ends_addResult _).bind fun result d₁ ⟨h₁, hresult⟩ => ?_
    exact (q.drawsSolutions p none d₁ result (h₁.graph.typed htyped) (hresult.takes rfl)).mono
      fun _ _ h₂ => h₁.trans h₂
  · exact buildsTyped_over trivial rfl rfl rfl (q.drawsSolutions p none)
  · exact buildsTyped_over trivial rfl rfl rfl (drawsSolutions_drawPattern none q.pattern)
  · exact buildsTyped_over trivial rfl rfl rfl (q.drawsSolutions p none)

/-- The plan of a query is typed. -/
theorem Query.ends_prepare (q : Query) :
    (q.prepare p).Ends d fun prepared _ => prepared.plan.Typed := by
  unfold Query.prepare
  exact Edit.ends_bind.2 fun p' d' _ => ends_prepared q.buildsTyped

/-! ## Shared inputs -/

/-- The operator reads solutions and nothing else. -/
def ReadsSolutions (c : Cursor) (d : Draft) : Prop :=
  ∃ op, d.graph.OfType c.target op ∧ op.accepts = (· == .solution)

/-- What reads solutions goes on to do so. -/
theorem ReadsSolutions.keeps {c : Cursor} {d' : Draft} (h : ReadsSolutions c d)
    (hkeeps : d.KeepsKinds d') : ReadsSolutions c d' := by
  obtain ⟨op, hop, haccepts⟩ := h
  exact ⟨op, hop.keeps hkeeps.graph, haccepts⟩

theorem ReadsSolutions.takes {c : Cursor} (h : ReadsSolutions c d) :
    d.graph.Takes c.target .solution := by
  obtain ⟨op, hop, haccepts⟩ := h
  exact hop.takes (by rw [haccepts]; rfl)

/-- What feeds an operator on solutions emits solutions. -/
theorem ReadsSolutions.emits {c : Cursor} (h : ReadsSolutions c d)
    (htyped : d.graph.Typed Plan.Typed) {k : Nat} {producer : OperatorId}
    (hproducer : producer ∈ d.graph.operand c.target k) : d.graph.Emits producer .solution := by
  obtain ⟨op, hop, haccepts⟩ := h
  obtain ⟨i, hi, rfl⟩ := List.mem_map.1 hproducer
  have hi : i ∈ d.graph.inputs c.target := (List.mem_filter.1 hi).1
  obtain ⟨op', hop'⟩ : ∃ op', d.graph.operator? c.target = some op' := by
    have hmem := (Graph.mem_inputs.1 hi).1
    unfold Graph.preceding at hmem
    unfold Graph.operator?
    cases hn : d.graph.node? c.target with
    | none => simp [hn] at hmem
    | some n => exact ⟨_, rfl⟩
  exact htyped.emits_of_mem_inputs hop' ((hop.same op' hop').2.trans haccepts) hi

/-- Inputs that are shared deliver solutions to whoever reads solutions. -/
theorem ends_shareInputs {first : Cursor} {others : List Cursor}
    (htyped : d.graph.Typed Plan.Typed) (hfirst : ReadsSolutions first d)
    (hothers : ∀ c ∈ others, ReadsSolutions c d) :
    (Draw.shareInputs first others).Ends d fun _ d' => d.KeepsKinds d' := by
  unfold Draw.shareInputs
  refine Edit.ends_bind.2 (Edit.ends_get.2 ?_)
  refine Edit.ends_forM Draft.KeepsKinds fun c hc d₁ h₁ => ?_
  refine Edit.ends_forM Draft.KeepsKinds fun producer hproducer d₂ h₂ => ?_
  have h₁₂ := h₁.trans h₂
  exact Cursor.ends_feed (h₁₂.graph.emits (hfirst.emits htyped hproducer))
    (h₁₂.graph.takes (hothers c hc).takes)

/-! ## Updates -/

/-- A change takes the quads that its template makes of solutions. -/
theorem ends_attachChange {c : Cursor} (change : Operator Plan) {template : List QuadPattern}
    (hcovered : change.Covered Plan.Typed) (hemits : change.emits? = some .action)
    (haccepts : change.accepts .quad = true) (hc : d.graph.Takes c.target .action) :
    (Planner.attachChange c change template).Ends d fun c' d' =>
      d.KeepsKinds d' ∧ ReadsSolutions c' d' := by
  unfold Planner.attachChange
  refine (Cursor.ends_attach change hcovered hemits hc).bind fun c₁ d₁ ⟨h₁, hc₁⟩ => ?_
  exact (Cursor.ends_attach (.construct template) trivial rfl (hc₁.takes haccepts)).mono
    fun _ _ ⟨h₂, hc₂⟩ => ⟨h₁.trans h₂, _, hc₂, rfl⟩

theorem ends_checkData (inserting : Bool) (quads : List QuadPattern) :
    (checkData inserting quads).Ends d fun _ d' => d.KeepsKinds d' := by
  unfold checkData
  refine Edit.ends_forM Draft.KeepsKinds fun q _ d₁ _ => ?_
  refine Planner.ends_optionally Draw.ends_malformed fun d₂ h₂ => ?_
  exact Edit.ends_ite (fun _ => Draw.ends_malformed) fun _ => Edit.ends_pure.2 h₂

theorem ends_checkDeletion (template : List QuadPattern) :
    (checkDeletion template).Ends d fun _ d' => d.KeepsKinds d' := by
  unfold checkDeletion
  split
  · exact Draw.ends_malformed
  · exact Edit.ends_pure.2 .refl

theorem ends_requireTemplates (template : List QuadPattern) :
    (p.requireTemplates template).Ends d fun _ d' => d.KeepsKinds d' := by
  unfold Planner.requireTemplates
  exact Edit.ends_ite (fun _ => Planner.ends_require) fun _ => Edit.ends_pure.2 .refl

/-- Data is drawn by typed steps. -/
theorem drawData_buildsTyped (inserting : Bool) (quads : List QuadPattern) :
    BuildsTyped (drawData p inserting quads) := by
  intro d htyped _
  unfold drawData
  refine (ends_addResult .update).bind fun result d₁ ⟨h₁, hresult⟩ => ?_
  refine (ends_checkData inserting quads).bind fun _ d₂ h₂ => ?_
  refine (ends_requireTemplates quads).bind fun _ d₃ h₃ => ?_
  have h₁₃ := h₁.trans (h₂.trans h₃)
  refine (ends_attachChange _ (by split <;> trivial) (by split <;> rfl) (by split <;> rfl)
    ((hresult.keeps (h₂.trans h₃).graph).takes rfl)).bind fun c d₄ ⟨h₄, hc⟩ => ?_
  have h₁₄ := h₁₃.trans h₄
  exact (DrawsSolutions.attachSource (.probe none) ⟨rfl, rfl⟩ trivial d₄ c
    (h₁₄.graph.typed htyped) hc.takes).mono fun _ _ h₅ => h₁₄.trans h₅

/-- A change for a template, unless the template is empty, before something else is done. -/
theorem ends_attachUnlessEmpty {c : Cursor} {change : Operator Plan} {template : List QuadPattern}
    {next : List Cursor → Draw Unit} {post : Unit → Draft → Prop}
    (hcovered : change.Covered Plan.Typed) (hemits : change.emits? = some .action)
    (haccepts : change.accepts .quad = true) (hc : d.graph.Takes c.target .action)
    (hnext : ∀ cs d', d.KeepsKinds d' → (∀ c' ∈ cs, ReadsSolutions c' d') →
      (next cs).Ends d' post) :
    (if template.isEmpty then do
        let cs ← pure []
        next cs
      else do
        let c' ← Planner.attachChange c change template
        let cs ← pure [c']
        next cs).Ends d post := by
  split
  · exact Edit.ends_bind.2 (Edit.ends_pure.2
      (hnext [] d .refl fun _ h => absurd h List.not_mem_nil))
  · refine (ends_attachChange change hcovered hemits haccepts hc).bind fun c₁ d₁ ⟨h₁, hc₁⟩ => ?_
    exact Edit.ends_bind.2 (Edit.ends_pure.2
      (hnext [c₁] d₁ h₁ fun c' h => List.mem_singleton.1 h ▸ hc₁))

/-- A drawing feeds the first of some cursors, and the others share what it feeds. -/
theorem ends_drawShared {draw : DrawInto} {cs : List Cursor} {cause : Malformed}
    (hdraw : DrawsSolutions draw) (htyped : d.graph.Typed Plan.Typed) :
    (∀ c ∈ cs, ReadsSolutions c d) →
    (match cs with
      | [] => Draw.malformed cause
      | first :: others => do
        draw first
        Draw.shareInputs first others : Draw Unit).Ends d fun _ d' => d.KeepsKinds d' := by
  intro hcs
  cases cs with
  | nil => exact Draw.ends_malformed
  | cons first others =>
    have hfirst := hcs first List.mem_cons_self
    refine (hdraw d first htyped hfirst.takes).bind fun _ d₁ h₁ => ?_
    exact (ends_shareInputs (h₁.graph.typed htyped) (hfirst.keeps h₁) fun c hc =>
      (hcs c (List.mem_cons_of_mem _ hc)).keeps h₁).mono fun _ _ h₂ => h₁.trans h₂

/-- A modification is drawn by typed steps. -/
theorem Modification.buildsTyped (m : Modification) : BuildsTyped (m.draw p) := by
  intro d htyped _
  unfold Modification.draw
  dsimp only
  refine (ends_checkDeletion _).bind fun _ d₁ h₁ => ?_
  refine Planner.ends_optionally Planner.ends_require fun d₂ h₂ => ?_
  refine (ends_addResult .update).bind fun result d₃ ⟨h₃, hresult⟩ => ?_
  refine (ends_requireTemplates _).bind fun _ d₄ h₄ => ?_
  refine (ends_requireTemplates _).bind fun _ d₅ h₅ => ?_
  have hresult₅ := hresult.keeps (h₄.trans h₅).graph
  have h₁₅ := h₁.trans (h₂.trans (h₃.trans (h₄.trans h₅)))
  refine ends_attachUnlessEmpty trivial rfl rfl (hresult₅.takes rfl) fun deleting d₆ h₆ hdel => ?_
  refine ends_attachUnlessEmpty trivial rfl rfl ((hresult₅.keeps h₆.graph).takes rfl)
    fun inserting d₇ h₇ hins => ?_
  have h₁₇ := h₁₅.trans (h₆.trans h₇)
  refine (ends_drawShared (m.pattern.drawsSolutions p _) (h₁₇.graph.typed htyped)
    fun c hc => ?_).mono fun _ _ h₈ => h₁₇.trans h₈
  rcases List.mem_append.1 hc with hc | hc
  · exact (hdel c hc).keeps h₇
  · exact hins c hc

/-- Every operation of an update is drawn by typed steps. -/
theorem UpdateOperation.buildsTyped (op : UpdateOperation) : BuildsTyped (op.draw p) := by
  unfold UpdateOperation.draw
  split
  · exact drawData_buildsTyped true _
  · exact drawData_buildsTyped false _
  · intro d htyped _
    refine (ends_addResult .update).bind fun result d₁ ⟨h₁, hresult⟩ => ?_
    refine (ends_checkDeletion _).bind fun _ d₂ h₂ => ?_
    refine (ends_requireTemplates _).bind fun _ d₃ h₃ => ?_
    refine (ends_attachChange .delete trivial rfl rfl
      ((hresult.keeps (h₂.trans h₃).graph).takes rfl)).bind fun c d₄ ⟨h₄, hc⟩ => ?_
    have h₁₄ := h₁.trans (h₂.trans (h₃.trans h₄))
    exact (Group.drawsSolutions _ p none d₄ c (h₁₄.graph.typed htyped) hc.takes).mono
      fun _ _ h₅ => h₁₄.trans h₅
  · exact Modification.buildsTyped _
  · next c =>
    intro d htyped _
    refine (ends_addResult .update).bind fun result d₁ ⟨h₁, hresult⟩ => ?_
    have hcommand (d₂ : Draft) (h₂ : d₁.KeepsKinds d₂) : (do
        (← result.attach (.command c)).attachSource (.probe none) : Draw Unit).Ends d₂
          fun _ d' => d.KeepsKinds d' := by
      refine (Cursor.ends_attach (.command c) trivial rfl
        ((hresult.keeps h₂.graph).takes rfl)).bind fun c₃ d₃ ⟨h₃, hc₃⟩ => ?_
      have h₁₃ := h₁.trans (h₂.trans h₃)
      exact (DrawsSolutions.attachSource (.probe none) ⟨rfl, rfl⟩ trivial d₃ c₃
        (h₁₃.graph.typed htyped) (hc₃.takes rfl)).mono fun _ _ h₄ => h₁₃.trans h₄
    dsimp only
    split
    · exact Planner.ends_require.bind fun _ d₂ h₂ => hcommand d₂ h₂
    · exact hcommand d₁ .refl

/-- The plan of an update is typed. -/
theorem UpdateOperation.ends_prepare (op : UpdateOperation) :
    (op.prepare p).Ends d fun prepared _ => prepared.plan.Typed := by
  unfold UpdateOperation.prepare
  exact Edit.ends_bind.2 fun p' d' _ => ends_prepared op.buildsTyped

/-! ## Rule programs -/

/-- A head reads solutions and emits what it derives. -/
theorem RuleHead.ends_draw (head : RuleHead) : head.draw.Ends d fun id d' =>
    d.KeepsKinds d' ∧ ReadsSolutions ⟨id, 0⟩ d' ∧
      ∃ k, d'.graph.Emits id k ∧ (k = .quad ∨ k = .fact) := by
  cases head with
  | triple t =>
      refine (Draw.ends_add (.generate t) trivial).bind fun id d₁ ⟨h₁, hid⟩ => ?_
      refine Edit.ends_bind.2 (Edit.ends_modify.2 (Edit.ends_pure.2
        ⟨h₁.trans ⟨.refl, fun hw => ⟨fun x hx => ?_, hw.tripleMatchers, hw.atomHeads,
          hw.atomMatchers⟩⟩, ⟨_, hid, rfl⟩, .quad, hid.emits rfl, .inl rfl⟩))
      rcases List.mem_append.1 hx with hx | hx
      · exact hw.generators x hx
      · exact List.mem_singleton.1 hx ▸ hid.emits rfl
  | atom a =>
      refine (Draw.ends_add (.constructAtom a) trivial).bind fun id d₁ ⟨h₁, hid⟩ => ?_
      refine Edit.ends_bind.2 (Edit.ends_modify.2 (Edit.ends_pure.2
        ⟨h₁.trans ⟨.refl, fun hw => ⟨hw.generators, hw.tripleMatchers, fun x hx => ?_,
          hw.atomMatchers⟩⟩, ⟨_, hid, rfl⟩, .fact, hid.emits rfl, .inr rfl⟩))
      rcases List.mem_append.1 hx with hx | hx
      · exact hw.atomHeads x hx
      · exact List.mem_singleton.1 hx ▸ hid.emits rfl

/-- The heads of a rule read the solutions of its body and feed the result. -/
theorem Rule.ends_draw (r : Rule) {result : Cursor} {output : RuleOutput}
    (htyped : d.graph.Typed Plan.Typed)
    (hresult : d.graph.OfType result.target (.result (.materialize output))) :
    (r.draw p result).Ends d fun _ d' => d.KeepsKinds d' := by
  unfold Rule.draw
  refine (Edit.ends_mapM Draft.KeepsKinds ReadsSolutions (fun _ _ _ h hc => hc.keeps h)
    fun head _ d₁ h₁ => ?_).bind fun heads d₂ ⟨h₂, hheads, _⟩ => ?_
  · refine head.ends_draw.bind fun id d₂ ⟨h₂, hid, k, hk, hkind⟩ => ?_
    have htakes : d₂.graph.Takes result.target k :=
      (hresult.keeps (h₁.trans h₂).graph).takes (by rcases hkind with rfl | rfl <;> rfl)
    refine (Cursor.ends_feed hk htakes).bind fun _ d₃ h₃ => ?_
    exact Edit.ends_pure.2 ⟨h₂.trans h₃, hid.keeps h₃⟩
  · exact (ends_drawShared (r.body.drawsSolutions p none) (h₂.graph.typed htyped) hheads).mono
      fun _ _ h₃ => h₂.trans h₃

/-- Edges that are only recorded by producers carry rows of one kind. -/
theorem ends_pushSucceeding {g : Graph Plan} {s : OperatorId} {e : Edge} {k : RowKind}
    (hs : g.Emits s k) (ht : g.Takes e.target k) :
    (Graph.pushSucceeding s e).Ends g fun _ g' => g.KeepsKinds Plan.Typed g' := by
  unfold Graph.pushSucceeding
  refine Edit.ends_bind.2 (Graph.ends_require.2 fun n hn => Edit.ends_modify.2 ?_)
  refine .of_edges (Graph.length_mapNode _) (Graph.operator?_mapNode fun _ => rfl)
    fun x e' he' => ?_
  unfold Graph.succeeding at he' ⊢
  rw [Graph.node?_mapNode] at he'
  split at he'
  · next hx =>
    subst hx
    simp only [hn, Option.map_some, Option.getD_some] at he' ⊢
    rcases List.mem_append.1 he' with he' | he'
    · exact .inl he'
    · exact .inr ⟨k, hs, List.mem_singleton.1 he' ▸ ht⟩
  · exact .inl he'

/-- What producers emit may be fed to all consumers that take it. -/
theorem ends_linkAll {g : Graph Plan} {producers consumers : List OperatorId} {k : RowKind}
    (hproducers : ∀ id ∈ producers, g.Emits id k) (hconsumers : ∀ id ∈ consumers, g.Takes id k) :
    (linkAll producers consumers).Ends g fun _ g' => g.KeepsKinds Plan.Typed g' := by
  unfold linkAll
  refine Edit.ends_forM (Graph.KeepsKinds Plan.Typed) fun producer hproducer g₁ h₁ => ?_
  refine Edit.ends_forM (Graph.KeepsKinds Plan.Typed) fun consumer hconsumer g₂ h₂ => ?_
  have h₁₂ := h₁.trans h₂
  exact ends_pushSucceeding (h₁₂.emits (hproducers producer hproducer))
    (h₁₂.takes (hconsumers consumer hconsumer))

/-- To record producers at their consumers keeps the kinds of rows. -/
theorem keepsKinds_setParents (g : Graph Plan) : g.KeepsKinds Plan.Typed g.setParents := by
  unfold Graph.setParents
  suffices ∀ (l : List OperatorId) (h : Graph Plan), h.KeepsKinds Plan.Typed (l.foldl (fun h id =>
      h.mapNode id fun n => { n with preceding := g.producers id }) h) from this g.ids g
  intro l
  induction l with
  | nil => exact fun _ => .refl
  | cons id rest ih =>
      intro h
      have hmap : h.KeepsKinds Plan.Typed
          (h.mapNode id fun n => { n with preceding := g.producers id }) :=
        .mapNode (fun _ => rfl) fun _ _ he => he
      exact hmap.trans (ih _)

/-- Heads are linked to the matchers that take what they derive. -/
theorem Wiring.Typed.ends_link {w : Wiring} {g : Graph Plan} (h : w.Typed g) :
    w.link.Ends g fun _ g' => g.KeepsKinds Plan.Typed g' := by
  unfold Wiring.link
  refine (ends_linkAll h.generators h.tripleMatchers).bind fun _ g₁ h₁ => ?_
  have hw := h.keeps h₁
  refine (ends_linkAll hw.atomHeads hw.atomMatchers).bind fun _ g₂ h₂ => ?_
  exact Edit.ends_modify.2 ((h₁.trans h₂).trans (keepsKinds_setParents g₂))

/-- A program of rules is drawn by typed steps. -/
theorem RuleProgram.buildsTyped (r : RuleProgram) : BuildsTyped (r.draw p) := by
  intro d htyped hwiring
  unfold RuleProgram.draw
  refine (ends_addResult _).bind fun result d₁ ⟨h₁, hresult⟩ => ?_
  refine (Edit.ends_forM Draft.KeepsKinds fun rule _ d₂ h₂ =>
    rule.ends_draw ((h₁.trans h₂).graph.typed htyped) (hresult.keeps h₂.graph)).bind
      fun _ d₃ h₃ => ?_
  have h₁₃ := h₁.trans h₃
  refine Edit.ends_bind.2 (Edit.ends_get.2 ?_)
  exact (Draw.ends_onGraph (h₁₃.wiring hwiring).ends_link).mono fun _ _ h₄ => h₁₃.trans h₄

/-! ## Documents -/

/-- What holds of each plan of a query, an operation or a rule program holds of all plans of a
document. -/
theorem Document.ends_prepare_of {good : Plan → Prop} {doc : Document}
    (hquery : ∀ q, doc = .query q → ∀ d, (q.prepare p).Ends d fun prepared _ => good prepared.plan)
    (hupdate : ∀ u, doc = .update u → ∀ (op : UpdateOperation) (d : Draft),
      (op.prepare p).Ends d fun prepared _ => good prepared.plan)
    (hrules : ∀ r, doc = .rules r → ∀ d, (r.prepare p).Ends d fun prepared _ =>
      good prepared.plan) :
    (doc.prepare p).Ends d fun plans _ => ∀ prepared ∈ plans, good prepared.plan := by
  unfold Document.prepare
  split
  · next q =>
    refine (hquery q rfl d).bind fun prepared _ h => Edit.ends_pure.2 fun other hother => ?_
    exact List.mem_singleton.1 hother ▸ h
  · next u =>
    -- every operation has a draft of its own, so nothing is kept from one to the next
    have : IsPreorder Draft fun _ _ => True := { refl _ := trivial, trans _ _ _ _ _ := trivial }
    refine (Edit.ends_mapM (fun _ _ => True) (fun (prepared : Prepared) _ => good prepared.plan)
      (fun _ _ _ _ h => h) fun op _ d' _ => ?_).mono fun plans _ h => h.2.1
    exact (hupdate u rfl op d').mono fun _ _ h => ⟨trivial, h⟩
  · next r =>
    refine (hrules r rfl d).bind fun prepared _ h => Edit.ends_pure.2 fun o ho => ?_
    exact List.mem_singleton.1 ho ▸ h

/-- All plans of a document are typed. -/
theorem Document.ends_prepare (doc : Document) :
    (doc.prepare p).Ends d fun plans _ => ∀ prepared ∈ plans, prepared.plan.Typed :=
  ends_prepare_of (fun q _ _ => q.ends_prepare) (fun _ _ op _ => op.ends_prepare)
    fun r _ _ => ends_prepared r.buildsTyped

/-- A plan is optimized for its own dataset. -/
theorem Planner.optimizePrepared_eq_ok {prepared optimized : Prepared}
    (h : p.optimizePrepared prepared = .ok optimized) :
    ∃ o, p.optimize prepared.plan = .ok o ∧ optimized = ⟨o.plan, prepared.dataset⟩ := by
  unfold Planner.optimizePrepared at h
  cases ho : p.optimize prepared.plan with
  | error e => simp [ho, bind, Except.bind] at h
  | ok o =>
      rw [ho] at h
      exact ⟨o, rfl, (Except.ok.inj h).symm⟩

/-- Optimizing keeps a plan typed. -/
theorem Planner.typed_optimizePrepared {prepared optimized : Prepared} (h : prepared.plan.Typed)
    (hoptimized : p.optimizePrepared prepared = .ok optimized) : optimized.plan.Typed := by
  obtain ⟨o, ho, rfl⟩ := optimizePrepared_eq_ok hoptimized
  exact h.optimize (fun rule hrule =>
    PlanRule.catalogue_keepsTypes _ _ rule (List.mem_of_mem_filter hrule)) ho

/-- All optimized plans of a document are typed. -/
theorem Document.ends_compile (doc : Document) :
    (doc.compile p).Ends d fun plans _ => ∀ prepared ∈ plans, prepared.plan.Typed := by
  unfold Document.compile
  refine doc.ends_prepare.bind fun plans d₁ htyped optimized d₂ hrun => ?_
  have hok : plans.mapM p.optimizePrepared = .ok optimized := congrArg Prod.fst hrun
  intro prepared hprepared
  obtain ⟨drawn, hdrawn, ho⟩ := exists_of_forall₂ (forall₂_of_mapM_ok hok).flip hprepared
  exact p.typed_optimizePrepared (htyped drawn hdrawn) ho

/-- A compiled plan is evaluated over any source, unless it calls an endpoint or does not settle
within the limit on rounds. In particular no operator meets rows that it cannot read, no filter
lacks a nested plan and no operator is missing or on a cycle without feedback. -/
theorem Document.evaluate_compile {doc : Document} {plans : List Prepared} {d' : Draft}
    (hcompile : (doc.compile p).runOn d = (.ok plans, d')) {prepared : Prepared}
    (hprepared : prepared ∈ plans) (src : Source) (limit : Nat) :
    (∃ e, prepared.plan.evaluate src limit = .ok e) ∨
    prepared.plan.evaluate src limit = .error (.internal (.unconverged limit)) ∨
    ∃ endpoint, prepared.plan.Calls endpoint ∧
      prepared.plan.evaluate src limit = .error (.unsupported (.remoteCall endpoint)) := by
  have htyped := doc.ends_compile plans d' hcompile prepared hprepared
  have hends := htyped.evaluate_ends_well src limit
  unfold EndsWell at hends
  split at hends
  · next e he => exact .inl ⟨e, he⟩
  · next error herror =>
    rcases hends with rfl | ⟨endpoint, hcalls, rfl⟩
    · exact .inr (.inl herror)
    · exact .inr (.inr ⟨endpoint, hcalls, herror⟩)

/-- Whatever can be reached in some steps and has no name. -/
def unnamed : Document :=
  .query (.selectAll ⟨[.path ⟨.var ⟨"x"⟩, .oneOrMore (.predicate (.iri "knows")), .var ⟨"y"⟩⟩,
    .filter (.existence false
      ⟨[.triple ⟨.var ⟨"y"⟩, .term (.iri "name"), .var ⟨"n"⟩⟩]⟩)]⟩)

theorem evaluate_compile_unnamed : ∃ prepared d',
    (unnamed.compile (.ofStore .empty)).runOn .empty = (.ok [prepared], d') ∧
    ((∃ e, prepared.plan.evaluate ⟨.empty, prepared.dataset⟩ defaultIterations = .ok e) ∨
      prepared.plan.evaluate ⟨.empty, prepared.dataset⟩ defaultIterations =
        .error (.internal (.unconverged defaultIterations)) ∨
      ∃ endpoint, prepared.plan.Calls endpoint ∧
        prepared.plan.evaluate ⟨.empty, prepared.dataset⟩ defaultIterations =
          .error (.unsupported (.remoteCall endpoint))) := by
  have hone : ((unnamed.compile (.ofStore .empty)).runOn .empty).1.map List.length = .ok 1 := by
    decide +kernel
  cases hok : ((unnamed.compile (.ofStore .empty)).runOn .empty).1 with
  | error e => rw [hok] at hone; cases hone
  | ok plans =>
      rw [hok] at hone
      obtain ⟨prepared, rfl⟩ := List.length_eq_one_iff.1 (Except.ok.inj hone)
      refine ⟨prepared, _, Prod.ext hok rfl, ?_⟩
      exact Document.evaluate_compile (Prod.ext hok rfl) (List.mem_singleton.2 rfl) _ _

end QuadAlgebra
