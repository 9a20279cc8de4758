import QuadAlgebra.Proofs.Typing.Paths

/-!
# Typed patterns

Groups, sub-selections and the modifiers of a query are drawn from operators on solutions, and
every filter is drawn with a plan for each existence pattern of its condition
(`Group.drawsSolutions`). A condition on groups keeps its existence patterns when its aggregates are
replaced by variables.
-/

namespace QuadAlgebra

/-! ## Existence patterns of conditions -/

namespace Expression

variable {σ : Type} {replace : Aggregate → StateM σ Expression}

mutual

/-- Replacing the aggregates of an expression by pattern-free ones keeps its patterns. -/
theorem existencePatterns_mapAggregates
    (hreplace : ∀ a s, ((replace a).run s).1.existencePatterns = []) :
    (e : Expression) → (s : σ) →
      ((e.mapAggregates replace).run s).1.existencePatterns = e.existencePatterns
  | .aggregate a, s => hreplace a s
  | .binary l op r, s => by
      show (l.mapAggregates replace |>.run s).1.existencePatterns ++
        ((r.mapAggregates replace).run (l.mapAggregates replace |>.run s).2).1.existencePatterns = _
      rw [existencePatterns_mapAggregates hreplace l, existencePatterns_mapAggregates hreplace r]
      rfl
  | .unary _ e, s => existencePatterns_mapAggregates hreplace e s
  | .call _ args, s => existencePatternsOf_mapAggregates hreplace args s
  | .constant _, _ | .variable _, _ | .bound _, _ | .existence _ _, _ => rfl

/-- The same for a list of expressions. -/
theorem existencePatternsOf_mapAggregates
    (hreplace : ∀ a s, ((replace a).run s).1.existencePatterns = []) :
    (es : List Expression) → (s : σ) →
      existencePatternsOf ((mapAggregatesOf replace es).run s).1 = existencePatternsOf es
  | [], _ => rfl
  | e :: rest, s => by
      show (e.mapAggregates replace |>.run s).1.existencePatterns ++
        existencePatternsOf
          ((mapAggregatesOf replace rest).run (e.mapAggregates replace |>.run s).2).1 = _
      rw [existencePatterns_mapAggregates hreplace e,
        existencePatternsOf_mapAggregates hreplace rest]
      rfl

end

/-- Extracting the aggregates of an expression keeps its patterns. -/
theorem existencePatterns_extract (e : Expression) (s : Extraction) :
    (e.extract.run s).1.existencePatterns = e.existencePatterns := by
  refine existencePatterns_mapAggregates (fun a s => ?_) e s
  unfold Aggregate.extract
  cases hfound : s.aggregates.find? (·.2 == a) with
  | none => simp [hfound, existencePatterns]
  | some found => simp [hfound, existencePatterns]

/-- The same for a list of conditions. -/
theorem existencePatterns_mapM_extract (l : List Expression) (s : Extraction) :
    ((l.mapM extract).run s).1.map existencePatterns = l.map existencePatterns := by
  induction l generalizing s with
  | nil => rfl
  | cons e rest ih =>
      rw [List.mapM_cons]
      show existencePatterns (e.extract.run s).1 ::
        ((rest.mapM extract).run (e.extract.run s).2).1.map existencePatterns = _
      rw [existencePatterns_extract, ih]
      rfl

end Expression

/-- The conditions on groups keep their existence patterns. -/
theorem Outputs.existencePatterns_extract (o : Outputs) (s : Extraction) :
    (o.extract.run s).1.having.map Expression.existencePatterns =
      o.having.map Expression.existencePatterns := by
  obtain ⟨items, having, orderBy⟩ := o
  cases items with
  | none => exact Expression.existencePatterns_mapM_extract having s
  | some items =>
      exact Expression.existencePatterns_mapM_extract having ((items.mapM extractItem).run s).2

/-! ## Modifiers -/

/-- Plans for all existence patterns of some conditions. -/
def PlansConditions (conditions : List Expression) (nested : List (List (Draw Plan))) : Prop :=
  List.Forall₂ (fun e draws => draws.length = e.existencePatterns.length ∧
    ∀ draw ∈ draws, DrawsPlan draw) conditions nested

/-- Plans that fit some conditions fit others with the same patterns. -/
theorem PlansConditions.of_patterns {conditions conditions' : List Expression}
    {nested : List (List (Draw Plan))} (h : PlansConditions conditions nested)
    (heq : conditions'.map Expression.existencePatterns =
      conditions.map Expression.existencePatterns) : PlansConditions conditions' nested := by
  induction h generalizing conditions' with
  | nil =>
      obtain rfl := List.map_eq_nil_iff.1 heq
      exact .nil
  | cons hfirst _ ih =>
      obtain ⟨e, rest, rfl, he, hrest⟩ := List.map_eq_cons_iff.1 heq
      exact .cons (he ▸ hfirst) (ih hrest)

/-- Flattened, the plans are as many as the patterns of the conditions, and each draws a plan. -/
theorem PlansConditions.flatten {args : List Expression} {nested : List (List (Draw Plan))}
    (h : PlansConditions args nested) :
    nested.flatten.length = (Expression.existencePatternsOf args).length ∧
      ∀ draw ∈ nested.flatten, DrawsPlan draw := by
  induction h with
  | nil => exact ⟨rfl, fun _ h => absurd h List.not_mem_nil⟩
  | cons hfirst _ ih =>
      refine ⟨?_, fun draw hdraw => ?_⟩
      · rw [List.flatten_cons, Expression.existencePatternsOf, List.length_append,
          List.length_append, hfirst.1, ih.1]
      · rcases List.mem_append.1 hdraw with hdraw | hdraw
        · exact hfirst.2 draw hdraw
        · exact ih.2 draw hdraw

namespace Planner

variable {d : Draft} {c : Cursor}

/-- Requiring a feature draws nothing. -/
theorem ends_require {enabled : Bool} {feature : String} :
    (require enabled feature).Ends d fun _ d' => d.KeepsKinds d' := by
  unfold require
  split
  · exact Edit.ends_pure.2 .refl
  · exact Draw.ends_unsupported

/-- A check that may be left out before something else is done. -/
theorem ends_optionally {α : Type} {cond : Prop} [Decidable cond] {check : Draw Unit}
    {next : Unit → Draw α} {post : α → Draft → Prop}
    (hcheck : check.Ends d fun _ d' => d.KeepsKinds d')
    (hnext : ∀ d', d.KeepsKinds d' → (next ()).Ends d' post) :
    (if cond then check >>= next else next ()).Ends d post := by
  split
  · exact hcheck.bind fun _ d' h => hnext d' h
  · exact hnext d .refl

/-- Checking a grouping key draws nothing that an existing operator could see. -/
theorem ends_groupKey (key : GroupKey) : key.draw.Ends d fun _ d' => d.KeepsKinds d' := by
  unfold GroupKey.draw
  split
  · exact Edit.ends_pure.2 .refl
  · exact Edit.ends_pure.2 .refl
  · exact Draw.ends_freshVar.bind fun _ _ h => Edit.ends_pure.2 h

/-- Checking the grouped outputs draws nothing. -/
theorem ends_checkGrouping {o : Outputs} {selectsAll : Bool} {keys aggregates : List Variable} :
    (checkGrouping o selectsAll keys aggregates).Ends d fun _ d' => d.KeepsKinds d' := by
  unfold checkGrouping
  refine ends_optionally Draw.ends_malformed fun d₁ h₁ => ?_
  dsimp only
  split
  · exact Edit.ends_bind.2 Draw.ends_malformed
  · refine (Edit.ends_forM Draft.KeepsKinds fun b _ d₂ _ => ?_).mono fun _ _ h₂ => h₁.trans h₂
    split
    · exact Draw.ends_malformed
    · exact Edit.ends_pure.2 .refl

/-- Lifting an outcome that may be refused draws nothing. -/
theorem ends_liftExcept {α : Type} {outcome : Except Error α} :
    (solutions.liftExcept outcome).Ends d fun _ d' => d.KeepsKinds d' := by
  intro a d' hrun
  obtain ⟨-, rfl⟩ := Prod.mk.inj (hrun : (outcome, d) = (.ok a, d'))
  exact .refl

/-- Attaching filters keeps a cursor on an operand that takes solutions. -/
theorem ends_attachFilters {p : Planner} {conditions : List Expression}
    {nested : List (List (Draw Plan))} (hnested : PlansConditions conditions nested)
    (hc : d.graph.Takes c.target .solution) :
    ((conditions.zip nested).foldlM (fun c (condition, plans) =>
      p.attachFilter condition plans c) c).Ends d fun c' d' =>
        d.KeepsKinds d' ∧ d'.graph.Takes c'.target .solution := by
  refine Edit.ends_foldlM Draft.KeepsKinds (fun (c : Cursor) d => d.graph.Takes c.target .solution)
    hc fun c e he d' _ hc' => ?_
  obtain ⟨hlength, hplans⟩ := List.forall₂_zip hnested he
  exact ends_attachFilter hlength hplans hc'

/-- Every operator of a chain of bindings reads and emits solutions. -/
theorem bindOperators_onSolutions (bindings : List Binding) :
    ∀ op ∈ bindOperators bindings, op.OnSolutions ∧ op.Covered Plan.Typed := by
  intro op hop
  obtain ⟨b, -, rfl⟩ := List.mem_map.1 hop
  exact ⟨⟨rfl, rfl⟩, trivial⟩

/-- The operators of a modifier that may be left out. -/
theorem forall_mem_option {α : Type} {good : Operator Plan → Prop} {x : Option α}
    {f : α → Operator Plan} (hf : ∀ a, good (f a)) : ∀ op ∈ (x.map f).toList, good op := by
  intro op hop
  obtain ⟨a, -, rfl⟩ := Option.map_eq_some_iff.1 (Option.mem_toList.1 hop)
  exact hf a

/-- Both branches of a conditional list may be checked apart. -/
theorem forall_mem_ite {cond : Prop} [Decidable cond] {good : Operator Plan → Prop}
    {ops ops' : List (Operator Plan)} (h : ∀ op ∈ ops, good op) (h' : ∀ op ∈ ops', good op) :
    ∀ op ∈ if cond then ops else ops', good op := by
  split
  · exact h
  · exact h'

/-- The solution modifiers of a query draw solutions over a pattern that does. -/
theorem drawsSolutions_solutions {p : Planner} {form : QueryForm} {m : Modifiers}
    {nested : List (List (Draw Plan))} {pattern : DrawInto}
    (hnested : PlansConditions m.having nested) (hpattern : DrawsSolutions pattern) :
    DrawsSolutions (p.solutions form m nested pattern) := by
  intro d c htyped hc
  unfold solutions
  refine Edit.ends_bind.2 (Edit.ends_get.2 ?_)
  dsimp only
  split
  next o extraction hrun =>
  -- the conditions on groups that are planned have the patterns of those that are written
  have hextracted : o.having.map Expression.existencePatterns =
      m.having.map Expression.existencePatterns :=
    (congrArg (fun r : Id (Outputs × Extraction) =>
      r.1.having.map Expression.existencePatterns) hrun).symm.trans
        (Outputs.existencePatterns_extract _ _)
  refine Edit.ends_bind.2 (Edit.ends_set.2 ?_)
  have h₁ : d.KeepsKinds { d with nextVar := extraction.nextVar } := .of_eq rfl rfl
  refine (Edit.ends_mapM Draft.KeepsKinds (fun _ _ => True) (fun _ _ _ _ _ => trivial)
    fun key _ d' _ => (ends_groupKey key).mono fun _ _ h => ⟨h, trivial⟩).bind
      fun grouped d₂ ⟨h₂, _⟩ => ?_
  refine ends_optionally ends_checkGrouping fun d₃ h₃ => ?_
  refine ends_liftExcept.bind fun computed d₄ h₄ => ends_liftExcept.bind fun keys d₅ h₅ => ?_
  have h₁₅ := h₁.trans (h₂.trans (h₃.trans (h₄.trans h₅)))
  refine (Cursor.ends_attachAll ?_ (h₁₅.graph.takes hc)).bind fun c₆ d₆ ⟨h₆, hc₆⟩ => ?_
  · simp only [List.forall_mem_append]
    exact ⟨⟨⟨⟨⟨forall_mem_option fun _ => ⟨⟨rfl, rfl⟩, trivial⟩,
      forall_mem_option fun _ => ⟨⟨rfl, rfl⟩, trivial⟩⟩,
      forall_mem_ite (List.forall_mem_nil _) (List.forall_mem_singleton.2 ⟨⟨rfl, rfl⟩, trivial⟩)⟩,
      forall_mem_option fun _ => ⟨⟨rfl, rfl⟩, trivial⟩⟩,
      forall_mem_ite (List.forall_mem_nil _) (List.forall_mem_singleton.2 ⟨⟨rfl, rfl⟩, trivial⟩)⟩,
      bindOperators_onSolutions _⟩
  · refine (ends_attachFilters (hnested.of_patterns hextracted) hc₆).bind
      fun c₇ d₇ ⟨h₇, hc₇⟩ => ?_
    refine (Cursor.ends_attachAll ?_ hc₇).bind fun c₈ d₈ ⟨h₈, hc₈⟩ => ?_
    · simp only [List.forall_mem_append]
      exact ⟨forall_mem_ite (List.forall_mem_singleton.2 ⟨⟨rfl, rfl⟩, trivial⟩)
        (List.forall_mem_nil _), bindOperators_onSolutions _⟩
    · have h₁₈ := h₁₅.trans (h₆.trans (h₇.trans h₈))
      exact (hpattern d₈ c₈ (h₁₈.graph.typed htyped) hc₈).mono fun _ _ h₉ => h₁₈.trans h₉

end Planner

/-! ## Segments -/

/-- All that a segment has gathered feeds solutions. -/
abbrev Segment.Typed (s : Segment) : Prop := s.Each DrawsSolutions

/-- A typed segment draws solutions. -/
theorem Segment.Typed.drawsSolutions {s : Segment} (h : s.Typed) (p : Planner)
    (graph : Option Item) : DrawsSolutions (s.draw p graph) :=
  h.good_draw (.attachSource (.probe graph) ⟨rfl, rfl⟩ trivial)
    (fun _ => .attachSource (p.scan _ graph) ⟨rfl, rfl⟩ trivial)
    fun _ hdraws => .operands .join ⟨rfl, rfl⟩ trivial hdraws

/-! ## Parts of rule bodies -/

/-- A triple of a rule body draws solutions. -/
theorem drawsSolutions_ruleTriple (p : Planner) (graph : Option Item) (t : TriplePattern) :
    DrawsSolutions (ruleTriple p graph t) := by
  intro d c htyped hc
  unfold ruleTriple
  refine (Cursor.ends_attach .union trivial rfl hc).bind fun union d₁ ⟨h₁, hunion⟩ => ?_
  refine (DrawsSolutions.attachSource (p.scan [t] graph) ⟨rfl, rfl⟩ trivial d₁ union
    (h₁.graph.typed htyped) (hunion.takes rfl)).bind fun _ d₂ h₂ => ?_
  refine (Draw.ends_add (.matchTriple t) trivial).bind fun matcher d₃ ⟨h₃, hmatcher⟩ => ?_
  have hunion₃ := hunion.keeps (h₂.trans h₃).graph
  refine (Cursor.ends_feed (c := union.sibling 1) (hmatcher.emits rfl)
    (hunion₃.takes rfl)).bind fun _ d₄ h₄ => ?_
  refine Edit.ends_modify.2 ((h₁.trans (h₂.trans (h₃.trans h₄))).trans ⟨.refl, fun hw => ?_⟩)
  refine ⟨hw.generators, fun id hid => ?_, hw.atomHeads, hw.atomMatchers⟩
  rcases List.mem_append.1 hid with hid | hid
  · exact hw.tripleMatchers id hid
  · exact List.mem_singleton.1 hid ▸ (hmatcher.keeps h₄.graph).takes rfl

/-- An atom of a rule body draws solutions. -/
theorem drawsSolutions_ruleAtom (a : Atom) : DrawsSolutions (ruleAtom a) := by
  intro d c htyped hc
  unfold ruleAtom
  refine (Draw.ends_add (.matchAtom a) trivial).bind fun matcher d₁ ⟨h₁, hmatcher⟩ => ?_
  refine Edit.ends_bind.2 (Edit.ends_modify.2 ?_)
  have h₂ : d₁.KeepsKinds { d₁ with wiring :=
      { d₁.wiring with atomMatchers := d₁.wiring.atomMatchers ++ [matcher] } } := by
    refine ⟨.refl, fun hw => ⟨hw.generators, hw.tripleMatchers, hw.atomHeads, fun id hid => ?_⟩⟩
    rcases List.mem_append.1 hid with hid | hid
    · exact hw.atomMatchers id hid
    · exact List.mem_singleton.1 hid ▸ hmatcher.takes rfl
  have h₁₂ := h₁.trans h₂
  refine (Cursor.ends_feed ((hmatcher.keeps h₂.graph).emits rfl)
    (h₁₂.graph.takes hc)).mono fun _ _ h₃ => h₁₂.trans h₃

/-- A property path keeps a segment typed. -/
theorem Segment.Typed.addPath {s : Segment} (h : s.Typed) (p : Planner) (graph : Option Item)
    (path : PathPattern) : (s.addPath p graph path).Typed := by
  unfold Segment.addPath
  split
  · dsimp only
    split
    · exact h.addOther (drawsSolutions_ruleTriple p graph _)
    · exact h.addTriple _
  · exact h.addOther (.feed (path.path.draw_addsPairs _ _ _))

/-- A drawing behind a check. -/
theorem DrawsSolutions.after {α : Type} {check : Draw α} {draw : DrawInto}
    (hcheck : ∀ d, check.Ends d fun _ d' => d.KeepsKinds d') (hdraw : DrawsSolutions draw) :
    DrawsSolutions (fun c => do let _ ← check; draw c) := by
  intro d c htyped hc
  refine (hcheck d).bind fun _ d₁ h₁ => ?_
  exact (hdraw d₁ c (h₁.graph.typed htyped) (h₁.graph.takes hc)).mono fun _ _ h₂ => h₁.trans h₂

/-- Two drawings feed the operands of one operator. -/
theorem DrawsSolutions.both (op : Operator Plan) {first second : DrawInto} (hon : op.OnSolutions)
    (hcovered : op.Covered Plan.Typed) (hfirst : DrawsSolutions first)
    (hsecond : DrawsSolutions second) :
    DrawsSolutions (fun c => do
      let node ← c.attach op
      first node
      second (node.sibling 1)) := by
  refine .attach op hon hcovered ?_
  intro d c htyped hc
  refine (hfirst d c htyped hc).bind fun _ d₁ h₁ => ?_
  exact (hsecond d₁ (c.sibling 1) (h₁.graph.typed htyped) (h₁.graph.takes hc)).mono
    fun _ _ h₂ => h₁.trans h₂

/-- Requiring that a nested query has no clause of its own draws nothing. -/
theorem ends_requireNestable (q : Query) (d : Draft) :
    q.requireNestable.Ends d fun _ d' => d.KeepsKinds d' := by
  unfold Query.requireNestable
  have hdataset : (if q.dataset.isSome then Draw.malformed .subqueryDataset else pure () :
      Draw Unit).Ends d fun _ d' => d.KeepsKinds d' :=
    Edit.ends_ite (fun _ => Draw.ends_malformed) fun _ => Edit.ends_pure.2 .refl
  dsimp only
  split
  · exact hdataset
  · exact Edit.ends_bind.2 Draw.ends_malformed

/-! ## Groups -/

mutual

/-- A group feeds solutions. -/
theorem Group.drawsSolutions : (g : Group) → (p : Planner) → (graph : Option Item) →
    DrawsSolutions (g.draw p graph)
  | ⟨elements⟩, p, graph => fun d c htyped hc => by
      unfold Group.draw
      refine (ends_drawFilters elements p graph hc).bind fun c₁ d₁ ⟨h₁, hc₁⟩ => ?_
      exact ((drawElements_typed elements p graph .start).drawsSolutions p graph d₁ c₁
        (h₁.graph.typed htyped) hc₁).mono fun _ _ h₂ => h₁.trans h₂

/-- The filters of a group keep its cursor on an operand that takes solutions. -/
theorem ends_drawFilters : (elements : List Element) → (p : Planner) → (graph : Option Item) →
    {d : Draft} → {c : Cursor} → d.graph.Takes c.target .solution →
      (drawFilters p graph elements c).Ends d fun c' d' =>
        d.KeepsKinds d' ∧ d'.graph.Takes c'.target .solution
  | [], _, _, _, _, hc => Edit.ends_pure.2 ⟨.refl, hc⟩
  | e :: rest, p, graph, d, c, hc => by
      cases e with
      | filter e =>
          obtain ⟨hlength, hplans⟩ := e.drawNested_plans p graph
          unfold drawFilters
          refine (ends_attachFilter hlength hplans hc).bind fun c₁ d₁ ⟨h₁, hc₁⟩ => ?_
          exact (ends_drawFilters rest p graph hc₁).mono fun _ _ ⟨h₂, hc₂⟩ => ⟨h₁.trans h₂, hc₂⟩
      | _ => exact ends_drawFilters rest p graph hc

/-- The elements of a group keep its segment typed. -/
theorem drawElements_typed : (elements : List Element) → (p : Planner) → (graph : Option Item) →
    {s : Segment} → s.Typed → (drawElements p graph elements s).Typed
  | [], _, _, _, hs => hs
  | e :: rest, p, graph, _, hs =>
      drawElements_typed rest p graph ((e.draw_typed p graph hs).scope _)

/-- A segment that is extended by an element still feeds solutions. -/
theorem Element.draw_typed : (e : Element) → (p : Planner) → (graph : Option Item) →
    {s : Segment} → s.Typed → (e.draw p graph s).Typed
  | .triple t, p, graph, s, hs => by
      unfold Element.draw
      split
      · exact hs.addOther (drawsSolutions_ruleTriple p graph t)
      · exact hs.addTriple t
  | .path path, p, graph, _, hs => hs.addPath p graph path
  | .group g, p, graph, s, hs => hs.addOther (g.drawsSolutions p graph)
  | .union branches, p, graph, _, hs => by
      have hbranches := drawBranches_drawsSolutions branches p graph
      exact hs.addOther (DrawInto.good_several hbranches
        (.attachSource (.probe graph) ⟨rfl, rfl⟩ trivial)
        (.operands .union ⟨rfl, rfl⟩ trivial hbranches))
  | .optional g, p, graph, s, hs =>
      .close (.both .optional ⟨rfl, rfl⟩ trivial (hs.drawsSolutions p graph)
        (g.drawsSolutions p graph))
  | .minus g, p, graph, s, hs =>
      .close (.both .minus ⟨rfl, rfl⟩ trivial (hs.drawsSolutions p graph)
        (g.drawsSolutions p graph))
  | .bind e target, p, graph, s, hs => by
      refine .close fun d c htyped hc => ?_
      refine Planner.ends_optionally Draw.ends_malformed fun d₁ h₁ => ?_
      refine Planner.ends_optionally Draw.ends_unsupported fun d₂ h₂ => ?_
      have h₁₂ := h₁.trans h₂
      exact (DrawsSolutions.attach (.bind target e) ⟨rfl, rfl⟩ trivial (hs.drawsSolutions p graph)
        d₂ c (h₁₂.graph.typed htyped) (h₁₂.graph.takes hc)).mono fun _ _ h₃ => h₁₂.trans h₃
  | .graph name g, p, graph, s, hs =>
      hs.addOther (.after (fun _ => Planner.ends_require) (g.drawsSolutions p (some name)))
  | .filter _, _, _, _, hs => hs
  | .subSelect q, p, graph, s, hs =>
      hs.addOther (.after (ends_requireNestable q) (q.drawsSolutions p graph))
  | .service endpoint g silent, p, graph, s, hs =>
      hs.addOther (.after (fun _ => Planner.ends_require)
        (.attachSource (.service endpoint g silent) ⟨rfl, rfl⟩ trivial))
  | .window w g, p, graph, s, hs =>
      hs.addOther (.after (fun _ => Planner.ends_require)
        (.attach (.window w) ⟨rfl, rfl⟩ trivial (g.drawsSolutions p graph)))
  | .atom a, p, graph, s, hs => by
      refine hs.addOther fun d c htyped hc => ?_
      split
      · exact drawsSolutions_ruleAtom a d c htyped hc
      · exact Draw.ends_malformed

/-- Every branch of an alternative draws solutions. -/
theorem drawBranches_drawsSolutions : (branches : List Group) → (p : Planner) →
    (graph : Option Item) → ∀ draw ∈ drawBranches p graph branches, DrawsSolutions draw
  | [], _, _, _, h => absurd h List.not_mem_nil
  | g :: rest, p, graph, draw, h => by
      rcases List.mem_cons.1 h with rfl | h
      · exact g.drawsSolutions p graph
      · exact drawBranches_drawsSolutions rest p graph draw h

/-- A query feeds its solutions. -/
theorem Query.drawsSolutions : (q : Query) → (p : Planner) → (graph : Option Item) →
    DrawsSolutions (q.drawSolutions p graph)
  | ⟨_, _, some g, ⟨_, having, _, _, _⟩⟩, p, graph =>
      Planner.drawsSolutions_solutions (drawNestedOf_plans having p graph)
        (g.drawsSolutions p graph)
  | ⟨_, _, none, ⟨_, having, _, _, _⟩⟩, p, graph =>
      Planner.drawsSolutions_solutions (drawNestedOf_plans having p graph)
        (.attachSource (.probe graph) ⟨rfl, rfl⟩ trivial)

/-- There is a plan for each existence pattern of an expression. -/
theorem Expression.drawNested_plans : (e : Expression) → (p : Planner) → (graph : Option Item) →
    (e.drawNested p graph).length = e.existencePatterns.length ∧
      ∀ draw ∈ e.drawNested p graph, DrawsPlan draw
  | .existence _ g, p, graph => by
      refine ⟨rfl, fun draw hdraw => ?_⟩
      rw [List.mem_singleton.1 hdraw]
      exact drawsPlan_nestedPlan (g.drawsSolutions _ graph)
  | .binary l _ r, p, graph => by
      obtain ⟨hl, hplans⟩ := l.drawNested_plans p graph
      obtain ⟨hr, hplans'⟩ := r.drawNested_plans p graph
      refine ⟨?_, fun draw hdraw => ?_⟩
      · rw [Expression.drawNested, Expression.existencePatterns, List.length_append,
          List.length_append, hl, hr]
      · rcases List.mem_append.1 hdraw with hdraw | hdraw
        · exact hplans draw hdraw
        · exact hplans' draw hdraw
  | .unary _ e, p, graph => e.drawNested_plans p graph
  | .call _ args, p, graph => (drawNestedOf_plans args p graph).flatten
  | .constant _, _, _ | .variable _, _, _ | .bound _, _, _ | .aggregate _, _, _ =>
      ⟨rfl, fun _ h => absurd h List.not_mem_nil⟩

/-- The groups of the existence filters of some conditions draw plans that fit them. -/
theorem drawNestedOf_plans : (es : List Expression) → (p : Planner) → (graph : Option Item) →
    PlansConditions es (drawNestedOf p graph es)
  | [], _, _ => .nil
  | e :: rest, p, graph => .cons (e.drawNested_plans p graph) (drawNestedOf_plans rest p graph)

end

end QuadAlgebra
