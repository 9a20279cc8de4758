import QuadAlgebra.Proofs.Modifiers.Rows
import QuadAlgebra.Proofs.Modifiers.Stacks

/-!
# The operators of a selection

Drawing a selection chooses variables for its aggregates and for its keys without a name, and orders
its computed variables (`Arrangement`). From these follow the operators that stand between its
result and its pattern (`Arrangement.operators`). What is drawn is a stack of these operators, and
the pattern is drawn below it (`Planner.ends_solutions`).
-/

namespace QuadAlgebra

/-- What drawing a selection chooses. -/
structure Arrangement where
  /-- The variables that stand for aggregates. -/
  table : AggregateTable
  /-- The expressions above the groups, with these variables in the places of the aggregates. -/
  outputs : Outputs
  keys : List (Variable × List Binding)
  bindings : List Binding
  keyBindings : List Binding
  filters : List (Operator Plan)

namespace Arrangement

/-- The operators above the groups. -/
def above (d : Duplicates) (m : Modifiers) (o : Outputs) (bindings : List Binding) :
    List (Operator Plan) :=
  (m.limit.map .limit).toList ++ (m.offset.map .offset).toList ++
    (if d = .all then [] else [.distinct]) ++
    (o.items.map fun items =>
      .projection (OrdSet.ofList (items.map SelectItem.target))).toList ++
    (if o.orderBy.isEmpty then [] else [.sort o.orderBy]) ++ Planner.bindOperators bindings

/-- The operators that group. -/
def grouping (m : Modifiers) (keys : List Variable) (table : AggregateTable)
    (keyBindings : List Binding) : List (Operator Plan) :=
  (if !m.groupBy.isEmpty || !table.isEmpty then [.group keys table] else []) ++
    Planner.bindOperators keyBindings

/-- The operators of a selection, from its result down to its pattern. -/
def operators (a : Arrangement) (d : Duplicates) (m : Modifiers) : List (Operator Plan) :=
  above d m a.outputs a.bindings ++ a.filters ++
    grouping m (a.keys.map Prod.fst) a.table a.keyBindings

/-- The choices fit a selection. Variables are numbered from the given number on. -/
structure Of (a : Arrangement) (first : Nat) (s : Selection) (m : Modifiers)
    (nested : List (List (Draw Plan))) : Prop where
  numbered : Extraction.Numbered first ⟨a.table, first + a.table.length⟩
  named : (m.outputs s).Named a.table a.outputs
  bare : (m.outputs s).hasAggregate = false → a.table = []
  keys : a.keys = keysFrom (first + a.table.length) m.groupBy
  bindings : Binding.sort a.outputs.bindings = .ok a.bindings
  keyBindings : Binding.sort (a.keys.flatMap Prod.snd) = .ok a.keyBindings
  /-- What is grouped is not selected as a whole. -/
  explicit : m.groupBy ≠ [] ∨ a.table ≠ [] → s ≠ .wildcard
  filters : List.Forall₂ (fun (c : Expression × List (Draw Plan)) op => PlannedFilter c.1 c.2 op)
    (a.outputs.having.zip nested) a.filters

end Arrangement

/-! ## Drawing -/

section Drawing

variable {d : Draft}

theorem ends_groupKeys (keys : List GroupKey) :
    (keys.mapM GroupKey.draw).Ends d fun grouped d' =>
      grouped = keysFrom d.nextVar keys ∧ d'.graph = d.graph := by
  induction keys generalizing d with
  | nil =>
      rw [List.mapM_nil]
      exact Edit.ends_pure.2 ⟨rfl, rfl⟩
  | cons key rest ih =>
      rw [List.mapM_cons]
      have hrest {k : Variable × List Binding} {d' : Draft} (hgraph : d'.graph = d.graph) :
          (do
            let ks ← rest.mapM GroupKey.draw
            pure (k :: ks) : Draw (List (Variable × List Binding))).Ends d' fun grouped d'' =>
              grouped = k :: keysFrom d'.nextVar rest ∧ d''.graph = d.graph :=
        ih.bind fun ks d'' ⟨hks, h''⟩ => Edit.ends_pure.2 ⟨hks ▸ rfl, h''.trans hgraph⟩
      cases key with
      | «variable» v => exact Edit.ends_bind.2 (Edit.ends_pure.2 (hrest rfl))
      | computed e target =>
          cases target with
          | some t => exact Edit.ends_bind.2 (Edit.ends_pure.2 (hrest rfl))
          | none =>
              refine Edit.ends_bind.2 (Edit.ends_bind.2 (Edit.ends_bind.2 (Edit.ends_get.2
                (Edit.ends_bind.2 (Edit.ends_set.2 (Edit.ends_pure.2 (Edit.ends_pure.2 ?_)))))))
              exact hrest rfl

theorem ends_checkGrouping_eq {o : Outputs} {selectsAll : Bool} {keys aggregates : List Variable} :
    (checkGrouping o selectsAll keys aggregates).Ends d fun _ d' =>
      d' = d ∧ selectsAll = false := by
  have hthrow {cause : Malformed} {next : PUnit → Draw Unit} {post : Unit → Draft → Prop} :
      ((Draw.malformed cause : Draw PUnit) >>= next).Ends d post :=
    Edit.ends_bind.2 Draw.ends_malformed
  unfold checkGrouping
  refine Edit.ends_ite (fun _ => hthrow) fun hall => ?_
  dsimp only
  split
  · exact hthrow
  · refine (Edit.ends_forM (· = ·) fun b _ d₁ _ => ?_).mono fun _ d' hd' =>
      ⟨hd'.symm, Bool.eq_false_iff.2 hall⟩
    split
    · exact Draw.ends_malformed
    · exact Edit.ends_pure.2 rfl

theorem ends_liftExcept_eq {α : Type} {outcome : Except Error α} :
    (Planner.solutions.liftExcept outcome).Ends d fun a d' => outcome = .ok a ∧ d' = d := by
  intro a d' hrun
  obtain ⟨houtcome, rfl⟩ := Prod.mk.inj (hrun : (outcome, d) = (.ok a, d'))
  exact ⟨houtcome, rfl⟩

end Drawing

namespace Planner

variable {d : Draft} {form : ResultForm} {nested : List (List (Draw Plan))}

/-- Operators above filters above operators above a pattern. -/
theorem ends_layers (p : Planner) (pattern : DrawInto) (bindings keyBindings : List Binding)
    (above below : List Binding → List (Operator Plan)) {conditions : List Expression}
    (hd : d.Stacked form [])
    (hnested : PlansAside nested.flatten) (hlength : conditions.length = nested.length) : (do
      let computed ← solutions.liftExcept (Binding.sort bindings)
      let computedKeys ← solutions.liftExcept (Binding.sort keyBindings)
      let c ← (Draft.Stacked.bottom []).attachAll (above computed)
      let c ← (conditions.zip nested).foldlM (fun c e => p.attachFilter e.1 e.2 c) c
      let c ← c.attachAll (below computedKeys)
      pattern c : Draw Unit).Ends d fun _ e =>
        ∃ (computed computedKeys : List Binding) (filters : List (Operator Plan)) (mid : Draft),
          Binding.sort bindings = .ok computed ∧ Binding.sort keyBindings = .ok computedKeys ∧
          List.Forall₂ (fun (c : Expression × List (Draw Plan)) op => PlannedFilter c.1 c.2 op)
            (conditions.zip nested) filters ∧
          mid.Stacked form (above computed ++ filters ++ below computedKeys) ∧
          (pattern (Draft.Stacked.bottom (above computed ++ filters ++ below computedKeys))).runOn
            mid = (.ok (), e) := by
  refine ends_liftExcept_eq.bind fun computed d₁ ⟨hcomputed, h₁⟩ => ?_
  refine ends_liftExcept_eq.bind fun computedKeys d₂ ⟨hkeys, h₂⟩ => ?_
  obtain rfl : d₂ = d := h₂.trans h₁
  refine (hd.ends_attachAll (above computed)).bind fun c d₃ ⟨hc, h₃⟩ => ?_
  subst hc
  refine (h₃.ends_attachFilters hnested hlength).bind fun c d₄ ⟨filters, hfilters, hc, h₄⟩ => ?_
  subst hc
  refine (h₄.ends_attachAll (below computedKeys)).bind fun c mid ⟨hc, hmid⟩ _ e hrun => ?_
  subst hc
  exact ⟨computed, computedKeys, filters, mid, hcomputed, hkeys, hfilters, hmid, hrun⟩

/-- The steps in which a selection is drawn: aggregates are extracted and keys named, the grouping
is checked, bindings are ordered, and the layers are attached from the top down. -/
theorem solutions_select (p : Planner) (repeated : Duplicates) (s : Selection) (m : Modifiers)
    (nested : List (List (Draw Plan))) (pattern : DrawInto) (c : Cursor) :
    p.solutions (.select repeated s) m nested pattern c = (do
      let d ← get
      let extracted := (m.outputs s).extract.run ⟨[], d.nextVar⟩
      let o := extracted.1
      set { d with nextVar := extracted.2.nextVar }
      let grouped ← m.groupBy.mapM GroupKey.draw
      let keys := grouped.map (·.1)
      let aggregates := extracted.2.aggregates
      let grouping := !m.groupBy.isEmpty || !aggregates.isEmpty
      if grouping then
        checkGrouping o (o.items.isNone) keys (aggregates.map (·.1))
      let computed ← solutions.liftExcept (Binding.sort o.bindings)
      let computedKeys ← solutions.liftExcept (Binding.sort (grouped.flatMap (·.2)))
      let c ← c.attachAll (Arrangement.above repeated m o computed)
      let c ← (o.having.zip nested).foldlM (fun c e => p.attachFilter e.1 e.2 c) c
      let c ← c.attachAll (Arrangement.grouping m keys aggregates computedKeys)
      pattern c) := by
  cases s <;> rfl

/-- A selection is drawn as a stack of operators above its pattern. -/
theorem ends_solutions {p : Planner} {repeated : Duplicates} {s : Selection} {m : Modifiers}
    {pattern : DrawInto} (hd : d.Stacked form []) (hnested : PlansAside nested.flatten)
    (hlength : m.having.length = nested.length) :
    (p.solutions (.select repeated s) m nested pattern (Draft.Stacked.bottom [])).Ends d fun _ e =>
      ∃ (a : Arrangement) (mid : Draft), a.Of d.nextVar s m nested ∧
        mid.Stacked form (a.operators repeated m) ∧
        (pattern (Draft.Stacked.bottom (a.operators repeated m))).runOn mid = (.ok (), e) := by
  rw [solutions_select]
  refine Edit.ends_bind.2 (Edit.ends_get.2 ?_)
  dsimp only
  obtain ⟨hextends, hnamed⟩ := (m.outputs s).named_extract ⟨[], d.nextVar⟩
  have hbare (h : (m.outputs s).hasAggregate = false) :=
    (m.outputs s).run_extract_of_not_hasAggregate h ⟨[], d.nextVar⟩
  generalize (m.outputs s).extract.run ⟨[], d.nextVar⟩ = extracted at hextends hnamed hbare ⊢
  obtain ⟨o, extraction⟩ := extracted
  have hnumbered := hextends.numbered d.nextVar (Extraction.numbered_start d.nextVar)
  have hconditions : o.having.length = nested.length :=
    hnamed.having.length_eq.symm.trans ((by cases s <;> rfl :
      (m.outputs s).having.length = m.having.length).trans hlength)
  refine Edit.ends_bind.2 (Edit.ends_set.2 ?_)
  refine (ends_groupKeys m.groupBy).bind fun grouped d₁ ⟨hgrouped, hgraph⟩ => ?_
  have h₁ : d₁.Stacked form [] := hd.of_graph_eq hgraph
  have hlayers := p.ends_layers pattern o.bindings (grouped.flatMap (·.2))
    (Arrangement.above repeated m o)
    (Arrangement.grouping m (grouped.map (·.1)) extraction.aggregates) h₁ hnested hconditions
  -- whatever is drawn once the grouping has been checked
  have hof (hexplicit : m.groupBy ≠ [] ∨ extraction.aggregates ≠ [] → s ≠ .wildcard)
      {computed computedKeys : List Binding} {filters : List (Operator Plan)}
      (hcomputed : Binding.sort o.bindings = .ok computed)
      (hkeys : Binding.sort (grouped.flatMap (·.2)) = .ok computedKeys)
      (hfilters : List.Forall₂ (fun (c : Expression × List (Draw Plan)) op =>
        PlannedFilter c.1 c.2 op) (o.having.zip nested) filters) :
      Arrangement.Of ⟨extraction.aggregates, o, grouped, computed, computedKeys, filters⟩ d.nextVar
        s m nested :=
    ⟨⟨hnumbered.1, rfl⟩, hnamed, fun h => congrArg Extraction.aggregates (hbare h),
      hgrouped.trans (congrArg (keysFrom · m.groupBy) hnumbered.2), hcomputed, hkeys, hexplicit,
      hfilters⟩
  refine Edit.ends_ite (fun _ => ends_checkGrouping_eq.bind fun _ d₂ ⟨hd₂, hall⟩ => ?_)
    fun hnot => ?_
  · subst hd₂
    refine hlayers.mono fun _ e ⟨computed, computedKeys, filters, mid, hcomputed, hkeys, hfilters,
      hmid, hrun⟩ => ⟨_, mid, hof (fun _ hs => ?_) hcomputed hkeys hfilters, hmid, hrun⟩
    subst hs
    have hitems := hnamed.targets
    rw [show (m.outputs .wildcard).items = none from rfl, Option.map_none,
      Option.map_eq_none_iff] at hitems
    rw [hitems] at hall
    cases hall
  · refine hlayers.mono fun _ e ⟨computed, computedKeys, filters, mid, hcomputed, hkeys, hfilters,
      hmid, hrun⟩ => ⟨_, mid, hof (fun h => ?_) hcomputed hkeys hfilters, hmid, hrun⟩
    rw [Bool.or_eq_true, not_or, Bool.not_eq_true', Bool.not_eq_true'] at hnot
    exact h.elim (fun h => absurd (by simpa using hnot.1) h)
      fun h => absurd (by simpa using hnot.2) h

end Planner

end QuadAlgebra
