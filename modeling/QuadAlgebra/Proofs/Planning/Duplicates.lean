import QuadAlgebra.Proofs.Plan.Symmetry
import QuadAlgebra.Proofs.Planning.Keeping
import QuadAlgebra.Proofs.Planning.Paths
import QuadAlgebra.Proofs.Semantics.Production
import QuadAlgebra.Proofs.Variables.Patterns

/-!
# Paths without duplicates

Some paths are asked to have no duplicates: a closure always, and others if the configuration says
so (`Path.Deduplicates`). The last operator of such a path emits no row twice, in whatever round
(`Path.nodup_rows_draw`). Mostly it is itself the operator that removes duplicates. A closure that
is restricted to other items ends in a projection, but the rows that the filter below lets through
are determined by what the projection leaves of them (`Graph.Determined`), so they stay different.
-/

namespace QuadAlgebra

open PathPlanner (inputsFrom)

/-! ## Rows that are emitted once -/

namespace Graph

/-- Solutions over a domain that satisfy some equations are determined by what they bind some
variables to. -/
def Determined (equalities : List (Item × Item)) (vars D : VarSet) : Prop :=
  ∀ r r' : Solution, r.keySet = D → r'.keySet = D → satisfiesAll equalities r = true →
    satisfiesAll equalities r' = true → r.restrict vars = r'.restrict vars → r = r'

/-- An operator reads one other, in the same round. -/
def ReadsOnly {γ : Type} (g : Graph γ) (id source : OperatorId) : Prop :=
  ∀ i, g.Reads id i ↔ i = ⟨source, 0, false⟩

/-- An operator removes duplicates, or projects solutions that it reads from such an operator, and
that are determined by what is left of them. -/
inductive Unrepeated {γ : Type} (g : Graph γ) (shapes : Shapes) : OperatorId → Prop
  | distinct {id : OperatorId} (hop : g.operator? id = some .distinct) : Unrepeated g shapes id
  | restricted {id filter core : OperatorId} {vars D : VarSet} {equalities : List (Item × Item)}
    (hop : g.operator? id = some (.projection vars)) (hreads : g.ReadsOnly id filter)
    (hfilter : g.operator? filter = some (.ruleFilter equalities))
    (hfilterReads : g.ReadsOnly filter core) (hD : shapes core = some D)
    (hcore : Unrepeated g shapes core) (hdetermined : Determined equalities vars D) :
    Unrepeated g shapes id

/-- What operators are there and what they read does not change. -/
theorem Unrepeated.mono {γ : Type} {g g' : Graph γ} {shapes shapes' : Shapes} {id : OperatorId}
    (h : g.Unrepeated shapes id)
    (hops : ∀ x op, g.operator? x = some op → g'.operator? x = some op)
    (hshapes : ∀ x D, shapes x = some D → shapes' x = some D)
    (hreads : ∀ x i, g.operator? x ≠ none → (g'.Reads x i ↔ g.Reads x i)) :
    g'.Unrepeated shapes' id := by
  have honly {x y : OperatorId} {op : Operator γ} (hop : g.operator? x = some op)
      (h : g.ReadsOnly x y) : g'.ReadsOnly x y := fun i =>
    (hreads x i (by simp [hop])).trans (h i)
  induction h with
  | distinct hop => exact .distinct (hops _ _ hop)
  | restricted hop hreads hfilter hfilterReads hD _ hdetermined ih =>
      exact .restricted (hops _ _ hop) (honly hop hreads) (hops _ _ hfilter)
        (honly hfilter hfilterReads) (hshapes _ _ hD) ih hdetermined

/-! ## One round -/

section Emission

variable {src : Source} {limit : Nat} {id : OperatorId}

theorem emit_opened_ruleFilter (equalities : List (Item × Item)) (operands : Operands) :
    ((Operator.ruleFilter equalities : Operator Plan).opened src limit).emit src id operands =
      (expectSolutions id operands.rows).map fun rows =>
        (rows.filter (satisfiesAll equalities)).map .solution := rfl

theorem emit_opened_projection (vars : VarSet) (operands : Operands) :
    ((Operator.projection vars : Operator Plan).opened src limit).emit src id operands =
      (expectSolutions id operands.rows).map fun rows =>
        (rows.map (·.restrict vars)).map .solution := rfl

end Emission

section Rounds

variable {G : Graph Plan} {shapes : Shapes} {src : Source} {limit : Nat}
  {previous last : Assignment} {id source : OperatorId} {op : Operator Plan}

/-- What arrives at an operator that reads one other, in some order. -/
theorem ReadsOnly.rows_perm (h : G.ReadsOnly id source) (hlinked : G.Linked) (hsingle : G.Single)
    (src : Source) (limit : Nat) (previous last : Assignment) :
    ((Plan.opened ⟨G⟩ src limit).operandRows previous last id).rows.Perm (last.rows source) := by
  have hinputs : G.inputs id = [⟨source, 0, false⟩] :=
    inputs_eq hsingle (List.pairwise_singleton _ _) fun i =>
      (hlinked.mem_inputs.trans (h i)).trans List.mem_singleton.symm
  refine (rows_deliver_perm _).trans ?_
  rw [inputs_opened, hinputs, List.flatMap_singleton]
  exact .refl _

/-- An operator has the rows that it emits, each as often as it emits it unless it is on a loop. -/
theorem Concludes.emitted (h : (Plan.opened ⟨G⟩ src limit).Concludes src previous last)
    (hop : G.operator? id = some op) :
    ∃ emitted, (op.opened src limit).emit src id
        ((Plan.opened ⟨G⟩ src limit).operandRows previous last id) = .ok emitted ∧
      (emitted.Nodup → (last.rows id).Nodup) ∧ ∀ row, row ∈ last.rows id ↔ row ∈ emitted := by
  obtain ⟨order, horder, -, hround⟩ := h
  have hid : id ∈ (Plan.opened ⟨G⟩ src limit).ids := by
    rw [ids_opened]
    exact mem_ids_of_operator? hop
  obtain ⟨emitted, hemitted, hrows⟩ := emitAt_eq_ok_iff.1
    ((round_spec (topologicalOrder_spec horder) hround).2 id hid)
  rw [respond_opened hop] at hemitted
  refine ⟨emitted, hemitted, fun hnodup => ?_, fun row => ?_⟩
  · rw [hrows]
    split
    · exact OrdSet.nodup_toList _
    · exact hnodup
  · rw [hrows]
    split
    · rw [OrdSet.mem_toList, OrdSet.mem_ofList]
    · rfl

/-- In every round such an operator has no row twice. -/
theorem Unrepeated.nodup_rows (h : G.Unrepeated shapes id) (hshaped : G.Shaped shapes)
    (hsingle : G.Single)
    (hlast : (Plan.opened ⟨G⟩ src limit).Concludes src previous last) :
    (last.rows id).Nodup := by
  induction h with
  | distinct hop =>
      obtain ⟨emitted, hemitted, hnodup, -⟩ := hlast.emitted hop
      obtain rfl : distinctOf _ = emitted := Except.ok.inj hemitted
      exact hnodup (nodup_distinctOf _)
  | @restricted id filter core vars D equalities hop hreads hfilter hfilterReads hD _ hdetermined
      ih =>
      obtain ⟨kept, hkept, hnodupKept, hmemKept⟩ := hlast.emitted hfilter
      obtain ⟨emitted, hemitted, hnodup, -⟩ := hlast.emitted hop
      obtain ⟨found, hfound, rfl⟩ :=
        exists_of_map_expectSolutions ((emit_opened_ruleFilter equalities _).symm.trans hkept)
      obtain ⟨passed, hpassed, rfl⟩ :=
        exists_of_map_expectSolutions ((emit_opened_projection vars _).symm.trans hemitted)
      have harrives := hfilterReads.rows_perm hshaped.linked hsingle src limit previous last
      have hprojected := hreads.rows_perm hshaped.linked hsingle src limit previous last
      rw [hfound] at harrives
      rw [hpassed] at hprojected
      -- the solutions that arrive at the filter are different, and have the shape of their producer
      have hdomain : ∀ s ∈ found, s.keySet = D := fun s hs => by
        obtain ⟨order, horder, hreached, hround⟩ := hlast
        have hshows := (hreached.next hround).shows horder
          (harrives.mem_iff.1 (List.mem_map_of_mem hs))
        exact hshows.of_closed (hshaped.closed_shapes.mapNested _) D hD
      have hfoundNodup : found.Nodup := (harrives.nodup_iff.2 ih).of_map _
      -- so are those that it lets through, which satisfy the equations
      have hkeptNodup := hnodupKept ((hfoundNodup.filter _).map Row.solution_injective)
      have hpassedNodup : passed.Nodup := (hprojected.nodup_iff.2 hkeptNodup).of_map _
      have hsatisfied : ∀ s ∈ passed, s.keySet = D ∧ satisfiesAll equalities s = true :=
        fun s hs => by
          obtain ⟨s', hs', he⟩ := List.mem_map.1
            ((hmemKept _).1 (hprojected.mem_iff.1 (List.mem_map_of_mem hs)))
          obtain rfl := Row.solution.inj he
          exact ⟨hdomain _ (List.mem_filter.1 hs').1, (List.mem_filter.1 hs').2⟩
      refine hnodup ((hpassedNodup.map_on fun s hs t ht hst => ?_).map Row.solution_injective)
      exact hdetermined s t (hsatisfied s hs).1 (hsatisfied t ht).1 (hsatisfied s hs).2
        (hsatisfied t ht).2 hst

end Rounds

end Graph

/-! ## Closures -/

variable {rules : Bool} {pp : PathPlanner} {path : DrawPath} {s o : Item}

open PathPlanner in
/-- Pairs between two variables that satisfy the equations of two items are determined by what they
bind the variables among the items to, in every graph. -/
theorem Confines.determined {equalities : List (Item × Item)} {s' o' : Variable}
    (h : Confines equalities s' o' s o) :
    Graph.Determined equalities (pp.endpoints s o) (pp.endpoints (.var s') (.var o')) := by
  intro r r' hr hr' hall hall' hrestrict
  have hsame {v : Variable} (hv : v ∈ pp.endpoints s o) : r.get? v = r'.get? v := by
    have := congrArg (fun r : Solution => r.get? v) hrestrict
    simpa [Solution.get?_restrict, hv] using this
  have hresolve {i : Item} (hi : ∀ v, .var v = i → v ∈ pp.endpoints s o) :
      r.resolve i = r'.resolve i := by
    cases i with
    | term t => rfl
    | var v => exact hsame (hi v rfl)
  have hsubject : r.get? s' = r'.get? s' := by
    rw [(h.values r hall).1, (h.values r' hall').1]
    exact hresolve fun v hv => mem_endpoints.2 (.inl hv)
  have hobject : r.get? o' = r'.get? o' := by
    rw [(h.values r hall).2, (h.values r' hall').2]
    exact hresolve fun v hv => mem_endpoints.2 (.inr (.inl hv))
  have hunbound {r : Solution} (hr : r.keySet = pp.endpoints (.var s') (.var o')) {v : Variable}
      (hv : v ∉ pp.endpoints (.var s') (.var o')) : r.get? v = none :=
    Option.eq_none_iff_forall_not_mem.2 fun t ht => hv (hr ▸ Solution.mem_keySet.2 ⟨t, ht⟩)
  refine Solution.eq_of_get? fun v => ?_
  by_cases hv : v ∈ pp.endpoints (.var s') (.var o')
  · rcases mem_endpoints.1 hv with hv | hv | hv
    · exact Item.var.inj hv ▸ hsubject
    · exact Item.var.inj hv ▸ hobject
    · exact hsame (mem_endpoints.2 (.inr (.inr hv)))
  · rw [hunbound hr hv, hunbound hr' hv]

namespace PathPlanner

open Sketch

/-- A closure ends in an operator that emits no row twice. -/
theorem sketches_oneOrMore (hpath : DrawsEnds rules pp path) (s o : Item) (k : Sketch rules) :
    Sketches k (pp.oneOrMore path s o) fun k' id =>
      k.Places k' [(id, pp.endpoints s o)] ∧ k'.graph.Unrepeated k'.shapes id := by
  refine closure_induction (C := fun s o draw => ∀ k : Sketch rules, Sketches k draw fun k' id =>
      k.Places k' [(id, pp.endpoints s o)] ∧ k'.graph.Unrepeated k'.shapes id)
    (fun v w k => (sketches_loop hpath v w).mono fun _ _ h => ⟨h.1, .distinct h.2⟩)
    (fun equalities s' o' s o draw hconfines hcore k => ?_)
    (fun _ _ _ hf k => Sketches.freshVar.bind fun k₁ v hk => hk ▸ hf v k₁) 3 s o
    (fun h => absurd h (by decide)) k
  refine (hcore k).bind fun k₁ core ⟨h₁, hunrepeated⟩ => ?_
  refine (sketches_restricted hconfines h₁ List.mem_cons_self).mono
    fun k₃ id ⟨h₃, k₂, filter, hfilter, hproject⟩ => ⟨h₃, ?_⟩
  have hkeeps := hfilter.keeps.trans hproject.keeps
  have hlive {k k' : Sketch rules} {x y : OperatorId} {op : Operator Plan} {reads : Input → Prop}
      {shape : Option VarSet} (h : k.Adds k' y op reads shape) (hx : k.graph.operator? x ≠ none)
      (i : Input) : k'.graph.Reads x i ↔ k.graph.Reads x i :=
    h.same_reads x i fun he => hx (he ▸ h.fresh)
  have hone {x : OperatorId} {i : Input} : i ∈ inputsFrom [x] ↔ i = ⟨x, 0, false⟩ := by
    simp [inputsFrom]
  refine .restricted hproject.operator (fun i => (hproject.inputs i).trans hone)
    (hproject.keeps.operators _ _ hfilter.operator) (fun i => ?_)
    (hkeeps.shapes _ _ (h₁.offers _ List.mem_cons_self).shape) ?_ hconfines.determined
  · exact (hlive hproject (by simp [hfilter.operator]) i).trans ((hfilter.inputs i).trans hone)
  · refine hunrepeated.mono hkeeps.operators hkeeps.shapes fun x i hx => ?_
    exact (hlive hproject (hfilter.toExtends.live hx) i).trans (hlive hfilter hx i)

/-! ## Operators that remove duplicates -/

/-- The drawing ends with an operator that removes duplicates. -/
def EndsDistinct (draw : Draw OperatorId) : Prop :=
  ∀ d, draw.Ends d fun id d' => d'.graph.operator? id = some .distinct

theorem EndsDistinct.after {α : Type} {first : Draw α} {f : α → Draw OperatorId}
    (h : ∀ a, EndsDistinct (f a)) : EndsDistinct (first >>= f) := fun _ =>
  Edit.ends_bind.2 fun a d' _ => h a d'

theorem endsDistinct_above (input : OperatorId) : EndsDistinct (above input .distinct) := by
  intro d
  refine Edit.ends_bind.2 fun id d₁ hrun => ?_
  rw [Draw.add_runOn] at hrun
  obtain ⟨hid, rfl⟩ := Prod.mk.inj hrun
  obtain rfl := Except.ok.inj hid
  have hconnect : (Draw.connect input d.size 0).Ends (d.withOperator .distinct) fun _ d' =>
      ∀ x, d'.graph.operator? x = (d.withOperator .distinct).graph.operator? x := by
    unfold Draw.connect Draw.onGraph
    exact Edit.ends_within.2 (Graph.connect_keeps_operators 0 false _ fun _ => rfl)
  refine hconnect.bind fun _ _ hops => Edit.ends_pure.2 ?_
  rw [hops, Draft.operator?_withOperator, if_pos rfl]

section Configured

variable (hdistinct : pp.planner.config.distinctPaths = true)

include hdistinct

theorem endsDistinct_distinct (input : OperatorId) : EndsDistinct (pp.distinct input) := by
  rw [distinct, if_pos hdistinct]
  exact endsDistinct_above input

theorem endsDistinct_withZero (path : DrawPath) (s o : Item) :
    EndsDistinct (pp.withZero path s o) :=
  .after fun _ => .after fun _ => .after fun _ => endsDistinct_distinct hdistinct _

theorem endsDistinct_negatedSet (members : List Excluded) (s o : Item) :
    EndsDistinct (pp.negatedSet members s o) := by
  unfold negatedSet
  dsimp only
  split
  · exact .after fun _ => endsDistinct_distinct hdistinct _
  · split
    · exact .after fun _ => endsDistinct_distinct hdistinct _
    · exact .after fun _ => .after fun _ => .after fun _ => endsDistinct_distinct hdistinct _

/-- A range of several lengths ends in a union without duplicates. -/
theorem endsDistinct_positiveRange (path : DrawPath) {min max : Nat} (h : min < max) (s o : Item) :
    EndsDistinct (pp.positiveRange path min max s o) := by
  intro d
  refine (Edit.ends_mapM_length _ _ d).bind fun outputs d' hlength => ?_
  split
  · simp only [List.length_singleton, List.length_map, List.length_range] at hlength
    omega
  · exact EndsDistinct.after (fun _ => endsDistinct_distinct hdistinct _) d'

theorem endsDistinct_bounded (path : DrawPath) {min max : Nat} (h : min ≠ max) (s o : Item) :
    EndsDistinct (pp.bounded path min max s o) := by
  unfold bounded
  intro d
  refine Edit.ends_ite (fun _ => Draw.ends_malformed) fun hle => ?_
  refine Edit.ends_ite (fun hmax => by omega) fun hmax => ?_
  exact Edit.ends_ite (fun _ => endsDistinct_withZero hdistinct _ s o d) fun hmin =>
    endsDistinct_positiveRange hdistinct path (by omega) s o d

end Configured

end PathPlanner

/-! ## All paths -/

/-- The path is asked to have no duplicates: a closure always, and the other forms that may repeat
rows if the configuration says so. -/
def Path.Deduplicates (distinctPaths : Bool) : Path → Prop
  | .oneOrMore _ => True
  | .alternative _ _ | .negatedSet _ | .zeroOrOne _ | .zeroOrMore _ | .repetition _ _ none =>
    distinctPaths = true
  | .repetition _ min (some max) => distinctPaths = true ∧ min ≠ max
  | .predicate _ | .inverse _ | .sequence _ _ => False

open PathPlanner in
/-- Such a path ends in an operator that emits no row twice. -/
theorem Path.sketches_unrepeated {rules : Bool} {pp : PathPlanner}
    (hpp : pp.planner.ScansPatterns) {p : Path}
    (hp : p.Deduplicates pp.planner.config.distinctPaths) (s o : Item) (k : Sketch rules) :
    Sketches k (p.draw pp s o) fun k' id => k'.graph.Unrepeated k'.shapes id := by
  have hends (hdistinct : EndsDistinct (p.draw pp s o)) :
      Sketches k (p.draw pp s o) fun k' id => k'.graph.Unrepeated k'.shapes id := fun d hd =>
    ((p.drawsEnds hpp s o k d hd).and (hdistinct d)).mono fun id d' ⟨⟨k', hd', _⟩, hop⟩ =>
      ⟨k', hd', .distinct (hd'.graph ▸ hop)⟩
  have hclosure (q : Path) : Sketches k (pp.oneOrMore (q.draw pp) s o) fun k' id =>
      k'.graph.Unrepeated k'.shapes id :=
    (sketches_oneOrMore (q.drawsEnds hpp) s o k).mono fun _ _ h => h.2
  cases p with
  | predicate _ => exact hp.elim
  | inverse _ => exact hp.elim
  | sequence _ _ => exact hp.elim
  | alternative p q =>
      exact hends (.after fun _ => .after fun _ => .after fun _ => .after fun _ =>
        endsDistinct_distinct hp _)
  | negatedSet members => exact hends (endsDistinct_negatedSet hp members s o)
  | zeroOrOne q => exact hends (endsDistinct_withZero hp _ s o)
  | zeroOrMore q => exact hends (endsDistinct_withZero hp _ s o)
  | oneOrMore q => exact hclosure q
  | repetition q min max =>
      cases max with
      | some max => exact hends (endsDistinct_bounded hp.1 _ hp.2 s o)
      | none =>
          match min with
          | 0 => exact hends (endsDistinct_withZero hp _ s o)
          | 1 => exact hclosure q
          | steps + 2 =>
              exact hends (.after fun _ => .after fun _ => .after fun _ => .after fun _ =>
                .after fun _ => endsDistinct_distinct hp _)

/-- No producer records an edge twice while a path is drawn. -/
theorem Draft.keptByDrawing_single :
    Draft.KeptByDrawing (fun _ => True) fun d => d.graph.Single where
  add op _ d hd := by
    intro id d' hrun
    rw [Draw.add_runOn] at hrun
    obtain ⟨-, rfl⟩ := Prod.mk.inj hrun
    exact fun x => (Graph.succeeding_withOperator x).symm ▸ hd x
  connect _ _ operand feedback d hd :=
    Edit.ends_within.2 (Graph.connect_keeps_single operand feedback d.graph hd)
  freshVar _ hd :=
    Edit.ends_bind.2 (Edit.ends_get.2 (Edit.ends_bind.2 (Edit.ends_set.2 (Edit.ends_pure.2 hd))))

/-- The plan of a path that is asked to have no duplicates ends in an operator that emits no row
twice, in whatever round: between any two items, in the default graph, in a named one or in those
that a variable stands for, and on every store. -/
theorem Path.nodup_rows_draw {rules : Bool} {pp : PathPlanner} (hpp : pp.planner.ScansPatterns)
    {p : Path} (hp : p.Deduplicates pp.planner.config.distinctPaths) {s o : Item} {d d' : Draft}
    {k : Sketch rules} (hk : k.Of d) (hsingle : d.graph.Single) {out : OperatorId}
    (hrun : (p.draw pp s o).runOn d = (.ok out, d')) {src : Source} {limit : Nat}
    {previous last : Assignment}
    (hlast : (Plan.opened ⟨d'.graph⟩ src limit).Concludes src previous last) :
    (last.rows out).Nodup := by
  obtain ⟨k', hd', hunrepeated⟩ := p.sketches_unrepeated hpp hp s o k d hk out d' hrun
  have hkept := p.draw_keeps Draft.keptByDrawing_single
    ⟨fun _ => trivial, trivial, fun _ => trivial, fun _ _ => trivial⟩ s o d hsingle out d' hrun
  rw [← hd'.graph] at hunrepeated
  exact hunrepeated.nodup_rows (hd'.graph ▸ k'.regular.toShaped) hkept hlast

/-- Two who know each other, in each of two graphs. -/
def acquaintedTwice : Source :=
  ⟨.ofList [⟨some (.iri "work"), ⟨.iri "a", .iri "knows", .iri "b"⟩⟩,
    ⟨some (.iri "work"), ⟨.iri "b", .iri "knows", .iri "a"⟩⟩,
    ⟨some (.iri "home"), ⟨.iri "a", .iri "knows", .iri "b"⟩⟩,
    ⟨some (.iri "home"), ⟨.iri "b", .iri "knows", .iri "a"⟩⟩], .empty⟩

/-- The plan of whom someone knows directly or over others, and in which graph. -/
def knownSomewherePlan : Except Error OperatorId × Draft :=
  ((Path.oneOrMore (.iri "knows")).draw { inMemory with graph := some (.var ⟨"g"⟩) }
    (.term (.iri "a")) (.var ⟨"y"⟩)).runOn .empty

theorem nodup_rows_knownSomewhere : knownSomewherePlan.1 = .ok 10 ∧
    ∃ (a : Assignment) (n : Nat),
      (Plan.opened ⟨knownSomewherePlan.2.graph⟩ acquaintedTwice 10).finalRows acquaintedTwice 10 =
        .ok (a, n) ∧ (a.rows 10).length = 4 ∧ (a.rows 10).Nodup := by
  have hout : knownSomewherePlan.1 = .ok 10 := by decide +kernel
  have hrows : ((Plan.opened ⟨knownSomewherePlan.2.graph⟩ acquaintedTwice 10).finalRows
      acquaintedTwice 10).map (fun final => (final.1.rows 10).length) = .ok 4 := by decide +kernel
  have hdraw : ((Path.oneOrMore (.iri "knows")).draw
      { inMemory with graph := some (.var ⟨"g"⟩) } (.term (.iri "a")) (.var ⟨"y"⟩)).runOn .empty =
        knownSomewherePlan := rfl
  -- from here on, nothing but what has been computed matters of the plan
  generalize knownSomewherePlan = run at hout hrows hdraw ⊢
  obtain ⟨outcome, d'⟩ := run
  obtain rfl : outcome = .ok 10 := hout
  cases hfinal : (Plan.opened ⟨d'.graph⟩ acquaintedTwice 10).finalRows acquaintedTwice 10 with
  | error e =>
      rw [hfinal] at hrows
      cases hrows
  | ok final =>
      rw [hfinal] at hrows
      obtain ⟨k, hgraph, hwiring⟩ := Sketch.exists_empty false
      obtain ⟨previous, hlast⟩ := Graph.exists_concludes hfinal
      refine ⟨rfl, final.1, final.2, rfl, Except.ok.inj hrows, ?_⟩
      exact Path.nodup_rows_draw (p := .oneOrMore (.iri "knows")) (d := .empty)
        (Planner.scansPatterns_ofStore rfl) trivial ⟨hgraph.symm, hwiring.symm⟩
        Graph.symmetric_empty.nodup hdraw hlast

end QuadAlgebra
