import QuadAlgebra.Proofs.Planning.Paths
import QuadAlgebra.Proofs.Rules.Programs
import QuadAlgebra.Proofs.Typing.Documents

/-!
# Rule programs compute least models

In every round the heads of a rule program derive what follows from the stored triples and those
that were derived in the round before (`Graph.Recursive.derived_succ`). No round fails, and after
finitely many rounds nothing new is derived, so a plan of a rule program is evaluated under every
limit that is not too low. What it derives is then the least set of triples that is closed under the
rules (`RuleProgram.evaluate_leastModel`).

That holds of plans as they are drawn. The optimizer specializes matchers to the heads that feed
them. A chain of rules then has no loop any more, so it is evaluated in a single round and the
feedback edges that are left deliver nothing: what the second rule derives from the first one is
lost (`derived_chain`).
-/

namespace QuadAlgebra

variable {src : Source} {limit n : Nat} {G : Graph Plan} {R : Nat → OperatorId → List Row}
  {order : List OperatorId} {x y : OperatorId} {d : Draft} {r : RuleProgram}

/-! ## Rounds -/

namespace Graph

/-- In a typed graph without services and failed nested plans no round fails. -/
theorem Permits.runs {g : Graph Outcome} (h : g.Permits fun _ => False)
    (horder : g.IsTopological order) : g.Runs src order := by
  have hround (n : Nat) (hrows : g.RowsTyped (g.stage src order n)) :
      g.round src g.loopMembers order (g.stage src order n) = .ok (g.stage src order (n + 1)) ∧
        g.RowsTyped (g.stage src order (n + 1)) := by
    have hends : EndsWell (g.round src g.loopMembers order (g.stage src order n)) g.RowsTyped
        fun _ => False := h.round (fun id hid => (horder.mem_iff id).1 hid) hrows
    rw [stage]
    cases hcurrent : g.round src g.loopMembers order (g.stage src order n) with
    | error e =>
        rw [hcurrent] at hends
        exact hends.elim
    | ok current =>
        rw [hcurrent] at hends
        exact ⟨rfl, hends⟩
  have htyped (n : Nat) : g.RowsTyped (g.stage src order n) := by
    induction n with
    | zero => exact Permits.rowsTyped_nil
    | succ n ih => exact (hround n ih).2
  exact fun n => (hround n (htyped n)).1

/-- The rows of successive rounds form a course. -/
theorem Runs.course (hruns : (Plan.opened ⟨G⟩ src limit).Runs src order)
    (horder : (Plan.opened ⟨G⟩ src limit).IsTopological order) (hlinked : G.Linked) :
    Course src limit G fun n => ((Plan.opened ⟨G⟩ src limit).stage src order n).rows where
  linked := hlinked
  start _ := rfl
  step n x op hop := by
    have hid : x ∈ (Plan.opened ⟨G⟩ src limit).ids := by
      rw [ids_opened]
      exact mem_ids_of_operator? hop
    obtain ⟨emitted, hemitted, hrows⟩ :=
      emitAt_eq_ok_iff.1 ((round_spec horder (hruns n)).2 x hid)
    refine ⟨emitted, ?_, fun row => ?_⟩
    · rw [respond_opened hop, operandRows_eq, deliver, operandGroups, inputs_opened] at hemitted
      change (op.opened src limit).emit src x (G.deliver _ x) = _ at hemitted
      rw [← hemitted]
      refine congrArg _ (deliver_congr fun i _ => ?_)
      cases i.feedback <;> rfl
    · rw [hrows]
      split
      · rw [OrdSet.mem_toList, OrdSet.mem_ofList]
      · rfl

end Graph

/-- A head emits quads of the default graph. -/
theorem Course.exists_quad (h : Course src limit G R) {p : TriplePattern}
    (hop : G.operator? x = some (.generate p)) {row : Row} (hrow : row ∈ R n x) :
    ∃ t, Row.quad ⟨none, t⟩ = row := by
  cases n with
  | zero =>
      rw [h.start] at hrow
      exact absurd hrow List.not_mem_nil
  | succ n =>
      obtain ⟨emitted, hemitted, hrows⟩ := h.step n x _ hop
      generalize G.deliver _ x = operands at hemitted
      change (expectSolutions x operands.rows).map _ = _ at hemitted
      obtain ⟨l, -, rfl⟩ := exists_of_map_expectSolutions hemitted
      obtain ⟨t, -, ht⟩ := List.mem_map.1 ((hrows row).1 hrow)
      exact ⟨t, ht⟩

/-! ## Derivation -/

/-- The triples that the heads of a program have. -/
def Draft.derived (d : Draft) (R : Nat → OperatorId → List Row) (n : Nat) : Set Triple :=
  {t | ∃ x ∈ d.wiring.generators, Row.quad ⟨none, t⟩ ∈ R n x}

theorem Course.derived_zero (h : Course src limit G R) : d.derived R 0 = ∅ := by
  refine Set.eq_empty_iff_forall_notMem.2 fun t ht => ?_
  obtain ⟨x, -, hrow⟩ := ht
  rw [h.start] at hrow
  exact List.not_mem_nil hrow

namespace Graph.Recursive

variable (h : G.Recursive src d r)

include h

theorem result : G.operator? 1 = some (.result (.materialize r.output)) :=
  (h.wired.operator? 1).trans h.programmed.result

/-- Operators are quiet, apart from the result. -/
theorem nested {op : Operator Plan} (hop : G.operator? x = some op) :
    op.nested = [] ∧ op.kind ≠ .service ∧ (op.kind = .result ↔ x = 1) := by
  by_cases hx : x = 1
  · subst hx
    obtain rfl := Option.some.inj (hop.symm.trans h.result)
    exact ⟨rfl, Kind.noConfusion, fun _ => rfl, fun _ => rfl⟩
  · rw [h.wired.operator?] at hop
    have hquiet := h.programmed.tracked.quiet x op hop hx
    exact ⟨hquiet.nested, fun hk => hquiet.kind (by simp [hk]),
      fun hk => absurd (by simp [hk]) hquiet.kind, fun h => absurd h hx⟩

theorem follows (y : OperatorId) : d.graph.Follows G y := by
  refine ⟨h.wired.operator? y, fun hmatch i => ?_⟩
  rw [h.wired.reads]
  refine or_iff_left fun hback => ?_
  obtain ⟨q, hq⟩ := (h.programmed.tracked.matchers y).1 hback.2.1
  exact hmatch q hq

theorem reads_matcher (hx : x ∈ d.wiring.tripleMatchers) {i : Input} :
    G.Reads x i ↔ i.source ∈ d.wiring.generators ∧ i = ⟨i.source, 0, true⟩ := by
  rw [h.wired.reads, and_iff_right hx]
  exact or_iff_right (h.programmed.tracked.unfed x hx i)

theorem mem_generators {i : Input} (hi : G.Reads x i) (hf : i.feedback = true) :
    i.source ∈ d.wiring.generators := by
  rcases (h.wired.reads x i).1 hi with hi | hi
  · rw [h.programmed.tracked.forward x i hi] at hf
    cases hf
  · exact hi.1

/-- The head and body that an operator stands for. -/
theorem concludes (hx : x ∈ d.wiring.generators) : ∃ rule ∈ r.rules, ∃ head ∈ rule.heads,
    d.Concludes src x (head, rule.body) := by
  obtain ⟨clause, hclause, hx⟩ := exists_of_forall₂ h.programmed.concludes hx
  obtain ⟨rule, hrule, hclause⟩ := List.mem_flatMap.1 hclause
  obtain ⟨head, hhead, rfl⟩ := List.mem_map.1 hclause
  exact ⟨rule, hrule, head, hhead, hx⟩

/-- The operator that stands for a head and a body. -/
theorem exists_concludes {rule : Rule} (hrule : rule ∈ r.rules) {head : RuleHead}
    (hhead : head ∈ rule.heads) :
    ∃ x ∈ d.wiring.generators, d.Concludes src x (head, rule.body) :=
  exists_of_forall₂ h.programmed.concludes.flip
    (List.mem_flatMap.2 ⟨rule, hrule, List.mem_map_of_mem hhead⟩)

/-- Every head is on a loop through a matcher of its body. -/
theorem onLoop (hr : r.OnTriples) (hx : x ∈ d.wiring.generators) : G.OnLoop x := by
  obtain ⟨rule, hrule, head, -, hconcludes⟩ := h.concludes hx
  obtain ⟨m, hm, hleads⟩ := hconcludes.reached (hr.bodies rule hrule).2
  have hback : G.Leads x m :=
    (Graph.leads_iff h.wired.linked).2 ⟨⟨x, 0, true⟩, (h.reads_matcher hm).2 ⟨hx, rfl⟩, rfl⟩
  exact .head hback (Graph.transGen_leads_mono h.programmed.tracked.linked h.wired.linked
    (fun y i hi => (h.wired.reads y i).2 (.inl hi)) hleads)

/-- Matchers have their solutions over the triples that were derived before. -/
theorem ruleCourse (hcourse : Course src limit G R) : RuleCourse src limit G R (d.derived R) where
  toCourse := hcourse
  root := (h.wired.operator? _).trans h.programmed.tracked.root
  matched n x p hop := by
    have hx : x ∈ d.wiring.tripleMatchers :=
      (h.programmed.tracked.matchers x).2 ⟨p, (h.wired.operator? x).symm.trans hop⟩
    refine hcourse.matchTriple hop fun row => ?_
    constructor
    · rintro ⟨i, hi, hrow⟩
      obtain ⟨hsource, hback⟩ := (h.reads_matcher hx).1 hi
      obtain ⟨rule, -, head, -, hconcludes⟩ := h.concludes hsource
      obtain ⟨q, -, hq⟩ := hconcludes.operator
      rw [hback] at hrow
      obtain ⟨t, rfl⟩ := hcourse.exists_quad ((h.wired.operator? _).trans hq) hrow
      exact ⟨t, ⟨_, hsource, hrow⟩, rfl⟩
    · rintro ⟨t, ⟨y, hy, hrow⟩, rfl⟩
      exact ⟨⟨y, 0, true⟩, (h.reads_matcher hx).2 ⟨hy, rfl⟩, hrow⟩

/-- What a head has after a round follows from what was derived before. -/
theorem mem_rows (hcourse : Course src limit G R) {head : RuleHead} {body : Group}
    (hx : d.Concludes src x (head, body)) {row : Row} : row ∈ R (n + 1) x ↔
      ∃ p, head = .triple p ∧ ∃ t, (∃ s ∈ body.answers (src.storedTriples ∪ d.derived R n),
        p.Derives s t) ∧ Row.quad ⟨none, t⟩ = row := by
  obtain ⟨p, rfl, hop⟩ := hx.operator
  obtain ⟨y, hreads, hfinds⟩ := hx.reads
  have hrule := h.ruleCourse hcourse
  have hy := hfinds limit G R (d.derived R) hrule (fun z _ _ => h.follows z) n
  have hkept : ∀ q, d.graph.operator? x ≠ some (.matchTriple q) := fun q hq => by
    cases hop.symm.trans hq
  have hone : G.ReadsEach x [y] := fun i => by
    rw [(h.follows x).reads hkept, hreads, eq_input_iff]
    simp
  rw [hcourse.generate ((h.wired.operator? x).trans hop) hone hy]
  simp [Group.bodyPart]

/-- Each round derives what follows from the one before. -/
theorem derived_succ (hcourse : Course src limit G R) (n : Nat) :
    d.derived R (n + 1) = r.consequences src.storedTriples (d.derived R n) := by
  ext t
  constructor
  · rintro ⟨x, hx, hrow⟩
    obtain ⟨rule, hrule, head, hhead, hconcludes⟩ := h.concludes hx
    obtain ⟨p, rfl, t', ⟨s, hs, hderives⟩, ht⟩ := (h.mem_rows hcourse hconcludes).1 hrow
    obtain rfl : t' = t := by simpa using ht
    exact ⟨rule, hrule, s, hs, p, hhead, hderives⟩
  · rintro ⟨rule, hrule, s, hs, p, hp, hderives⟩
    obtain ⟨x, hx, hconcludes⟩ := h.exists_concludes hrule hp
    exact ⟨x, hx, (h.mem_rows hcourse hconcludes).2 ⟨p, rfl, t, ⟨s, hs, hderives⟩, rfl⟩⟩

/-! ## Coming to rest -/

/-- No operator of a program fails. -/
theorem permits (htyped : Plan.Typed ⟨G⟩) :
    (Plan.opened ⟨G⟩ src limit).Permits fun _ => False where
  typed := Graph.Typed.mapNested (htyped.graph.mono fun id op hop e he _ error _ => by
    rw [(h.nested hop).1] at he
    exact List.not_mem_nil he)
  service id endpoint pattern silent hop := by
    rw [operator?_opened] at hop
    obtain ⟨op, hop, hservice⟩ := Option.map_eq_some_iff.1 hop
    refine (h.nested hop).2.1 ?_
    rw [← kind_withNested op, hservice]
    rfl

/-- When nothing new is derived, heads keep their rows. -/
theorem rows_eq (hr : r.OnTriples) (horder : (Plan.opened ⟨G⟩ src limit).IsTopological order)
    (hruns : (Plan.opened ⟨G⟩ src limit).Runs src order) (hx : x ∈ d.wiring.generators)
    (hsteady : d.derived (fun n => ((Plan.opened ⟨G⟩ src limit).stage src order n).rows) (n + 1) =
      d.derived (fun n => ((Plan.opened ⟨G⟩ src limit).stage src order n).rows) n) :
    ((Plan.opened ⟨G⟩ src limit).stage src order (n + 2)).rows x =
      ((Plan.opened ⟨G⟩ src limit).stage src order (n + 1)).rows x := by
  have hcourse := hruns.course horder h.wired.linked
  obtain ⟨rule, -, head, -, hconcludes⟩ := h.concludes hx
  obtain ⟨p, -, hop⟩ := hconcludes.operator
  refine hruns.rows_congr horder ?_ (Graph.onLoop_opened.2 (h.onLoop hr hx)) fun row => ?_
  · rw [Graph.ids_opened]
    exact Graph.mem_ids_of_operator? ((h.wired.operator? x).trans hop)
  · refine (h.mem_rows hcourse hconcludes).trans ?_
    rw [hsteady]
    exact (h.mem_rows hcourse hconcludes).symm

/-- Rounds come to an end, at rows in which the heads have the least closed set of triples. -/
theorem rounds_isLeast (hr : r.OnTriples)
    (horder : (Plan.opened ⟨G⟩ src limit).IsTopological order)
    (hruns : (Plan.opened ⟨G⟩ src limit).Runs src order) :
    ∃ last, (∀ m > last, ∃ n, (Plan.opened ⟨G⟩ src limit).rounds src
        (Plan.opened ⟨G⟩ src limit).loopMembers order m m 0 [] =
          .ok ((Plan.opened ⟨G⟩ src limit).stage src order (last + 1), n)) ∧
      IsLeast {D | r.Closed src.storedTriples D} (d.derived
        (fun n => ((Plan.opened ⟨G⟩ src limit).stage src order n).rows) (last + 1)) := by
  have hcourse := hruns.course horder h.wired.linked
  have hstart : d.derived _ 0 = ∅ := hcourse.derived_zero
  have hstep := h.derived_succ hcourse
  have hfinite : src.storedTriples.Finite :=
    (List.finite_toSet (src.store.defaultGraph src.dataset).toList).subset fun t ht =>
      OrdSet.mem_toList.2 ht
  obtain ⟨start, hstart'⟩ := Filter.eventually_atTop.1
    (RuleProgram.eventually_steady hfinite hstart hstep)
  obtain ⟨last, hlast⟩ := hruns.rounds_of_steady horder fun id hid i hi hf => by
    rw [Graph.inputs_opened] at hi
    have hsource := h.mem_generators (h.wired.linked.mem_inputs.1 hi) hf
    refine ⟨Graph.onLoop_opened.2 (h.onLoop hr hsource),
      Filter.eventually_atTop.2 ⟨start + 1, fun n hn => ?_⟩⟩
    obtain ⟨m, rfl⟩ : ∃ m, n = m + 1 := ⟨n - 1, by omega⟩
    exact h.rows_eq hr horder hruns hsource (hstart' m (by omega))
  refine ⟨last, fun m hm => (hlast m hm).imp fun _ hn => hn.1, ?_⟩
  obtain ⟨-, -, hrest⟩ := hlast (last + 1) (Nat.lt_succ_self _)
  refine RuleProgram.isLeast_of_steady hstart hstep ?_
  rw [Draft.derived, Draft.derived, hrest (last + 2) (by omega)]

end Graph.Recursive

/-! ## Results -/

theorem foldlM_addDerived (result : OperatorId) {wanted : RuleOutput}
    (hwanted : wanted.triples = true) (quads : List Quad) (e : Evaluation) :
    ∃ e', (quads.map Row.quad).foldlM (Evaluation.addDerived result wanted) e = .ok e' ∧
      ∀ q, q ∈ e'.quads ↔ q ∈ e.quads ∨ q ∈ quads := by
  induction quads generalizing e with
  | nil => exact ⟨e, rfl, by simp⟩
  | cons q rest ih =>
      have hadd (q' : Quad) : q' ∈ (e.addQuad q).quads ↔ q' ∈ e.quads ∨ q' = q := by
        unfold Evaluation.addQuad
        split
        · next hc =>
          refine (or_iff_left_of_imp ?_).symm
          rintro rfl
          exact List.contains_iff_mem.1 hc
        · simp
      obtain ⟨e', he', hquads⟩ := ih (e.addQuad q)
      refine ⟨e', ?_, fun q' => ?_⟩
      · rw [List.map_cons, List.foldlM_cons, ← he', Evaluation.addDerived, if_pos hwanted]
        rfl
      · rw [hquads, hadd, or_assoc, List.mem_cons]

/-- The quads of a rule program are those of its result. -/
theorem collect_materialize {g : Graph Outcome} {a : Assignment} {result : OperatorId}
    {wanted : RuleOutput} (hresults : g.results = [result])
    (hop : g.operator? result = some (.result (.materialize wanted)))
    (hwanted : wanted.triples = true) {quads : List Quad}
    (hrows : a.rows result = quads.map .quad) :
    ∃ e, g.collect a n = .ok e ∧ ∀ q, q ∈ e.quads ↔ q ∈ quads := by
  obtain ⟨e, he, hquads⟩ := foldlM_addDerived result hwanted quads
    ⟨none, [], [], [], [], n⟩
  refine ⟨{ e with form := e.form.or (some (.materialize wanted)) }, ?_, fun q => ?_⟩
  · rw [Graph.collect, hresults, List.foldlM_cons]
    simp only [hop, List.foldlM_nil, bind_pure]
    change Evaluation.addResult _ result _ (a.rows result) = _
    rw [hrows, Evaluation.addResult]
    simp only [he]
    rfl
  · simp [hquads]

/-- The result of a program has the triples that the heads have. -/
theorem Graph.Recursive.exists_quads (h : G.Recursive src d r) (hcourse : Course src limit G R)
    (n : Nat) : ∃ quads : List Quad, R (n + 1) 1 = quads.map .quad ∧
      (∀ q ∈ quads, q.graph = none) ∧ {t | ⟨none, t⟩ ∈ quads} = d.derived R (n + 1) := by
  have hreads (i : Input) : G.Reads 1 i ↔
      i.source ∈ d.wiring.generators ∧ i = ⟨i.source, 0, false⟩ := by
    have hkept : ∀ q, d.graph.operator? 1 ≠ some (.matchTriple q) := fun q hq => by
      cases h.programmed.result.symm.trans hq
    rw [(h.follows 1).reads hkept, h.programmed.reads]
  have hrows (row : Row) : row ∈ R (n + 1) 1 ↔ ∃ x ∈ d.wiring.generators, row ∈ R (n + 1) x := by
    rw [hcourse.result h.result]
    constructor
    · rintro ⟨i, hi, hrow⟩
      obtain ⟨hsource, hback⟩ := (hreads i).1 hi
      rw [hback] at hrow
      exact ⟨_, hsource, hrow⟩
    · rintro ⟨x, hx, hrow⟩
      exact ⟨⟨x, 0, false⟩, (hreads _).2 ⟨hx, rfl⟩, hrow⟩
  have hall : ∀ row ∈ R (n + 1) 1, ∃ t, Row.quad ⟨none, t⟩ = row := fun row hrow => by
    obtain ⟨x, hx, hrow⟩ := (hrows row).1 hrow
    obtain ⟨rule, -, head, -, hconcludes⟩ := h.concludes hx
    obtain ⟨p, -, hop⟩ := hconcludes.operator
    exact hcourse.exists_quad ((h.wired.operator? x).trans hop) hrow
  obtain ⟨triples, htriples⟩ : R (n + 1) 1 ∈ Set.range (List.map fun t => Row.quad ⟨none, t⟩) := by
    rw [Set.range_list_map]
    exact hall
  refine ⟨triples.map fun t => ⟨none, t⟩, ?_, fun q hq => ?_, ?_⟩
  · rw [← htriples, List.map_map]
    rfl
  · obtain ⟨t, -, rfl⟩ := List.mem_map.1 hq
    rfl
  · ext t
    have ht := hrows (.quad ⟨none, t⟩)
    rw [← htriples] at ht
    simpa [Draft.derived] using ht

/-- The graph of a program is evaluated to the least closed set of triples. -/
theorem Graph.Recursive.evaluate_isLeast (h : G.Recursive src d r) (htyped : Plan.Typed ⟨G⟩)
    (hr : r.OnTriples) (houtput : r.output.triples = true) :
    ∃ enough, ∀ limit ≥ enough, ∃ e, Plan.evaluate src limit ⟨G⟩ = .ok e ∧
      (∀ q ∈ e.quads, q.graph = none) ∧
        IsLeast {D | r.Closed src.storedTriples D} {t | ⟨none, t⟩ ∈ e.quads} := by
  -- without nested plans the limit makes no difference to a round
  have hopened (limit : Nat) : Plan.opened ⟨G⟩ src limit = Plan.opened ⟨G⟩ src 0 :=
    Plan.opened_eq (fun _ _ hop => (h.nested hop).1) _ _ _
  obtain ⟨order, horder⟩ := htyped.ordered
  have htop : (Plan.opened ⟨G⟩ src 0).topologicalOrder = .ok order := by
    rw [Plan.opened, Graph.topologicalOrder_mapNested]
    exact horder
  have hspec := Graph.topologicalOrder_spec htop
  have hruns : (Plan.opened ⟨G⟩ src 0).Runs src order := (h.permits htyped).runs hspec
  obtain ⟨last, hlast, hleast⟩ := h.rounds_isLeast hr hspec hruns
  obtain ⟨quads, hquads, hgraphs, htriples⟩ :=
    h.exists_quads (hruns.course hspec h.wired.linked) last
  have hresults : (Plan.opened ⟨G⟩ src 0).results = [1] := by
    refine results_opened (fun id hid => ?_) (Graph.mem_ids_of_operator? h.result)
    obtain ⟨op, hop⟩ := Graph.exists_operator?_of_mem_ids hid
    exact ⟨op, hop, (h.nested hop).2.2⟩
  have hresult : (Plan.opened ⟨G⟩ src 0).operator? 1 =
      some (.result (.materialize r.output)) := by
    rw [operator?_opened, h.result]
    rfl
  refine ⟨last + 1, fun limit hlimit => ?_⟩
  obtain ⟨n, hrounds⟩ := hlast limit hlimit
  obtain ⟨e, he, hmem⟩ := collect_materialize (n := n + 1) hresults hresult houtput hquads
  refine ⟨e, ?_, fun q hq => hgraphs q ((hmem q).1 hq), ?_⟩
  · rw [Plan.evaluate_eq, hopened, Graph.evaluate, htop]
    change Except.bind (Graph.rounds _ _ _ order limit limit 0 []) _ = _
    rw [hrounds]
    exact he
  · have hsame : {t | ⟨none, t⟩ ∈ e.quads} = {t | (⟨none, t⟩ : Quad) ∈ quads} :=
      Set.ext fun t => hmem _
    rw [hsame, htriples]
    exact hleast

/-- A rule program on triples is evaluated under every limit that is not too low, to the least set
of triples that is closed under its rules over the default graph. -/
theorem RuleProgram.evaluate_leastModel {p : Planner} {d' : Draft} {prepared : Prepared}
    (store : Store) (hscans : ∃ dataset known, p.scans = .ofStore dataset known)
    (hr : r.OnTriples) (houtput : r.output.triples = true)
    (h : (r.prepare p).runOn d = (.ok prepared, d')) :
    prepared.dataset = p.dataset ∧ ∃ enough, ∀ limit ≥ enough, ∃ e,
      prepared.plan.evaluate ⟨store, prepared.dataset⟩ limit = .ok e ∧
        (∀ q ∈ e.quads, q.graph = none) ∧
          IsLeast {D | r.Closed {t | t ∈ store.defaultGraph prepared.dataset} D}
            {t | ⟨none, t⟩ ∈ e.quads} := by
  obtain ⟨⟨G⟩, dataset⟩ := prepared
  obtain ⟨hdataset, d₁, hG⟩ := ends_prepare_recursive ⟨store, dataset⟩ hr hscans _ d' h
  have htyped : Plan.Typed ⟨G⟩ := ends_prepared r.buildsTyped _ d' h
  exact ⟨hdataset, hG.evaluate_isLeast htyped hr houtput⟩

/-- Whoever is known can be reached, and so can whoever can be reached from there. -/
def reachability : RuleProgram :=
  ⟨[⟨[.triple ⟨.var ⟨"x"⟩, .term (.iri "reaches"), .var ⟨"y"⟩⟩],
      ⟨[.triple ⟨.var ⟨"x"⟩, .term (.iri "knows"), .var ⟨"y"⟩⟩]⟩⟩,
    ⟨[.triple ⟨.var ⟨"x"⟩, .term (.iri "reaches"), .var ⟨"z"⟩⟩],
      ⟨[.triple ⟨.var ⟨"x"⟩, .term (.iri "knows"), .var ⟨"y"⟩⟩,
        .triple ⟨.var ⟨"y"⟩, .term (.iri "reaches"), .var ⟨"z"⟩⟩]⟩⟩], ⟨true, false⟩⟩

theorem reachability_leastModel : ∃ prepared,
    ((reachability.prepare (.ofStore .empty)).runOn .empty).1 = .ok prepared ∧
    ∃ enough, ∀ limit ≥ enough, ∃ e,
      prepared.plan.evaluate ⟨.ofList [⟨none, ⟨.iri "a", .iri "knows", .iri "b"⟩⟩],
        prepared.dataset⟩ limit = .ok e ∧ (∀ q ∈ e.quads, q.graph = none) ∧
      IsLeast {D | reachability.Closed {⟨.iri "a", .iri "knows", .iri "b"⟩} D}
        {t | ⟨none, t⟩ ∈ e.quads} := by
  have hok : ((reachability.prepare (.ofStore .empty)).runOn .empty).1.toBool = true := by
    decide +kernel
  have hr : reachability.OnTriples := by
    refine ⟨?_, by decide +kernel⟩
    simp [reachability]
  have hstored : {t | t ∈ (Store.ofList [⟨none, ⟨.iri "a", .iri "knows", .iri "b"⟩⟩]).defaultGraph
      .empty} = {(⟨.iri "a", .iri "knows", .iri "b"⟩ : Triple)} := by
    have hlist : ((Store.ofList [⟨none, ⟨.iri "a", .iri "knows", .iri "b"⟩⟩]).defaultGraph
        .empty).toList = [⟨.iri "a", .iri "knows", .iri "b"⟩] := by decide +kernel
    ext t
    rw [Set.mem_ofPred_eq, ← OrdSet.mem_toList, hlist, List.mem_singleton, Set.mem_singleton_iff]
  cases hrun : (reachability.prepare (.ofStore .empty)).runOn .empty with
  | mk outcome after =>
      cases outcome with
      | error e =>
          rw [hrun] at hok
          cases hok
      | ok prepared =>
          obtain ⟨hdataset, hevaluate⟩ := RuleProgram.evaluate_leastModel
            (.ofList [⟨none, ⟨.iri "a", .iri "knows", .iri "b"⟩⟩]) ⟨_, _, rfl⟩ hr rfl hrun
          rw [show prepared.dataset = .empty from hdataset, hstored] at hevaluate
          exact ⟨prepared, rfl, by rwa [show prepared.dataset = .empty from hdataset]⟩

/-! ## Optimized rule programs -/

/-- The quads and facts that a rule program derives from a store under a configuration. -/
def RuleProgram.derived (r : RuleProgram) (config : Config) (store : Store) :
    Except Error (List Quad × List Fact) := do
  let planner : Planner := { Planner.ofStore store with config }
  match (((Document.rules r).compile planner).runOn .empty).1 with
  | .ok [prepared] => do
    let e ← prepared.plan.evaluate ⟨store, prepared.dataset⟩ defaultIterations
    return (e.quads, e.facts)
  | .ok _ => return ([], [])
  | .error e => throw e

/-- A rule without conditions, and a rule that turns around what it derives. -/
def chain : RuleProgram :=
  ⟨[⟨[.triple ⟨.term (.iri "a"), .term (.iri "p"), .term (.iri "b")⟩], ⟨[]⟩⟩,
    ⟨[.triple ⟨.var ⟨"y"⟩, .term (.iri "r"), .var ⟨"x"⟩⟩],
      ⟨[.triple ⟨.var ⟨"x"⟩, .term (.iri "p"), .var ⟨"y"⟩⟩]⟩⟩], ⟨true, true⟩⟩

/-- The optimized plan of the chain derives less than the plan as it was drawn. -/
theorem derived_chain :
    chain.derived Config.standard.withoutOptimizer .empty =
      .ok ([⟨none, ⟨.iri "a", .iri "p", .iri "b"⟩⟩, ⟨none, ⟨.iri "b", .iri "r", .iri "a"⟩⟩], []) ∧
    chain.derived .standard .empty = .ok ([⟨none, ⟨.iri "a", .iri "p", .iri "b"⟩⟩], []) := by
  constructor <;> decide +kernel

end QuadAlgebra
