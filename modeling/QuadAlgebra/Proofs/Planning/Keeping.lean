import QuadAlgebra.Proofs.Optimization.Steps
import QuadAlgebra.Proofs.Planning.Closure

/-!
# What drawings of paths keep

A path is drawn by steps of three kinds: operators are added, edges are added between operators, and
variables are handed out. What all such steps keep is kept by the drawing of a path
(`Path.draw_keeps`). The operators may be restricted to good ones; those of a path are its scans and
probes and some that are the same for every graph (`PathPlanner.DrawsGood`).
-/

namespace QuadAlgebra

open Edit

/-! ## Single steps -/

/-- What is kept when a good operator is added, when an edge is, and when a variable is handed
out. -/
structure Draft.KeptByDrawing (good : Operator Plan → Prop) (P : Draft → Prop) : Prop where
  add : ∀ op, good op → (Draw.add op).Keeps P
  connect : ∀ s t operand feedback, (Draw.onGraph (Graph.connect s t operand feedback)).Keeps P
  freshVar : Draw.freshVar.Keeps P

/-- The operators that a path is drawn with are good. -/
structure PathPlanner.DrawsGood (pp : PathPlanner) (good : Operator Plan → Prop) : Prop where
  scan : ∀ t, good (pp.planner.scan [t] pp.graph)
  probe : good (.probe pp.graph)
  condition : ∀ e, good (.ofCondition e)
  plain : ∀ op : Operator Plan, op.kind ∈ [.union, .join, .minus, .distinct, .projection, .bind,
    .replaceVar, .ruleFilter] → good op

namespace PathPlanner

variable {pp : PathPlanner} {path : DrawPath} {good : Operator Plan → Prop} {P : Draft → Prop}
  (hP : Draft.KeptByDrawing good P)

include hP

/-- A source keeps what its operator keeps. -/
theorem addSource_keeps {op : Operator Plan} (hop : good op) : (Draw.addSource op).Keeps P :=
  (hP.add op hop).bind fun _ => (hP.connect _ _ _ _).bind fun _ => keeps_pure

/-- An operator over one input keeps what it keeps itself. -/
theorem above_keeps {input : OperatorId} {op : Operator Plan} (hop : good op) :
    (above input op).Keeps P :=
  (hP.add op hop).bind fun _ => (hP.connect _ _ _ _).bind fun _ => keeps_pure

/-- An operator over several inputs keeps what it keeps itself. -/
theorem combine_keeps {op : Operator Plan} (hop : good op) {inputs : List OperatorId} :
    (combine op inputs).Keeps P :=
  (hP.add op hop).bind fun _ => (keeps_forM fun _ _ => hP.connect _ _ _ _).bind
    fun _ => keeps_pure

variable (hpp : pp.DrawsGood good)

include hpp

/-- Deduplication is among the operators of paths. -/
theorem distinct_keeps {input : OperatorId} : (pp.distinct input).Keeps P :=
  keeps_ite (above_keeps hP (hpp.plain _ (by decide))) keeps_pure

/-- So is the projection onto the endpoints. -/
theorem project_keeps {input : OperatorId} {s o : Item} : (pp.project input s o).Keeps P :=
  above_keeps hP (hpp.plain _ (by simp [Operator.kind]))

/-- So are scans. -/
theorem scan_keeps (t : TriplePattern) : (pp.scan t).Keeps P := addSource_keeps hP (hpp.scan t)

/-- So are probes. -/
theorem probe_keeps : pp.probe.Keeps P := addSource_keeps hP hpp.probe

/-! ## Repetition -/

section Repetition

variable (hpath : ∀ s o, (path s o).Keeps P)

include hpath

omit hpp in
/-- Copies of a path keep what the path keeps. -/
theorem copies_keeps {join : OperatorId} (first count : Nat) (start : Item) :
    (copies path join first count start).Keeps P := by
  induction count generalizing first start with
  | zero => exact keeps_pure
  | succ count ih =>
      exact hP.freshVar.bind fun _ => (hpath _ _).bind fun _ =>
        (hP.connect _ _ _ _).bind fun _ => ih _ _

/-- A chain keeps what its path keeps. -/
theorem chain_keeps (count : Nat) (s o : Item) : (pp.chain path count s o).Keeps P := by
  refine keeps_ite (hpath s o) ?_
  refine (hP.add _ (hpp.plain _ (by decide))).bind fun _ => (copies_keeps hP hpath _ _ _).bind
    fun _ => ?_
  exact (hpath _ _).bind fun _ => (hP.connect _ _ _ _).bind fun _ => project_keeps hP hpp

/-- A loop keeps what its path keeps. -/
theorem loop_keeps (s o : Variable) : (pp.loop path s o).Keeps P := by
  refine (hpath _ _).bind fun _ => (combine_keeps hP (hpp.plain _ (by decide))).bind fun _ => ?_
  refine (above_keeps hP (hpp.plain _ (by decide))).bind fun _ => hP.freshVar.bind fun step => ?_
  refine (above_keeps hP (hpp.plain _ (by simp [Operator.kind]))).bind fun _ => ?_
  refine (above_keeps hP (hpp.condition _)).bind fun _ => ?_
  refine (above_keeps hP (hpp.plain _ (by decide))).bind fun _ => (hpath _ _).bind fun _ => ?_
  refine (hP.connect _ _ _ _).bind fun _ => (project_keeps hP hpp).bind fun _ => ?_
  exact (hP.connect _ _ _ _).bind fun _ => keeps_pure

/-- One or more steps keep what one step keeps. -/
theorem oneOrMore_keeps (s o : Item) : (pp.oneOrMore path s o).Keeps P := by
  refine closure_induction (C := fun _ _ draw => draw.Keeps P) (loop_keeps hP hpp hpath)
    (fun _ _ _ _ _ _ _ hcore => ?_) (fun _ _ _ hf => hP.freshVar.bind hf) 3 s o
    (fun h => absurd h (by decide))
  exact hcore.bind fun _ => (above_keeps hP (hpp.plain _ (by simp [Operator.kind]))).bind
    fun _ => project_keeps hP hpp

end Repetition

/-! ## Paths of length zero and negated sets -/

/-- The nodes of the graph are drawn by a scan and a projection. -/
theorem nodes_keeps (v : Variable) (asSubject : Bool) : (pp.nodes v asSubject).Keeps P :=
  hP.freshVar.bind fun _ => hP.freshVar.bind fun _ => (scan_keeps hP hpp _).bind fun _ =>
    project_keeps hP hpp

/-- A path of length zero is drawn from operators of paths, whatever its ends are. -/
theorem zeroLength_keeps (s o : Item) : (pp.zeroLength s o).Keeps P := by
  have hbind (v : Variable) (t : Term) :
      (do above (← pp.probe) (.bind v (.constant t))).Keeps P :=
    (probe_keeps hP hpp).bind fun _ => above_keeps hP (hpp.plain _ (by simp [Operator.kind]))
  unfold zeroLength
  split
  · refine (nodes_keeps hP hpp _ _).bind fun _ => (nodes_keeps hP hpp _ _).bind fun _ => ?_
    refine (combine_keeps hP (hpp.plain _ (by decide))).bind fun _ =>
      (distinct_keeps hP hpp).bind fun _ => ?_
    exact keeps_ite keeps_pure (above_keeps hP (hpp.plain _ (by simp [Operator.kind])))
  · exact hbind _ _
  · exact hbind _ _
  · exact (probe_keeps hP hpp).bind fun _ =>
      above_keeps hP (hpp.plain _ (by simp [Operator.kind]))

/-- One direction of a negated set is drawn from scans and a difference. -/
theorem negatedPart_keeps (excluded : List Term) (s o : Item) :
    (pp.negatedPart excluded s o).Keeps P := by
  refine hP.freshVar.bind fun any => (scan_keeps hP hpp _).bind fun _ => ?_
  refine keeps_ite (project_keeps hP hpp) ((keeps_mapM fun _ _ => ?_).bind fun removed => ?_)
  · exact (scan_keeps hP hpp _).bind fun _ =>
      above_keeps hP (hpp.plain _ (by simp [Operator.kind]))
  · have hminus (base removed : OperatorId) :
        (do pp.project (← combine .minus [base, removed]) s o).Keeps P :=
      (combine_keeps hP (hpp.plain _ (by decide))).bind fun _ => project_keeps hP hpp
    dsimp only
    split
    · exact hminus _ _
    · exact (combine_keeps hP (hpp.plain _ (by decide))).bind fun _ => hminus _ _

/-- A negated set keeps what its directions keep. -/
theorem negatedSet_keeps (members : List Excluded) (s o : Item) :
    (pp.negatedSet members s o).Keeps P := by
  have hpart := negatedPart_keeps hP hpp
  refine keeps_ite ((hpart _ _ _).bind fun _ => distinct_keeps hP hpp) ?_
  refine keeps_ite ((hpart _ _ _).bind fun _ => distinct_keeps hP hpp) ?_
  exact (hpart _ _ _).bind fun _ => (hpart _ _ _).bind fun _ =>
    (combine_keeps hP (hpp.plain _ (by decide))).bind fun _ => distinct_keeps hP hpp

/-! ## Ranges -/

section Ranges

variable (hpath : ∀ s o, (path s o).Keeps P)

include hpath

/-- Adding no step keeps what the path keeps. -/
theorem withZero_keeps (s o : Item) : (pp.withZero path s o).Keeps P :=
  (zeroLength_keeps hP hpp s o).bind fun _ => (hpath s o).bind fun _ =>
    (combine_keeps hP (hpp.plain _ (by decide))).bind fun _ => distinct_keeps hP hpp

/-- A range of at least one step keeps what its path keeps. -/
theorem positiveRange_keeps (min max : Nat) (s o : Item) :
    (pp.positiveRange path min max s o).Keeps P := by
  refine (keeps_mapM fun _ _ => chain_keeps hP hpp hpath _ s o).bind fun _ => ?_
  split
  · exact keeps_pure
  · exact (combine_keeps hP (hpp.plain _ (by decide))).bind fun _ => distinct_keeps hP hpp

/-- A bounded number of steps keeps what the path keeps. -/
theorem bounded_keeps (min max : Nat) (s o : Item) : (pp.bounded path min max s o).Keeps P := by
  refine keeps_ite (fun _ _ => ends_throw) (keeps_ite (zeroLength_keeps hP hpp s o) ?_)
  refine keeps_ite ?_ (positiveRange_keeps hP hpp hpath _ _ s o)
  exact withZero_keeps hP hpp (positiveRange_keeps hP hpp hpath _ _) s o

/-- An unbounded number of steps keeps what the path keeps. -/
theorem unbounded_keeps (min : Nat) (s o : Item) : (pp.unbounded path min s o).Keeps P := by
  have hclosure := oneOrMore_keeps hP hpp hpath
  match min with
  | 0 => exact withZero_keeps hP hpp hclosure s o
  | 1 => exact hclosure s o
  | steps + 2 =>
      refine (hP.add _ (hpp.plain _ (by decide))).bind fun _ =>
        (copies_keeps hP hpath _ _ _).bind fun _ => (hclosure _ _).bind fun _ => ?_
      exact (hP.connect _ _ _ _).bind fun _ => (project_keeps hP hpp).bind fun _ =>
        distinct_keeps hP hpp

end Ranges

end PathPlanner

/-! ## All paths -/

open PathPlanner in
/-- The drawing of a path keeps what its steps keep. -/
theorem Path.draw_keeps {pp : PathPlanner} {good : Operator Plan → Prop} {P : Draft → Prop}
    (hP : Draft.KeptByDrawing good P) (hpp : pp.DrawsGood good) (path : Path) (s o : Item) :
    (path.draw pp s o).Keeps P := by
  induction path generalizing s o with
  | predicate iri => exact scan_keeps hP hpp _
  | inverse p ih => exact ih o s
  | sequence p q ihp ihq =>
      exact hP.freshVar.bind fun _ => (ihp _ _).bind fun _ => (ihq _ _).bind fun _ =>
        (combine_keeps hP (hpp.plain _ (by decide))).bind fun _ => project_keeps hP hpp
  | alternative p q ihp ihq =>
      exact (ihp _ _).bind fun _ => (ihq _ _).bind fun _ =>
        (combine_keeps hP (hpp.plain _ (by decide))).bind fun _ => (project_keeps hP hpp).bind
          fun _ => distinct_keeps hP hpp
  | negatedSet members => exact negatedSet_keeps hP hpp members s o
  | repetition p min max ih =>
      cases max with
      | some max => exact bounded_keeps hP hpp ih min max s o
      | none => exact unbounded_keeps hP hpp ih min s o
  | oneOrMore p ih => exact oneOrMore_keeps hP hpp ih s o
  | zeroOrMore p ih => exact withZero_keeps hP hpp (oneOrMore_keeps hP hpp ih) s o
  | zeroOrOne p ih => exact withZero_keeps hP hpp ih s o

end QuadAlgebra
