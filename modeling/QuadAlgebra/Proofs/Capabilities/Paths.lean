import QuadAlgebra.Proofs.Capabilities.Plans
import QuadAlgebra.Proofs.Planning.Keeping
import QuadAlgebra.Proofs.Variables.Paths

/-!
# Paths within the capabilities of an evaluator

All operators that are drawn for a path are allowed if it is drawn in the default graph, or if named
graphs are allowed (`Path.draw_allowed`). The steps of a drawing keep a draft within the
capabilities of an evaluator (`Draft.Within`) if the operators that they add are. Where more is
asked for, an ability is required first: what stands behind such a check is drawn only if there is
the ability (`Planner.yields_require`).
-/

namespace QuadAlgebra

open Edit

variable {c : Capabilities} {α : Type}

/-! ## Single steps -/

/-- All operators of the draft are within the capabilities. -/
def Draft.Within (c : Capabilities) (d : Draft) : Prop := d.graph.Only (Operator.Within c)

/-- Operators of all other kinds are within any capabilities, unless plans are nested in them. -/
theorem Operator.Within.plain {op : Operator Plan} (h : op.kind ∉ .filter :: Capabilities.gated) :
    op.Within c :=
  .of_allows (Capabilities.allows_of_kind fun hmem => h (List.mem_cons_of_mem _ hmem)) <| by
    cases op with
    | filter => exact absurd List.mem_cons_self h
    | _ => rfl

namespace Draw

theorem onGraph_keeps {edit : Edit (Graph Plan) α}
    (h : edit.Keeps (Graph.Only (Operator.Within c))) : (onGraph edit).Keeps (Draft.Within c) :=
  fun d hd => ends_within.2 (h d.graph hd)

theorem add_keeps {op : Operator Plan} (hop : op.Within c) : (add op).Keeps (Draft.Within c) := by
  refine onGraph_keeps fun g hg => ?_
  unfold Graph.add
  simp only [ends_bind, ends_get, ends_set, ends_pure]
  exact hg.withOperator hop

/-- A step that leaves every operator in its slot. -/
theorem keeps_of_operators {edit : Edit (Graph Plan) α}
    (h : ∀ ops : OperatorId → Option (Operator Plan),
      edit.Keeps fun g => ∀ x, g.operator? x = ops x) : (onGraph edit).Keeps (Draft.Within c) :=
  onGraph_keeps fun _ hg => (h _ _ fun _ => rfl).mono fun _ _ hops => hg.congr hops

theorem connect_keeps {s t : OperatorId} {operand : Nat} :
    (connect s t operand).Keeps (Draft.Within c) :=
  keeps_of_operators fun _ => Graph.connect_keeps_operators _ _

theorem freshVar_keeps : freshVar.Keeps (Draft.Within c) := fun _ hd =>
  ends_bind.2 (ends_get.2 (ends_bind.2 (ends_set.2 (ends_pure.2 hd))))

theorem keeps_malformed {cause : Malformed} : (malformed cause : Draw α).Keeps (Draft.Within c) :=
  fun _ _ => ends_throw

theorem keeps_unsupported {cause : Unsupported} :
    (unsupported cause : Draw α).Keeps (Draft.Within c) :=
  fun _ _ => ends_throw

theorem addSource_keeps {op : Operator Plan} (hop : op.Within c) :
    (addSource op).Keeps (Draft.Within c) :=
  (add_keeps hop).bind fun _ => connect_keeps.bind fun _ => keeps_pure

end Draw

namespace Cursor

variable {cursor : Cursor}

theorem attach_keeps {op : Operator Plan} (hop : op.Within c) :
    (cursor.attach op).Keeps (Draft.Within c) :=
  (Draw.add_keeps hop).bind fun _ => Draw.connect_keeps.bind fun _ => keeps_pure

theorem attachAll_keeps {ops : List (Operator Plan)} (hops : ∀ op ∈ ops, op.Within c) :
    (cursor.attachAll ops).Keeps (Draft.Within c) :=
  keeps_foldlM fun _ op hop => attach_keeps (hops op hop)

theorem attachSource_keeps {op : Operator Plan} (hop : op.Within c) :
    (cursor.attachSource op).Keeps (Draft.Within c) :=
  (Draw.addSource_keeps hop).bind fun _ => Draw.connect_keeps

theorem feed_keeps {producer : OperatorId} : (cursor.feed producer).Keeps (Draft.Within c) :=
  Draw.connect_keeps

end Cursor

/-! ## Scans and checks -/

namespace Planner

variable {p : Planner} {graph : Option Item}

theorem scan_within (hscans : p.ScansPatterns) (patterns : List TriplePattern)
    (hgraph : c.namedGraphs = false → graph = none) : (p.scan patterns graph).Within c := by
  obtain ⟨source, hscan⟩ := hscans patterns graph
  rw [hscan]
  exact .of_allows (Capabilities.allows_scan.2 hgraph) rfl

theorem probe_within (hgraph : c.namedGraphs = false → graph = none) :
    (Operator.probe graph).Within c :=
  .of_allows (Capabilities.allows_of_onOneGraph hgraph (by simp [Operator.kind])) rfl

/-- Behind the check the evaluator has the ability. -/
theorem yields_require (enabled : Bool) (feature : String) :
    (require enabled feature).Yields (Draft.Within c) fun _ => enabled = true := by
  unfold require
  split
  · next h => exact yields_pure h
  · exact fun _ _ => ends_throw

end Planner

/-! ## Paths -/

/-- The steps of a drawing keep a draft within the capabilities if the operators that they add
are. -/
theorem Draft.keptByDrawing_within :
    Draft.KeptByDrawing (Operator.Within c) (Draft.Within c) where
  add _ hop := Draw.add_keeps hop
  connect _ _ _ _ := Draw.keeps_of_operators fun _ => Graph.connect_keeps_operators _ _
  freshVar := Draw.freshVar_keeps

theorem PathPlanner.drawsGood_within {pp : PathPlanner} (hscans : pp.planner.ScansPatterns)
    (hgraph : c.namedGraphs = false → pp.graph = none) : pp.DrawsGood (Operator.Within c) where
  scan t := Planner.scan_within hscans [t] hgraph
  probe := Planner.probe_within hgraph
  condition e := .of_allows (Capabilities.allows_of_kind (by simp [Operator.ofCondition,
    Operator.kind, Capabilities.gated])) rfl
  plain op hkind := .plain (by revert hkind; cases op.kind <;> decide)

/-- The plan of a path is within the capabilities if it is drawn in the default graph, or if named
graphs are allowed. -/
theorem Path.draw_allowed {pp : PathPlanner} (hscans : pp.planner.ScansPatterns)
    (hgraph : c.namedGraphs = false → pp.graph = none) (path : Path) (s o : Item) :
    (path.draw pp s o).Keeps (Draft.Within c) :=
  path.draw_keeps Draft.keptByDrawing_within (PathPlanner.drawsGood_within hscans hgraph) s o

end QuadAlgebra
