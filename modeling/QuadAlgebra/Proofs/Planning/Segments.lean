import QuadAlgebra.Proofs.Planning.Denotation
import QuadAlgebra.Proofs.Planning.Feeding

/-!
# Segments of groups

A group is planned in segments, which gather triples and the drawings of other elements and join
them in the end. Elements are thus joined in another order than they are read in. A segment stands
for the solutions of the elements read so far when these are, as a bag, the join of all that it
holds (`Segment.StandsFor`). What a segment draws has the solutions that it stands for
(`Segment.StandsFor.draws`). Any other property of drawings that joins keep passes from all that a
segment has gathered (`Segment.Each`) to what it draws (`Segment.Each.good_draw`).
-/

namespace QuadAlgebra

variable {src : Source} {limit : Nat} {c c' : Cursor} {d d₁ d' : Draft} {op : Operator Plan}
  {rows : List Solution} {lists : List (List Solution)}

/-! ## Operators over drawings -/

/-- Numbers that have been handed out before a drawing do not matter. -/
theorem Fed.of_graph_eq {target : OperatorId} {first : Nat}
    (h : Fed src limit target first d₁ d' lists) (hgraph : d₁.graph = d.graph)
    (hvar : d.nextVar ≤ d₁.nextVar) : Fed src limit target first d d' lists := by
  have hsize : d₁.size = d.size := by rw [Draft.size, Draft.size, hgraph]
  refine ⟨h.ext.after_numbers hgraph hvar, ?_, ?_, ?_⟩
  · exact hsize ▸ h.tame
  · exact hsize ▸ h.forward
  · exact hgraph ▸ hsize ▸ h.feeds

theorem Cursor.Ready.of_graph_eq (h : c.Ready d) (hgraph : d₁.graph = d.graph) : c.Ready d₁ := by
  have hsize : d₁.size = d.size := by rw [Draft.size, Draft.size, hgraph]
  refine ⟨⟨?_, ?_, ?_⟩, hsize ▸ h.target_lt, h.target_ne, ?_⟩
  · exact hgraph ▸ h.sound.tidy
  · exact hgraph ▸ h.sound.root
  · exact hgraph ▸ h.sound.inputs_root
  · exact hgraph ▸ h.operand_gt

theorem draws_over_one {draw : DrawInto} {l : List Solution} (hdraw : Draws src limit draw l)
    (htame : op.IsTame src limit) (hkind : op.kind ≠ .result)
    (hyields : op.Yields src limit [l] rows) :
    Draws src limit (fun c => do draw (← c.attach op)) rows := by
  intro c d d' hc h
  obtain ⟨c', d₁, hattach, hrun⟩ := Edit.runOn_bind_eq_ok.1 h
  obtain ⟨rfl, -, -, hready, -, -⟩ := attach_eq_ok hc hattach
  exact Fed.over hc hattach (hdraw _ d₁ d' hready hrun) htame hkind hyields

theorem draws_over_two {first second : DrawInto} {l r : List Solution}
    (hfirst : Draws src limit first l) (hsecond : Draws src limit second r)
    (htame : op.IsTame src limit) (hkind : op.kind ≠ .result)
    (hyields : op.Yields src limit [l, r] rows) :
    Draws src limit (fun c => do
      let node ← c.attach op
      first node
      second (node.sibling 1)) rows := by
  intro c d d' hc h
  obtain ⟨c', d₁, hattach, h⟩ := Edit.runOn_bind_eq_ok.1 h
  obtain ⟨⟨⟩, d₂, hrun, hrun'⟩ := Edit.runOn_bind_eq_ok.1 h
  obtain ⟨rfl, -, -, hready, -, -⟩ := attach_eq_ok hc hattach
  have hfed := hfirst _ d₁ d₂ hready hrun
  have hfed' := hsecond _ d₂ d' (hfed.ready hready) hrun'
  exact Fed.over hc hattach (.cons hready.target_lt hfed hfed') htame hkind hyields

theorem draws_over_all {draws : List DrawInto} (hdraws : List.Forall₂ (Draws src limit) draws lists)
    (htame : op.IsTame src limit) (hkind : op.kind ≠ .result)
    (hyields : op.Yields src limit lists rows) :
    Draws src limit (fun c => do
      let node ← c.attach op
      draws.zipIdx.forM fun (draw, operand) => draw (node.sibling operand)) rows := by
  intro c d d' hc h
  obtain ⟨c', d₁, hattach, hrun⟩ := Edit.runOn_bind_eq_ok.1 h
  obtain ⟨rfl, -, -, hready, -, -⟩ := attach_eq_ok hc hattach
  exact Fed.over hc hattach (fed_forM hdraws hready hrun) htame hkind hyields

/-! ## Sources -/

/-- A planner of selections over a store in memory. -/
structure Planner.ForStore (p : Planner) : Prop where
  outsideRules : p.inRules = false
  scans : ∃ dataset known, p.scans = .ofStore dataset known

theorem draws_scan {p : Planner} (hp : p.ForStore) {patterns : List TriplePattern}
    (hne : patterns ≠ []) (graph : Option Term) :
    Draws src limit (fun c => c.attachSource (p.scan patterns (graph.map .term)))
      (joinMany (patterns.map fun q => q.solutions (src.activeTriples graph))) := by
  obtain ⟨dataset, known, hscans⟩ := hp.scans
  have hop : p.scan patterns (graph.map .term) =
      .scan ⟨patterns, graph.map .term, ⟨dataset, true⟩⟩ := by
    rw [Planner.scan, hscans]
    rfl
  rw [hop]
  refine draws_source (fun id l => ⟨_, Operator.emit_scan _⟩) (by simp [Operator.kind]) fun id => ?_
  rw [Operator.opened, Operator.withNested, Operator.emit_scan, scan_eq patterns hne]
  simp

theorem draws_probe (graph : Option Term) :
    Draws src limit (fun c => c.attachSource (.probe (graph.map .term))) [∅] := by
  refine draws_source (fun id l => ⟨_, Operator.emit_probe _⟩) (by simp [Operator.kind])
    fun id => ?_
  rw [Operator.opened, Operator.withNested, Operator.emit_probe]
  cases graph <;> simp [Source.probe]

/-! ## Segments -/

theorem joinMany_perm {l r : List (List Solution)} (h : l.Perm r) :
    (joinMany l).Perm (joinMany r) := by
  induction h with
  | nil => exact .refl _
  | cons rows _ ih =>
      rw [joinMany_cons, joinMany_cons]
      exact joinSolutions_perm (.refl rows) ih
  | swap a b l =>
      rw [joinMany_cons, joinMany_cons, joinMany_cons, joinMany_cons, ← joinSolutions_assoc,
        ← joinSolutions_assoc]
      exact joinSolutions_perm (joinSolutions_comm b a) (.refl _)
  | trans _ _ ih ih' => exact ih.trans ih'

/-- A segment stands for the solutions that it holds the parts of. -/
structure Segment.StandsFor (src : Source) (limit : Nat) (graph : Option Term) (s : Segment)
    (rows : List Solution) : Prop where
  parts : ∃ closed others : List (List Solution),
    List.Forall₂ (Draws src limit) s.closed.toList closed ∧
    List.Forall₂ (Draws src limit) s.others others ∧
    (joinMany (closed ++ s.triples.map (fun p => p.solutions (src.activeTriples graph)) ++
      others)).Perm rows

namespace Segment.StandsFor

variable {graph : Option Term} {s : Segment}

theorem start : StandsFor src limit graph .start [∅] := ⟨[], [], .nil, .nil, .refl _⟩

theorem scope (h : s.StandsFor src limit graph rows) (vars : VarSet) :
    StandsFor src limit graph { s with scope := vars } rows := ⟨h.parts⟩

/-- A triple is joined before the other elements, wherever it is read. -/
theorem addTriple (h : s.StandsFor src limit graph rows) (p : TriplePattern) :
    (s.addTriple p).StandsFor src limit graph
      (joinSolutions rows (p.solutions (src.activeTriples graph))) := by
  obtain ⟨closed, others, hclosed, hothers, hperm⟩ := h.parts
  refine ⟨closed, others, hclosed, hothers, ?_⟩
  have hmiddle : ((s.triples.map fun p => p.solutions (src.activeTriples graph)) ++
      p.solutions (src.activeTriples graph) :: others).Perm _ := List.perm_middle
  have hmoved := joinMany_perm (List.Perm.append_left closed hmiddle)
  rw [Segment.addTriple]
  simp only [List.map_append, List.map_cons, List.map_nil, List.append_assoc, List.cons_append,
    List.nil_append] at hmoved hperm ⊢
  refine hmoved.trans ((joinMany_perm List.perm_middle).trans ?_)
  rw [joinMany_cons]
  exact (joinSolutions_comm _ _).trans (joinSolutions_perm hperm (.refl _))

theorem addOther (h : s.StandsFor src limit graph rows) {draw : DrawInto} {l : List Solution}
    (hdraw : Draws src limit draw l) :
    (s.addOther draw).StandsFor src limit graph (joinSolutions rows l) := by
  obtain ⟨closed, others, hclosed, hothers, hperm⟩ := h.parts
  refine ⟨closed, others ++ [l], hclosed, List.rel_append hothers (.cons hdraw .nil), ?_⟩
  rw [Segment.addOther, ← List.append_assoc, joinMany_append, joinMany_singleton]
  exact joinSolutions_perm hperm (.refl _)

theorem close (s : Segment) {draw : DrawInto} (hdraw : Draws src limit draw rows) :
    (s.close draw).StandsFor src limit graph rows :=
  ⟨[rows], [], .cons hdraw .nil, .nil, by simp [Segment.close]⟩

/-- A segment draws what it stands for. -/
theorem draws (h : s.StandsFor src limit graph rows) {p : Planner} (hp : p.ForStore) :
    Draws src limit (s.draw p (graph.map .term)) rows := by
  obtain ⟨closed, others, hclosed, hothers, hperm⟩ := h.parts
  -- the triples are drawn as one scan
  obtain ⟨scans, scanned, hscans, hdrawn, hjoined⟩ : ∃ (scans : List DrawInto)
      (scanned : List (List Solution)),
      scans = (if s.triples.isEmpty then []
        else [fun c => c.attachSource (p.scan s.triples (graph.map .term))]) ∧
      List.Forall₂ (Draws src limit) scans scanned ∧
      joinMany scanned =
        joinMany (s.triples.map fun p => p.solutions (src.activeTriples graph)) := by
    by_cases hempty : s.triples = []
    · exact ⟨[], [], by simp [hempty], .nil, by simp [hempty]⟩
    · exact ⟨_, _, by simp [hempty], .cons (draws_scan hp hempty graph) .nil, by simp⟩
  have hall : List.Forall₂ (Draws src limit) (s.closed.toList ++ scans ++ s.others)
      (closed ++ scanned ++ others) := List.rel_append (List.rel_append hclosed hdrawn) hothers
  have hrows : (joinMany (closed ++ scanned ++ others)).Perm rows := by
    rw [joinMany_append, joinMany_append] at hperm ⊢
    rw [hjoined]
    exact hperm
  refine Draws.perm ?_ hrows
  intro c d d' hc hrun
  rw [Segment.draw] at hrun
  simp only [← hscans] at hrun
  generalize s.closed.toList ++ scans ++ s.others = partners at hall hrun
  generalize closed ++ scanned ++ others = lists at hall
  cases hall with
  | nil => exact draws_probe graph c d d' hc hrun
  | cons hfirst hrest =>
      cases hrest with
      | nil => exact hfirst.perm (.of_eq (joinMany_singleton _).symm) c d d' hc hrun
      | cons hsecond hrest =>
          exact draws_over_all (.cons hfirst (.cons hsecond hrest))
            (fun id l => ⟨_, Operator.emit_join⟩) (by simp [Operator.kind])
            (Operator.yields_join (List.cons_ne_nil _ _)) c d d' hc hrun

end Segment.StandsFor

/-! ## Properties of all that a segment has gathered -/

section Each

variable {good : DrawInto → Prop} {s : Segment} {one : DrawInto} {draws : List DrawInto}
  {p : Planner} {graph : Option Item}

/-- Several drawings in one place: a probe for none of them, the only one, or an operator over them
all. -/
def DrawInto.several (op : Operator Plan) (graph : Option Item) (draws : List DrawInto) :
    DrawInto :=
  fun c => match draws with
    | [] => c.attachSource (.probe graph)
    | [draw] => draw c
    | several => do
      let node ← c.attach op
      several.zipIdx.forM fun (draw, operand) => draw (node.sibling operand)

/-- Several drawings in one place have a property that each of them has, if probes have it and so
does the operator over them. -/
theorem DrawInto.good_several (hdraws : ∀ draw ∈ draws, good draw)
    (hprobe : good fun c => c.attachSource (.probe graph))
    (hmany : good fun c => do
      let node ← c.attach op
      draws.zipIdx.forM fun (draw, operand) => draw (node.sibling operand)) :
    good (.several op graph draws) := by
  match draws with
  | [] => exact hprobe
  | [one] => exact hdraws one (List.mem_singleton_self one)
  | _ :: _ :: _ => exact hmany

/-- Each drawing that a segment has gathered has a property. -/
structure Segment.Each (good : DrawInto → Prop) (s : Segment) : Prop where
  closed : ∀ draw ∈ s.closed, good draw
  others : ∀ draw ∈ s.others, good draw

namespace Segment.Each

/-- To start with, nothing has been gathered. -/
theorem start : Segment.start.Each good :=
  ⟨fun _ h => (nomatch h), fun _ h => absurd h List.not_mem_nil⟩

/-- The variables in scope do not matter. -/
theorem scope (h : s.Each good) (vars : VarSet) : Segment.Each good { s with scope := vars } :=
  ⟨h.closed, h.others⟩

/-- A triple is gathered apart from the drawings. -/
theorem addTriple (h : s.Each good) (t : TriplePattern) : (s.addTriple t).Each good :=
  ⟨h.closed, h.others⟩

/-- A further drawing has to have the property. -/
theorem addOther (h : s.Each good) (hone : good one) : (s.addOther one).Each good := by
  refine ⟨h.closed, fun other hother => ?_⟩
  rcases List.mem_append.1 hother with hother | hother
  · exact h.others other hother
  · exact List.mem_singleton.1 hother ▸ hone

/-- What is closed off is a drawing like others. -/
theorem close (hone : good one) : (s.close one).Each good :=
  ⟨fun _ h => Option.some.inj h ▸ hone, fun _ h => absurd h List.not_mem_nil⟩

/-- A segment draws with the property what it has gathered with it, if probes, the scan of its
triples and joins of such drawings have it. -/
theorem good_draw (h : s.Each good) (hprobe : good fun c => c.attachSource (.probe graph))
    (hscan : s.triples ≠ [] → good fun c => c.attachSource (p.scan s.triples graph))
    (hjoin : ∀ draws : List DrawInto, (∀ draw ∈ draws, good draw) → good fun c => do
      let join ← c.attach .join
      draws.zipIdx.forM fun (draw, operand) => draw (join.sibling operand)) :
    good (s.draw p graph) := by
  have hparts : ∀ draw ∈ s.closed.toList ++ (if s.triples.isEmpty then []
      else [fun c : Cursor => c.attachSource (p.scan s.triples graph)]) ++ s.others, good draw := by
    simp only [List.forall_mem_append]
    refine ⟨⟨fun draw hdraw => h.closed draw (Option.mem_toList.1 hdraw), ?_⟩, h.others⟩
    split
    · exact List.forall_mem_nil _
    · next hsome =>
      exact List.forall_mem_singleton.2 (hscan fun hnil => hsome (List.isEmpty_iff.2 hnil))
  exact DrawInto.good_several hparts hprobe (hjoin _ hparts)

end Segment.Each

end Each

end QuadAlgebra
