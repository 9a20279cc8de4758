import QuadAlgebra.Proofs.Planning.Closure
import QuadAlgebra.Proofs.Planning.Finish

/-!
# Path semantics

The plan of a path draws the pairs that it finds (`Path.drawsFound`), by induction on the path, and
these are the pairs that the path connects unless different nodes have equal values
(`Path.finds_eq_relates`). Drawn into an empty graph between two items, it therefore evaluates under
every limit that is not too low, and its last operator ends with exactly the solutions that bind the
variables among the items to connected terms (`Path.finalRows_draw`).
-/

namespace QuadAlgebra

open Relation (Comp TransGen)
open Solution (Ends)

variable {src : Source} {graph : Option Term} {pp : PathPlanner} {path : DrawPath}
  {R : Term → Term → Prop} {s o : Item} {d d' : Draft} {out : OperatorId}

/-! ## Drawings of paths -/

/-- The pairs of terms that the plan of a path finds. It differs from the pairs that the path
connects in closures, which find what their loops reach. -/
def Path.Finds (triples : List Triple) : Path → Term → Term → Prop
  | .predicate iri => fun a b => ⟨a, iri, b⟩ ∈ triples
  | .inverse p => fun a b => p.Finds triples b a
  | .sequence p q => Comp (p.Finds triples) (q.Finds triples)
  | .alternative p q => fun a b => p.Finds triples a b ∨ q.Finds triples a b
  | .negatedSet members => AvoidsAll triples members
  | .repetition p min (some max) => fun a b =>
    ∃ n, min ≤ n ∧ n ≤ max ∧ Power triples (p.Finds triples) n a b
  | .repetition p 0 none => fun a b => SameNode triples a b ∨ Reaches (p.Finds triples) a b
  | .repetition p (n + 1) none => Comp (Steps (p.Finds triples) n) (Reaches (p.Finds triples))
  | .oneOrMore p => Reaches (p.Finds triples)
  | .zeroOrMore p => fun a b => SameNode triples a b ∨ Reaches (p.Finds triples) a b
  | .zeroOrOne p => fun a b => SameNode triples a b ∨ p.Finds triples a b

theorem onNodes_steps_reaches {triples : List Triple} (h : OnNodes triples R) (n : Nat) :
    OnNodes triples (Comp (Steps R n) (Reaches R)) := by
  cases n with
  | zero =>
      rintro a b ⟨c, rfl, hab⟩
      exact h.reaches a b hab
  | succ n => exact (h.steps n).comp h.reaches

/-- Nothing but nodes is found. -/
theorem Path.isNode_of_finds (triples : List Triple) (p : Path) :
    OnNodes triples (p.Finds triples) := by
  induction p with
  | predicate iri => exact fun a b h => ⟨⟨_, h, .inl rfl⟩, ⟨_, h, .inr rfl⟩⟩
  | inverse p ih => exact ih.flip
  | sequence p q ihp ihq => exact ihp.comp ihq
  | alternative p q ihp ihq => exact ihp.or ihq
  | negatedSet members => exact (Path.negatedSet members).isNode_of_relates
  | repetition p min max ih =>
      cases max with
      | some max =>
          rintro a b ⟨n, -, -, h⟩
          exact ih.power n a b h
      | none =>
          cases min with
          | zero => exact onNodes_sameNode.or ih.reaches
          | succ n => exact onNodes_steps_reaches ih n
  | oneOrMore p ih => exact ih.reaches
  | zeroOrMore p ih => exact onNodes_sameNode.or ih.reaches
  | zeroOrOne p ih => exact onNodes_sameNode.or ih

/-- Without different nodes of equal value exactly the connected pairs are found. -/
theorem Path.finds_eq_relates {triples : List Triple} (hvalues : DistinctValues triples)
    (p : Path) : p.Finds triples = p.Relates triples := by
  have hreaches : ∀ {p : Path}, p.Finds triples = p.Relates triples →
      Reaches (p.Finds triples) = TransGen (p.Relates triples) := fun {p} hp =>
    hp ▸ reaches_eq_transGen (p.isNode_of_finds triples) hvalues
  induction p with
  | predicate iri => rfl
  | inverse p ih => simp only [Finds, Relates, ih]
  | sequence p q ihp ihq => simp only [Finds, Relates, ihp, ihq]
  | alternative p q ihp ihq => simp only [Finds, Relates, ihp, ihq]
  | negatedSet members => rfl
  | repetition p min max ih =>
      cases max with
      | some max => simp only [Finds, Relates, ih]
      | none =>
          have hR : OnNodes triples (p.Relates triples) := p.isNode_of_relates
          cases min with
          | zero =>
              rw [Finds, Relates, hreaches ih, comp_power_zero (onNodes_sameNode.or hR.transGen)]
          | succ n => rw [Finds, Relates, comp_power_closure hR n, hreaches ih, ih]
  | oneOrMore p ih => exact hreaches ih
  | zeroOrMore p ih => rw [Finds, Relates, hreaches ih]
  | zeroOrOne p ih => simp only [Finds, Relates, ih]

theorem DrawsPairs.unbounded (hpp : pp.ForStore graph) (h : DrawsPairs src graph path R)
    (hR : OnNodes (src.activeTriples graph) R) (n : Nat) :
    DrawsPairs src graph (pp.unbounded path (n + 1)) (Comp (Steps R n) (Reaches R)) := by
  have hmore := h.oneOrMore hpp hR
  cases n with
  | zero => exact hmore.congr rfl Relation.eq_comp
  | succ steps =>
      refine ((h.afterCopies hpp hmore (steps + 1)).distinct pp).congr ?_ rfl
      simp only [bind_assoc]
      rfl

/-- The plan of a path draws the pairs that it finds. -/
theorem Path.drawsFound (hpp : pp.ForStore graph) (p : Path) :
    DrawsPairs src graph (p.draw pp) (p.Finds (src.activeTriples graph)) := by
  induction p with
  | predicate iri => exact drawsPairs_triple hpp iri
  | inverse p ih => exact ih.converse
  | sequence p q ihp ihq => exact ihp.sequence hpp ihq
  | alternative p q ihp ihq => exact ihp.alternative hpp ihq
  | negatedSet members => exact drawsPairs_negatedSet hpp members
  | repetition p min max ih =>
      cases max with
      | some max => exact ih.bounded hpp (p.isNode_of_finds _) min max
      | none =>
          cases min with
          | zero => exact (ih.oneOrMore hpp (p.isNode_of_finds _)).withZero hpp
          | succ n => exact ih.unbounded hpp (p.isNode_of_finds _) n
  | oneOrMore p ih => exact ih.oneOrMore hpp (p.isNode_of_finds _)
  | zeroOrMore p ih => exact (ih.oneOrMore hpp (p.isNode_of_finds _)).withZero hpp
  | zeroOrOne p ih => exact ih.withZero hpp

/-- The plan of a path draws the pairs that the path connects. -/
theorem Path.drawsPairs (hpp : pp.ForStore graph)
    (hvalues : DistinctValues (src.activeTriples graph)) (p : Path) :
    DrawsPairs src graph (p.draw pp) (p.Relates (src.activeTriples graph)) :=
  p.finds_eq_relates hvalues ▸ p.drawsFound hpp

/-! ## Plans without nested plans -/

/-- A graph without nested plans is the same under all limits. -/
theorem Plan.opened_eq {G : Graph Plan} (h : ∀ id op, G.operator? id = some op → op.nested = [])
    (src : Source) (m n : Nat) : opened ⟨G⟩ src m = opened ⟨G⟩ src n := by
  have hslots : ∀ slot ∈ G.slots, ∀ node, slot = some node → node.operator.nested = [] := by
    rintro _ hslot node rfl
    obtain ⟨id, hid⟩ := List.getElem?_of_mem hslot
    refine h id node.operator ?_
    simp [Graph.operator?, Graph.node?, hid]
  refine congrArg Graph.mk (List.map_congr_left fun slot hslot => ?_)
  cases slot with
  | none => rfl
  | some node => simp [hslots _ hslot node rfl]

namespace Placed

variable {late : Prop} {outs : List OperatorId} {sets : List SolutionSet}
  (h : Placed src late untouched d d' outs sets) (hd : d.graph = .empty)

include h hd

theorem operator?_of_empty {id : OperatorId} (hid : id ∈ d'.graph.ids) :
    ∃ op, d'.graph.operator? id = some op ∧ op.IsPlain src := by
  have hsize : d.size = 1 := by rw [Draft.size, hd]; rfl
  rcases Nat.eq_zero_or_pos id with rfl | hpos
  · exact ⟨.root, h.ext.sound.root, by decide, rfl, fun _ _ _ => ⟨_, Operator.emit_root⟩⟩
  · exact h.plain id (hsize ▸ hpos) (h.ext.sound.tidy.mem_ids.1 hid)

theorem nested_of_empty (id : OperatorId) (op : Operator Plan)
    (hop : d'.graph.operator? id = some op) : op.nested = [] := by
  obtain ⟨op', hop', hplain⟩ := h.operator?_of_empty hd (Graph.mem_ids_of_operator? hop)
  obtain rfl := Option.some.inj (hop.symm.trans hop')
  exact hplain.nested

theorem results_of_empty (limit : Nat) : (Plan.opened ⟨d'.graph⟩ src limit).results = [] := by
  refine List.eq_nil_iff_forall_not_mem.2 fun id hid => ?_
  have hids := mem_ids_of_mem_results hid
  obtain ⟨op, hop, hplain⟩ := h.operator?_of_empty hd hids
  exact hplain.kind ((mem_results_opened hids hop).1 hid)

/-- What has been drawn into an empty graph evaluates under every limit that is not too low, and
operators end with all the solutions that they settle at. -/
theorem evaluates : ∃ enough, ∀ limit ≥ enough, ∃ (e : Evaluation) (a : Assignment) (n : Nat),
    Plan.evaluate src limit ⟨d'.graph⟩ = .ok e ∧
      (Plan.opened ⟨d'.graph⟩ src limit).finalRows src limit = .ok (a, n) ∧
      List.Forall₂ (fun out S => ∀ row, row ∈ a.rows out ↔ ∃ r, S r ∧ Row.solution r = row)
        outs sets := by
  have hsize : d.size = 1 := by rw [Draft.size, hd]; rfl
  have htidy := h.ext.sound.tidy
  have htame : (Plan.opened ⟨d'.graph⟩ src 0).Tame src := tame_opened fun id hid => by
    obtain ⟨op, hop, hplain⟩ := h.operator?_of_empty hd hid
    exact ⟨op, hop, hplain.tame 0⟩
  obtain ⟨order, horder⟩ := Graph.topologicalOrder_of_ranked (htidy.opened src 0)
    ((h.ranked (hd ▸ ranked_empty)).mapNested _)
  have htop := Graph.topologicalOrder_spec horder
  have hscene := scene_stage htidy h.ext.sound.root htame htop
  have hagrees := Graph.Agrees.refl d'.graph d.size d'.size
  obtain ⟨last, hlast⟩ := Graph.rounds_of_steady htame htop fun id hid i hi hf => by
    rw [Graph.ids_opened] at hid
    rw [Graph.inputs_opened] at hi
    have hpos : d.size ≤ id := by
      rw [hsize]
      refine Nat.pos_of_ne_zero fun he => ?_
      rw [he] at hi
      exact absurd (h.ext.sound.inputs_root ▸ hi) List.not_mem_nil
    obtain ⟨hloop, start, -, hstart⟩ := h.rests 0 _ _ hscene hagrees id hpos
      (htidy.mem_ids.1 hid) i hi hf
    exact ⟨hloop, Filter.eventually_atTop.2 ⟨start, hstart⟩⟩
  refine ⟨last + 1, fun limit hlimit => ?_⟩
  obtain ⟨n, hrounds, hstable⟩ := hlast limit hlimit
  have hfinal : (Plan.opened ⟨d'.graph⟩ src limit).finalRows src limit =
      .ok ((Plan.opened ⟨d'.graph⟩ src 0).stage src order (last + 1), n) := by
    rw [Plan.opened_eq (h.nested_of_empty hd) src limit 0, Graph.finalRows, horder]
    exact hrounds
  refine ⟨⟨none, [], [], [], [], n + 1⟩, _, n, ?_, hfinal, ?_⟩
  · rw [Plan.evaluate_eq, Graph.evaluate_eq, hfinal]
    change Graph.collect _ _ _ = _
    rw [Graph.collect, h.results_of_empty hd]
    rfl
  · refine (h.settles 0 _ _ hscene hagrees).imp fun out S hS row => ?_
    rw [(Graph.stage_ofSolutions htame htop (last + 1)).rows_eq, List.mem_map]
    refine exists_congr fun r => and_congr_left fun _ => ⟨hS.1 (last + 1) r, fun hr => ?_⟩
    obtain ⟨start, -, hstart⟩ := hS.2 r hr
    rw [← hstable (max start last + 1) (by omega)]
    exact hstart (max start last) (Nat.le_max_left _ _)

end Placed

/-! ## Evaluation of paths -/

/-- An item that a path may be drawn from or to: a variable that is never handed out, or a node. -/
def Item.IsEndpoint (triples : List Triple) : Item → Prop
  | .var v => v.isInterim = false
  | .term t => IsNode triples t

theorem Item.IsEndpoint.canEnd {triples : List Triple} {i : Item} (h : i.IsEndpoint triples)
    (n : Nat) : i.CanEnd triples n := by
  cases i with
  | var v => exact Variable.olderThan_of_not_isInterim h n
  | term t => exact h

/-- A solution of a path between two items binds the variables among the items to terms that the
path connects, and nothing else. -/
def Path.Matches (triples : List Triple) (p : Path) (s o : Item) (r : Solution) : Prop :=
  (∃ a b, r.resolve s = some a ∧ r.resolve o = some b ∧ p.Relates triples a b) ∧
    ∀ v, Item.var v ∉ [s, o] → r.get? v = none

theorem Path.matches_eq (triples : List Triple) (p : Path) (s o : Item) :
    p.Matches triples s o = Ends s o (p.Relates triples) := by
  funext r
  rw [Solution.ends_iff, Solution.on_eq_self_iff]
  rfl

/-- The plan of a path between two items evaluates under every limit that is not too low, and its
last operator ends with exactly the solutions of the path, if no two nodes are different terms of
equal value. -/
theorem Path.finalRows_draw (hpp : pp.ForStore graph)
    (hvalues : DistinctValues (src.activeTriples graph)) (p : Path)
    (hs : s.IsEndpoint (src.activeTriples graph)) (ho : o.IsEndpoint (src.activeTriples graph))
    (hd : d.graph = .empty) (hrun : (p.draw pp s o).runOn d = (.ok out, d')) :
    ∃ enough, ∀ limit ≥ enough, ∃ (e : Evaluation) (a : Assignment) (n : Nat),
      Plan.evaluate src limit ⟨d'.graph⟩ = .ok e ∧
        (Plan.opened ⟨d'.graph⟩ src limit).finalRows src limit = .ok (a, n) ∧
        ∀ row, row ∈ a.rows out ↔
          ∃ r, p.Matches (src.activeTriples graph) s o r ∧ Row.solution r = row := by
  have hplaced := p.drawsPairs hpp hvalues s o d d' out (sound_of_empty hd) (hs.canEnd _)
    (ho.canEnd _) hrun
  obtain ⟨enough, henough⟩ := hplaced.evaluates hd
  refine ⟨enough, fun limit hlimit => ?_⟩
  obtain ⟨e, a, n, heval, hfinal, hrows⟩ := henough limit hlimit
  refine ⟨e, a, n, heval, hfinal, ?_⟩
  rw [p.matches_eq]
  exact (List.forall₂_cons.1 hrows).1

/-- Two who know each other. -/
def acquainted : Source :=
  ⟨.ofList [⟨none, ⟨.iri "a", .iri "knows", .iri "b"⟩⟩, ⟨none, ⟨.iri "b", .iri "knows", .iri "a"⟩⟩],
    .empty⟩

/-- A planner of paths in the default graph of a store in memory. -/
def inMemory : PathPlanner :=
  ⟨.ofStore .empty, none⟩

/-- The plan of who is known directly or over others. -/
def knownPlan : Except Error OperatorId × Draft :=
  ((Path.oneOrMore (.iri "knows")).draw inMemory (.var ⟨"x"⟩) (.var ⟨"y"⟩)).runOn .empty

theorem finalRows_knownPlan : knownPlan.1 = .ok 3 ∧
    ∃ enough, ∀ limit ≥ enough, ∃ (e : Evaluation) (a : Assignment) (n : Nat),
      Plan.evaluate acquainted limit ⟨knownPlan.2.graph⟩ = .ok e ∧
        (Plan.opened ⟨knownPlan.2.graph⟩ acquainted limit).finalRows acquainted limit = .ok (a, n) ∧
        .solution (.pair ⟨"x"⟩ ⟨"y"⟩ (.iri "a") (.iri "a")) ∈ a.rows 3 := by
  have hout : knownPlan.1 = .ok 3 := by decide +kernel
  have hrun :
      ((Path.oneOrMore (.iri "knows")).draw inMemory (.var ⟨"x"⟩) (.var ⟨"y"⟩)).runOn .empty =
      (.ok 3, knownPlan.2) := Prod.ext hout rfl
  have hpp : inMemory.ForStore none := ⟨⟨_, _, rfl⟩, rfl⟩
  have hvalues : DistinctValues (acquainted.activeTriples none) := by
    have hnodes : ∀ a ∈ nodesOf (acquainted.activeTriples none),
        ∀ b ∈ nodesOf (acquainted.activeTriples none), a.equalValue b = true → a = b := by
      decide +kernel
    exact fun a b ha hb => hnodes a (mem_nodesOf.2 ha) b (mem_nodesOf.2 hb)
  have hs : Item.IsEndpoint (acquainted.activeTriples none) (.var ⟨"x"⟩) :=
    show Variable.isInterim ⟨"x"⟩ = false by decide +kernel
  have ho : Item.IsEndpoint (acquainted.activeTriples none) (.var ⟨"y"⟩) :=
    show Variable.isInterim ⟨"y"⟩ = false by decide +kernel
  obtain ⟨enough, henough⟩ := Path.finalRows_draw hpp hvalues _ hs ho rfl hrun
  refine ⟨hout, enough, fun limit hlimit => ?_⟩
  obtain ⟨e, a, n, heval, hfinal, hrows⟩ := henough limit hlimit
  refine ⟨e, a, n, heval, hfinal, (hrows _).2 ⟨_, ?_, rfl⟩⟩
  have hstep : ∀ t : Triple, t ∈ [⟨.iri "a", .iri "knows", .iri "b"⟩,
      (⟨.iri "b", .iri "knows", .iri "a"⟩ : Triple)] → t ∈ acquainted.activeTriples none := by
    decide +kernel
  rw [Path.matches_eq]
  refine (Solution.ends_pair (by decide)).2 (.tail (b := .iri "b") (.single ?_) ?_)
  · exact hstep _ List.mem_cons_self
  · exact hstep _ (List.mem_cons_of_mem _ List.mem_cons_self)

/-! ## Closures of paths -/

/-- Wherever what has been drawn into an empty graph evaluates, operators end with the solutions
that they settle at: under a limit that is not too low they do, and a higher limit changes
nothing. -/
theorem Placed.rows_of_evaluate {S : SolutionSet} (h : Placed src True untouched d d' [out] [S])
    (hd : d.graph = .empty) {limit : Nat} {e : Evaluation}
    (heval : Plan.evaluate src limit ⟨d'.graph⟩ = .ok e) :
    ∃ (a : Assignment) (n : Nat),
      (Plan.opened ⟨d'.graph⟩ src limit).finalRows src limit = .ok (a, n) ∧
      ∀ row, row ∈ a.rows out ↔ ∃ r, S r ∧ Row.solution r = row := by
  rw [Plan.evaluate_eq] at heval
  obtain ⟨a, n, hfinal, -⟩ := Graph.evaluate_eq_ok heval
  obtain ⟨enough, henough⟩ := h.evaluates hd
  obtain ⟨-, b, m, -, hlater, hrows⟩ := henough (max limit enough) (Nat.le_max_right _ _)
  have hsame := Graph.finalRows_le hfinal (Nat.le_max_left limit enough)
  rw [Plan.opened_eq (h.nested_of_empty hd) src limit (max limit enough), hlater] at hsame
  obtain ⟨rfl, rfl⟩ := Prod.mk.inj (Except.ok.inj hsame)
  exact ⟨_, _, hfinal, (List.forall₂_cons.1 hrows).1⟩

/-- Wherever the plans of a path and of its closure between two variables both evaluate, the second
one ends with the pairs that can be reached in the rows of the first one by extending pairs of terms
with different values, whatever terms are stored. -/
theorem Path.rows_oneOrMore (hpp : pp.ForStore graph) (p : Path) {s o : Variable}
    (hs : s.isInterim = false) (ho : o.isInterim = false) (hso : s ≠ o)
    {e e' : Draft} {more : OperatorId} (hd : d.graph = .empty) (he : e.graph = .empty)
    (hrun : (p.draw pp (.var s) (.var o)).runOn d = (.ok out, d'))
    (hmore : ((Path.oneOrMore p).draw pp (.var s) (.var o)).runOn e = (.ok more, e'))
    {limit limit' : Nat} {ev ev' : Evaluation}
    (heval : Plan.evaluate src limit ⟨d'.graph⟩ = .ok ev)
    (heval' : Plan.evaluate src limit' ⟨e'.graph⟩ = .ok ev') :
    ∃ (a b : Assignment) (m n : Nat),
      (Plan.opened ⟨d'.graph⟩ src limit).finalRows src limit = .ok (a, m) ∧
      (Plan.opened ⟨e'.graph⟩ src limit').finalRows src limit' = .ok (b, n) ∧
      ∀ row, row ∈ b.rows more ↔
        ∃ x y, Reaches (fun x y => Row.solution (.pair s o x y) ∈ a.rows out) x y ∧
          Row.solution (.pair s o x y) = row := by
  have hs' := Variable.olderThan_of_not_isInterim hs
  have ho' := Variable.olderThan_of_not_isInterim ho
  obtain ⟨a, m, hfinal, hrows⟩ := (p.drawsFound hpp (.var s) (.var o) d d' out
    (sound_of_empty hd) (hs' _) (ho' _) hrun).rows_of_evaluate hd heval
  obtain ⟨b, n, hfinal', hrows'⟩ := (Path.drawsFound hpp (.oneOrMore p) (.var s) (.var o) e e' more
    (sound_of_empty he) (hs' _) (ho' _) hmore).rows_of_evaluate he heval'
  have hfinds : (fun x y => Row.solution (.pair s o x y) ∈ a.rows out) =
      p.Finds (src.activeTriples graph) := by
    funext x y
    rw [hrows]
    simp only [Row.solution.injEq, exists_eq_right, Solution.ends_pair hso]
  refine ⟨a, b, m, n, hfinal, hfinal', fun row => ?_⟩
  rw [hfinds, hrows']
  simp only [Finds, Solution.ends_pair_iff hso]
  constructor
  · rintro ⟨_, ⟨x, y, hxy, rfl⟩, rfl⟩
    exact ⟨x, y, hxy, rfl⟩
  · rintro ⟨x, y, hxy, rfl⟩
    exact ⟨_, ⟨x, y, hxy, rfl⟩, rfl⟩

/-- The plan of who is known directly. -/
def acquaintedPlan : Except Error OperatorId × Draft :=
  ((Path.predicate (.iri "knows")).draw inMemory (.var ⟨"x"⟩) (.var ⟨"y"⟩)).runOn .empty

theorem rows_knownPlan : acquaintedPlan.1 = .ok 1 ∧ knownPlan.1 = .ok 3 ∧
    ∃ (limit : Nat) (a b : Assignment) (m n : Nat),
      (Plan.opened ⟨acquaintedPlan.2.graph⟩ acquainted limit).finalRows acquainted limit =
        .ok (a, m) ∧
      (Plan.opened ⟨knownPlan.2.graph⟩ acquainted limit).finalRows acquainted limit = .ok (b, n) ∧
      ∀ row, row ∈ b.rows 3 ↔
        ∃ x y, Reaches (fun x y => Row.solution (.pair ⟨"x"⟩ ⟨"y"⟩ x y) ∈ a.rows 1) x y ∧
          Row.solution (.pair ⟨"x"⟩ ⟨"y"⟩ x y) = row := by
  have hout : acquaintedPlan.1 = .ok 1 := by decide +kernel
  have hmore : knownPlan.1 = .ok 3 := by decide +kernel
  have hpp : inMemory.ForStore none := ⟨⟨_, _, rfl⟩, rfl⟩
  have hx : Variable.isInterim ⟨"x"⟩ = false := by decide +kernel
  have hy : Variable.isInterim ⟨"y"⟩ = false := by decide +kernel
  have hrun : ((Path.predicate (.iri "knows")).draw
      inMemory (.var ⟨"x"⟩) (.var ⟨"y"⟩)).runOn .empty =
      (.ok 1, acquaintedPlan.2) := Prod.ext hout rfl
  have hrun' :
      ((Path.oneOrMore (.iri "knows")).draw inMemory (.var ⟨"x"⟩) (.var ⟨"y"⟩)).runOn .empty =
      (.ok 3, knownPlan.2) := Prod.ext hmore rfl
  -- both plans evaluate under the same limit
  have hplaced : ∀ {p : Path} {out : OperatorId} {d' : Draft},
      (p.draw inMemory (.var ⟨"x"⟩) (.var ⟨"y"⟩)).runOn .empty = (.ok out, d') →
        ∃ enough, ∀ limit ≥ enough, ∃ ev, Plan.evaluate acquainted limit ⟨d'.graph⟩ = .ok ev :=
    fun {p} {out} {d'} hrun => by
      obtain ⟨enough, henough⟩ := (p.drawsFound hpp (.var ⟨"x"⟩) (.var ⟨"y"⟩) .empty d' out
        (sound_of_empty rfl) (Variable.olderThan_of_not_isInterim hx _)
        (Variable.olderThan_of_not_isInterim hy _) hrun).evaluates rfl
      refine ⟨enough, fun limit hlimit => ?_⟩
      obtain ⟨ev, -, -, hev, -⟩ := henough limit hlimit
      exact ⟨ev, hev⟩
  obtain ⟨enough, henough⟩ := hplaced hrun
  obtain ⟨enough', henough'⟩ := hplaced hrun'
  obtain ⟨ev, heval⟩ := henough _ (Nat.le_max_left enough enough')
  obtain ⟨ev', heval'⟩ := henough' _ (Nat.le_max_right enough enough')
  have hrows := Path.rows_oneOrMore hpp (.predicate (.iri "knows")) hx hy (by decide) rfl rfl hrun
    hrun' heval heval'
  exact ⟨hout, hmore, _, hrows⟩

end QuadAlgebra
