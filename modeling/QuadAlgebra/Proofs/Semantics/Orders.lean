import QuadAlgebra.Proofs.Plan.Analyses
import QuadAlgebra.Proofs.Optimization.Disabled

/-!
# The order of evaluation

In a round every operator reads forward what its producers have emitted in the same round, so its
rows are determined by the graph and by the round before, whichever order has put the producers
first. A timetable chooses such an order for every round over every graph. Two timetables give every
operator the same rows, as lists, in every round (`Graph.Alike.after`), so their evaluations end
after the same round and with the same outcome (`Graph.Alike.evaluateIn`). The plans nested in
filters are evaluated under the timetable too, so for plans this is an induction on how deep they
are nested (`Plan.evaluation_order_irrelevant`).

Only the error that is reported depends on the order, when several operators fail in one round.
What is compared is therefore what succeeds: outcomes without the kind of their errors.
-/

namespace QuadAlgebra

/-! ## Timetables -/

/-- An order of the operators for every round over every graph that has one. -/
structure Timetable where
  order : Graph Outcome → Nat → List OperatorId
  topological : ∀ g : Graph Outcome, g.Acyclic → ∀ n, g.IsTopological (order g n)

namespace Assignment

/-- Whether two assignments give every operator the same rows, in whatever order they list the
operators. -/
def repeats (current previous : Assignment) : Bool :=
  (current ++ previous).all fun e => current.lookup e.1 == previous.lookup e.1

/-- Two assignments repeat each other if they look up alike. -/
theorem repeats_iff {a b : Assignment} :
    a.repeats b = true ↔ ∀ id, a.lookup id = b.lookup id := by
  rw [repeats, List.all_eq_true]
  constructor
  · intro h id
    by_cases hid : ∃ e ∈ a ++ b, e.1 = id
    · obtain ⟨e, he, rfl⟩ := hid
      exact beq_iff_eq.1 (h e he)
    · have hnone (l : Assignment) (hl : ∀ e ∈ l, e ∈ a ++ b) : l.lookup id = none :=
        List.lookup_eq_none_iff.2 fun e he =>
          bne_iff_ne.2 fun hne => hid ⟨e, hl e he, hne.symm⟩
      rw [hnone a fun e he => List.mem_append_left _ he,
        hnone b fun e he => List.mem_append_right _ he]
  · exact fun h e _ => beq_iff_eq.2 (h e.1)

/-- Assignments look up alike if they have the same operators and the same rows. -/
theorem lookup_congr {a b : Assignment} {id : OperatorId}
    (hassigned : (a.lookup id).isSome = true ↔ (b.lookup id).isSome = true)
    (hrows : a.rows id = b.rows id) : a.lookup id = b.lookup id := by
  unfold rows at hrows
  cases ha : a.lookup id <;> cases hb : b.lookup id <;> simp_all

end Assignment

namespace Graph

/-- The rows after a number of rounds, each in an order of its own. -/
def after (g : Graph Outcome) (src : Source) (order : Nat → List OperatorId) :
    Nat → Except Error Assignment
  | 0 => .ok []
  | n + 1 => do g.round src g.loopMembers (order n) (← g.after src order n)

/-- Rounds, each in an order of its own, until one changes nothing. -/
def roundsIn (g : Graph Outcome) (src : Source) (looped : List OperatorId)
    (order : Nat → List OperatorId) (limit : Nat) :
    Nat → Nat → Assignment → Except Error (Assignment × Nat)
  | 0, _, _ => .error (.internal (.unconverged limit))
  | left + 1, before, previous => do
    let current ← g.round src looped (order before) previous
    if looped.isEmpty || current.repeats previous then return (current, before)
    else g.roundsIn src looped order limit left (before + 1) current

/-- The evaluation of a graph whose nested plans have been evaluated, with an order for every
round. -/
def evaluateIn (src : Source) (limit : Nat) (order : Nat → List OperatorId) (g : Graph Outcome) :
    Outcome := do
  g.detectCycles
  let (rows, before) ← g.roundsIn src g.loopMembers order limit limit 0 []
  g.collect rows (before + 1)

end Graph

/-- The evaluation of a plan, and of the plans nested in it, under a timetable. -/
def Plan.evaluateIn (s : Timetable) (src : Source) (limit : Nat) (p : Plan) : Outcome :=
  p.fold fun g => g.evaluateIn src limit (s.order g)

/-- The graph of a plan with what its nested plans evaluate to under a timetable. -/
def Plan.openedIn (s : Timetable) (src : Source) (limit : Nat) (p : Plan) : Graph Outcome :=
  p.graph.mapNested (·.evaluateIn s src limit)

namespace Graph

section Shape

variable {γ δ : Type}

/-! ## Graphs that differ in how their nested plans fail -/

theorem forward_mapNested (f : γ → δ) (g : Graph γ) : (g.mapNested f).forward = g.forward := by
  funext id
  simp only [forward, succeeding_mapNested, contains_mapNested]

theorem consumers_mapNested (f : γ → δ) (g : Graph γ) :
    (g.mapNested f).consumers = g.consumers := by
  funext id
  simp only [consumers, succeeding_mapNested, funext (contains_mapNested f g)]

theorem loopMembers_mapNested (f : γ → δ) (g : Graph γ) :
    (g.mapNested f).loopMembers = g.loopMembers := by
  simp only [loopMembers, walkFrom, consumers_mapNested, ids_mapNested, length_mapNested]

theorem acyclic_mapNested (f : γ → δ) (g : Graph γ) : (g.mapNested f).Acyclic ↔ g.Acyclic := by
  simp only [Acyclic, Precedes, forward_mapNested]

theorem detectCycles_mapNested (f : γ → δ) (g : Graph γ) :
    (g.mapNested f).detectCycles = g.detectCycles := by
  rw [detectCycles, detectCycles, topologicalOrder_mapNested]

theorem operator?_mapNested_eq_result (f : γ → δ) (g : Graph γ) {id : OperatorId}
    {form : ResultForm} : (g.mapNested f).operator? id = some (.result form) ↔
      g.operator? id = some (.result form) := by
  rw [operator?_mapNested]
  cases g.operator? id with
  | none => simp
  | some op => cases op <;> simp [Operator.withNested]

end Shape

/-- Two graphs that are the same but for the errors of nested plans. -/
structure Alike (g g' : Graph Outcome) : Prop where
  shape : (g.mapNested fun _ => ()) = g'.mapNested fun _ => ()
  respond : ∀ src operands id rows,
    g.respond src operands id = .ok rows ↔ g'.respond src operands id = .ok rows

namespace Alike

variable {g g' : Graph Outcome} {src : Source} (h : g.Alike g')

include h

/-- To be alike is symmetric. -/
theorem symm : g'.Alike g :=
  ⟨h.shape.symm, fun src operands id rows => (h.respond src operands id rows).symm⟩

theorem ids : g.ids = g'.ids := by
  rw [← ids_mapNested (fun _ => ()) g, h.shape, ids_mapNested]

theorem inputs (id : OperatorId) : g.inputs id = g'.inputs id := by
  rw [← inputs_mapNested (fun _ => ()) g, h.shape, inputs_mapNested]

/-- Graphs that are alike have the same loops. -/
theorem loopMembers : g.loopMembers = g'.loopMembers := by
  rw [← loopMembers_mapNested (fun _ => ()) g, h.shape, loopMembers_mapNested]

/-- Graphs that are alike are acyclic together. -/
theorem acyclic : g.Acyclic ↔ g'.Acyclic := by
  rw [← acyclic_mapNested (fun _ => ()) g, h.shape, acyclic_mapNested]

theorem detectCycles : g.detectCycles = g'.detectCycles := by
  rw [← detectCycles_mapNested (fun _ => ()) g, h.shape, detectCycles_mapNested]

theorem results : g.results = g'.results := by
  rw [← results_mapNested (fun _ => ()) g, h.shape, results_mapNested]

theorem operator?_eq_result {id : OperatorId} {form : ResultForm} :
    g.operator? id = some (.result form) ↔ g'.operator? id = some (.result form) := by
  rw [← operator?_mapNested_eq_result (fun _ => ()) g, h.shape, operator?_mapNested_eq_result]

/-- The same rows are delivered in graphs that are alike. -/
theorem deliver (read : Input → List Row) (id : OperatorId) :
    g.deliver read id = g'.deliver read id := by
  simp only [Graph.deliver, operandGroups, h.inputs]

end Alike

end Graph

/-! ## What nested plans contribute -/

/-- The solutions that a condition reads depend on the nested plans that succeed. -/
theorem nestedSolutions_congr {nested nested' : List (Nat × Except Error (List Solution))}
    (h : ∀ k, (nested.lookup k).bind Except.toOption = (nested'.lookup k).bind Except.toOption)
    {k : Nat} {patterns : List Group} {found : List (List Solution)}
    (hfound : nestedSolutions nested k patterns = .ok found) :
    nestedSolutions nested' k patterns = .ok found := by
  obtain ⟨hlength, hlookup⟩ := nestedSolutions_eq_ok hfound
  refine nestedSolutions_eq k hlength fun i hi => ?_
  have hki := h (k + i)
  rw [hlookup i found[i] (List.getElem?_eq_getElem hi)] at hki
  cases ho : nested'.lookup (k + i) with
  | none => simp [ho, Except.toOption] at hki
  | some outcome =>
      cases outcome with
      | error e => simp [ho, Except.toOption] at hki
      | ok rows => simp_all [Except.toOption]

/-- An operator that emits rows emits the same ones if its nested plans fail in other ways. -/
theorem Operator.emit_withNested_congr {γ : Type} (op : Operator γ) {src : Source}
    {id : OperatorId} {operands : Operands} {rows : List Row}
    {nested nested' : List (Nat × Except Error (List Solution))}
    (h : ∀ k, (nested.lookup k).bind Except.toOption = (nested'.lookup k).bind Except.toOption)
    (hemit : (op.withNested nested).emit src id operands = .ok rows) :
    (op.withNested nested').emit src id operands = .ok rows := by
  cases op with
  | filter f =>
      simp only [Operator.withNested, Operator.emit] at hemit ⊢
      cases hsolutions : expectSolutions id operands.rows with
      | error e => simp [hsolutions, Bind.bind, Except.bind] at hemit
      | ok solutions =>
          cases hfound : nestedSolutions nested 0 f.condition.existencePatterns with
          | error e => simp [hsolutions, hfound, Bind.bind, Except.bind] at hemit
          | ok found =>
              simpa [hsolutions, hfound, nestedSolutions_congr h hfound, Bind.bind, Except.bind]
                using hemit
  | _ => exact hemit

theorem lookup_map_toOption {γ : Type} {f f' : γ → Except Error Evaluation}
    (nested : List (Nat × γ)) (h : ∀ e ∈ nested, (f e.2).toOption = (f' e.2).toOption) (k : Nat) :
    ((nested.map fun e => (e.1, (f e.2).map Evaluation.solutions)).lookup k).bind Except.toOption =
      ((nested.map fun e => (e.1, (f' e.2).map Evaluation.solutions)).lookup k).bind
        Except.toOption := by
  induction nested with
  | nil => rfl
  | cons e rest ih =>
      obtain ⟨he, hrest⟩ := List.forall_mem_cons.1 h
      simp only [List.map_cons, List.lookup_cons]
      cases k == e.1 with
      | false => exact ih hrest
      | true =>
          have hmap (x : Except Error Evaluation) :
              (x.map Evaluation.solutions).toOption = x.toOption.map Evaluation.solutions := by
            cases x <;> rfl
          simp only [Option.bind_some, hmap, he]

namespace Graph

/-- Two evaluations of the nested plans that succeed alike make graphs that are alike. -/
theorem Alike.mapNested {γ : Type} {g : Graph γ} {f f' : γ → Outcome}
    (h : ∀ id op, g.operator? id = some op → ∀ e ∈ op.nested,
      (f e.2).toOption = (f' e.2).toOption) : (g.mapNested f).Alike (g.mapNested f') := by
  have hrespond {f f' : γ → Outcome} (h : ∀ id op, g.operator? id = some op → ∀ e ∈ op.nested,
      (f e.2).toOption = (f' e.2).toOption) {src operands id rows}
      (hrows : (g.mapNested f).respond src operands id = .ok rows) :
      (g.mapNested f').respond src operands id = .ok rows := by
    simp only [Graph.respond, operator, operator?_mapNested] at hrows ⊢
    cases hop : g.operator? id with
    | none => simp [hop, bind, Except.bind] at hrows
    | some op =>
        simp only [hop, Option.map_some, bind, Except.bind, Operator.withNested_withNested,
          Operator.nested_withNested_map, List.map_map] at hrows ⊢
        exact op.emit_withNested_congr (lookup_map_toOption op.nested (h id op hop)) hrows
  refine ⟨?_, fun src operands id rows => ⟨hrespond h, hrespond fun id op hop e he =>
    (h id op hop e he).symm⟩⟩
  rw [mapNested_mapNested (k := fun _ => ()) fun _ _ _ _ _ => rfl,
    mapNested_mapNested (k := fun _ => ()) fun _ _ _ _ _ => rfl]

/-! ## Rounds in different orders -/

section Rounds

variable {g g' : Graph Outcome} {src : Source} {looped : List OperatorId}

/-- In a round an operator reads what was emitted in the round, and over feedback edges what was
emitted in the round before. -/
theorem operandRows_eq_deliver (previous current : Assignment) (id : OperatorId) :
    g.operandRows previous current id = g.deliver
      (fun i => if i.feedback then previous.rows i.source else current.rows i.source) id := by
  rw [operandRows_eq]
  refine deliver_congr fun i _ => ?_
  cases i.feedback <;> rfl

/-- Of two rounds over graphs that are alike, the one succeeds if the other does, and gives every
operator the same rows. -/
theorem Alike.round (h : g.Alike g') {order order' : List OperatorId}
    (horder : g.IsTopological order) (horder' : g'.IsTopological order')
    {previous previous' current : Assignment}
    (hprevious : ∀ id, previous.lookup id = previous'.lookup id)
    (hround : g.round src looped order previous = .ok current) :
    ∃ current', g'.round src looped order' previous' = .ok current' ∧
      ∀ id, current.lookup id = current'.lookup id := by
  obtain ⟨hassigned, hemit⟩ := round_spec horder hround
  have hround' : g'.round src looped order' previous' =
      .ok (order'.reverse.map fun id => (id, current.rows id)) := by
    refine round_eq_ok horder' fun id hid => ?_
    obtain ⟨emitted, hrespond, hrows⟩ := emitAt_eq_ok_iff.1 (hemit id (h.ids ▸ hid))
    refine ⟨emitted, ?_, hrows⟩
    have hread : previous.rows = previous'.rows :=
      funext fun x => congrArg (Option.getD · []) (hprevious x)
    rw [operandRows_eq_deliver, h.deliver, hread] at hrespond
    exact (h.respond src _ id emitted).1 hrespond
  refine ⟨_, hround', fun id => ?_⟩
  obtain ⟨hassigned', -⟩ := round_spec horder' hround'
  by_cases hid : id ∈ g.ids
  · refine Assignment.lookup_congr ?_ ?_
    · rw [hassigned, hassigned', h.ids]
    · exact (rows_map current.rows
        (List.mem_reverse.2 ((horder'.mem_iff id).2 (h.ids ▸ hid)))).symm
  · rw [Option.not_isSome_iff_eq_none.1 fun hs => hid ((hassigned id).1 hs),
      Option.not_isSome_iff_eq_none.1 fun hs => hid (h.ids ▸ (hassigned' id).1 hs)]

variable {order order' : Nat → List OperatorId}

/-- After every round, every operator has the same rows. -/
theorem Alike.after (h : g.Alike g') (horder : ∀ n, g.IsTopological (order n))
    (horder' : ∀ n, g'.IsTopological (order' n)) {n : Nat} {rows : Assignment}
    (hrows : g.after src order n = .ok rows) : ∃ rows', g'.after src order' n = .ok rows' ∧
      ∀ id, rows.lookup id = rows'.lookup id := by
  induction n generalizing rows with
  | zero =>
      obtain rfl := Except.ok.inj hrows
      exact ⟨[], rfl, fun _ => rfl⟩
  | succ n ih =>
      rw [Graph.after] at hrows ⊢
      cases hprevious : g.after src order n with
      | error e => simp [hprevious, bind, Except.bind] at hrows
      | ok previous =>
          obtain ⟨previous', hprevious', hsame⟩ := ih hprevious
          simp only [hprevious, hprevious', bind, Except.bind] at hrows ⊢
          rw [← h.loopMembers]
          exact h.round (horder n) (horder' n) hsame hrows

/-- The rounds end with the same rows, after the same number of rounds. -/
theorem Alike.roundsIn (h : g.Alike g') (horder : ∀ n, g.IsTopological (order n))
    (horder' : ∀ n, g'.IsTopological (order' n)) {limit left before n : Nat}
    {previous previous' last : Assignment}
    (hprevious : ∀ id, previous.lookup id = previous'.lookup id)
    (hlast : g.roundsIn src looped order limit left before previous = .ok (last, n)) :
    ∃ last', g'.roundsIn src looped order' limit left before previous' = .ok (last', n) ∧
      ∀ id, last.lookup id = last'.lookup id := by
  induction left generalizing before previous previous' with
  | zero => cases hlast
  | succ left ih =>
      rw [Graph.roundsIn] at hlast
      cases hround : g.round src looped (order before) previous with
      | error e => simp [hround, bind, Except.bind] at hlast
      | ok current =>
          obtain ⟨current', hround', hsame⟩ :=
            h.round (horder before) (horder' before) hprevious hround
          have hrepeats : current.repeats previous = current'.repeats previous' := by
            rw [Bool.eq_iff_iff, Assignment.repeats_iff, Assignment.repeats_iff]
            simp only [hsame, hprevious]
          simp only [hround, bind, Except.bind, pure, Except.pure] at hlast
          simp only [Graph.roundsIn, hround', bind, Except.bind, pure, Except.pure, ← hrepeats]
          split at hlast
          · next hstop =>
            obtain ⟨rfl, rfl⟩ := Prod.mk.inj (Except.ok.inj hlast)
            exact ⟨current', if_pos hstop, hsame⟩
          · next hgo =>
            rw [if_neg hgo]
            exact ih hsame hlast

/-- What is collected depends on the rows of the results. -/
theorem Alike.collect (h : g.Alike g') {rows rows' : Assignment}
    (hrows : ∀ id, rows.lookup id = rows'.lookup id) (n : Nat) :
    g.collect rows n = g'.collect rows' n := by
  unfold Graph.collect
  rw [h.results]
  congr 1
  funext e id
  by_cases hid : ∃ form, g.operator? id = some (.result form)
  · obtain ⟨form, hform⟩ := hid
    rw [hform, h.operator?_eq_result.1 hform, hrows]
  · have hid' : ¬ ∃ form, g'.operator? id = some (.result form) := fun ⟨form, hform⟩ =>
      hid ⟨form, h.operator?_eq_result.2 hform⟩
    split
    · next form hform => exact absurd ⟨form, hform⟩ hid
    · split
      · next form hform => exact absurd ⟨form, hform⟩ hid'
      · rfl

/-- Graphs that are alike are evaluated alike, whatever the timetables. -/
theorem Alike.evaluateIn (h : g.Alike g') (s s' : Timetable) (limit : Nat) :
    (g.evaluateIn src limit (s.order g)).toOption =
      (g'.evaluateIn src limit (s'.order g')).toOption := by
  have hone {g g' : Graph Outcome} (h : g.Alike g') (s s' : Timetable) {e : Evaluation}
      (he : g.evaluateIn src limit (s.order g) = .ok e) :
      g'.evaluateIn src limit (s'.order g') = .ok e := by
    rw [Graph.evaluateIn] at he ⊢
    cases hcycles : g.detectCycles with
    | error error => simp [hcycles, bind, Except.bind] at he
    | ok =>
        have hacyclic : g.Acyclic := detectCycles_eq_ok_iff.1 hcycles
        have hacyclic' : g'.Acyclic := h.acyclic.1 hacyclic
        cases hlast : g.roundsIn src g.loopMembers (s.order g) limit limit 0 [] with
        | error error => simp [hcycles, hlast, bind, Except.bind] at he
        | ok last =>
            obtain ⟨last', hlast', hsame⟩ := h.roundsIn (s.topological g hacyclic)
              (s'.topological g' hacyclic') (fun _ => rfl) hlast
            simp only [hcycles, hlast, bind, Except.bind] at he
            simp only [← h.detectCycles, hcycles, ← h.loopMembers, hlast', bind, Except.bind]
            rw [← h.collect hsame]
            exact he
  cases he : g.evaluateIn src limit (s.order g) with
  | ok e => rw [hone h s s' he]
  | error error =>
      cases he' : g'.evaluateIn src limit (s'.order g') with
      | ok e => cases he.symm.trans (hone h.symm s' s he')
      | error error' => rfl

end Rounds

/-! ## The order that is used -/

section Fixed

variable {g : Graph Outcome} {src : Source} {looped order : List OperatorId}
  {previous current : Assignment}

/-- Between rounds in the same order, two assignments are the same when all rows are. -/
theorem repeats_eq_beq (horder : g.IsTopological order)
    (hprevious : previous = [] ∨ ∃ earlier, g.round src looped order earlier = .ok previous)
    (h : g.round src looped order previous = .ok current) :
    current.repeats previous = (current == previous) := by
  rw [Bool.eq_iff_iff, Assignment.repeats_iff, beq_iff_eq]
  refine ⟨fun hsame => ?_, fun he id => by rw [he]⟩
  have hcurrent := round_eq_map horder h
  rcases hprevious with rfl | ⟨earlier, hearlier⟩
  · -- nothing has been evaluated before, and so there is nothing to evaluate
    have hnone : order = [] := List.eq_nil_iff_forall_not_mem.2 fun id hid => by
      have hsome := ((round_spec horder h).1 id).2 ((horder.mem_iff id).1 hid)
      rw [hsame id] at hsome
      cases hsome
    rw [hcurrent, hnone]
    rfl
  · rw [hcurrent, round_eq_map horder hearlier]
    refine List.map_congr_left fun id _ => Prod.ext rfl ?_
    exact congrArg (Option.getD · []) (hsame id)

/-- Rounds with one order throughout are the rounds of an evaluation. -/
theorem roundsIn_eq_rounds (horder : g.IsTopological order) (limit left before : Nat)
    (hprevious : previous = [] ∨ ∃ earlier, g.round src looped order earlier = .ok previous) :
    g.roundsIn src looped (fun _ => order) limit left before previous =
      g.rounds src looped order limit left before previous := by
  induction left generalizing before previous with
  | zero => rfl
  | succ left ih =>
      rw [roundsIn, rounds]
      cases hround : g.round src looped order previous with
      | error e => rfl
      | ok current =>
          simp only [bind, Except.bind, repeats_eq_beq horder hprevious hround,
            ih (before + 1) (.inr ⟨previous, hround⟩)]

end Fixed

end Graph

namespace Timetable

/-- The timetable that always takes the order that evaluation takes. -/
def standard : Timetable where
  order g _ := g.topologicalOrder.toOption.getD []
  topological g h _ := by
    obtain ⟨order, horder⟩ := Graph.exists_topologicalOrder_iff.2 h
    rw [horder]
    exact Graph.topologicalOrder_spec horder

/-- The timetable that walks from the operators in one direction and, in every other round, in the
opposite direction. -/
def alternating : Timetable where
  order g n := (g.walkFrom g.forward (if n % 2 = 0 then g.ids.reverse else g.ids)).left
  topological g h n := h.isTopological_walkFrom fun id => by
    split
    · exact List.mem_reverse
    · exact Iff.rfl

end Timetable

/-- An evaluation in the standard order is the evaluation. -/
theorem Graph.evaluateIn_standard (src : Source) (limit : Nat) (g : Graph Outcome) :
    g.evaluateIn src limit (Timetable.standard.order g) = g.evaluate src limit := by
  rw [evaluateIn, evaluate, detectCycles]
  cases horder : g.topologicalOrder with
  | error e => rfl
  | ok order =>
      have hstandard : Timetable.standard.order g = fun _ => order := by
        funext n
        simp only [Timetable.standard, horder]
        rfl
      simp only [hstandard, bind, Except.bind, pure, Except.pure,
        roundsIn_eq_rounds (topologicalOrder_spec horder) limit limit 0 (.inl rfl)]

namespace Plan

/-- What is nested in a plan is smaller. -/
theorem sizeOf_nested_lt {p : Plan} {id : OperatorId} {op : Operator Plan}
    (hop : p.graph.operator? id = some op) {e : Nat × Plan} (he : e ∈ op.nested) :
    sizeOf e.2 < sizeOf p := by
  obtain ⟨⟨slots⟩⟩ := p
  obtain ⟨n, hn, rfl⟩ := Option.map_eq_some_iff.1 hop
  have hslot : some n ∈ slots := List.mem_of_getElem? (Option.join_eq_some_iff.1 hn)
  have hsizes : sizeOf (some n) < sizeOf slots := List.sizeOf_lt_of_mem hslot
  obtain ⟨operator, preceding, succeeding, certain, possible⟩ := n
  cases operator with
  | filter f =>
      obtain ⟨condition, nested, slot⟩ := f
      have hmem : sizeOf e < sizeOf nested := List.sizeOf_lt_of_mem he
      obtain ⟨k, q⟩ := e
      simp only [Option.some.sizeOf_spec, Node.mk.sizeOf_spec, Operator.filter.sizeOf_spec,
        Filter.mk.sizeOf_spec, Prod.mk.sizeOf_spec, Plan.mk.sizeOf_spec, Graph.mk.sizeOf_spec]
        at hsizes hmem ⊢
      omega
  | _ => exact absurd he List.not_mem_nil

/-- What holds of a plan if it holds of the plans nested in it holds of every plan. -/
theorem induction_nested {motive : Plan → Prop}
    (step : ∀ p : Plan, (∀ id op, p.graph.operator? id = some op → ∀ e ∈ op.nested, motive e.2) →
      motive p) (p : Plan) : motive p :=
  step p fun _ _ hop e he =>
    have := sizeOf_nested_lt hop he
    induction_nested step e.2
termination_by p

variable {src : Source} {limit : Nat}

/-- A plan is evaluated once what is nested in it has been evaluated by the same timetable. -/
theorem evaluateIn_eq (s : Timetable) (p : Plan) : p.evaluateIn s src limit =
    (p.openedIn s src limit).evaluateIn src limit (s.order (p.openedIn s src limit)) :=
  Plan.fold_eq (fun g => g.evaluateIn src limit (s.order g)) p

theorem evaluateIn_standard (p : Plan) :
    p.evaluateIn .standard src limit = p.evaluate src limit :=
  congrArg (fun step => p.fold step) (funext (Graph.evaluateIn_standard src limit))

/-- A plan is evaluated alike under every two timetables. -/
theorem toOption_evaluateIn (s s' : Timetable) (p : Plan) :
    (p.evaluateIn s src limit).toOption = (p.evaluateIn s' src limit).toOption := by
  induction p using induction_nested with
  | step p ih =>
      rw [evaluateIn_eq, evaluateIn_eq]
      exact (Graph.Alike.mapNested ih).evaluateIn s s' limit

/-- Opening a plan by two timetables makes graphs that are alike. -/
theorem alike_openedIn (s s' : Timetable) (p : Plan) :
    (p.openedIn s src limit).Alike (p.openedIn s' src limit) :=
  Graph.Alike.mapNested fun _ _ _ e _ => toOption_evaluateIn s s' e.2

/-- What an operator has after a number of rounds under a timetable, if none of them fails. -/
def rowsAfter (s : Timetable) (src : Source) (limit : Nat) (p : Plan) (n : Nat) (id : OperatorId) :
    Option (Option (List Row)) :=
  ((p.openedIn s src limit).after src (s.order (p.openedIn s src limit)) n).toOption.map
    fun rows => rows.lookup id

theorem rowsAfter_of_ok {s s' : Timetable} {p : Plan} (h : p.graph.Acyclic) {n : Nat}
    {rows : Assignment}
    (hrows : (p.openedIn s src limit).after src (s.order (p.openedIn s src limit)) n = .ok rows)
    (id : OperatorId) : p.rowsAfter s' src limit n id = some (rows.lookup id) := by
  have hacyclic (s : Timetable) : (p.openedIn s src limit).Acyclic :=
    (Graph.acyclic_mapNested _ p.graph).2 h
  obtain ⟨rows', hrows', hsame⟩ := (alike_openedIn s s' p).after
    (s.topological _ (hacyclic s)) (s'.topological _ (hacyclic s')) hrows
  rw [rowsAfter, hrows', hsame]
  rfl

/-- The order of evaluation does not matter. In a plan without closed walks over forward edges, all
operators have the same lists of rows after every round, under every two timetables, and whatever
the timetable, evaluation succeeds when it does in the order that is used, with the same outcome and
after the same number of rounds. -/
theorem evaluation_order_irrelevant (s s' : Timetable) (src : Source) (limit : Nat) (p : Plan)
    (h : p.graph.Acyclic) :
    (∀ n id, p.rowsAfter s src limit n id = p.rowsAfter s' src limit n id) ∧
      (p.evaluateIn s src limit).toOption = (p.evaluateIn s' src limit).toOption ∧
      (p.evaluateIn s src limit).toOption = (p.evaluate src limit).toOption := by
  refine ⟨fun n id => ?_, toOption_evaluateIn s s' p, ?_⟩
  · cases hrows : (p.openedIn s src limit).after src (s.order (p.openedIn s src limit)) n with
    | ok rows => rw [rowsAfter_of_ok h hrows id, rowsAfter_of_ok h hrows id]
    | error e =>
        cases hrows' : (p.openedIn s' src limit).after src
            (s'.order (p.openedIn s' src limit)) n with
        | ok rows => rw [rowsAfter_of_ok h hrows' id, rowsAfter_of_ok h hrows' id]
        | error e' =>
            rw [rowsAfter, rowsAfter, hrows, hrows']
            rfl
  · rw [toOption_evaluateIn s .standard p, evaluateIn_standard]

/-- A loop whose rows are read on two ways, which meet in a join. -/
def forkedLoop {γ : Type} : Graph γ :=
  ⟨[some ⟨.root, [], [⟨1, 0, false⟩], ∅, ∅⟩,
    some ⟨.union, [0, 1], [⟨1, 1, true⟩, ⟨2, 0, false⟩, ⟨3, 0, false⟩], ∅, ∅⟩,
    some ⟨.distinct, [1], [⟨4, 0, false⟩], ∅, ∅⟩,
    some ⟨.limit 1, [1], [⟨4, 1, false⟩], ∅, ∅⟩,
    some ⟨.join, [2, 3], [⟨5, 0, false⟩], ∅, ∅⟩,
    some ⟨.result (.select []), [4], [], ∅, ∅⟩]⟩

theorem evaluation_order_forkedLoop :
    Timetable.standard.order forkedLoop 0 = [0, 1, 3, 2, 4, 5] ∧
      Timetable.alternating.order forkedLoop 0 = [0, 1, 2, 3, 4, 5] ∧
      (Plan.evaluateIn .alternating ⟨.empty, .empty⟩ defaultIterations ⟨forkedLoop⟩).toOption =
        some ⟨some (.select []), [∅], [], [], [], 2⟩ := by
  have hacyclic : (forkedLoop : Graph Plan).Acyclic :=
    Graph.exists_topologicalOrder_iff.1 ⟨[0, 1, 3, 2, 4, 5], by decide +kernel⟩
  refine ⟨by decide +kernel, by decide +kernel, ?_⟩
  rw [(evaluation_order_irrelevant .alternating .standard _ _ ⟨forkedLoop⟩ hacyclic).2.2]
  decide +kernel

end Plan

end QuadAlgebra
