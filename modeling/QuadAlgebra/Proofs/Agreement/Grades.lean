import QuadAlgebra.Proofs.Agreement.Precision
import QuadAlgebra.Proofs.Equivalence.StandIns

/-!
# Graded graphs

A grading says how precisely the rows of each operator matter (`Graph.Graded`): what an operator
demands of those that it reads is not more than they give, and operators on loops, whose rows are
kept as sets, give sets only, unless they have no duplicates anyway. In a graded graph the rows of
all rounds are determined, up to the precision of each operator, by what operators make of what
they read (`Graph.Traced`): whoever traces them has the rows that the rounds give
(`Graph.Traced.runs`), and the rounds trace themselves (`Graph.Graded.traced`).
-/

namespace QuadAlgebra

open List (Perm)

/-! ## What arrives -/

namespace Graph

section Arriving

variable {γ : Type} {g g' : Graph γ} {x : OperatorId} {p : Precision}
  {read read' : Input → List Row}

theorem keys_deliver :
    (g.deliver read x).map Prod.fst = distinctOf ((g.inputs x).map Input.operand) := by
  simp [deliver, operandGroups, Function.comp_def]

theorem keys_deliver_eq
    (h : ∀ k, (∃ i ∈ g.inputs x, i.operand = k) ↔ ∃ i ∈ g'.inputs x, i.operand = k) :
    (g.deliver read x).map Prod.fst = (g'.deliver read' x).map Prod.fst := by
  rw [keys_deliver, keys_deliver]
  refine distinctOf_eq_of_ascending (ascending_inputs x) (ascending_inputs x) fun k => ?_
  rw [List.mem_map, List.mem_map]
  exact h k

theorem on_deliver (k : Nat) :
    (g.deliver read x).on k = ((g.inputs x).filter (·.operand == k)).flatMap read := by
  by_cases hk : k ∈ (g.inputs x).map Input.operand
  · exact Operands.on_eq_of_mem (o := (k, _)) nodup_deliver
      (List.mem_map_of_mem (List.mem_map_of_mem (mem_distinctOf.2 hk)))
  · have hnone : (g.inputs x).filter (·.operand == k) = [] :=
      List.filter_eq_nil_iff.2 fun i hi hoperand =>
        hk (List.mem_map.2 ⟨i, hi, beq_iff_eq.1 hoperand⟩)
    rw [Operands.on_eq_nil (by rwa [keys_deliver, mem_distinctOf]), hnone]
    rfl

/-- What arrives agrees if every input is replaced by inputs on the same operand that together
deliver rows that agree with its rows. -/
theorem deliver_agree {f : Input → List Input}
    (hinputs : (g'.inputs x).Perm ((g.inputs x).flatMap f))
    (hoperand : ∀ i ∈ g.inputs x, ∀ j ∈ f i, j.operand = i.operand)
    (hread : ∀ i ∈ g.inputs x, p.Agree (read i) ((f i).flatMap read')) :
    (g.deliver read x).Agree p (g'.deliver read' x) := by
  intro k
  have hfilter : ((g.inputs x).flatMap f).filter (·.operand == k) =
      ((g.inputs x).filter (·.operand == k)).flatMap f :=
    filter_flatMap_of_forall fun i hi j hj => by rw [hoperand i hi j hj]
  rw [on_deliver, on_deliver]
  refine Precision.Agree.trans ?_
    (.of_perm p ((hfilter ▸ hinputs.filter _).symm.flatMap_right read'))
  rw [List.flatMap_assoc]
  exact .flatMap_left _ fun i hi => hread i (List.mem_filter.1 hi).1

end Arriving

end Graph

/-! ## Gradings -/

namespace Graph

section Grades

variable {γ δ : Type}

/-- The operator renames variables. -/
def Renames (ops : OperatorId → Option (Operator γ)) (x : OperatorId) : Prop :=
  ∃ r, ops x = some (.replaceVar r)

/-- Operators that tell their operands apart, or may read several. -/
def spread : List Kind := [.join, .union, .optional, .minus]

/-- Apart from the root, an operator feeds a single other one over a single edge, and renamings. The
root feeds sources only. -/
structure Threads (ops : OperatorId → Option (Operator γ)) (reads : OperatorId → Input → Prop) :
    Prop where
  single : ∀ x i y j, reads x i → reads y j → i.source = j.source → i.source ≠ root →
    ¬ Renames ops x → ¬ Renames ops y → x = y ∧ i = j
  sources : ∀ x i, reads x i → i.source = root → i = ⟨root, 0, false⟩ ∧
    ∃ op, ops x = some op ∧ op.kind ∈ [.scan, .probe, .service]
  operands : ∀ x i op, reads x i → ops x = some op → op.kind ∉ spread → i.operand = 0

/-- A threaded graph that records every edge once on both sides. -/
structure Threaded (g : Graph γ) : Prop where
  symmetric : g.Symmetric
  threads : Threads g.operator? g.Reads

/-- How precisely the rows of each operator matter. -/
structure Graded (g : Graph γ) (level : OperatorId → Precision) : Prop extends g.Threaded where
  bears : ∀ x op, g.operator? x = some op → op.Bears (level x)
  demands : ∀ x op i, g.operator? x = some op → g.Reads x i → op.demand (level x) ≤ level i.source
  looped : ∀ x op, g.operator? x = some op → g.OnLoop x →
    level x = .members ∨ level x = .bag ∧ op.kind ∈ Operator.deduplicating
  root : level Graph.root = .bag

end Grades

end Graph

/-! ## Graded plans -/

/-- How precisely the rows of a result matter. -/
def ResultForm.precision : ResultForm → Precision
  | .ask => .emptiness
  | _ => .bag

/-- The plan hands selected solutions to its caller. -/
def Plan.IsSelection (p : Plan) : Prop :=
  ∀ x form, p.graph.operator? x = some (.result form) → ∃ vars, form = .select vars

/-- The graph of the plan is graded. It has a single result, whose rows matter as precisely as its
form says. The plans nested in it are graded selections. -/
inductive Plan.Graded : Plan → Prop
  | intro {p : Plan} {level : OperatorId → Precision} {result : OperatorId} {form : ResultForm}
      (graded : p.graph.Graded level) (operator : p.graph.operator? result = some (.result form))
      (only : ∀ x op, p.graph.operator? x = some op → op.kind = .result → x = result)
      (shown : level result = form.precision)
      (nested : ∀ id op, p.graph.operator? id = some op → ∀ e ∈ op.nested, Plan.Graded e.2)
      (selections : ∀ id op, p.graph.operator? id = some op → ∀ e ∈ op.nested, e.2.IsSelection) :
      Graded p

/-! ## Rows of all rounds -/

/-- The rows of all operators after each round. -/
abbrev History := Nat → OperatorId → List Row

/-- What is read over an edge in a round. -/
def History.over (E : History) (n : Nat) (i : Input) : List Row :=
  E (if i.feedback then n else n + 1) i.source

namespace Graph

/-- In every round each operator succeeds on what it reads, and has what it emits, up to its
precision. -/
structure Traced (G : Graph Plan) (src : Source) (limit : Nat) (level : OperatorId → Precision)
    (E : History) : Prop where
  zero : ∀ x, E 0 x = []
  step : ∀ n x op, G.operator? x = some op → ∃ rows,
    (op.opened src limit).emit src x (G.deliver (E.over n) x) = .ok rows ∧
      (level x).Agree rows (E (n + 1) x)

/-- The rows that rounds give. -/
def history (G : Graph Plan) (src : Source) (limit : Nat) (order : List OperatorId) : History :=
  fun n x => ((Plan.opened ⟨G⟩ src limit).stage src order n).rows x

section Rounds

variable {G : Graph Plan} {src : Source} {limit : Nat} {level : OperatorId → Precision}
  {E : History} {order : List OperatorId} {x : OperatorId} {op : Operator Plan} {rows : List Row}

/-- What an operator on a loop emits agrees with the set of it. -/
theorem Graded.agree_settled (h : G.Graded level) (hop : G.operator? x = some op)
    {operands : Operands} (hemit : (op.opened src limit).emit src x operands = .ok rows) :
    (level x).Agree rows (if (Plan.opened ⟨G⟩ src limit).loopMembers.contains x then
      (OrdSet.ofList rows).toList else rows) := by
  split
  · next hloop =>
    have hmem (row : Row) : row ∈ rows ↔ row ∈ (OrdSet.ofList rows).toList := by
      rw [OrdSet.mem_toList, OrdSet.mem_ofList]
    have hloop : G.OnLoop x := onLoop_opened.1 (mem_loopMembers.1 (List.contains_iff_mem.1 hloop))
    rcases h.looped x op hop hloop with hlevel | ⟨hlevel, hkind⟩
    · rw [hlevel]
      exact hmem
    · have hnodup : rows.Nodup := by
        cases op with
        | distinct | indexDistinct =>
            obtain rfl := Except.ok.inj hemit
            exact nodup_distinctOf _
        | command c => cases c <;> simp [Operator.kind, GraphCommand.kind,
            Operator.deduplicating] at hkind
        | _ => simp [Operator.kind, Operator.deduplicating] at hkind
      rw [hlevel]
      exact (List.perm_ext_iff_of_nodup hnodup (OrdSet.nodup_toList _)).2 hmem
  · exact .refl _ rows

/-- What operators read in the rounds. -/
theorem operandRows_opened (previous current : Assignment) :
    (Plan.opened ⟨G⟩ src limit).operandRows previous current x =
      G.deliver (fun i => (if i.feedback then previous else current).rows i.source) x := by
  rw [operandRows_eq, deliver, deliver, operandGroups, operandGroups, inputs_opened]

/-- In a round operators have what they emit from what they read, as a set if they are on a loop. -/
theorem emitted_of_round (horder : (Plan.opened ⟨G⟩ src limit).IsTopological order)
    {looped : List OperatorId} {previous current : Assignment}
    (hround : (Plan.opened ⟨G⟩ src limit).round src looped order previous = .ok current)
    (hop : G.operator? x = some op) : ∃ emitted,
      (op.opened src limit).emit src x (G.deliver (fun i =>
        (if i.feedback then previous else current).rows i.source) x) = .ok emitted ∧
      current.rows x = if looped.contains x then (OrdSet.ofList emitted).toList else emitted := by
  have hid : x ∈ (Plan.opened ⟨G⟩ src limit).ids := by
    rw [ids_opened]
    exact mem_ids_of_operator? hop
  obtain ⟨emitted, hemitted, hrows⟩ := emitAt_eq_ok_iff.1 ((round_spec horder hround).2 x hid)
  rw [respond_opened hop, operandRows_opened] at hemitted
  exact ⟨emitted, hemitted, hrows⟩

/-- The rows that rounds give trace them. -/
theorem Graded.traced (h : G.Graded level)
    (horder : (Plan.opened ⟨G⟩ src limit).IsTopological order)
    (hruns : (Plan.opened ⟨G⟩ src limit).Runs src order) :
    G.Traced src limit level (G.history src limit order) where
  zero _ := rfl
  step n x op hop := by
    obtain ⟨emitted, hemitted, hrows⟩ := emitted_of_round horder (hruns n) hop
    refine ⟨emitted, ?_, ?_⟩
    · rw [← hemitted]
      refine congrArg _ (deliver_congr fun i _ => ?_)
      unfold History.over history
      split <;> rfl
    · unfold history
      rw [hrows]
      exact h.agree_settled hop hemitted

/-- An operator of a graded graph emits what is traced wherever it reads inputs that deliver, in the
place of each of its inputs, rows that agree with what is traced. A join has to be left with as many
operands. -/
theorem Traced.transfer (h : G.Graded level) (hE : G.Traced src limit level E) {n : Nat}
    (hop : G.operator? x = some op) {G' : Graph Plan} {f : Input → List Input}
    (hinputs : (G'.inputs x).Perm ((G.inputs x).flatMap f))
    (hoperand : ∀ i ∈ G.inputs x, ∀ j ∈ f i, j.operand = i.operand)
    (hkept : op = .join → ∀ i ∈ G.inputs x, ∃ j ∈ G'.inputs x, j.operand = i.operand)
    {read : Input → List Row}
    (hread : ∀ i ∈ G.inputs x, (level i.source).Agree (E.over n i) ((f i).flatMap read)) :
    ∃ rows, (op.opened src limit).emit src x (G'.deliver read x) = .ok rows ∧
      (level x).Agree rows (E (n + 1) x) := by
  obtain ⟨rows, hemit, hrows⟩ := hE.step n x op hop
  have hbears : (op.opened src limit).Bears (level x) :=
    (Operator.bears_withNested op _ _).2 (h.bears x op hop)
  have hagree : (G.deliver (E.over n) x).Agree ((op.opened src limit).demand (level x))
      (G'.deliver read x) := by
    rw [Operator.opened, Operator.demand_withNested]
    exact deliver_agree hinputs hoperand fun i hi =>
      (hread i hi).mono (h.demands x op i hop (h.symmetric.linked.mem_inputs.1 hi))
  have hkeys (hjoin : op.opened src limit = .join) :
      (G.deliver (E.over n) x).map Prod.fst = (G'.deliver read x).map Prod.fst := by
    refine keys_deliver_eq fun k => ⟨?_, ?_⟩
    · rintro ⟨i, hi, rfl⟩
      refine hkept (Operator.eq_join_of_kind ?_) i hi
      rw [← kind_withNested op, ← Operator.opened, hjoin]
      rfl
    · rintro ⟨j, hj, rfl⟩
      obtain ⟨i, hi, hj⟩ := List.mem_flatMap.1 (hinputs.mem_iff.1 hj)
      exact ⟨i, hi, (hoperand i hi j hj).symm⟩
  obtain ⟨rows', hemit', hrows'⟩ :=
    Operator.emit_agree hbears src hagree nodup_deliver nodup_deliver hkeys rows hemit
  exact ⟨rows', hemit', hrows'.symm.trans hrows⟩

/-- An operator of a graded graph succeeds where what it reads agrees with what is traced. -/
theorem Traced.emits (h : G.Graded level) (hE : G.Traced src limit level E) {n : Nat}
    (hop : G.operator? x = some op) {read : Input → List Row}
    (hread : ∀ i ∈ G.inputs x, (level i.source).Agree (E.over n i) (read i)) :
    ∃ rows, (op.opened src limit).emit src x (G.deliver read x) = .ok rows ∧
      (level x).Agree (E (n + 1) x) rows := by
  obtain ⟨rows, hemit, hrows⟩ := hE.transfer h hop (f := fun i => [i]) (by simp) (by simp)
    (fun _ i hi => ⟨i, hi, rfl⟩) fun i hi => by
      rw [List.flatMap_singleton]
      exact hread i hi
  exact ⟨rows, hemit, hrows.symm⟩

/-- A round succeeds, and gives the rows that are traced, if the round before did. -/
theorem Traced.round (h : G.Graded level) (hE : G.Traced src limit level E)
    (horder : (Plan.opened ⟨G⟩ src limit).IsTopological order) {n : Nat} {previous : Assignment}
    (hprevious : ∀ x ∈ G.ids, (level x).Agree (E n x) (previous.rows x)) :
    ∃ current, (Plan.opened ⟨G⟩ src limit).round src (Plan.opened ⟨G⟩ src limit).loopMembers order
        previous = .ok current ∧
      ∀ x ∈ G.ids, (level x).Agree (E (n + 1) x) (current.rows x) := by
  have hmem (x : OperatorId) : x ∈ order ↔ x ∈ G.ids := by rw [horder.mem_iff, ids_opened]
  suffices ∀ (rest done : List OperatorId) (acc : Assignment), order = done ++ rest →
      (∀ x ∈ done, (level x).Agree (E (n + 1) x) (acc.rows x)) →
      ∃ current : Assignment, (rest.foldlM (fun current id => do
        return (id, ← (Plan.opened ⟨G⟩ src limit).emitAt src
          (Plan.opened ⟨G⟩ src limit).loopMembers previous current id) :: current) acc) =
          .ok current ∧ ∀ x ∈ order, (level x).Agree (E (n + 1) x) (current.rows x) by
    obtain ⟨current, hround, hrows⟩ := this order [] [] rfl fun _ h => absurd h List.not_mem_nil
    exact ⟨current, hround, fun x hx => hrows x ((hmem x).2 hx)⟩
  intro rest
  induction rest with
  | nil =>
      intro done acc he hacc
      rw [List.append_nil] at he
      exact ⟨acc, rfl, he ▸ hacc⟩
  | cons x rest ih =>
      intro done acc he hacc
      have hx : x ∈ G.ids := (hmem x).1 (by simp [he])
      obtain ⟨op, hop⟩ := exists_operator?_of_mem_ids hx
      -- what is read forward has been evaluated before
      have hread (i : Input) (hi : i ∈ G.inputs x) : (level i.source).Agree (E.over n i)
          ((if i.feedback then previous else acc).rows i.source) := by
        unfold History.over
        cases hf : i.feedback with
        | true => exact hprevious _ (source_mem_ids hi)
        | false =>
            refine hacc _ (horder.producers_before done x rest he _ ?_ ?_)
            · rw [ids_opened]
              exact source_mem_ids hi
            · refine mem_forward_of_mem_inputs ?_ ((inputs_opened G src limit x).symm ▸ hi) hf
              rwa [ids_opened]
      obtain ⟨emitted, hemitted, hrows⟩ := hE.emits h hop hread
      have hemit : (Plan.opened ⟨G⟩ src limit).emitAt src (Plan.opened ⟨G⟩ src limit).loopMembers
          previous acc x = .ok _ := emitAt_eq_ok_iff.2 ⟨emitted, by
        rw [respond_opened hop, operandRows_opened]
        exact hemitted, rfl⟩
      rw [List.foldlM_cons, hemit]
      refine ih (done ++ [x]) _ (by simp [he]) fun y hy => ?_
      by_cases hyx : y = x
      · subst hyx
        rw [rows_cons_self]
        exact hrows.trans (h.agree_settled hop hemitted)
      · rw [rows_cons_of_ne hyx]
        exact hacc y ((List.mem_append.1 hy).resolve_right (by simpa using hyx))

/-- Whoever traces the rounds has the rows that they give. -/
theorem Traced.runs (h : G.Graded level) (hE : G.Traced src limit level E)
    (horder : (Plan.opened ⟨G⟩ src limit).IsTopological order) :
    (Plan.opened ⟨G⟩ src limit).Runs src order ∧
      ∀ n, ∀ x ∈ G.ids, (level x).Agree (E n x) (G.history src limit order n x) := by
  have hstep (n : Nat) (hn : ∀ x ∈ G.ids, (level x).Agree (E n x) (G.history src limit order n x)) :
      (Plan.opened ⟨G⟩ src limit).round src (Plan.opened ⟨G⟩ src limit).loopMembers order
        ((Plan.opened ⟨G⟩ src limit).stage src order n) =
          .ok ((Plan.opened ⟨G⟩ src limit).stage src order (n + 1)) ∧
        ∀ x ∈ G.ids, (level x).Agree (E (n + 1) x) (G.history src limit order (n + 1) x) := by
    obtain ⟨current, hround, hrows⟩ := hE.round h horder hn
    have hstage : (Plan.opened ⟨G⟩ src limit).stage src order (n + 1) = current := by
      rw [stage, hround]
      rfl
    refine ⟨hstage ▸ hround, fun x hx => ?_⟩
    rw [history, hstage]
    exact hrows x hx
  have hall (n : Nat) : ∀ x ∈ G.ids, (level x).Agree (E n x) (G.history src limit order n x) := by
    induction n with
    | zero =>
        intro x _
        rw [hE.zero]
        exact .refl _ []
    | succ n ih => exact (hstep n ih).2
  exact ⟨fun n => (hstep n (hall n)).1, hall⟩

end Rounds

end Graph

end QuadAlgebra
