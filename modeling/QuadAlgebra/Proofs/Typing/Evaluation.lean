import QuadAlgebra.Proofs.Semantics.Rounds
import QuadAlgebra.Proofs.Typing.Graphs

/-!
# Evaluation of typed graphs

In a typed graph without forward cycles every operator reads rows that it accepts, in every round.
So an evaluation fails only where an operator stands for a remote call, where a nested plan has
failed, or after too many rounds (`Graph.Typed.evaluate_ends_well`).
-/

namespace QuadAlgebra

namespace Graph

/-- Every operator has rows of the kinds that it yields. -/
def RowsTyped (g : Graph Outcome) (a : Assignment) : Prop :=
  ∀ id op, g.operator? id = some op → AllRows op.yields (a.rows id)

/-- The errors that an operator or a nested plan of the graph may cause are allowed. -/
structure Permits (allowed : Error → Prop) (g : Graph Outcome) : Prop where
  typed : g.Typed fun outcome => ∀ e, outcome = .error e → allowed e
  service : ∀ id endpoint pattern silent, g.operator? id = some (.service endpoint pattern silent) →
    allowed (.unsupported (.remoteCall endpoint))

namespace Permits

variable {g : Graph Outcome} {allowed : Error → Prop} {src : Source} {previous current : Assignment}
  {looped order : List OperatorId} {id : OperatorId} {op : Operator Outcome}

theorem rowsTyped_nil : g.RowsTyped [] := fun _ _ _ _ hrow => absurd hrow List.not_mem_nil

/-- Whatever arrives at an operator is of a kind that it accepts. -/
theorem operandRows (h : g.Permits allowed) (hprevious : g.RowsTyped previous)
    (hcurrent : g.RowsTyped current) (hop : g.operator? id = some op) :
    (g.operandRows previous current id).Each fun k => op.accepts k = true := by
  intro o ho row hrow
  rw [operandRows_eq] at ho
  obtain ⟨group, hgroup, rfl⟩ := List.mem_map.1 ho
  obtain ⟨operand, -, rfl⟩ := List.mem_map.1 hgroup
  obtain ⟨i, hi, hrow⟩ := List.mem_flatMap.1 hrow
  have hi : i ∈ g.inputs id := (List.mem_filter.1 hi).1
  obtain ⟨k, hsource, htarget⟩ := h.typed.of_mem_inputs hi
  obtain ⟨producer, hproducer⟩ : ∃ producer, g.operator? i.source = some producer :=
    Option.isSome_iff_exists.1 (by
      rw [operator?, Option.isSome_map]
      exact mem_ids.1 (source_mem_ids hi))
  have hyields : producer.yields row.rowKind := by
    cases hf : i.feedback with
    | true => exact hprevious _ _ hproducer row (by simpa [hf] using hrow)
    | false => exact hcurrent _ _ hproducer row (by simpa [hf] using hrow)
  rw [(Operator.yields_of_emits? (hsource.emits producer hproducer) _).1 hyields]
  exact htarget.takes op hop

/-- An operator of the graph as it is evaluated: nested plans have become their solutions. -/
theorem covered (h : g.Permits allowed) (hop : g.operator? id = some op) :
    (op.withNested (op.nested.map fun e => (e.1, e.2.map Evaluation.solutions))).Covered
      fun outcome => ∀ e, outcome = .error e → allowed e := by
  refine Operator.Covered.withNested (f := Except.map Evaluation.solutions) ?_
  refine (h.typed.covered id op hop).mono fun n _ hn e he => ?_
  cases houtcome : n.2 with
  | error e' =>
      rw [houtcome] at he
      exact hn e (houtcome.trans (congrArg Except.error (Except.error.inj he)))
  | ok e' => simp [houtcome, Except.map] at he

theorem emitAt (h : g.Permits allowed) (hprevious : g.RowsTyped previous)
    (hcurrent : g.RowsTyped current) (hop : g.operator? id = some op) :
    EndsWell (g.emitAt src looped previous current id) (AllRows op.yields) allowed := by
  have hemit : EndsWell ((op.withNested (op.nested.map fun e =>
      (e.1, e.2.map Evaluation.solutions))).emit src id (g.operandRows previous current id))
      (AllRows op.yields) allowed := by
    rw [← Operator.yields_withNested]
    refine Operator.emit_ends_well ?_ (fun endpoint pattern silent he => ?_) (h.covered hop)
    · rw [Operator.accepts_withNested]
      exact h.operandRows hprevious hcurrent hop
    · cases op <;> cases he
      exact h.service id endpoint pattern silent hop
  have hoperator : g.operator id = .ok op := by rw [operator, hop]
  rw [Graph.emitAt, hoperator]
  refine hemit.bind fun rows hrows => ?_
  show AllRows op.yields _
  split
  · exact fun row hrow => hrows row (OrdSet.mem_ofList.1 (OrdSet.mem_toList.1 hrow))
  · exact hrows

theorem round (h : g.Permits allowed) (horder : ∀ id ∈ order, id ∈ g.ids)
    (hprevious : g.RowsTyped previous) :
    EndsWell (g.round src looped order previous) g.RowsTyped allowed := by
  refine EndsWell.foldlM rowsTyped_nil fun current hcurrent id hid => ?_
  obtain ⟨op, hop⟩ : ∃ op, g.operator? id = some op := Option.isSome_iff_exists.1 (by
    rw [operator?, Option.isSome_map]
    exact mem_ids.1 (horder id hid))
  refine (h.emitAt hprevious hcurrent hop).bind fun rows hrows x op' hop' => ?_
  by_cases hx : x = id
  · subst hx
    rw [rows_cons_self]
    exact Option.some.inj (hop.symm.trans hop') ▸ hrows
  · rw [rows_cons_of_ne hx]
    exact hcurrent x op' hop'

theorem rounds (h : g.Permits allowed) (horder : ∀ id ∈ order, id ∈ g.ids) {limit : Nat}
    (hlimit : allowed (.internal (.unconverged limit))) (left before : Nat)
    (hprevious : g.RowsTyped previous) :
    EndsWell (g.rounds src looped order limit left before previous)
      (fun final => g.RowsTyped final.1) allowed := by
  induction left generalizing before previous with
  | zero => exact hlimit
  | succ left ih =>
      rw [Graph.rounds]
      refine (h.round horder hprevious).bind fun current hcurrent => ?_
      split
      · exact hcurrent
      · exact ih (before + 1) hcurrent

theorem addDerived {wanted : RuleOutput} {e : Evaluation} {row : Row}
    (hrow : row.rowKind = .quad ∨ row.rowKind = .fact) :
    EndsWell (e.addDerived id wanted row) (fun _ => True) allowed := by
  cases row <;> simp_all [Row.rowKind, Evaluation.addDerived, EndsWell]

theorem addResult {form : ResultForm} {e : Evaluation} {rows : List Row}
    (hrows : AllRows (fun k => form.accepts k = true) rows) :
    EndsWell (e.addResult id form rows) (fun _ => True) allowed := by
  have hderived (wanted : RuleOutput)
      (hkinds : ∀ row ∈ rows, row.rowKind = .quad ∨ row.rowKind = .fact) :
      EndsWell (rows.foldlM (Evaluation.addDerived id wanted) e) (fun _ => True) allowed :=
    EndsWell.foldlM trivial fun _ _ row hrow => addDerived (hkinds row hrow)
  cases form with
  | select vars =>
      obtain ⟨l, hl⟩ := expectSolutions_ok id fun row hrow => beq_iff_eq.1 (hrows row hrow)
      simp only [Evaluation.addResult, hl]
      trivial
  | ask =>
      obtain ⟨l, hl⟩ := expectSolutions_ok id fun row hrow => beq_iff_eq.1 (hrows row hrow)
      simp only [Evaluation.addResult, hl]
      trivial
  | update =>
      obtain ⟨l, hl⟩ := expectRows_ok id .actions Row.action? fun row hrow =>
        Row.exists_action (beq_iff_eq.1 (hrows row hrow))
      simp only [Evaluation.addResult, hl]
      trivial
  | construct | describe | materialize _ =>
      refine EndsWell.bind_pure (hderived _ fun row hrow => ?_)
      simpa [ResultForm.accepts] using hrows row hrow

theorem collect (h : g.RowsTyped current) (iterations : Nat) :
    EndsWell (g.collect current iterations) (fun _ => True) allowed := by
  refine EndsWell.foldlM trivial fun e _ id _ => ?_
  split
  · next form hform => exact addResult (h id _ hform)
  · trivial

/-- A typed graph is evaluated, or one of the errors occurs that its services, its nested plans and
the limit on rounds may cause. -/
theorem evaluate (h : g.Permits allowed) {limit : Nat}
    (horder : ∃ order, g.topologicalOrder = .ok order)
    (hlimit : allowed (.internal (.unconverged limit))) :
    EndsWell (g.evaluate src limit) (fun _ => True) allowed := by
  obtain ⟨order, horder⟩ := horder
  have hids (id : OperatorId) (hid : id ∈ order) : id ∈ g.ids :=
    ((topologicalOrder_spec horder).mem_iff id).1 hid
  rw [Graph.evaluate, horder]
  exact (h.rounds hids hlimit limit 0 rowsTyped_nil).bind fun final hfinal =>
    collect hfinal _

end Permits

end Graph

end QuadAlgebra
