import QuadAlgebra.Proofs.Modifiers.Arrangements
import QuadAlgebra.Proofs.Scope.Rows
import QuadAlgebra.Proofs.Typing.Plans

/-!
# What a stack of operators sends up

From the rows that arrive at the bottom of a stack the operators make the rows that leave it at the
top, one after the other (`Sends`). What each kind of operator makes of solutions is a function on
lists, and so is what the operators of a selection make of them.
-/

namespace QuadAlgebra

/-- What an operator makes of solutions in some plan. -/
def Operator.Sends (src : Source) (limit : Nat) (op : Operator Plan) (rows out : List Solution) :
    Prop :=
  ∃ (id : OperatorId) (l : List (Nat × List Solution)), l.flatMap Prod.snd = rows ∧
    (op.opened src limit).emit src id (solutionOperands l) = .ok (out.map .solution)

/-- What operators that stand one below the other make of solutions. -/
def Sends (src : Source) (limit : Nat) :
    List (Operator Plan) → List Solution → List Solution → Prop
  | [], rows, out => out = rows
  | op :: below, rows, out =>
    ∃ between, Sends src limit below rows between ∧ op.Sends src limit between out

section Kinds

variable {src : Source} {limit : Nat} {rows out : List Solution}

theorem sends_append {above below : List (Operator Plan)} :
    Sends src limit (above ++ below) rows out ↔
      ∃ between, Sends src limit below rows between ∧ Sends src limit above between out := by
  induction above generalizing out with
  | nil => exact ⟨fun h => ⟨out, h, rfl⟩, fun ⟨between, h, he⟩ => he ▸ h⟩
  | cons op rest ih =>
      constructor
      · rintro ⟨middle, h, hop⟩
        obtain ⟨between, hbelow, hrest⟩ := ih.1 h
        exact ⟨between, hbelow, middle, hrest, hop⟩
      · rintro ⟨between, hbelow, middle, hrest, hop⟩
        exact ⟨middle, ih.2 ⟨between, hbelow, hrest⟩, hop⟩

theorem sends_singleton {op : Operator Plan} (h : Sends src limit [op] rows out) :
    op.Sends src limit rows out := by
  obtain ⟨between, he, hop⟩ := h
  obtain rfl : between = rows := he
  exact hop

/-- An operator that applies a function. -/
theorem Operator.Sends.eq_of_emit {op : Operator Plan} {f : List Solution → List Solution}
    (h : op.Sends src limit rows out) (hemit : ∀ id l, (op.opened src limit).emit src id
      (solutionOperands l) = .ok ((f (l.flatMap Prod.snd)).map .solution)) : out = f rows := by
  obtain ⟨id, l, rfl, hout⟩ := h
  rw [hemit] at hout
  exact (List.map_injective_iff.2 Row.solution_injective (Except.ok.inj hout)).symm

theorem sends_limit {n : Option Nat} (h : Sends src limit (n.map .limit).toList rows out) :
    out = n.elim rows rows.take := by
  cases n with
  | none => exact h
  | some n =>
      refine (sends_singleton h).eq_of_emit (f := List.take n) fun id l => ?_
      rw [List.map_take, ← solutionOperands.rows_eq]
      rfl

theorem sends_offset {n : Option Nat} (h : Sends src limit (n.map .offset).toList rows out) :
    out = rows.drop (n.getD 0) := by
  cases n with
  | none => exact h
  | some n =>
      refine (sends_singleton h).eq_of_emit (f := List.drop n) fun id l => ?_
      rw [List.map_drop, ← solutionOperands.rows_eq]
      rfl

theorem sends_distinct {d : Duplicates}
    (h : Sends src limit (if d = .all then [] else [.distinct]) rows out) :
    out = d.removed rows := by
  rw [Duplicates.removed]
  split at h
  · next hall => rw [if_pos hall]; exact h
  · next hall =>
    rw [if_neg hall]
    exact (sends_singleton h).eq_of_emit fun id l => Operator.emit_distinct

theorem sends_projection {items : Option (List SelectItem)} (h : Sends src limit (items.map
      fun items => Operator.projection (OrdSet.ofList (items.map SelectItem.target))).toList rows
        out) :
    out = rows.map fun row => items.elim row fun items =>
      row.restrict (OrdSet.ofList (items.map SelectItem.target)) := by
  cases items with
  | none => exact Eq.trans h (List.map_id _).symm
  | some items => exact (sends_singleton h).eq_of_emit fun id l => Operator.emit_projection _

theorem sends_sort {keys : List SortKey}
    (h : Sends src limit (if keys.isEmpty then [] else [.sort keys]) rows out) :
    out = stableSort (compareBy keys) rows := by
  cases keys with
  | nil =>
      rw [Graph.stableSort_of_not_lt _ fun a _ b _ => Ordering.noConfusion]
      exact h
  | cons key rest =>
      exact (sends_singleton h).eq_of_emit fun id l => Operator.map_expectSolutions_rows _

/-- Bindings are drawn from the last one down, so that the first one is made first. -/
theorem sends_bindOperators {bindings : List Binding}
    (h : Sends src limit (Planner.bindOperators bindings) rows out) :
    out = rows.map (bindAll bindings) := by
  induction bindings generalizing rows with
  | nil => exact Eq.trans h (List.map_id _).symm
  | cons b rest ih =>
      rw [Planner.bindOperators, List.reverse_cons, List.map_append, sends_append] at h
      obtain ⟨between, hb, hrest⟩ := h
      have hbetween : between = rows.map (bindValue b.target b.expression) :=
        (sends_singleton hb).eq_of_emit fun id l => Operator.emit_bind _ _
      rw [ih hrest, hbetween, List.map_map]
      rfl

theorem sends_group {c : Bool} {keys : List Variable} {table : AggregateTable}
    (h : Sends src limit (if c then [.group keys table] else []) rows out) :
    out = if c then groupSolutions keys table rows else rows := by
  cases c with
  | false => exact h
  | true =>
      exact (sends_singleton h).eq_of_emit (f := groupSolutions keys table) fun id l =>
        Operator.map_expectSolutions_rows _

end Kinds

/-! ## Filters -/

/-- The solutions of a plan that a drawing returns. -/
def Finds (src : Source) (limit : Nat) (draw : Draw Plan) (rows : List Solution) : Prop :=
  ∃ (d d' : Draft) (plan : Plan) (e : Evaluation), draw.runOn d = (.ok plan, d') ∧
    plan.evaluate src limit = .ok e ∧ e.solutions = rows

/-- The solutions of the existence patterns of an expression, each of which has a plan of its
own. -/
def Expression.Finds (p : Planner) (src : Source) (limit : Nat) (e : Expression)
    (found : List (List Solution)) : Prop :=
  List.Forall₂ (QuadAlgebra.Finds src limit) (e.drawNested p none) found

theorem forall₂_mapM_runOn {α : Type} {draws : List (Draw α)} {as : List α} {d d' : Draft}
    (h : (draws.mapM id).runOn d = (.ok as, d')) :
    List.Forall₂ (fun draw a => ∃ d d' : Draft, draw.runOn d = (.ok a, d')) draws as := by
  induction draws generalizing d d' as with
  | nil =>
      obtain ⟨has, -⟩ := Prod.mk.inj h
      obtain rfl := Except.ok.inj has
      exact .nil
  | cons draw rest ih =>
      rw [List.mapM_cons] at h
      obtain ⟨a, d₁, ha, h⟩ := Edit.runOn_bind_eq_ok.1 h
      obtain ⟨others, d₂, hothers, h⟩ := Edit.runOn_bind_eq_ok.1 h
      obtain ⟨has, -⟩ := Prod.mk.inj h
      obtain rfl := Except.ok.inj has
      exact .cons ⟨d, d₁, ha⟩ (ih hothers)

section Filters

variable {src : Source} {limit : Nat} {rows out : List Solution}

/-- A filter keeps the rows for which its condition holds, given what its plans find. -/
theorem PlannedFilter.sends {e : Expression} {nested : List (Draw Plan)} {op : Operator Plan}
    (hop : PlannedFilter e nested op) (hlength : nested.length = e.existencePatterns.length)
    (h : op.Sends src limit rows out) : ∃ found : List (List Solution),
      List.Forall₂ (Finds src limit) nested found ∧ out = rows.filter (e.holds found) := by
  obtain ⟨plans, slot, d, d', hplans, rfl⟩ := hop
  obtain ⟨id, l, rfl, hemit⟩ := h
  have hdrawn := forall₂_mapM_runOn hplans
  have hopened : (filterOver e plans slot).opened src limit = .filter ⟨e,
      (plans.map fun plan => (plan.evaluate src limit).map Evaluation.solutions).zipIdx.map
        fun p => (p.2, p.1), slot⟩ := by
    simp [filterOver, Operator.opened, Operator.withNested, Operator.nested, List.zipIdx_map,
      Function.comp_def]
  rw [hopened] at hemit
  cases hfound : nestedSolutions ((plans.map fun plan =>
      (plan.evaluate src limit).map Evaluation.solutions).zipIdx.map fun p => (p.2, p.1)) 0
        e.existencePatterns with
  | error error =>
      have herror : (Operator.filter (⟨e, (plans.map fun plan =>
          (plan.evaluate src limit).map Evaluation.solutions).zipIdx.map
            fun p => (p.2, p.1), slot⟩ :
            Filter (Except Error (List Solution)))).emit src id (solutionOperands l) =
          .error error := by
        show (do
          let rows ← expectSolutions id (solutionOperands l).rows
          let found ← nestedSolutions _ 0 e.existencePatterns
          return (rows.filter (e.holds found)).map Row.solution) = _
        rw [solutionOperands.rows_eq, expectSolutions_map, hfound]
        rfl
      rw [herror] at hemit
      cases hemit
  | ok found =>
      obtain ⟨hcount, hlookup⟩ := nestedSolutions_eq_ok hfound
      refine ⟨found, ?_, ?_⟩
      · refine List.forall₂_iff_get.2 ⟨hlength.trans hcount.symm, fun i hi hi' => ?_⟩
        have hplan : i < plans.length := hdrawn.length_eq ▸ hi
        obtain ⟨d, d', hrun⟩ := (List.forall₂_iff_get.1 hdrawn).2 i hi hplan
        have hi'' := hlookup i found[i] (List.getElem?_eq_getElem hi')
        rw [lookup_zipIdx, List.getElem?_map, List.getElem?_eq_getElem hplan, Option.map_some,
          Option.some.injEq] at hi''
        cases heval : plans[i].evaluate src limit with
        | error error => simp [heval, Except.map] at hi''
        | ok ev =>
            rw [heval] at hi''
            exact ⟨d, d', plans[i], ev, hrun, heval, Except.ok.inj hi''⟩
      · rw [Operator.emit_filter hfound] at hemit
        exact (List.map_injective_iff.2 Row.solution_injective (Except.ok.inj hemit)).symm

/-- Filters one below the other keep the rows for which all conditions hold. -/
theorem sends_filters {conditions : List Expression} {nested : List (List (Draw Plan))}
    {filters : List (Operator Plan)}
    (hfilters : List.Forall₂ (fun (c : Expression × List (Draw Plan)) op =>
      PlannedFilter c.1 c.2 op) (conditions.zip nested) filters)
    (hnested : List.Forall₂ (fun (e : Expression) (draws : List (Draw Plan)) =>
      draws.length = e.existencePatterns.length) conditions nested)
    (h : Sends src limit filters rows out) : ∃ found : List (List (List Solution)),
      List.Forall₂ (fun draws found => List.Forall₂ (Finds src limit) draws found) nested found ∧
      out = rows.filter fun row => (conditions.zip found).all fun c => c.1.holds c.2 row := by
  induction hnested generalizing filters out with
  | nil =>
      cases hfilters
      refine ⟨[], .nil, Eq.trans h ?_⟩
      simp
  | @cons e draws rest others hlength _ ih =>
      cases hfilters with
      | @cons _ op _ filters hop hrest =>
          obtain ⟨between, hbelow, hop'⟩ := h
          obtain ⟨found, hfound, rfl⟩ := ih hrest hbelow
          obtain ⟨first, hfirst, rfl⟩ := hop.sends hlength hop'
          refine ⟨first :: found, .cons hfirst hfound, ?_⟩
          rw [List.filter_filter]
          rfl

end Filters

end QuadAlgebra
