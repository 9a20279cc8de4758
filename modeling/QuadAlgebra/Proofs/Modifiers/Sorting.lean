import QuadAlgebra.Proofs.Number.Doubles
import QuadAlgebra.Proofs.Ordered.Laws
import QuadAlgebra.Proofs.Semantics.Flow

/-!
# Sorting solutions

Sort conditions order rows by optional terms: missing values first, then numbers, then all other
terms (`rankOf`). Within a rank, numbers are ordered by size and other terms by themselves
(`placeOf`). An undefined number breaks the pattern, since it is told apart from no number at all
(`orderOptional_eq`): between two numbers of different size it is equal to both, and sorting may
leave these two in the wrong order (`compareBy_undefined`).

Without undefined numbers the order is a total preorder, and the operator that sorts returns the
rows in ascending order, with rows that no condition tells apart in the order in which they came
(`sorting_laws`).
-/

namespace QuadAlgebra

attribute [local instance] lexOrd

/-! ## The order of optional terms -/

/-- The value is a number that is undefined. -/
def isUndefined (t : Option Term) : Bool := (t.bind Term.number?).any Float.isNaN

/-- Missing values come first, then numbers, then all other terms. -/
def rankOf : Option Term → Int
  | none => 0
  | some t => if t.number?.isSome then 1 else 2

/-- What places a value among those of its rank: the number, or the term itself. -/
def placeOf (t : Option Term) : (Int × Int × Int) × Option Term :=
  match t.bind Term.number? with
  | some x => (Double.standing x.toModel.unpack, none)
  | none => ((0, 0, 0), t)

/-- Ranks decide first. Within a rank, an undefined number is told apart from nothing. -/
theorem orderOptional_eq (s t : Option Term) : orderOptional s t =
    (compare (rankOf s) (rankOf t)).then
      (if isUndefined s || isUndefined t then .eq else compareKeys placeOf s t) := by
  rcases s with _ | s <;> rcases t with _ | t
  · rfl
  · cases ht : t.number? <;> simp [orderOptional, rankOf, ht] <;> rfl
  · cases hs : s.number? <;> simp [orderOptional, rankOf, hs] <;> rfl
  · cases hs : s.number? <;> cases ht : t.number? <;>
      simp only [orderOptional, Term.order, rankOf, isUndefined, placeOf, hs, ht, compareKeys,
        Option.bind_some, Option.any_none, Option.any_some, Option.isSome]
    · rfl
    · rfl
    · rfl
    · next x y =>
      by_cases hx : x.isNaN
      · rw [Double.compareFloats_eq, (Double.isNaN_iff x).1 hx, (Double.compare_notANumber _).2, hx]
        rfl
      by_cases hy : y.isNaN
      · rw [Double.compareFloats_eq, (Double.isNaN_iff y).1 hy, (Double.compare_notANumber _).1, hy,
          Bool.or_true]
        rfl
      · rw [Double.compareFloats_eq, Double.compare_eq_standing (mt (Double.isNaN_iff x).2 hx)
          (mt (Double.isNaN_iff y).2 hy), Bool.eq_false_of_not_eq_true hx,
          Bool.eq_false_of_not_eq_true hy]
        exact Ordering.then_eq.symm

theorem orderOptional_swap (s t : Option Term) : orderOptional t s = (orderOptional s t).swap := by
  have := compareKeys_trans placeOf
  have hrank : compare (rankOf t) (rankOf s) = (compare (rankOf s) (rankOf t)).swap :=
    Std.OrientedOrd.eq_swap
  have hplace : compareKeys placeOf t s = (compareKeys placeOf s t).swap := Std.OrientedCmp.eq_swap
  rw [orderOptional_eq, orderOptional_eq, Ordering.swap_then, hrank, hplace, Bool.or_comm,
    apply_ite Ordering.swap]
  rfl

theorem orderOptional_self (t : Option Term) : orderOptional t t = .eq := by
  have hself (o : Ordering) (h : o = o.swap) : o = .eq := by
    cases o <;> first | rfl | cases h
  exact hself _ (orderOptional_swap t t)

section Transitive

variable {r s t : Option Term}

/-- Between defined values the order is one by keys. -/
theorem orderOptional_of_defined (hs : isUndefined s = false) (ht : isUndefined t = false) :
    orderOptional s t = compareKeys (fun t => (rankOf t, placeOf t)) s t := by
  rw [orderOptional_eq, hs, ht]
  rfl

theorem rankOf_le_of_isLE (h : (orderOptional s t).isLE) : rankOf s ≤ rankOf t := by
  rw [orderOptional_eq, Ordering.isLE_then_iff_and] at h
  exact Int.isLE_compare.1 h.1

/-- Only an undefined number in the middle breaks transitivity. -/
theorem orderOptional_trans (hs : isUndefined s = false) (hrs : (orderOptional r s).isLE)
    (hst : (orderOptional s t).isLE) : (orderOptional r t).isLE := by
  have := compareKeys_trans fun t => (rankOf t, placeOf t)
  cases hrt : isUndefined r || isUndefined t with
  | true =>
    rw [orderOptional_eq, if_pos hrt, Ordering.then_eq]
    exact Int.isLE_compare.2 (Int.le_trans (rankOf_le_of_isLE hrs) (rankOf_le_of_isLE hst))
  | false =>
    obtain ⟨hr, ht⟩ := Bool.or_eq_false_iff.1 hrt
    rw [orderOptional_of_defined hr hs] at hrs
    rw [orderOptional_of_defined hs ht] at hst
    rw [orderOptional_of_defined hr ht]
    exact Std.TransCmp.isLE_trans hrs hst

/-- An undefined number is equal to every number. -/
theorem orderOptional_of_undefined (hs : isUndefined s = true) (ht : rankOf t = 1) :
    orderOptional s t = .eq := by
  have hrank : rankOf s = 1 := by
    rcases s with _ | s
    · cases hs
    · cases hnumber : s.number? with
      | none => simp [isUndefined, hnumber] at hs
      | some x => simp [rankOf, hnumber]
  rw [orderOptional_eq, hs, hrank, ht]
  rfl

end Transitive

/-! ## Sort conditions -/

/-- The order of two solutions by one condition. -/
def SortKey.order (key : SortKey) (s t : Solution) : Ordering :=
  let here := orderOptional (key.expression.value s []) (key.expression.value t [])
  match key.direction with
  | .ascending => here
  | .descending => here.swap

theorem compareBy_cons (key : SortKey) (keys : List SortKey) (s t : Solution) :
    compareBy (key :: keys) s t = (key.order s t).then (compareBy keys s t) := by
  have hfold (o : Ordering) : keys.foldl (fun o key => o.then (key.order s t)) o =
      o.then (keys.foldl (fun o key => o.then (key.order s t)) .eq) := by
    induction keys generalizing o with
    | nil => exact Ordering.then_eq.symm
    | cons key rest ih =>
        rw [List.foldl_cons, ih, List.foldl_cons, ih (Ordering.eq.then _), Ordering.then_assoc,
          Ordering.eq_then]
  exact hfold (key.order s t)

/-- No condition has an undefined number as its value in the solution. -/
def Sortable (keys : List SortKey) (s : Solution) : Prop :=
  ∀ key ∈ keys, isUndefined (key.expression.value s []) = false

instance (keys : List SortKey) (s : Solution) : Decidable (Sortable keys s) :=
  inferInstanceAs (Decidable (∀ key ∈ keys, _))

/-- Solutions without undefined numbers are in a total preorder. -/
theorem compareBy_trans {P : Solution → Prop} {keys : List SortKey}
    (h : ∀ s, P s → Sortable keys s) :
    Std.TransCmp fun s t : {s // P s} => compareBy keys s.1 t.1 := by
  induction keys with
  | nil => exact { eq_swap := rfl, isLE_trans := fun _ _ => rfl }
  | cons key keys ih =>
    have hkey : Std.TransCmp fun s t : {s // P s} => key.order s.1 t.1 := by
      have hdefined (s : {s // P s}) := h s.1 s.2 key List.mem_cons_self
      unfold SortKey.order
      cases key.direction with
      | ascending =>
        exact { eq_swap := orderOptional_swap _ _, isLE_trans := orderOptional_trans (hdefined _) }
      | descending =>
        simp only [← orderOptional_swap]
        exact {
          eq_swap := orderOptional_swap _ _
          isLE_trans := fun hst htr => orderOptional_trans (hdefined _) htr hst }
    have hkeys := ih fun s hs other hother => h s hs other (List.mem_cons_of_mem key hother)
    have hlex : (fun s t : {s // P s} => compareBy (key :: keys) s.1 t.1) =
        compareLex (fun s t => key.order s.1 t.1) fun s t => compareBy keys s.1 t.1 := by
      funext s t
      exact compareBy_cons key keys s.1 t.1
    rw [hlex]
    infer_instance

section Rows

variable {keys : List SortKey} {rows : List Solution}

/-- Sorting rows without undefined numbers is sorting by a total preorder. -/
theorem stableSort_compareBy (h : ∀ row ∈ rows, Sortable keys row) :
    (stableSort (compareBy keys) rows).Pairwise (fun s t => compareBy keys s t ≠ .gt) ∧
      ∀ row ∈ rows, (stableSort (compareBy keys) rows).filter (compareBy keys row · = .eq) =
        rows.filter (compareBy keys row · = .eq) := by
  have := compareBy_trans (P := Sortable keys) fun _ hs => hs
  obtain ⟨l, hl⟩ : ∃ l : List {s // Sortable keys s}, rows = l.map Subtype.val :=
    ⟨rows.attachWith _ h, (List.attachWith_map_subtype_val h).symm⟩
  have hsort := stableSort_map (fun s t : {s // Sortable keys s} => compareBy keys s.1 t.1)
    (compareBy keys) (fun _ _ => rfl) l
  rw [← hl] at hsort
  rw [hsort]
  refine ⟨List.pairwise_map.2 (sorted_stableSort _ l), fun row hrow => ?_⟩
  have hstable := filter_stableSort
    (fun s t : {s // Sortable keys s} => compareBy keys s.1 t.1) ⟨row, h row hrow⟩ l
  rw [hl, List.filter_map, List.filter_map]
  exact congrArg _ hstable

/-- The operator that sorts has solutions as its rows. -/
theorem Operator.emit_sort {src : Source} {id : OperatorId} {operands : Operands}
    (hrows : operands.rows = rows.map .solution) : (Operator.sort keys).emit src id operands =
      .ok ((stableSort (compareBy keys) rows).map .solution) := by
  rw [Operator.emit, hrows, expectSolutions_map]
  rfl

end Rows

/-- The order of optional terms is reflexive and reversed backwards, and it is transitive except
through undefined numbers, which are equal to every number. The operator that sorts returns its rows
in another order; and if no condition has an undefined number as its value in a row, then no row is
greater than a later one, and rows that compare equal stay in the order in which they came. -/
theorem sorting_laws (r s t : Option Term) (src : Source) (id : OperatorId) (keys : List SortKey)
    {operands : Operands} {rows : List Solution} (hrows : operands.rows = rows.map .solution) :
    orderOptional t t = .eq ∧
    orderOptional t s = (orderOptional s t).swap ∧
    (isUndefined s = false → (orderOptional r s).isLE → (orderOptional s t).isLE →
      (orderOptional r t).isLE) ∧
    (isUndefined s = true → rankOf t = 1 → orderOptional s t = .eq) ∧
    ∃ sorted : List Solution,
      (Operator.sort keys).emit src id operands = .ok (sorted.map .solution) ∧
      sorted.Perm rows ∧
      ((∀ row ∈ rows, Sortable keys row) →
        sorted.Pairwise (fun s t => compareBy keys s t ≠ .gt) ∧
        ∀ row ∈ rows, sorted.filter (compareBy keys row · = .eq) =
          rows.filter (compareBy keys row · = .eq)) :=
  ⟨orderOptional_self t, orderOptional_swap s t, orderOptional_trans, orderOptional_of_undefined,
    _, Operator.emit_sort hrows, stableSort_perm _ rows, stableSort_compareBy⟩

/-- Rows that give the variable `x` a value each. -/
def rowsOf (values : List Term) : List Solution := values.map fun t => .ofList [(⟨"x"⟩, t)]

/-- Sorting by the variable `x`. -/
def byValue (direction : Direction) : List SortKey := [⟨.variable ⟨"x"⟩, direction⟩]

/-- Two spellings of ten, a smaller number, an IRI and a missing value. -/
def mixedRows : List Solution :=
  ∅ :: rowsOf [.integer 10, .typed "9.5" Datatype.decimal, .iri "a", .typed "1e1" Datatype.double]

theorem sorting_laws_mixed :
    ((orderOptional none (some (.typed "1e1" Datatype.double))).isLE ∧
      (orderOptional (some (.typed "1e1" Datatype.double)) (some (.integer 10))).isLE ∧
      (orderOptional none (some (.integer 10))).isLE) ∧
    (∀ row ∈ mixedRows, Sortable (byValue .descending) row) ∧
    ∃ sorted : List Solution,
      (Operator.sort (byValue .descending)).emit ⟨.empty, default⟩ 1
      [(0, mixedRows.map .solution)] =
        .ok (sorted.map .solution) ∧
      sorted.Perm mixedRows ∧
      sorted.Pairwise (fun s t => compareBy (byValue .descending) s t ≠ .gt) ∧
      ∀ row ∈ mixedRows, sorted.filter (compareBy (byValue .descending) row · = .eq) =
        mixedRows.filter (compareBy (byValue .descending) row · = .eq) := by
  have hnone : (orderOptional none (some (.typed "1e1" Datatype.double))).isLE := by decide +kernel
  have hten : (orderOptional (some (.typed "1e1" Datatype.double)) (some (.integer 10))).isLE := by
    decide +kernel
  have hsortable : ∀ row ∈ mixedRows, Sortable (byValue .descending) row := by decide +kernel
  have hrows : Operands.rows [(0, mixedRows.map .solution)] = mixedRows.map .solution :=
    List.append_nil _
  obtain ⟨-, -, htrans, -, sorted, hemit, hperm, hsorted⟩ := sorting_laws none
    (some (.typed "1e1" Datatype.double)) (some (.integer 10)) ⟨.empty, default⟩ 1
      (byValue .descending) hrows
  exact ⟨⟨hnone, hten, htrans (by decide +kernel) hnone hten⟩, hsortable, sorted, hemit, hperm,
    hsorted hsortable⟩

/-- An undefined number hides that two is greater than one, and so sorting leaves the two in the
wrong order. -/
theorem compareBy_undefined :
    (¬ ∀ r s t, (orderOptional r s).isLE → (orderOptional s t).isLE → (orderOptional r t).isLE) ∧
    ∃ s t : Solution, (Operator.sort (byValue .ascending)).emit ⟨.empty, default⟩ 1
        [(0, (rowsOf [.integer 2, .typed "NaN" Datatype.double, .integer 1]).map .solution)] =
      .ok ([s, .ofList [(⟨"x"⟩, .typed "NaN" Datatype.double)], t].map .solution) ∧
      compareBy (byValue .ascending) s t = .gt := by
  constructor
  · intro h
    have hle := h (some (.integer 2)) (some (.typed "NaN" Datatype.double)) (some (.integer 1))
      (by decide +kernel) (by decide +kernel)
    revert hle
    decide +kernel
  · refine ⟨.ofList [(⟨"x"⟩, .integer 2)], .ofList [(⟨"x"⟩, .integer 1)], ?_, by decide +kernel⟩
    have hsort : stableSort (compareBy (byValue .ascending))
        (rowsOf [.integer 2, .typed "NaN" Datatype.double, .integer 1]) =
      rowsOf [.integer 2, .typed "NaN" Datatype.double, .integer 1] := by decide +kernel
    exact (Operator.emit_sort (List.append_nil _)).trans (by rw [hsort]; rfl)

end QuadAlgebra
