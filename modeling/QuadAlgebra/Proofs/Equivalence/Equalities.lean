import QuadAlgebra.Optimization.Filters
import QuadAlgebra.Semantics.Operator

/-!
# Conditions that compare terms

Where a condition is a conjunction of equalities of terms, it holds for a row exactly if both sides
of every equality are bound to the same term (`Expression.truth_equalities`). Equality of values is
equality of terms as soon as one side is an IRI, and a side without a term leaves every spelling of
an equality without an answer. So an operator that only compares terms emits what the filter emits
(`Filter.emit_equalities`).
-/

namespace QuadAlgebra

/-! ## Equality of values -/

namespace Term

variable {s t : Term}

theorem effectiveBool?_boolean (b : Bool) : (boolean b).effectiveBool? = some b := by
  cases b <;> decide

theorem number?_eq_none_of_isIri (h : t.isIri = true) : t.number? = none := by
  cases t with
  | iri _ => rfl
  | _ => cases h

theorem equalValue_of_isIri (h : s.isIri = true ∨ t.isIri = true) : s.equalValue t = (s == t) := by
  unfold equalValue
  rcases h with h | h
  · rw [number?_eq_none_of_isIri h]
  · rw [number?_eq_none_of_isIri h]
    cases s.number? <;> rfl

end Term

/-! ## Single equalities -/

/-- The answer to whether two items denote the same term; without a term on both sides there is
none. -/
def Solution.agree? (row : Solution) (e : Item × Item) : Option Bool :=
  (row.resolve e.1).bind fun s => (row.resolve e.2).map fun t => s == t

theorem satisfiesAll_eq (equalities : List (Item × Item)) (row : Solution) :
    satisfiesAll equalities row = equalities.all fun e => row.agree? e == some true := by
  unfold satisfiesAll
  congr 1
  funext e
  unfold Solution.agree?
  cases row.resolve e.1 <;> cases row.resolve e.2 <;> simp

namespace Expression

variable {row : Solution} {e l r : Expression} {i : Item} {pair : Item × Item}
  {found : List (List Solution)}

/-- Whether a condition holds for a row, if there is an answer. -/
def truth (e : Expression) (found : List (List Solution)) (row : Solution) : Option Bool :=
  (e.value row found).bind Term.effectiveBool?

theorem value_of_item? (h : e.item? = some i) : e.value row found = row.resolve i := by
  cases e with
  | «variable» v => cases h; rw [value]; rfl
  | constant t => cases h; rw [value]; rfl
  | _ => cases h

theorem equality?_eq_some (h : equality? l r = some pair) :
    l.item? = some pair.1 ∧ r.item? = some pair.2 := by
  obtain ⟨i, hi, h⟩ := Option.bind_eq_some_iff.1 h
  obtain ⟨j, hj, h⟩ := Option.bind_eq_some_iff.1 h
  cases h
  exact ⟨hi, hj⟩

theorem value_binary {op : Symbol} (hand : op ≠ .and) (hor : op ≠ .or) :
    (Expression.binary l op r).value row found =
      (l.value row (found.take l.existencePatterns.length)).bind fun s =>
        (r.value row (found.drop l.existencePatterns.length)).bind fun t => op.apply s t := by
  rw [value]
  · exact hand
  · exact hor

/-- What compares the terms of two items, whatever their values, asks whether the items agree. -/
theorem truth_of_compares {s t : Option Term} {compare : Term → Term → Option Term}
    (hs : s = row.resolve pair.1) (ht : t = row.resolve pair.2)
    (hcompare : ∀ a ∈ row.resolve pair.1, ∀ b ∈ row.resolve pair.2,
      compare a b = some (.boolean (a == b))) :
    (s.bind fun a => t.bind fun b => compare a b).bind Term.effectiveBool? = row.agree? pair := by
  subst hs ht
  unfold Solution.agree?
  cases ha : row.resolve pair.1 with
  | none => rfl
  | some a =>
      cases hb : row.resolve pair.2 with
      | none => rfl
      | some b =>
          simp only [Option.bind_some, Option.map_some]
          rw [hcompare a ha b hb, Option.bind_some, Term.effectiveBool?_boolean]

theorem truth_sameTerm (h : equality? l r = some pair) :
    (Expression.binary l .sameTerm r).truth found row = row.agree? pair := by
  obtain ⟨hl, hr⟩ := equality?_eq_some h
  unfold truth
  rw [value_binary (by decide) (by decide)]
  exact truth_of_compares (value_of_item? hl) (value_of_item? hr) fun _ _ _ _ => rfl

theorem isIri_of_resolve {t : Term} (hi : i.term?.any Term.isIri = true)
    (ht : row.resolve i = some t) : t.isIri = true := by
  cases i with
  | var v => cases hi
  | term u => cases ht; exact hi

theorem truth_equal (h : equality? l r = some pair)
    (hiri : (pair.1.term?.any Term.isIri || pair.2.term?.any Term.isIri) = true) :
    (Expression.binary l .equal r).truth found row = row.agree? pair := by
  obtain ⟨hl, hr⟩ := equality?_eq_some h
  unfold truth
  rw [value_binary (by decide) (by decide)]
  refine truth_of_compares (value_of_item? hl) (value_of_item? hr) fun a ha b hb => ?_
  have hiri : a.isIri = true ∨ b.isIri = true :=
    (Bool.or_eq_true _ _ ▸ hiri).imp (isIri_of_resolve · ha) (isIri_of_resolve · hb)
  rw [Symbol.apply, Term.equalValue_of_isIri hiri]

theorem truth_call {name : String} (h : equality? l r = some pair)
    (hname : name.toList.map Char.toLower = "sameterm".toList) :
    (Expression.call name [l, r]).truth found row = row.agree? pair := by
  obtain ⟨hl, hr⟩ := equality?_eq_some h
  have hlower : name.toLower = "sameterm" := by
    rw [← String.toList_inj, ← hname, ← String.toList_map]
    rfl
  have happly (a b : Term) : applyFunction name [a, b] = some (.boolean (a == b)) := by
    unfold applyFunction
    rw [hlower]
    rfl
  have hvalue : (Expression.call name [l, r]).value row found =
      (l.value row (found.take l.existencePatterns.length)).bind fun s =>
        (r.value row ((found.drop l.existencePatterns.length).take r.existencePatterns.length)).bind
          fun t => applyFunction name [s, t] := by
    rw [value, values, values, values]
    cases l.value row (found.take l.existencePatterns.length) with
    | none => rfl
    | some s =>
        cases r.value row
            ((found.drop l.existencePatterns.length).take r.existencePatterns.length) with
        | none => rfl
        | some t => rfl
  unfold truth
  rw [hvalue]
  exact truth_of_compares (value_of_item? hl) (value_of_item? hr) fun a _ b _ => happly a b

/-! ## Conjunctions -/

theorem truth_and :
    (Expression.binary l .and r).truth found row =
      conjunction (l.truth (found.take l.existencePatterns.length) row)
        (r.truth (found.drop l.existencePatterns.length) row) := by
  unfold truth
  rw [value]
  dsimp only
  cases conjunction _ _ with
  | none => rfl
  | some b => exact Term.effectiveBool?_boolean b

theorem conjunction_eq_some_true {a b : Option Bool} :
    conjunction a b = some true ↔ a = some true ∧ b = some true := by
  unfold conjunction
  grind

/-- A condition that is a conjunction of equalities holds where all of them are satisfied. -/
theorem truth_equalities {equalities : List (Item × Item)} (h : e.equalities? = some equalities)
    (found : List (List Solution)) :
    e.truth found row = some true ↔ satisfiesAll equalities row = true := by
  have hone {c : Expression} {pair : Item × Item} {found : List (List Solution)}
      (hc : c.truth found row = row.agree? pair) :
      c.truth found row = some true ↔ satisfiesAll [pair] row = true := by
    rw [hc, satisfiesAll_eq]
    simp
  fun_induction equalities? e generalizing equalities found with
  | case1 l r ihl ihr =>
      obtain ⟨left, hl, h⟩ := Option.bind_eq_some_iff.1 h
      obtain ⟨right, hr, h⟩ := Option.bind_eq_some_iff.1 h
      cases h
      rw [truth_and, conjunction_eq_some_true, satisfiesAll, List.all_append, Bool.and_eq_true]
      exact and_congr (ihl hl _) (ihr hr _)
  | case2 l r =>
      obtain ⟨pair, hpair, h⟩ := Option.bind_eq_some_iff.1 h
      cases h
      exact hone (truth_sameTerm hpair)
  | case3 l r =>
      obtain ⟨pair, hpair, h⟩ := Option.bind_eq_some_iff.1 h
      split at h
      · next hiri =>
        cases h
        exact hone (truth_equal hpair hiri)
      · cases h
  | case4 name l r hname =>
      obtain ⟨pair, hpair, h⟩ := Option.bind_eq_some_iff.1 h
      cases h
      exact hone (truth_call hpair hname)
  | case5 | case6 => cases h

/-- Such a condition asks for no existence patterns. -/
theorem existencePatterns_of_equalities {equalities : List (Item × Item)}
    (h : e.equalities? = some equalities) : e.existencePatterns = [] := by
  have hitem {e : Expression} {i : Item} (h : e.item? = some i) : e.existencePatterns = [] := by
    cases e with
    | «variable» v => rfl
    | constant t => rfl
    | _ => cases h
  have hpair {l r : Expression} {pair : Item × Item} (h : equality? l r = some pair) :
      l.existencePatterns = [] ∧ r.existencePatterns = [] :=
    (equality?_eq_some h).imp hitem hitem
  fun_induction equalities? e generalizing equalities with
  | case1 l r ihl ihr =>
      obtain ⟨left, hl, h⟩ := Option.bind_eq_some_iff.1 h
      obtain ⟨right, hr, -⟩ := Option.bind_eq_some_iff.1 h
      rw [existencePatterns, ihl hl, ihr hr]
      rfl
  | case2 l r | case3 l r =>
      obtain ⟨pair, h, -⟩ := Option.bind_eq_some_iff.1 h
      rw [existencePatterns, (hpair h).1, (hpair h).2]
      rfl
  | case4 name l r hname =>
      obtain ⟨pair, h, -⟩ := Option.bind_eq_some_iff.1 h
      rw [existencePatterns, existencePatternsOf, existencePatternsOf, existencePatternsOf,
        (hpair h).1, (hpair h).2]
      rfl
  | case5 | case6 => cases h

end Expression

/-! ## Filters -/

/-- Equalities are satisfied where the condition holds that is a conjunction of them. -/
theorem Expression.satisfiesAll_eq_holds {e : Expression} {equalities : List (Item × Item)}
    (h : e.equalities? = some equalities) (found : List (List Solution)) (row : Solution) :
    satisfiesAll equalities row = e.holds found row := by
  rw [Bool.eq_iff_iff, ← Expression.truth_equalities h found, Expression.holds,
    ← Expression.truth]
  cases e.truth found row <;> simp

/-- An operator on equalities emits what a filter emits whose condition is a conjunction of them. -/
theorem Operator.emit_ruleFilter_eq {f : Filter (Except Error (List Solution))}
    {equalities : List (Item × Item)} (h : f.condition.equalities? = some equalities) (src : Source)
    (id : OperatorId) (operands : Operands) :
    (Operator.ruleFilter equalities).emit src id operands =
      (Operator.filter f).emit src id operands := by
  have hnested : nestedSolutions f.nested 0 f.condition.existencePatterns = .ok [] := by
    rw [Expression.existencePatterns_of_equalities h]
    rfl
  rw [Operator.emit, Operator.emit, hnested]
  cases expectSolutions id operands.rows with
  | error e => rfl
  | ok rows =>
      show Except.ok ((rows.filter (satisfiesAll equalities)).map Row.solution) =
        .ok ((rows.filter (f.condition.holds [])).map Row.solution)
      rw [funext (Expression.satisfiesAll_eq_holds h [])]

/-- A filter whose condition is a conjunction of equalities of terms keeps the rows that satisfy all
of them, also where variables are unbound, and emits them as an operator on the equalities does. -/
theorem Filter.emit_equalities {f : Filter (Except Error (List Solution))}
    {equalities : List (Item × Item)} (h : f.condition.equalities? = some equalities) :
    (∀ (found : List (List Solution)) (row : Solution),
      satisfiesAll equalities row = f.condition.holds found row) ∧
    ∀ (src : Source) (id : OperatorId) (operands : Operands),
      (Operator.ruleFilter equalities).emit src id operands =
        (Operator.filter f).emit src id operands :=
  ⟨Expression.satisfiesAll_eq_holds h, Operator.emit_ruleFilter_eq h⟩

/-- A condition on a resource and a number, each compared in a spelling of its own. -/
def resourceAndOne : Expression :=
  .binary (.binary (.variable ⟨"x"⟩) .equal (.constant (.iri "a"))) .and
    (.call "SameTerm" [.variable ⟨"y"⟩, .constant (.typed "1" Datatype.integer)])

theorem Filter.emit_equalities_resourceAndOne :
    resourceAndOne.equalities? = some [(.var ⟨"x"⟩, .term (.iri "a")),
      (.var ⟨"y"⟩, .term (.typed "1" Datatype.integer))] ∧
    resourceAndOne.holds [] (.ofList [(⟨"x"⟩, .iri "a")]) = false ∧
    resourceAndOne.holds [] (.ofList [(⟨"x"⟩, .iri "a"), (⟨"y"⟩, .typed "01" Datatype.integer)]) =
      false ∧
    resourceAndOne.holds [] (.ofList [(⟨"x"⟩, .iri "a"), (⟨"y"⟩, .typed "1" Datatype.integer)]) =
      true := by
  have hspecial : resourceAndOne.equalities? = some [(.var ⟨"x"⟩, .term (.iri "a")),
      (.var ⟨"y"⟩, .term (.typed "1" Datatype.integer))] := by decide +kernel
  obtain ⟨hholds, -⟩ := Filter.emit_equalities (f := ⟨resourceAndOne, [], none⟩) hspecial
  exact ⟨hspecial, (hholds [] _).symm.trans (by decide +kernel),
    (hholds [] _).symm.trans (by decide +kernel), (hholds [] _).symm.trans (by decide +kernel)⟩

end QuadAlgebra
