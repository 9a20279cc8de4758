import QuadAlgebra.Compilation
import QuadAlgebra.Proofs.Modifiers.Aggregates
import QuadAlgebra.Proofs.Planning.Pairs
import QuadAlgebra.Syntax.Build

/-!
# Extracting aggregates

Extraction gives every aggregate an interim variable, the same one to equal aggregates, and puts the
variables in the places of the aggregates (`Outputs.named_extract`). The variables are numbered in a
row, so they are all different (`Extraction.Numbered`). Where there is no aggregate nothing is
extracted (`Outputs.run_extract_of_not_hasAggregate`).

An aggregate has a value where solutions are grouped, and an existence pattern has one in a filter,
which carries a plan for it. Filters with aggregates and bindings with existence patterns are
rejected, but a binding with an aggregate is not, and neither is a selected existence pattern: both
end up in an operator that binds a variable to a value that never is (`compile_boundCount`).
-/

namespace QuadAlgebra

namespace Extraction

/-- The variables are the interim variables from some number up to the next one. -/
def Numbered (first : Nat) (s : Extraction) : Prop :=
  s.aggregates.map Prod.fst = (List.range' first s.aggregates.length).map Variable.interim ∧
    s.nextVar = first + s.aggregates.length

theorem numbered_start (first : Nat) : Numbered first ⟨[], first⟩ := ⟨rfl, rfl⟩

variable {first : Nat} {s s' s'' : Extraction}

theorem Numbered.nodup (h : s.Numbered first) : (s.aggregates.map Prod.fst).Nodup := by
  rw [h.1]
  exact (List.nodup_range').map Variable.interim_injective

theorem Numbered.mem (h : s.Numbered first) {v : Variable} (hv : v ∈ s.aggregates.map Prod.fst) :
    ∃ n, first ≤ n ∧ n < s.nextVar ∧ v = .interim n := by
  rw [h.1] at hv
  obtain ⟨n, hn, rfl⟩ := List.mem_map.1 hv
  obtain ⟨hle, hlt⟩ := List.mem_range'_1.1 hn
  exact ⟨n, hle, h.2 ▸ hlt, rfl⟩

/-- More aggregates have been given variables. -/
structure Extends (s s' : Extraction) : Prop where
  sub : ∀ p ∈ s.aggregates, p ∈ s'.aggregates
  numbered : ∀ first, s.Numbered first → s'.Numbered first

theorem Extends.refl : s.Extends s := ⟨fun _ h => h, fun _ h => h⟩

theorem Extends.trans (h : s.Extends s') (h' : s'.Extends s'') : s.Extends s'' :=
  ⟨fun p hp => h'.sub p (h.sub p hp), fun n hn => h'.numbered n (h.numbered n hn)⟩

end Extraction

/-! ## Expressions -/

theorem Aggregate.named_extract (a : Aggregate) (s : Extraction) :
    s.Extends (a.extract.run s).2 ∧
      (Expression.aggregate a).Named (a.extract.run s).2.aggregates (a.extract.run s).1 := by
  cases hfound : s.aggregates.find? (·.2 == a) with
  | some p =>
      have hrun : a.extract.run s = (.variable p.1, s) := by
        unfold extract
        simp [hfound]
        rfl
      have hequal := List.find?_some hfound
      have hsame : p.2 = a := p.2.eq_of_same a hequal
      rw [hrun]
      exact ⟨.refl, p.1, hsame ▸ List.mem_of_find?_eq_some hfound, rfl⟩
  | none =>
      have hrun : a.extract.run s = (.variable (.interim s.nextVar),
          ⟨s.aggregates ++ [(.interim s.nextVar, a)], s.nextVar + 1⟩) := by
        unfold extract
        simp [hfound]
        rfl
      rw [hrun]
      refine ⟨⟨fun p hp => List.mem_append_left _ hp, fun first ⟨hvars, hnext⟩ => ⟨?_, ?_⟩⟩,
        _, List.mem_append_right _ (List.mem_singleton_self _), rfl⟩
      · rw [List.map_append, hvars, List.length_append, List.length_singleton, hnext,
          List.range'_1_concat, List.map_append]
        rfl
      · rw [List.length_append, List.length_singleton, hnext, Nat.add_assoc]

mutual

/-- Extraction puts variables in the places of aggregates. -/
theorem Expression.named_extract : ∀ (e : Expression) (s : Extraction),
    s.Extends (e.extract.run s).2 ∧ e.Named (e.extract.run s).2.aggregates (e.extract.run s).1
  | .aggregate a, s => a.named_extract s
  | .binary l _ r, s => by
      obtain ⟨hl, hnamed⟩ := l.named_extract s
      obtain ⟨hr, hnamed'⟩ := r.named_extract (l.extract.run s).2
      exact ⟨hl.trans hr, _, _, hnamed.mono hr.sub, hnamed', rfl⟩
  | .unary _ e, s => by
      obtain ⟨he, hnamed⟩ := e.named_extract s
      exact ⟨he, _, hnamed, rfl⟩
  | .call _ args, s => by
      obtain ⟨hargs, hnamed⟩ := named_mapAggregatesOf args s
      exact ⟨hargs, _, hnamed, rfl⟩
  | .variable _, _ | .constant _, _ | .bound _, _ | .existence _ _, _ => ⟨.refl, rfl⟩

theorem named_mapAggregatesOf : ∀ (es : List Expression) (s : Extraction),
    s.Extends ((Expression.mapAggregatesOf Aggregate.extract es).run s).2 ∧
      NamedEach ((Expression.mapAggregatesOf Aggregate.extract es).run s).2.aggregates es
        ((Expression.mapAggregatesOf Aggregate.extract es).run s).1
  | [], _ => ⟨.refl, rfl⟩
  | e :: rest, s => by
      obtain ⟨he, hnamed⟩ := e.named_extract s
      obtain ⟨hrest, hnamed'⟩ := named_mapAggregatesOf rest (e.extract.run s).2
      exact ⟨he.trans hrest, _, _, hnamed.mono hrest.sub, hnamed', rfl⟩

end

mutual

/-- Without aggregates nothing is extracted. -/
theorem Expression.run_extract_of_not_hasAggregate : ∀ (e : Expression) (s : Extraction),
    e.hasAggregate = false → (e.extract.run s).2 = s
  | .aggregate _, _, h => by cases h
  | .binary l _ r, s, h => by
      rw [Expression.hasAggregate, Bool.or_eq_false_iff] at h
      have hl := l.run_extract_of_not_hasAggregate s h.1
      exact (congrArg (fun s => (r.extract.run s).2) hl).trans
        (r.run_extract_of_not_hasAggregate s h.2)
  | .unary _ e, s, h => e.run_extract_of_not_hasAggregate s h
  | .call _ args, s, h => run_mapAggregatesOf_of_not_anyAggregate args s h
  | .variable _, _, _ | .constant _, _, _ | .bound _, _, _ | .existence _ _, _, _ => rfl

theorem run_mapAggregatesOf_of_not_anyAggregate : ∀ (es : List Expression) (s : Extraction),
    Expression.anyAggregate es = false →
      ((Expression.mapAggregatesOf Aggregate.extract es).run s).2 = s
  | [], _, _ => rfl
  | e :: rest, s, h => by
      rw [Expression.anyAggregate, Bool.or_eq_false_iff] at h
      have he := e.run_extract_of_not_hasAggregate s h.1
      exact (congrArg (fun s =>
        ((Expression.mapAggregatesOf Aggregate.extract rest).run s).2) he).trans
          (run_mapAggregatesOf_of_not_anyAggregate rest s h.2)

end

mutual

/-- Variables in the places of aggregates need entries in the table. -/
theorem Expression.Named.ne_nil {table : AggregateTable} :
    ∀ {e e' : Expression}, e.Named table e' → e.hasAggregate = true → table ≠ []
  | .aggregate _, _, ⟨_, hv, _⟩, _ => List.ne_nil_of_mem hv
  | .binary _ _ _, _, ⟨_, _, hl, hr, _⟩, h => by
      rw [Expression.hasAggregate, Bool.or_eq_true] at h
      exact h.elim hl.ne_nil hr.ne_nil
  | .unary _ _, _, ⟨_, hf, _⟩, h => hf.ne_nil h
  | .call _ _, _, ⟨_, hargs, _⟩, h => hargs.ne_nil h
  | .variable _, _, _, h | .constant _, _, _, h | .bound _, _, _, h
  | .existence _ _, _, _, h => by cases h

theorem NamedEach.ne_nil {table : AggregateTable} :
    ∀ {es es' : List Expression}, NamedEach table es es' →
      Expression.anyAggregate es = true → table ≠ []
  | [], _, _, h => by cases h
  | _ :: _, _, ⟨_, _, hf, hrest, _⟩, h => by
      rw [Expression.anyAggregate, Bool.or_eq_true] at h
      exact h.elim hf.ne_nil hrest.ne_nil

end

/-! ## All expressions above groups -/

def SelectItem.hasAggregate : SelectItem → Bool
  | .variable _ => false
  | .computed e _ => e.hasAggregate

def SortKey.hasAggregate (k : SortKey) : Bool := k.expression.hasAggregate

/-- The second item is the first one with variables for its aggregates. -/
def SelectItem.Named (table : AggregateTable) : SelectItem → SelectItem → Prop
  | .variable v, i => i = .variable v
  | .computed e target, i => ∃ e', e.Named table e' ∧ i = .computed e' target

def SortKey.Named (table : AggregateTable) (k k' : SortKey) : Prop :=
  k.expression.Named table k'.expression ∧ k'.direction = k.direction

def Binding.Named (table : AggregateTable) (b b' : Binding) : Prop :=
  b.expression.Named table b'.expression ∧ b'.target = b.target

namespace Outputs

/-- The second expressions are the first ones with variables for their aggregates. -/
structure Named (table : AggregateTable) (o o' : Outputs) : Prop where
  items : Option.Rel (List.Forall₂ (SelectItem.Named table)) o.items o'.items
  having : List.Forall₂ (Expression.Named table) o.having o'.having
  orderBy : List.Forall₂ (SortKey.Named table) o.orderBy o'.orderBy

/-- Whether an aggregate stands in one of the expressions. -/
def hasAggregate (o : Outputs) : Bool :=
  (o.items.getD []).any SelectItem.hasAggregate || o.having.any Expression.hasAggregate ||
    o.orderBy.any SortKey.hasAggregate

end Outputs

section Lists

variable {α : Type} {extract : α → StateM Extraction α}

/-- Extraction from several expressions, one after the other. -/
theorem named_mapM (named : AggregateTable → α → α → Prop)
    (hmono : ∀ {table table' a a'}, (∀ p ∈ table, p ∈ table') → named table a a' →
      named table' a a')
    (h : ∀ a s, s.Extends ((extract a).run s).2 ∧
      named ((extract a).run s).2.aggregates a ((extract a).run s).1) (l : List α)
    (s : Extraction) : s.Extends ((l.mapM extract).run s).2 ∧
      List.Forall₂ (named ((l.mapM extract).run s).2.aggregates) l ((l.mapM extract).run s).1 := by
  induction l generalizing s with
  | nil => exact ⟨.refl, .nil⟩
  | cons a rest ih =>
      rw [List.mapM_cons]
      obtain ⟨ha, hnamed⟩ := h a s
      obtain ⟨hrest, hnamed'⟩ := ih ((extract a).run s).2
      exact ⟨ha.trans hrest, .cons (hmono hrest.sub hnamed) hnamed'⟩

theorem run_mapM_of_not {l : List α} (extract : α → StateM Extraction α)
    (hasAggregate : α → Bool) (h : ∀ a s, hasAggregate a = false → ((extract a).run s).2 = s)
    (hl : l.any hasAggregate = false) (s : Extraction) : ((l.mapM extract).run s).2 = s := by
  induction l with
  | nil => rfl
  | cons a rest ih =>
      rw [List.any_cons, Bool.or_eq_false_iff] at hl
      rw [List.mapM_cons]
      exact (congrArg (fun s => ((rest.mapM extract).run s).2) (h a s hl.1)).trans (ih hl.2)

end Lists

theorem SelectItem.Named.mono {table table' : AggregateTable} (hsub : ∀ p ∈ table, p ∈ table')
    {i i' : SelectItem} (h : i.Named table i') : i.Named table' i' := by
  cases i with
  | «variable» v => exact h
  | computed e target =>
      obtain ⟨e', he, rfl⟩ := h
      exact ⟨e', he.mono hsub, rfl⟩

theorem SelectItem.named_extract (i : SelectItem) (s : Extraction) :
    s.Extends ((Outputs.extractItem i).run s).2 ∧
      i.Named ((Outputs.extractItem i).run s).2.aggregates ((Outputs.extractItem i).run s).1 := by
  cases i with
  | «variable» v => exact ⟨.refl, rfl⟩
  | computed e target =>
      obtain ⟨he, hnamed⟩ := e.named_extract s
      exact ⟨he, _, hnamed, rfl⟩

/-- The expression of a key for sorting, extracted. -/
def SortKey.extract (k : SortKey) : StateM Extraction SortKey := do
  return ⟨← k.expression.extract, k.direction⟩

theorem SortKey.named_extract (k : SortKey) (s : Extraction) :
    s.Extends (k.extract.run s).2 ∧
      k.Named (k.extract.run s).2.aggregates (k.extract.run s).1 := by
  obtain ⟨he, hnamed⟩ := k.expression.named_extract s
  exact ⟨he, hnamed, rfl⟩

namespace Outputs

/-- Extraction puts variables in the places of all aggregates. -/
theorem named_extract (o : Outputs) (s : Extraction) :
    s.Extends (o.extract.run s).2 ∧
      o.Named (o.extract.run s).2.aggregates (o.extract.run s).1 := by
  obtain ⟨items, having, orderBy⟩ := o
  have hitems {table table' : AggregateTable} (hsub : ∀ p ∈ table, p ∈ table')
      {l l' : List SelectItem} (h : List.Forall₂ (SelectItem.Named table) l l') :
      List.Forall₂ (SelectItem.Named table') l l' := h.imp fun _ _ h => h.mono hsub
  -- what follows once the items have been dealt with
  have hrest (s : Extraction) := named_mapM Expression.Named
    (fun hsub h => h.mono hsub) Expression.named_extract having s
  have hlast (s : Extraction) := named_mapM SortKey.Named
    (fun hsub h => ⟨h.1.mono hsub, h.2⟩) SortKey.named_extract orderBy s
  cases items with
  | none =>
      obtain ⟨hhaving, hnamed⟩ := hrest s
      obtain ⟨horder, hkeys⟩ := hlast ((having.mapM Expression.extract).run s).2
      exact ⟨hhaving.trans horder, .none, hnamed.imp fun _ _ h => h.mono horder.sub, hkeys⟩
  | some items =>
      obtain ⟨hitem, hselected⟩ := named_mapM SelectItem.Named
        (fun hsub h => h.mono hsub) SelectItem.named_extract items s
      obtain ⟨hhaving, hnamed⟩ := hrest ((items.mapM extractItem).run s).2
      obtain ⟨horder, hkeys⟩ := hlast
        ((having.mapM Expression.extract).run ((items.mapM extractItem).run s).2).2
      exact ⟨hitem.trans (hhaving.trans horder),
        .some (hitems (hhaving.trans horder).sub hselected),
        hnamed.imp fun _ _ h => h.mono horder.sub, hkeys⟩

/-- Without aggregates nothing is extracted. -/
theorem run_extract_of_not_hasAggregate {o : Outputs} (h : o.hasAggregate = false)
    (s : Extraction) : (o.extract.run s).2 = s := by
  obtain ⟨items, having, orderBy⟩ := o
  rw [hasAggregate, Bool.or_eq_false_iff, Bool.or_eq_false_iff] at h
  obtain ⟨⟨hitems, hhaving⟩, horder⟩ := h
  have hrest (s : Extraction) :
      ((orderBy.mapM SortKey.extract).run ((having.mapM Expression.extract).run s).2).2 = s :=
    (run_mapM_of_not SortKey.extract SortKey.hasAggregate
      (fun k s h => k.expression.run_extract_of_not_hasAggregate s h) horder _).trans
    (run_mapM_of_not Expression.extract Expression.hasAggregate
      (fun e s h => e.run_extract_of_not_hasAggregate s h) hhaving s)
  cases items with
  | none => exact hrest s
  | some items =>
      refine (hrest _).trans
        (run_mapM_of_not extractItem SelectItem.hasAggregate (fun i s h => ?_) hitems s)
      cases i with
      | «variable» v => rfl
      | computed e target => exact e.run_extract_of_not_hasAggregate s h

theorem Named.ne_nil {table : AggregateTable} {o o' : Outputs} (h : o.Named table o')
    (hagg : o.hasAggregate = true) : table ≠ [] := by
  have hsome {α : Type} {named : α → α → Prop} {l l' : List α} {hasAggregate : α → Bool}
      (hl : List.Forall₂ named l l') (hany : l.any hasAggregate = true)
      (hne : ∀ a a', named a a' → hasAggregate a = true → table ≠ []) : table ≠ [] := by
    obtain ⟨a, ha, hagg⟩ := List.any_eq_true.1 hany
    obtain ⟨a', -, hnamed⟩ := exists_of_forall₂ hl ha
    exact hne a a' hnamed hagg
  rw [hasAggregate, Bool.or_eq_true, Bool.or_eq_true] at hagg
  rcases hagg with (hagg | hagg) | hagg
  · obtain ⟨items, having, orderBy⟩ := o
    obtain ⟨items', having', orderBy'⟩ := o'
    have hitems : Option.Rel _ items items' := h.items
    cases hitems with
    | none => cases hagg
    | some hrel =>
        refine hsome hrel hagg fun i i' hnamed hi => ?_
        cases i with
        | «variable» v => cases hi
        | computed e target =>
            obtain ⟨e', he, -⟩ := hnamed
            exact he.ne_nil hi
  · exact hsome h.having hagg fun e e' he => he.ne_nil
  · exact hsome h.orderBy hagg fun k k' hk => hk.1.ne_nil

/-- The computed variables, with variables for the aggregates in their expressions. -/
theorem Named.bindings {table : AggregateTable} {o o' : Outputs} (h : o.Named table o') :
    List.Forall₂ (Binding.Named table) o.bindings o'.bindings := by
  obtain ⟨items, having, orderBy⟩ := o
  obtain ⟨items', having', orderBy'⟩ := o'
  have hitems : Option.Rel _ items items' := h.items
  cases hitems with
  | none => exact .nil
  | some hrel =>
      rw [Outputs.bindings, Outputs.bindings, Option.getD_some, Option.getD_some]
      clear h
      induction hrel with
      | nil => exact .nil
      | @cons i i' _ _ hi _ ih =>
          cases i with
          | «variable» v =>
              obtain rfl : i' = .variable v := hi
              exact ih
          | computed e target =>
              obtain ⟨e', he, rfl⟩ := hi
              exact .cons ⟨he, rfl⟩ ih

/-- Aggregates do not matter for which variables are selected. -/
theorem Named.targets {table : AggregateTable} {o o' : Outputs} (h : o.Named table o') :
    o'.items.map (fun items => items.map SelectItem.target) =
      o.items.map fun items => items.map SelectItem.target := by
  obtain ⟨items, having, orderBy⟩ := o
  obtain ⟨items', having', orderBy'⟩ := o'
  have hitems : Option.Rel _ items items' := h.items
  cases hitems with
  | none => rfl
  | some hrel =>
      rw [Option.map_some, Option.map_some, Option.some.injEq]
      clear h
      induction hrel with
      | nil => rfl
      | @cons i i' _ _ hi _ ih =>
          rw [List.map_cons, List.map_cons, ih]
          cases i with
          | «variable» v =>
              obtain rfl : i' = .variable v := hi
              rfl
          | computed e target =>
              obtain ⟨e', he, rfl⟩ := hi
              rfl

end Outputs

/-! ## Expressions without a value -/

/-- Whether an expression has neither aggregates nor existence patterns. -/
def Expression.isPlain (e : Expression) : Bool := !e.hasAggregate && !e.hasExistence

/-- Whether all aggregates and existence patterns of an operator stand where they have a value: the
former directly among the aggregates of a group, the latter in a filter with a plan for each. -/
def Operator.evaluates {γ : Type} : Operator γ → Bool
  | .filter f => !f.condition.hasAggregate &&
      f.nested.map Prod.fst == List.range f.condition.existencePatterns.length
  | .bind _ e => e.isPlain
  | .sort keys => keys.all fun k => k.expression.isPlain
  | .group _ aggregates => aggregates.all fun a => a.2.argument.all Expression.isPlain
  | _ => true

/-- The kinds of the operators of a plan that hold a misplaced expression. -/
def Plan.misplaced (p : Plan) : List Kind :=
  p.graph.ids.filterMap fun id => (p.graph.operator? id).bind fun op =>
    if op.evaluates then none else some op.kind

/-- How many solutions there are, bound to a variable: `SELECT * { BIND(COUNT(*) AS ?n) }`. -/
def boundCount : Query := .selectAll ⟨[.bind (.ofAggregate .count none) ⟨"n"⟩]⟩

/-- Whether there are solutions, selected: `SELECT (EXISTS {} AS ?x) {}`. -/
def selectedExistence : Query :=
  .select (.explicit [.computed (.existence true ⟨[]⟩) ⟨"x"⟩]) ⟨[]⟩

/-- Both queries are compiled, and keep an expression without a value in a binding. -/
theorem compile_boundCount :
    [boundCount, selectedExistence].map (fun q =>
      ((q.compile (.ofStore .empty)).runOn .empty).1.map fun prepared => prepared.plan.misplaced) =
      [.ok [.bind], .ok [.bind]] := by
  decide +kernel

end QuadAlgebra
