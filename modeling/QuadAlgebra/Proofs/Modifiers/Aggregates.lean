import QuadAlgebra.Planning.Solutions
import QuadAlgebra.Proofs.Solution.Lookup
import QuadAlgebra.Proofs.Syntax.Equality

/-!
# Aggregates and the variables that stand for them

An aggregate is evaluated over a group. Where it stands in an expression above the group, the
expression has the value that it has with the value of the aggregate in its place
(`Expression.over`). In a plan interim variables stand for the aggregates
(`Expression.Named`), and a group binds each of them to the value of its aggregate
(`GroupRow.withAggregates`). Both come to the same (`Expression.Named.value`).
-/

namespace QuadAlgebra

/-- A solution above groups, with the solutions of its group. -/
structure GroupRow where
  row : Solution
  members : List Solution

/-! ## Aggregates in their places -/

mutual

/-- The expression with its aggregates evaluated over a group. An aggregate without a value stays,
and has none. -/
def Expression.over (members : List Solution) : Expression → Expression
  | .aggregate a =>
    match a.value members with
    | some t => .constant t
    | none => .aggregate a
  | .binary l s r => .binary (l.over members) s (r.over members)
  | .unary s e => .unary s (e.over members)
  | .call name args => .call name (overEach members args)
  | e => e

def overEach (members : List Solution) : List Expression → List Expression
  | [] => []
  | e :: rest => e.over members :: overEach members rest

end

mutual

/-- The variables that an expression mentions outside of its aggregates. -/
def Expression.outerVars : Expression → VarSet
  | .variable v | .bound v => OrdSet.singleton v
  | .constant _ | .aggregate _ => ∅
  | .binary l _ r => l.outerVars ∪ r.outerVars
  | .unary _ e => e.outerVars
  | .call _ args => outerVarsOf args
  | .existence _ p => p.scope

def outerVarsOf : List Expression → VarSet
  | [] => ∅
  | e :: rest => e.outerVars ∪ outerVarsOf rest

end

/-! ## Variables in the places of aggregates -/

/-- Variables that stand for aggregates. -/
abbrev AggregateTable := List (Variable × Aggregate)

mutual

/-- The second expression is the first one with variables for its aggregates. -/
def Expression.Named (table : AggregateTable) : Expression → Expression → Prop
  | .aggregate a, e' => ∃ v, (v, a) ∈ table ∧ e' = .variable v
  | .binary l s r, e' => ∃ l' r', l.Named table l' ∧ r.Named table r' ∧ e' = .binary l' s r'
  | .unary s e, e' => ∃ f, e.Named table f ∧ e' = .unary s f
  | .call name args, e' => ∃ args', NamedEach table args args' ∧ e' = .call name args'
  | e, e' => e' = e

def NamedEach (table : AggregateTable) : List Expression → List Expression → Prop
  | [], es' => es' = []
  | e :: rest, es' => ∃ f rest', e.Named table f ∧ NamedEach table rest rest' ∧ es' = f :: rest'

end

section Tables

variable {table table' : AggregateTable}

mutual

theorem Expression.Named.mono (hsub : ∀ p ∈ table, p ∈ table') :
    ∀ {e e' : Expression}, e.Named table e' → e.Named table' e'
  | .aggregate _, _, ⟨v, hv, h⟩ => ⟨v, hsub _ hv, h⟩
  | .binary _ _ _, _, ⟨l', r', hl, hr, h⟩ => ⟨l', r', hl.mono hsub, hr.mono hsub, h⟩
  | .unary _ _, _, ⟨f, hf, h⟩ => ⟨f, hf.mono hsub, h⟩
  | .call _ _, _, ⟨args', hargs, h⟩ => ⟨args', hargs.mono hsub, h⟩
  | .variable _, _, h | .constant _, _, h | .bound _, _, h | .existence _ _, _, h => h

theorem NamedEach.mono (hsub : ∀ p ∈ table, p ∈ table') :
    ∀ {es es' : List Expression}, NamedEach table es es' → NamedEach table' es es'
  | [], _, h => h
  | _ :: _, _, ⟨f, rest', hf, hrest, h⟩ => ⟨f, rest', hf.mono hsub, hrest.mono hsub, h⟩

end

mutual

/-- Existence patterns stay in their places. -/
theorem Expression.Named.existencePatterns_eq :
    ∀ {e e' : Expression}, e.Named table e' → e'.existencePatterns = e.existencePatterns
  | .aggregate _, _, ⟨_, _, h⟩ => by rw [h]; rfl
  | .binary _ _ _, _, ⟨l', r', hl, hr, h⟩ => by
      rw [h, Expression.existencePatterns, Expression.existencePatterns, hl.existencePatterns_eq,
        hr.existencePatterns_eq]
  | .unary _ _, _, ⟨_, hf, h⟩ => by
      rw [h, Expression.existencePatterns, Expression.existencePatterns, hf.existencePatterns_eq]
  | .call _ _, _, ⟨_, hargs, h⟩ => by
      rw [h, Expression.existencePatterns, Expression.existencePatterns,
        hargs.existencePatternsOf_eq]
  | .variable _, _, h | .constant _, _, h | .bound _, _, h | .existence _ _, _, h => by rw [h]

theorem NamedEach.existencePatternsOf_eq : ∀ {es es' : List Expression}, NamedEach table es es' →
    Expression.existencePatternsOf es' = Expression.existencePatternsOf es
  | [], _, h => by rw [h]
  | _ :: _, _, ⟨_, _, hf, hrest, h⟩ => by
      rw [h, Expression.existencePatternsOf, Expression.existencePatternsOf,
        hf.existencePatterns_eq, hrest.existencePatternsOf_eq]

end

mutual

/-- Apart from the variables that stand for aggregates, the same variables are mentioned as outside
of the aggregates. -/
theorem Expression.Named.mem_vars {v : Variable} (hv : v ∉ table.map Prod.fst) :
    ∀ {e e' : Expression}, e.Named table e' → (v ∈ e'.vars ↔ v ∈ e.outerVars)
  | .aggregate a, _, ⟨w, hw, h⟩ => by
      subst h
      rw [Expression.vars, Expression.outerVars, OrdSet.mem_singleton]
      refine ⟨?_, fun h => absurd h (OrdSet.not_mem_empty v)⟩
      rintro rfl
      exact absurd (List.mem_map_of_mem hw) hv
  | .binary _ _ _, _, ⟨l', r', hl, hr, h⟩ => by
      rw [h, Expression.vars, Expression.outerVars, OrdSet.mem_union, OrdSet.mem_union,
        hl.mem_vars hv, hr.mem_vars hv]
  | .unary _ _, _, ⟨_, hf, h⟩ => by rw [h, Expression.vars, Expression.outerVars, hf.mem_vars hv]
  | .call _ _, _, ⟨_, hargs, h⟩ => by
      rw [h, Expression.vars, Expression.outerVars, hargs.mem_varsOf hv]
  | .variable _, _, h | .constant _, _, h | .bound _, _, h | .existence _ _, _, h => by
      rw [h]
      rfl

theorem NamedEach.mem_varsOf {v : Variable} (hv : v ∉ table.map Prod.fst) :
    ∀ {es es' : List Expression}, NamedEach table es es' →
      (v ∈ Expression.varsOf es' ↔ v ∈ outerVarsOf es)
  | [], _, h => by
      rw [h]
      rfl
  | _ :: _, _, ⟨_, _, hf, hrest, h⟩ => by
      rw [h, Expression.varsOf, outerVarsOf, OrdSet.mem_union, OrdSet.mem_union, hf.mem_vars hv,
        hrest.mem_varsOf hv]

end

end Tables

/-! ## Values -/

/-- Gives a variable a value, or takes it away. -/
def Solution.assign (s : Solution) (v : Variable) : Option Term → Solution
  | some t => s.insert v t
  | none => s.erase v

theorem Solution.get?_assign (s : Solution) (v w : Variable) (t : Option Term) :
    (s.assign v t).get? w = if w = v then t else s.get? w := by
  cases t with
  | some a => exact get?_insert s v w a
  | none => exact OrdMap.get?_erase s v w

namespace GroupRow

/-- What a plan has in the place of a row: the variables that stand for aggregates have the values
of these. -/
def withAggregates (table : AggregateTable) (g : GroupRow) : Solution :=
  table.foldl (fun s p => s.assign p.1 (p.2.value g.members)) g.row

variable {table : AggregateTable} {g : GroupRow} {v : Variable}

theorem withAggregates_cons (v : Variable) (a : Aggregate) :
    g.withAggregates ((v, a) :: table) =
      withAggregates table ⟨g.row.assign v (a.value g.members), g.members⟩ := rfl

theorem get?_withAggregates_of_not_mem (hv : v ∉ table.map Prod.fst) :
    (g.withAggregates table).get? v = g.row.get? v := by
  induction table generalizing g with
  | nil => rfl
  | cons p rest ih =>
      rw [List.map_cons, List.mem_cons, not_or] at hv
      rw [withAggregates_cons, ih hv.2, Solution.get?_assign, if_neg hv.1]

theorem get?_withAggregates (hnodup : (table.map Prod.fst).Nodup) {a : Aggregate}
    (h : (v, a) ∈ table) : (g.withAggregates table).get? v = a.value g.members := by
  induction table generalizing g with
  | nil => cases h
  | cons p rest ih =>
      rw [List.map_cons, List.nodup_cons] at hnodup
      rcases List.mem_cons.1 h with rfl | h
      · rw [withAggregates_cons, get?_withAggregates_of_not_mem hnodup.1, Solution.get?_assign,
          if_pos rfl]
      · rw [withAggregates_cons, ih hnodup.2 h]

end GroupRow

/-- A row of a nested plan that binds none of some variables is compatible with a solution whatever
that binds them to. -/
theorem Solution.compatible_congr {s t r : Solution} {hidden : List Variable}
    (hsame : ∀ v ∉ hidden, s.get? v = t.get? v) (hr : ∀ v ∈ hidden, r.get? v = none) :
    r.compatible s = r.compatible t := by
  rw [Bool.eq_iff_iff, compatible_iff, compatible_iff]
  refine forall_congr' fun v => forall_congr' fun a => forall_congr' fun b => imp_congr_right
    fun ha => ?_
  have hv : v ∉ hidden := fun hv => by simp [hr v hv] at ha
  rw [hsame v hv]

mutual

/-- Existence patterns stay in their places. -/
theorem Expression.existencePatterns_over (members : List Solution) :
    ∀ e : Expression, (e.over members).existencePatterns = e.existencePatterns
  | .aggregate a => by
      rw [Expression.over]
      cases a.value members <;> rfl
  | .binary l _ r => by
      rw [Expression.over, Expression.existencePatterns, Expression.existencePatterns,
        l.existencePatterns_over, r.existencePatterns_over]
  | .unary _ e => by
      rw [Expression.over, Expression.existencePatterns, Expression.existencePatterns,
        e.existencePatterns_over]
  | .call _ args => by
      rw [Expression.over, Expression.existencePatterns, Expression.existencePatterns,
        existencePatternsOf_overEach]
  | .variable _ | .constant _ | .bound _ | .existence _ _ => rfl

theorem existencePatternsOf_overEach (members : List Solution) : ∀ es : List Expression,
    Expression.existencePatternsOf (overEach members es) = Expression.existencePatternsOf es
  | [] => rfl
  | e :: rest => by
      rw [overEach, Expression.existencePatternsOf, Expression.existencePatternsOf,
        e.existencePatterns_over, existencePatternsOf_overEach]

end

section Values

variable {table : AggregateTable}

/-- The existence patterns have solutions that bind none of the variables for aggregates. -/
def FoundAside (table : AggregateTable) (found : List (List Solution)) : Prop :=
  ∀ rows ∈ found, ∀ r ∈ rows, ∀ v ∈ table.map Prod.fst, r.get? v = none

theorem FoundAside.take {found : List (List Solution)} (h : FoundAside table found) (n : Nat) :
    FoundAside table (found.take n) := fun rows hrows => h rows (List.mem_of_mem_take hrows)

theorem FoundAside.drop {found : List (List Solution)} (h : FoundAside table found) (n : Nat) :
    FoundAside table (found.drop n) := fun rows hrows => h rows (List.mem_of_mem_drop hrows)

mutual

/-- An expression has the same value with variables in the places of its aggregates as with the
values of the aggregates there, if it mentions none of these variables. -/
theorem Expression.Named.value (hnodup : (table.map Prod.fst).Nodup) (g : GroupRow) :
    ∀ {e e' : Expression} {found : List (List Solution)}, e.Named table e' →
    (∀ v ∈ e.outerVars, v ∉ table.map Prod.fst) → FoundAside table found →
    e'.value (g.withAggregates table) found = (e.over g.members).value g.row found
  | .aggregate a, _, _, ⟨v, hv, h⟩, _, _ => by
      rw [h, Expression.value, GroupRow.get?_withAggregates hnodup hv, Expression.over]
      cases ha : a.value g.members <;> rfl
  | .binary l s r, _, found, ⟨l', r', hl, hr, h⟩, hvars, hfound => by
      have hcount : (l.over g.members).existencePatterns.length = l'.existencePatterns.length := by
        rw [l.existencePatterns_over, hl.existencePatterns_eq]
      have hleft := Expression.Named.value hnodup g hl
        (fun v hv => hvars v (OrdSet.mem_union.2 (.inl hv)))
        (hfound.take l'.existencePatterns.length)
      have hright := Expression.Named.value hnodup g hr
        (fun v hv => hvars v (OrdSet.mem_union.2 (.inr hv)))
        (hfound.drop l'.existencePatterns.length)
      rw [h, Expression.over]
      simp only [Expression.value, hcount, hleft, hright]
  | .unary s e, _, found, ⟨f, hf, h⟩, hvars, hfound => by
      rw [h, Expression.over, Expression.value, Expression.value,
        Expression.Named.value hnodup g hf hvars hfound]
  | .call name args, _, found, ⟨args', hargs, h⟩, hvars, hfound => by
      rw [h, Expression.over, Expression.value, Expression.value,
        NamedEach.values hnodup g hargs hvars hfound]
  | .variable v, _, _, h, hvars, _ => by
      rw [h, Expression.over, Expression.value, Expression.value]
      · exact GroupRow.get?_withAggregates_of_not_mem (hvars v (OrdSet.mem_singleton.2 rfl))
      all_goals simp
  | .constant _, _, _, h, _, _ => by
      rw [h]
      rfl
  | .bound v, _, _, h, hvars, _ => by
      have hv := GroupRow.get?_withAggregates_of_not_mem (g := g)
        (hvars v (OrdSet.mem_singleton.2 rfl))
      rw [h, Expression.over, Expression.value, Expression.value]
      · rw [OrdMap.contains, OrdMap.contains, hv]
      all_goals simp
  | .existence _ _, _, found, h, _, hfound => by
      rw [h, Expression.over, Expression.value, Expression.value]
      · cases found with
        | nil => rfl
        | cons rows _ =>
            have hany : rows.any (·.compatible (g.withAggregates table)) =
                rows.any (·.compatible g.row) := by
              rw [Bool.eq_iff_iff, List.any_eq_true, List.any_eq_true]
              refine exists_congr fun r => and_congr_right fun hr => ?_
              rw [Solution.compatible_congr
                (fun v hv => GroupRow.get?_withAggregates_of_not_mem hv)
                (hfound rows List.mem_cons_self r hr)]
            simp only [List.head?_cons, Option.map_some, hany]
      all_goals simp

theorem NamedEach.values (hnodup : (table.map Prod.fst).Nodup) (g : GroupRow) :
    ∀ {es es' : List Expression} {found : List (List Solution)}, NamedEach table es es' →
    (∀ v ∈ outerVarsOf es, v ∉ table.map Prod.fst) → FoundAside table found →
    Expression.values (g.withAggregates table) es' found =
      Expression.values g.row (overEach g.members es) found
  | [], _, _, h, _, _ => by
      rw [h]
      rfl
  | e :: rest, _, found, ⟨f, rest', hf, hrest, h⟩, hvars, hfound => by
      have hcount : (e.over g.members).existencePatterns.length = f.existencePatterns.length := by
        rw [e.existencePatterns_over, hf.existencePatterns_eq]
      have hfirst := Expression.Named.value hnodup g hf
        (fun v hv => hvars v (OrdSet.mem_union.2 (.inl hv)))
        (hfound.take f.existencePatterns.length)
      have hothers := NamedEach.values hnodup g hrest
        (fun v hv => hvars v (OrdSet.mem_union.2 (.inr hv)))
        (hfound.drop f.existencePatterns.length)
      rw [h, overEach]
      simp only [Expression.values, hcount, hfirst, hothers]

end

end Values

end QuadAlgebra
