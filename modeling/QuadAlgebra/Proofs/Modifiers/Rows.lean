import QuadAlgebra.Proofs.Modifiers.Dependencies
import QuadAlgebra.Proofs.Modifiers.Extraction
import QuadAlgebra.Proofs.Relocation.Results

/-!
# What modifiers make of solutions

The solutions of a selection are made from those of its pattern in steps (`Schedule.solutions`):
computed keys are bound, solutions are grouped, groups that meet all conditions are kept, computed
variables are bound, the rest is sorted, projected, freed of repetitions and cut. Aggregates are
evaluated where they stand, over the members of the group. A plan does the same with variables in
the places of the aggregates (`GroupRow.withAggregates`), and no step tells the difference.
-/

namespace QuadAlgebra

/-! ## Steps -/

/-- Binds computed variables, one after the other. -/
def bindAll (bindings : List Binding) (row : Solution) : Solution :=
  bindings.foldl (fun row b => bindValue b.target b.expression row) row

/-- The groups of solutions that agree on the key variables, in the order in which their keys first
occur. What remains of the solutions of a group is the key. Without key variables there is always
one group. -/
def groupRows (keys : List Variable) (rows : List Solution) : List GroupRow :=
  if rows.isEmpty && keys.isEmpty then [⟨∅, []⟩]
  else (distinctOf (rows.map (groupKey keys))).map fun key =>
    let members := rows.filter (groupKey keys · == key)
    ⟨(members.headD ∅).restrict (.ofList keys), members⟩

namespace GroupRow

/-- The value of an expression whose aggregates are evaluated over the group. -/
def value (g : GroupRow) (e : Expression) : Option Term := (e.over g.members).value g.row []

/-- Whether a condition holds, whose existence patterns have the given solutions. -/
def meets (g : GroupRow) (condition : Expression) (found : List (List Solution)) : Bool :=
  (condition.over g.members).holds found g.row

def bind (g : GroupRow) (b : Binding) : GroupRow :=
  { g with row := bindValue b.target (b.expression.over g.members) g.row }

/-- The order of two rows by the first key that tells them apart. -/
def compareBy (keys : List SortKey) (g h : GroupRow) : Ordering :=
  keys.foldl (fun o key =>
    o.then
      (let here := orderOptional (g.value key.expression) (h.value key.expression)
       match key.direction with
       | .ascending => here
       | .descending => here.swap)) .eq

end GroupRow

/-- The selected part of a solution. -/
def Selection.project : Selection → Solution → Solution
  | .wildcard, row => row
  | .explicit items, row => row.restrict (.ofList (items.map SelectItem.target))

/-- Removes later repetitions, unless all solutions are wanted. -/
def Duplicates.removed (d : Duplicates) (rows : List Solution) : List Solution :=
  if d = .all then rows else distinctOf rows

/-- Keeps as many as are wanted behind those that are skipped. -/
def Modifiers.cut (m : Modifiers) (rows : List Solution) : List Solution :=
  let rest := rows.drop (m.offset.getD 0)
  m.limit.elim rest rest.take

/-- The expressions of a selection that stand above its groups. -/
def Modifiers.outputs (m : Modifiers) : Selection → Outputs
  | .wildcard => ⟨.none, m.having, m.orderBy⟩
  | .explicit items => ⟨.some items, m.having, m.orderBy⟩

/-- Whether solutions are grouped: there are keys, or there is an aggregate. -/
def Modifiers.isGrouped (m : Modifiers) (s : Selection) : Bool :=
  !m.groupBy.isEmpty || (m.outputs s).hasAggregate

/-- The key variables of conditions for grouping, with the bindings of those that are computed. Keys
without a name are numbered from the given number on. -/
def keysFrom : Nat → List GroupKey → List (Variable × List Binding)
  | _, [] => []
  | n, .variable v :: rest => (v, []) :: keysFrom n rest
  | n, .computed e (some target) :: rest => (target, [⟨target, e⟩]) :: keysFrom n rest
  | n, .computed e none :: rest => (.interim n, [⟨.interim n, e⟩]) :: keysFrom (n + 1) rest

/-- Computed variables in an order in which each comes behind those that its expression mentions
outside of aggregates. -/
structure Binding.Ordered (bindings order : List Binding) : Prop where
  perm : order.Perm bindings
  behind : ∀ before b after, order = before ++ b :: after →
    ∀ v ∈ b.expression.outerVars, v ∈ bindings.map target → v ∈ before.map target

/-- What a selection leaves open: its key variables, the order in which computed variables are
bound, and what its conditions find where they ask for existence. -/
structure Schedule where
  keys : List Variable
  keyBindings : List Binding
  bindings : List Binding
  /-- For every condition, the solutions of its existence patterns. -/
  found : List (List (List Solution))

/-- The groups of the solutions of a pattern, once computed keys have been bound. Without grouping
every solution stands for itself. -/
def Schedule.groups (plan : Schedule) (s : Selection) (m : Modifiers) (rows : List Solution) :
    List GroupRow :=
  let keyed := rows.map (bindAll plan.keyBindings)
  if m.isGrouped s then groupRows plan.keys keyed else keyed.map (⟨·, []⟩)

/-- The solutions of a selection, from those of its pattern. -/
def Schedule.solutions (plan : Schedule) (d : Duplicates) (s : Selection) (m : Modifiers)
    (rows : List Solution) : List Solution :=
  let kept := (plan.groups s m rows).filter fun g =>
    (m.having.zip plan.found).all fun c => g.meets c.1 c.2
  let bound := kept.map (plan.bindings.foldl GroupRow.bind ·)
  let sorted := stableSort (GroupRow.compareBy m.orderBy) bound
  m.cut (d.removed (sorted.map fun g => s.project g.row))

/-- The key variable that a condition for grouping names. -/
def GroupKey.named : GroupKey → List Variable
  | .variable v => [v]
  | .computed _ target => target.toList

/-- No interim variable is mentioned above the pattern of a selection. -/
structure Modifiers.WithoutInterim (m : Modifiers) (s : Selection) : Prop where
  keys : ∀ k ∈ m.groupBy, ∀ v ∈ k.named, v.isInterim = false
  targets : ∀ items, s = .explicit items → ∀ i ∈ items, i.target.isInterim = false
  bindings : ∀ b ∈ (m.outputs s).bindings, ∀ v ∈ b.expression.outerVars, v.isInterim = false
  having : ∀ e ∈ m.having, ∀ v ∈ e.outerVars, v.isInterim = false
  orderBy : ∀ k ∈ m.orderBy, ∀ v ∈ k.expression.outerVars, v.isInterim = false

/-- A key variable is named in the query, or it is an interim variable that is numbered later. -/
theorem mem_keysFrom {n : Nat} {keys : List GroupKey} {v : Variable}
    (hv : v ∈ (keysFrom n keys).map Prod.fst) :
    (∃ k ∈ keys, v ∈ k.named) ∨ ∃ i, n ≤ i ∧ v = .interim i := by
  induction keys generalizing n with
  | nil => cases hv
  | cons key rest ih =>
      have hlater {n' : Nat} (hle : n ≤ n') (h : v ∈ (keysFrom n' rest).map Prod.fst) :
          (∃ k ∈ key :: rest, v ∈ k.named) ∨ ∃ i, n ≤ i ∧ v = .interim i :=
        (ih h).imp (fun ⟨k, hk, hv⟩ => ⟨k, List.mem_cons_of_mem _ hk, hv⟩)
          fun ⟨i, hi, hv⟩ => ⟨i, Nat.le_trans hle hi, hv⟩
      cases key with
      | «variable» w =>
          rcases List.mem_cons.1 hv with rfl | hv
          · exact .inl ⟨_, List.mem_cons_self, List.mem_singleton_self _⟩
          · exact hlater (Nat.le_refl n) hv
      | computed e target =>
          cases target with
          | some w =>
              rcases List.mem_cons.1 hv with rfl | hv
              · exact .inl ⟨_, List.mem_cons_self, List.mem_singleton_self _⟩
              · exact hlater (Nat.le_refl n) hv
          | none =>
              rcases List.mem_cons.1 hv with rfl | hv
              · exact .inr ⟨n, Nat.le_refl n, rfl⟩
              · exact hlater (Nat.le_succ n) hv

/-! ## Orders -/

mutual

theorem Expression.mem_vars_of_mem_outerVars {v : Variable} :
    ∀ {e : Expression}, v ∈ e.outerVars → v ∈ e.vars
  | .variable _, h | .bound _, h | .existence _ _, h => h
  | .constant _, h | .aggregate _, h => absurd h (OrdSet.not_mem_empty v)
  | .binary _ _ _, h => by
      rw [Expression.outerVars, OrdSet.mem_union] at h
      rw [Expression.vars, OrdSet.mem_union]
      exact h.imp Expression.mem_vars_of_mem_outerVars Expression.mem_vars_of_mem_outerVars
  | .unary _ e, h => e.mem_vars_of_mem_outerVars h
  | .call _ args, h => @mem_varsOf_of_mem_outerVarsOf v args h

theorem mem_varsOf_of_mem_outerVarsOf {v : Variable} :
    ∀ {es : List Expression}, v ∈ outerVarsOf es → v ∈ Expression.varsOf es
  | [], h => absurd h (OrdSet.not_mem_empty v)
  | _ :: _, h => by
      rw [outerVarsOf, OrdSet.mem_union] at h
      rw [Expression.varsOf, OrdSet.mem_union]
      exact h.imp Expression.mem_vars_of_mem_outerVars mem_varsOf_of_mem_outerVarsOf

end

/-- Sorting orders computed variables. -/
theorem Binding.ordered_of_sort {bindings order : List Binding}
    (h : Binding.sort bindings = .ok order) : Binding.Ordered bindings order := by
  obtain ⟨hperm, hbehind⟩ := sort_spec h
  exact ⟨hperm, fun before b after he v hv =>
    hbehind before b after he v (Expression.mem_vars_of_mem_outerVars hv)⟩

/-- Aggregates do not matter for the order of computed variables. -/
theorem Binding.exists_ordered {table : AggregateTable} {bindings bindings' order' : List Binding}
    (hnamed : List.Forall₂ (Binding.Named table) bindings bindings')
    (htargets : ∀ b ∈ bindings, b.target ∉ table.map Prod.fst)
    (h : Binding.sort bindings' = .ok order') : ∃ order,
      List.Forall₂ (Binding.Named table) order order' ∧ Binding.Ordered bindings order := by
  obtain ⟨hperm, hbehind⟩ := sort_spec h
  have hsame {l l' : List Binding} (hl : List.Forall₂ (Binding.Named table) l l') :
      l'.map target = l.map target := by
    induction hl with
    | nil => rfl
    | cons hb _ ih => rw [List.map_cons, List.map_cons, hb.2, ih]
  obtain ⟨order, hforall, hperm'⟩ : ∃ order, List.Forall₂ (Binding.Named table) order order' ∧
      order.Perm bindings := by
    obtain ⟨order, hperm', hforall⟩ := List.forall₂_comp_perm_eq_perm_comp_forall₂.le _ _
      ⟨bindings', hnamed, hperm.symm⟩
    exact ⟨order, hforall, hperm'.symm⟩
  refine ⟨order, hforall, hperm', fun before b after he v hv htarget => ?_⟩
  subst he
  have hbefore := List.forall₂_take_append _ before (b :: after) hforall.flip
  have hrest := List.forall₂_drop_append _ before (b :: after) hforall.flip
  obtain ⟨b', after', hb, -, hdrop⟩ := List.forall₂_cons_right_iff.1 hrest
  have hmentioned : v ∈ b'.expression.vars := by
    refine (hb.1.mem_vars fun hmem => ?_).2 hv
    obtain ⟨c, hc, rfl⟩ := List.mem_map.1 htarget
    exact htargets c hc hmem
  rw [← hsame hbefore.flip]
  refine hbehind _ b' after' ?_ v hmentioned (hsame hnamed ▸ htarget)
  rw [← hdrop, List.take_append_drop]

/-! ## Groups -/

section Groups

variable {keys : List Variable} {table : AggregateTable}

/-- Gives a variable a value, if there is one. -/
def Solution.bindOptional (s : Solution) (v : Variable) : Option Term → Solution
  | some t => s.insert v t
  | none => s

theorem Solution.bindOptional_eq_assign {s : Solution} {v : Variable} (hv : s.get? v = none)
    (t : Option Term) : s.bindOptional v t = s.assign v t := by
  cases t with
  | some a => rfl
  | none =>
      refine eq_of_get? fun w => ?_
      rw [get?_assign]
      split
      · next he => rw [he]; exact hv
      · rfl

theorem groupSolution_eq (aggregates : AggregateTable) (key : List (Option Term))
    (rows : List Solution) : groupSolution keys aggregates key rows =
      aggregates.foldl (fun s p => s.bindOptional p.1 (p.2.value rows))
        ((keys.zip key).foldl (fun s p => s.bindOptional p.1 p.2) ∅) := by
  rw [groupSolution, List.foldl_map]
  rfl

/-- The values of key variables, bound again, are what the variables are bound to. -/
theorem foldl_bindOptional_groupKey (row s : Solution) (v : Variable) (hs : s.get? v = none) :
    ((keys.zip (groupKey keys row)).foldl (fun s p => s.bindOptional p.1 p.2) s).get? v =
      if v ∈ keys then row.get? v else none := by
  suffices h : ∀ s : Solution, s.get? v = none ∨ s.get? v = row.get? v →
      ((keys.zip (groupKey keys row)).foldl (fun s p => s.bindOptional p.1 p.2) s).get? v =
        if v ∈ keys then row.get? v else s.get? v by
    rw [h s (.inl hs), hs]
  intro s hs
  induction keys generalizing s with
  | nil => rfl
  | cons k rest ih =>
      have hstep : (s.bindOptional k (row.get? k)).get? v =
          if v = k then (row.get? k).or (s.get? v) else s.get? v := by
        cases hk : row.get? k with
        | none => simp [Solution.bindOptional]
        | some t =>
            rw [Solution.bindOptional, Solution.get?_insert]
            split <;> rfl
      rw [groupKey, List.map_cons, List.zip_cons_cons, List.foldl_cons]
      by_cases hvk : v = k
      · subst hvk
        rw [if_pos rfl] at hstep
        rw [if_pos List.mem_cons_self]
        have hsame : (s.bindOptional v (row.get? v)).get? v = row.get? v := by
          rw [hstep]
          cases hv : row.get? v with
          | some t => rfl
          | none => exact hs.elim id fun h => h.trans hv
        refine (ih (s.bindOptional v (row.get? v)) (.inr hsame)).trans ?_
        rw [hsame, ite_self]
      · rw [if_neg hvk] at hstep
        refine (ih (s.bindOptional k (row.get? k)) (by rwa [hstep])).trans ?_
        rw [hstep]
        simp [hvk]

/-- A group binds its key as each of its members does. -/
theorem keyed_eq_restrict (row : Solution) :
    (keys.zip (groupKey keys row)).foldl (fun s p => s.bindOptional p.1 p.2) ∅ =
      row.restrict (.ofList keys) := by
  refine Solution.eq_of_get? fun v => ?_
  rw [foldl_bindOptional_groupKey row ∅ v rfl, Solution.get?_restrict]
  simp [OrdSet.mem_ofList]

/-- Aggregates are bound where nothing has been bound before. -/
theorem foldl_bindOptional_eq (hnodup : (table.map Prod.fst).Nodup) (g : GroupRow)
    (hfree : ∀ v ∈ table.map Prod.fst, g.row.get? v = none) :
    table.foldl (fun s p => s.bindOptional p.1 (p.2.value g.members)) g.row =
      g.withAggregates table := by
  induction table generalizing g with
  | nil => rfl
  | cons p rest ih =>
      rw [List.map_cons, List.nodup_cons] at hnodup
      rw [List.foldl_cons, GroupRow.withAggregates_cons,
        Solution.bindOptional_eq_assign (hfree p.1 (by simp))]
      refine ih hnodup.2 ⟨g.row.assign p.1 (p.2.value g.members), g.members⟩ fun v hv => ?_
      have hne : v ≠ p.1 := fun he => hnodup.1 (he ▸ hv)
      rw [Solution.get?_assign, if_neg hne]
      exact hfree v (List.mem_cons_of_mem _ hv)

/-- Grouping evaluates aggregates over the groups. -/
theorem groupSolutions_eq_map (hnodup : (table.map Prod.fst).Nodup)
    (hkeys : ∀ v ∈ table.map Prod.fst, v ∉ keys) (rows : List Solution) :
    groupSolutions keys table rows = (groupRows keys rows).map (GroupRow.withAggregates table) := by
  have hgroup (row : Solution) (members : List Solution) :
      groupSolution keys table (groupKey keys row) members =
        GroupRow.withAggregates table ⟨row.restrict (.ofList keys), members⟩ := by
    rw [groupSolution_eq, keyed_eq_restrict]
    refine foldl_bindOptional_eq hnodup ⟨row.restrict (.ofList keys), members⟩ fun v hv => ?_
    rw [Solution.get?_restrict, if_neg]
    exact fun h => hkeys v hv (by simpa using h)
  rw [groupSolutions, groupRows]
  dsimp only
  split
  · next hempty =>
    rw [Bool.and_eq_true, List.isEmpty_iff, List.isEmpty_iff] at hempty
    obtain ⟨rfl, rfl⟩ := hempty
    rw [List.map_singleton, List.map_singleton]
    exact congrArg ([·]) (hgroup ∅ [])
  · rw [List.map_map]
    refine List.map_congr_left fun key hkey => ?_
    obtain ⟨row, hrow, rfl⟩ := List.mem_map.1 (mem_distinctOf.1 hkey)
    -- all members of a group have the same key, so the first one may stand for the group
    cases hmembers : rows.filter (groupKey keys · == groupKey keys row) with
    | nil =>
        have hmem : row ∈ rows.filter (groupKey keys · == groupKey keys row) :=
          List.mem_filter.2 ⟨hrow, beq_self_eq_true _⟩
        rw [hmembers] at hmem
        cases hmem
    | cons first rest =>
        have hfirst : first ∈ rows.filter (groupKey keys · == groupKey keys row) := by
          rw [hmembers]
          exact List.mem_cons_self
        have hsame : groupKey keys row = groupKey keys first :=
          (eq_of_beq (List.mem_filter.1 hfirst).2).symm
        rw [Function.comp_apply, hmembers, hsame]
        exact hgroup first (first :: rest)

end Groups

/-! ## Variables in the places of aggregates -/

theorem get?_bindValue (target : Variable) (e : Expression) (row : Solution) (v : Variable) :
    (bindValue target e row).get? v =
      if v = target then (e.value row []).or (row.get? v) else row.get? v := by
  rw [bindValue]
  cases e.value row [] with
  | none => simp
  | some t =>
      rw [Solution.get?_insert]
      split <;> rfl

section Named

variable {table : AggregateTable} (hnodup : (table.map Prod.fst).Nodup)

theorem foundAside_nil : FoundAside table [] := fun _ h => absurd h List.not_mem_nil

include hnodup

/-- A condition holds with variables in the places of its aggregates if the group meets it. -/
theorem GroupRow.holds_withAggregates {e e' : Expression} (he : e.Named table e')
    (hvars : ∀ v ∈ e.outerVars, v ∉ table.map Prod.fst) {found : List (List Solution)}
    (hfound : FoundAside table found) (g : GroupRow) :
    e'.holds found (g.withAggregates table) = g.meets e found := by
  rw [Expression.holds, he.value hnodup g hvars hfound]
  rfl

/-- A variable is bound to the same value. -/
theorem GroupRow.bindValue_withAggregates {b b' : Binding} (hb : b.Named table b')
    (hvars : ∀ v ∈ b.expression.outerVars, v ∉ table.map Prod.fst)
    (htarget : b.target ∉ table.map Prod.fst) (g : GroupRow) :
    bindValue b'.target b'.expression (g.withAggregates table) =
      (g.bind b).withAggregates table := by
  have hvalue := hb.1.value hnodup g hvars foundAside_nil
  refine Solution.eq_of_get? fun v => ?_
  rw [get?_bindValue, hb.2, hvalue]
  by_cases hv : v ∈ table.map Prod.fst
  · obtain ⟨⟨w, a⟩, hmem, rfl⟩ := List.mem_map.1 hv
    have hne : w ≠ b.target := fun he => htarget (he ▸ hv)
    rw [if_neg hne, get?_withAggregates hnodup hmem, get?_withAggregates hnodup hmem]
    rfl
  · rw [get?_withAggregates_of_not_mem hv, get?_withAggregates_of_not_mem hv, GroupRow.bind,
      get?_bindValue]

/-- Rows are sorted alike. -/
theorem GroupRow.compareBy_withAggregates {keys keys' : List SortKey}
    (hkeys : List.Forall₂ (SortKey.Named table) keys keys')
    (hvars : ∀ k ∈ keys, ∀ v ∈ k.expression.outerVars, v ∉ table.map Prod.fst) (g h : GroupRow) :
    QuadAlgebra.compareBy keys' (g.withAggregates table) (h.withAggregates table) =
      GroupRow.compareBy keys g h := by
  rw [QuadAlgebra.compareBy, GroupRow.compareBy]
  generalize Ordering.eq = o
  induction hkeys generalizing o with
  | nil => rfl
  | @cons k k' rest rest' hk _ ih =>
      have hvalue (g : GroupRow) : k'.expression.value (g.withAggregates table) [] =
          g.value k.expression :=
        hk.1.value hnodup g (hvars k List.mem_cons_self) foundAside_nil
      rw [List.foldl_cons, List.foldl_cons, hvalue g, hvalue h, hk.2]
      exact ih (fun k hk => hvars k (List.mem_cons_of_mem _ hk)) _

/-- Computed variables are bound alike, one after the other. -/
theorem GroupRow.bindAll_withAggregates {bindings bindings' : List Binding}
    (hbindings : List.Forall₂ (Binding.Named table) bindings bindings')
    (hvars : ∀ b ∈ bindings, (∀ v ∈ b.expression.outerVars, v ∉ table.map Prod.fst) ∧
      b.target ∉ table.map Prod.fst) (g : GroupRow) :
    bindAll bindings' (g.withAggregates table) =
      (bindings.foldl GroupRow.bind g).withAggregates table := by
  rw [bindAll]
  induction hbindings generalizing g with
  | nil => rfl
  | @cons b b' rest rest' hb _ ih =>
      obtain ⟨he, ht⟩ := hvars b List.mem_cons_self
      rw [List.foldl_cons, List.foldl_cons, bindValue_withAggregates hnodup hb he ht]
      exact ih (fun b hb => hvars b (List.mem_cons_of_mem _ hb)) _

omit hnodup in
/-- Other variables are selected alike. -/
theorem GroupRow.restrict_withAggregates {vars : VarSet}
    (hvars : ∀ v ∈ vars, v ∉ table.map Prod.fst) (g : GroupRow) :
    (g.withAggregates table).restrict vars = g.row.restrict vars := by
  refine Solution.eq_of_get? fun v => ?_
  rw [Solution.get?_restrict, Solution.get?_restrict]
  split
  · next hv => exact get?_withAggregates_of_not_mem (hvars v hv)
  · rfl

end Named

end QuadAlgebra
