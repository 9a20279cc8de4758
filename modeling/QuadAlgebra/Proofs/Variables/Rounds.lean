import QuadAlgebra.Proofs.Typing.Plans
import QuadAlgebra.Proofs.Variables.Operators

/-!
# Domains in all rounds

`Graph.Shows` says that an operator emits a solution in some round of an evaluation, whether or not
that round comes to its end. What operators make of the domains on their inputs is said by
`Graph.Makes` in terms of the graph alone. A statement about operators and domains that holds of
everything that operators make of domains for which it holds is true of all solutions that are
emitted in any round (`Graph.Shows.of_closed`).
-/

namespace QuadAlgebra

namespace Graph

/-! ## Emitted solutions -/

section Shown

variable (g : Graph Outcome) (src : Source)

/-- The assignments that the rounds of an evaluation start from. -/
inductive Reached (order : List OperatorId) : Assignment → Prop
  | start : Reached order []
  | next {previous current : Assignment} (h : Reached order previous)
    (hround : g.round src g.loopMembers order previous = .ok current) : Reached order current

/-- An operator emits a solution in some round, which need not get to all operators. -/
def Shows (id : OperatorId) (s : Solution) : Prop :=
  ∃ (done rest : List OperatorId) (previous current : Assignment),
    g.topologicalOrder = .ok (done ++ rest) ∧ g.Reached src (done ++ rest) previous ∧
      g.round src g.loopMembers done previous = .ok current ∧ .solution s ∈ current.rows id

end Shown

/-! ## The last round -/

section Last

variable {g : Graph Outcome} {src : Source}

/-- The rows before and after the last round of an evaluation. -/
def Concludes (g : Graph Outcome) (src : Source) (previous last : Assignment) : Prop :=
  ∃ order, g.topologicalOrder = .ok order ∧ g.Reached src order previous ∧
    g.round src g.loopMembers order previous = .ok last

theorem Reached.shows {order : List OperatorId} (horder : g.topologicalOrder = .ok order)
    {a : Assignment} (h : g.Reached src order a) {id : OperatorId} {s : Solution}
    (hs : .solution s ∈ a.rows id) : g.Shows src id s := by
  cases h with
  | start => exact absurd hs List.not_mem_nil
  | next h hround =>
      exact ⟨order, [], _, _, (List.append_nil order).symm ▸ horder,
        (List.append_nil order).symm ▸ h, hround, hs⟩

/-- Rounds that come to an end end with a round that has been reached. -/
theorem rounds_conclude {order : List OperatorId} {limit left before n : Nat}
    {previous last : Assignment} (hreached : g.Reached src order previous)
    (h : g.rounds src g.loopMembers order limit left before previous = .ok (last, n)) :
    ∃ previous, g.Reached src order previous ∧
      g.round src g.loopMembers order previous = .ok last := by
  induction left generalizing before previous with
  | zero => cases h
  | succ left ih =>
      rw [rounds] at h
      cases hround : g.round src g.loopMembers order previous with
      | error e => simp [hround, bind, Except.bind] at h
      | ok next =>
          simp only [hround, bind, Except.bind, pure, Except.pure] at h
          split at h
          · cases h
            exact ⟨previous, hreached, hround⟩
          · exact ih (hreached.next hround) h

theorem exists_concludes {limit n : Nat} {last : Assignment}
    (h : g.finalRows src limit = .ok (last, n)) : ∃ previous, g.Concludes src previous last := by
  rw [finalRows] at h
  cases horder : g.topologicalOrder with
  | error e => simp [horder, bind, Except.bind] at h
  | ok order =>
      simp only [horder, bind, Except.bind] at h
      obtain ⟨previous, hreached, hround⟩ := rounds_conclude .start h
      exact ⟨previous, order, horder, hreached, hround⟩

end Last

/-! ## Domains that an operator makes -/

variable {γ δ ε : Type}

/-- The ways in which an operator comes to a domain, from domains that its inputs may have. -/
inductive Makes (g : Graph γ) (T : OperatorId → VarSet → Prop) (id : OperatorId) (op : Operator δ)
    (D : VarSet) : Prop
  | starts (h : op.Starts D)
  | turns (i : Input) (hi : i ∈ g.inputs id) (E : VarSet) (hE : T i.source E)
    (h : op.Turns i.operand E D)
  | extends (hop : op.kind = .optional) (i j : Input) (hi : i ∈ g.inputs id) (hj : j ∈ g.inputs id)
    (hleft : i.operand = 0) (hright : j.operand ≠ 0) (E F : VarSet) (hE : T i.source E)
    (hF : T j.source F) (h : D = E ∪ F)
  | joins (hop : op.kind = .join) (part : Nat → VarSet)
    (hpart : ∀ i ∈ g.inputs id, ∃ j ∈ g.inputs id, j.operand = i.operand ∧
      T j.source (part i.operand))
    (h : ∀ v, v ∈ D ↔ ∃ i ∈ g.inputs id, v ∈ part i.operand)

/-- A statement that holds of all domains that operators make, if it holds of those that they
read. -/
def Closed (g : Graph γ) (T : OperatorId → VarSet → Prop) : Prop :=
  ∀ id op D, g.operator? id = some op → g.Makes T id op D → T id D

theorem Makes.of_withNested {g : Graph γ} {T : OperatorId → VarSet → Prop} {id : OperatorId}
    {op : Operator δ} {nested : List (Nat × ε)} {D : VarSet}
    (h : g.Makes T id (op.withNested nested) D) : g.Makes T id op D := by
  cases h with
  | starts h => exact .starts (by rwa [Operator.starts_withNested] at h)
  | turns i hi E hE h => exact .turns i hi E hE (by rwa [Operator.turns_withNested] at h)
  | «extends» hop i j hi hj hleft hright E F hE hF h =>
      exact .extends (kind_withNested op nested ▸ hop) i j hi hj hleft hright E F hE hF h
  | joins hop part hpart h => exact .joins (kind_withNested op nested ▸ hop) part hpart h

theorem Closed.mapNested {g : Graph γ} {T : OperatorId → VarSet → Prop} (h : g.Closed T)
    (f : γ → δ) : (g.mapNested f).Closed T := by
  intro id op D hop hmakes
  rw [operator?_mapNested] at hop
  obtain ⟨op', hop', rfl⟩ := Option.map_eq_some_iff.1 hop
  refine h id op' D hop' ?_
  cases hmakes.of_withNested with
  | starts h => exact .starts h
  | turns i hi E hE h => exact .turns i (inputs_mapNested f g id ▸ hi) E hE h
  | «extends» hop i j hi hj hleft hright E F hE hF h =>
      rw [inputs_mapNested] at hi hj
      exact .extends hop i j hi hj hleft hright E F hE hF h
  | joins hop part hpart h =>
      simp only [inputs_mapNested] at hpart h
      exact .joins hop part hpart h

/-! ## All rounds -/

section Rounds

variable {g : Graph γ} {id : OperatorId} {read : Input → List Row}

theorem mem_deliver {o : Nat × List Row} (h : o ∈ g.deliver read id) :
    (∃ i ∈ g.inputs id, i.operand = o.1) ∧
      ∀ row ∈ o.2, ∃ i ∈ g.inputs id, i.operand = o.1 ∧ row ∈ read i := by
  obtain ⟨group, hgroup, rfl⟩ := List.mem_map.1 h
  obtain ⟨k, hk, rfl⟩ := List.mem_map.1 hgroup
  rw [mem_distinctOf, List.mem_map] at hk
  refine ⟨hk, fun row hrow => ?_⟩
  obtain ⟨i, hi, hrow⟩ := List.mem_flatMap.1 hrow
  obtain ⟨hi, hoperand⟩ := List.mem_filter.1 hi
  exact ⟨i, hi, beq_iff_eq.1 hoperand, hrow⟩

theorem exists_mem_deliver (read : Input → List Row) {i : Input} (hi : i ∈ g.inputs id) :
    ∃ o ∈ g.deliver read id, o.1 = i.operand ∧ ∀ row ∈ read i, row ∈ o.2 := by
  have hkey : i.operand ∈ distinctOf ((g.inputs id).map Input.operand) :=
    mem_distinctOf.2 (List.mem_map_of_mem hi)
  refine ⟨_, List.mem_map_of_mem (List.mem_map_of_mem hkey), rfl, fun row hrow => ?_⟩
  exact List.mem_flatMap.2 ⟨i, List.mem_filter.2 ⟨hi, beq_self_eq_true _⟩, hrow⟩

theorem nodup_deliver : ((g.deliver read id).map Prod.fst).Nodup := by
  have hkeys : (g.deliver read id).map Prod.fst = distinctOf ((g.inputs id).map Input.operand) := by
    simp [deliver, operandGroups, Function.comp_def]
  rw [hkeys]
  exact nodup_distinctOf _

/-- What an operator emits from the rows of its inputs, it makes of their domains. -/
theorem makes_of_made {op : Operator δ} {T : OperatorId → VarSet → Prop} {D : VarSet}
    (hread : ∀ i ∈ g.inputs id, ∀ s : Solution, .solution s ∈ read i → T i.source s.keySet)
    (h : op.Made (g.deliver read id) D) : g.Makes T id op D := by
  have hrow {o : Nat × List Row} (ho : o ∈ g.deliver read id) {s : Solution}
      (hs : .solution s ∈ o.2) : ∃ i ∈ g.inputs id, i.operand = o.1 ∧ T i.source s.keySet := by
    obtain ⟨i, hi, hoperand, hs⟩ := (mem_deliver ho).2 _ hs
    exact ⟨i, hi, hoperand, hread i hi s hs⟩
  cases h with
  | starts h => exact .starts h
  | turns o ho r hr h =>
      obtain ⟨i, hi, hoperand, hT⟩ := hrow ho hr
      exact .turns i hi _ hT (hoperand ▸ h)
  | «extends» hop o o' ho ho' hleft hright r r' hr hr' h =>
      obtain ⟨i, hi, hoperand, hT⟩ := hrow ho hr
      obtain ⟨j, hj, hoperand', hT'⟩ := hrow ho' hr'
      exact .extends hop i j hi hj (hoperand.trans hleft) (hoperand' ▸ hright) _ _ hT hT' h
  | joins hop part hpart h =>
      refine .joins hop (fun k => (part k).keySet) (fun i hi => ?_) fun v => (h v).trans ?_
      · obtain ⟨o, ho, hoperand, -⟩ := exists_mem_deliver read hi
        obtain ⟨j, hj, hoperand', hT⟩ := hrow ho (hpart o ho)
        exact ⟨j, hj, hoperand'.trans hoperand, hoperand ▸ hT⟩
      · constructor
        · rintro ⟨o, ho, hv⟩
          obtain ⟨i, hi, hoperand⟩ := (mem_deliver ho).1
          exact ⟨i, hi, hoperand ▸ hv⟩
        · rintro ⟨i, hi, hv⟩
          obtain ⟨o, ho, hoperand, -⟩ := exists_mem_deliver read hi
          exact ⟨o, ho, hoperand ▸ hv⟩

end Rounds

section Holds

variable {g : Graph Outcome} {src : Source} {T : OperatorId → VarSet → Prop}
  {looped order : List OperatorId} {previous current : Assignment} {id : OperatorId}

/-- The statement is true of all solutions in an assignment. -/
def Holds (T : OperatorId → VarSet → Prop) (a : Assignment) : Prop :=
  ∀ id, ∀ s : Solution, .solution s ∈ a.rows id → T id s.keySet

theorem holds_nil : Holds T [] := by
  intro id s hs
  simp [Assignment.rows] at hs

theorem Closed.emitAt (hclosed : g.Closed T) (hprevious : Holds T previous)
    (hcurrent : Holds T current) {rows : List Row}
    (h : g.emitAt src looped previous current id = .ok rows) {s : Solution}
    (hs : .solution s ∈ rows) : T id s.keySet := by
  obtain ⟨emitted, hemitted, rfl⟩ := emitAt_eq_ok_iff.1 h
  have hs : .solution s ∈ emitted := by
    split at hs
    · rwa [OrdSet.mem_toList, OrdSet.mem_ofList] at hs
    · exact hs
  rw [operandRows_eq, respond] at hemitted
  cases hop : g.operator? id with
  | none =>
      rw [operator, hop] at hemitted
      cases hemitted
  | some op =>
      rw [operator, hop] at hemitted
      have hmade := Operator.made_of_emit nodup_deliver hemitted hs
      refine hclosed id op _ hop (makes_of_made (fun i _ s hs => ?_) hmade).of_withNested
      split at hs
      · exact hprevious i.source s hs
      · exact hcurrent i.source s hs

theorem Closed.round (hclosed : g.Closed T) (hprevious : Holds T previous)
    (h : g.round src looped order previous = .ok current) : Holds T current := by
  rw [Graph.round] at h
  suffices ∀ start, Holds T start → order.foldlM (fun current id => do
      return (id, ← g.emitAt src looped previous current id) :: current) start = .ok current →
      Holds T current from this [] holds_nil h
  clear h
  induction order with
  | nil =>
      intro start hstart h
      exact Except.ok.inj h ▸ hstart
  | cons id rest ih =>
      intro start hstart h
      rw [List.foldlM_cons] at h
      cases hrows : g.emitAt src looped previous start id with
      | error e => simp [hrows, bind, Except.bind] at h
      | ok rows =>
          rw [hrows] at h
          refine ih _ (fun x s hs => ?_) h
          by_cases hx : x = id
          · subst hx
            rw [rows_cons_self] at hs
            exact hclosed.emitAt hprevious hstart hrows hs
          · rw [rows_cons_of_ne hx] at hs
            exact hstart x s hs

theorem Closed.reached (hclosed : g.Closed T) (h : g.Reached src order previous) :
    Holds T previous := by
  induction h with
  | start => exact holds_nil
  | next _ hround ih => exact hclosed.round ih hround

/-- What is closed holds of all solutions of all rounds. -/
theorem Shows.of_closed (hclosed : g.Closed T) {s : Solution} (h : g.Shows src id s) :
    T id s.keySet := by
  obtain ⟨done, rest, previous, current, -, hreached, hround, hs⟩ := h
  exact hclosed.round (hclosed.reached hreached) hround id s hs

end Holds

end Graph

end QuadAlgebra
