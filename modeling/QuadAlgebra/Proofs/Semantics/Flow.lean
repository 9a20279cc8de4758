import Mathlib.Order.Filter.AtTopBot.Basic
import Mathlib.Order.Filter.Finite
import QuadAlgebra.Proofs.Semantics.Rounds

/-!
# The flow of solutions through rounds

In a graph whose operators never fail on solutions, every round succeeds and leaves solutions with
every operator. The solutions of an operator after each round form a flow: in every round but the
zeroth they are what the operator emits from the solutions of its producers, in the same round or,
over feedback edges, in the round before (`Graph.Flow`, `flow_stage`).

Rounds come to rest as soon as the sources of the feedback edges do. The final rows are then those
of all rounds from some round on (`rounds_of_steady`).
-/

namespace QuadAlgebra

/-! ## Solutions as rows -/

/-- If each of some computations in a row succeeds, they have the results in that order. -/
theorem forall₂_of_mapM_ok {α β ε : Type} {f : α → Except ε β} {l : List α} {bs : List β}
    (h : l.mapM f = .ok bs) : List.Forall₂ (fun a b => f a = .ok b) l bs := by
  induction l generalizing bs with
  | nil =>
      obtain rfl := Except.ok.inj (List.mapM_nil.symm.trans h)
      exact .nil
  | cons a rest ih =>
      rw [List.mapM_cons] at h
      cases hfa : f a with
      | error e => simp [hfa, bind, Except.bind] at h
      | ok b =>
          cases hrest : rest.mapM f with
          | error e => simp [hfa, hrest, bind, Except.bind] at h
          | ok others =>
              simp only [hfa, hrest, bind, Except.bind, pure, Except.pure, Except.ok.injEq] at h
              exact h ▸ .cons hfa (ih hrest)

theorem Row.solution_injective : Function.Injective Row.solution := fun _ _ h => Row.solution.inj h

@[simp] theorem expectSolutions_map (id : OperatorId) (l : List Solution) :
    expectSolutions id (l.map .solution) = .ok l := by
  unfold expectSolutions expectRows
  induction l with
  | nil => rfl
  | cons s rest ih =>
      rw [List.map_cons, List.mapM_cons, ih]
      rfl

theorem eq_map_of_expectSolutions {id : OperatorId} {rows : List Row} {l : List Solution}
    (h : expectSolutions id rows = .ok l) : rows = l.map .solution := by
  unfold expectSolutions expectRows at h
  induction rows generalizing l with
  | nil =>
      obtain rfl := Except.ok.inj h
      rfl
  | cons row rest ih =>
      rw [List.mapM_cons] at h
      cases row with
      | solution s =>
          simp only [Row.solution?, bind, Except.bind] at h
          split at h
          · cases h
          · next l' hl' =>
            obtain rfl := Except.ok.inj h
            rw [ih hl']
            rfl
      | quad q => cases h
      | fact f => cases h
      | action a => cases h

/-- What is made of solutions, if it is made, is made from solutions. -/
theorem exists_of_map_expectSolutions {β : Type} {id : OperatorId} {rows : List Row}
    {f : List Solution → β} {b : β} (h : (expectSolutions id rows).map f = .ok b) :
    ∃ found, rows = found.map .solution ∧ f found = b := by
  cases hfound : expectSolutions id rows with
  | error e =>
      rw [hfound] at h
      cases h
  | ok found =>
      rw [hfound] at h
      exact ⟨found, eq_map_of_expectSolutions hfound, Except.ok.inj h⟩

/-- An assignment of solutions only. -/
def Assignment.OfSolutions (a : Assignment) : Prop :=
  ∀ id, ∃ l : List Solution, a.rows id = l.map .solution

theorem Assignment.OfSolutions.nil : Assignment.OfSolutions [] := fun _ => ⟨[], rfl⟩

/-- The solutions that an assignment gives to an operator. -/
def Assignment.found (a : Assignment) (id : OperatorId) : List Solution :=
  (a.rows id).filterMap Row.solution?

theorem Assignment.OfSolutions.rows_eq {a : Assignment} (h : a.OfSolutions) (id : OperatorId) :
    a.rows id = (a.found id).map .solution := by
  obtain ⟨l, hl⟩ := h id
  have hsome : Row.solution? ∘ Row.solution = some := rfl
  rw [found, hl, List.filterMap_map, hsome, List.filterMap_some]

namespace Graph

variable {g : Graph Outcome} {src : Source} {order : List OperatorId} {previous : Assignment}

/-! ## Rounds of solutions -/

/-- No operator fails on solutions, and all emit solutions again. -/
def Tame (g : Graph Outcome) (src : Source) : Prop :=
  ∀ id ∈ g.ids, ∀ operands : Operands,
    (∀ o ∈ operands, ∃ l : List Solution, o.2 = l.map .solution) →
      ∃ emitted : List Solution, g.respond src operands id = .ok (emitted.map .solution)

theorem flatMap_solutions {α : Type} (l : List α) (f : α → List Row)
    (h : ∀ a ∈ l, ∃ s : List Solution, f a = s.map .solution) :
    ∃ s : List Solution, l.flatMap f = s.map .solution := by
  induction l with
  | nil => exact ⟨[], rfl⟩
  | cons a rest ih =>
      obtain ⟨s, hs⟩ := h a List.mem_cons_self
      obtain ⟨t, ht⟩ := ih fun b hb => h b (List.mem_cons_of_mem _ hb)
      exact ⟨s ++ t, by rw [List.flatMap_cons, hs, ht, List.map_append]⟩

theorem operandRows_solutions {current : Assignment} (hp : previous.OfSolutions)
    (hc : current.OfSolutions) (id : OperatorId) :
    ∀ o ∈ g.operandRows previous current id, ∃ l : List Solution, o.2 = l.map .solution := by
  intro o ho
  rw [operandRows_eq, deliver] at ho
  obtain ⟨group, -, rfl⟩ := List.mem_map.1 ho
  refine flatMap_solutions _ _ fun i _ => ?_
  cases i.feedback with
  | true => exact hp i.source
  | false => exact hc i.source

theorem toList_ofList_solutions (l : List Solution) :
    ∃ s : List Solution, (OrdSet.ofList (l.map Row.solution)).toList = s.map .solution := by
  have hall : ∀ row ∈ (OrdSet.ofList (l.map Row.solution)).toList, ∃ s, Row.solution s = row := by
    intro row hrow
    rw [OrdSet.mem_toList, OrdSet.mem_ofList, List.mem_map] at hrow
    obtain ⟨s, -, rfl⟩ := hrow
    exact ⟨s, rfl⟩
  generalize (OrdSet.ofList (l.map Row.solution)).toList = rows at hall
  induction rows with
  | nil => exact ⟨[], rfl⟩
  | cons row rest ih =>
      obtain ⟨s, rfl⟩ := hall _ List.mem_cons_self
      obtain ⟨t, rfl⟩ := ih fun r hr => hall r (List.mem_cons_of_mem _ hr)
      exact ⟨s :: t, rfl⟩

/-- A round over a tame graph succeeds and leaves solutions only. -/
theorem round_total (htame : g.Tame src) (looped : List OperatorId) (hp : previous.OfSolutions)
    (horder : ∀ id ∈ order, id ∈ g.ids) :
    ∃ current, g.round src looped order previous = .ok current ∧ current.OfSolutions := by
  unfold round
  suffices ∀ acc : Assignment, acc.OfSolutions → ∃ current : Assignment,
      (order.foldlM (fun current id => do
        return (id, ← g.emitAt src looped previous current id) :: current) acc) = .ok current ∧
      current.OfSolutions from this [] .nil
  induction order with
  | nil => exact fun acc hacc => ⟨acc, rfl, hacc⟩
  | cons id rest ih =>
      intro acc hacc
      obtain ⟨emitted, hemitted⟩ := htame id (horder id List.mem_cons_self) _
        (operandRows_solutions hp hacc id)
      obtain ⟨rows, hrows, l, rfl⟩ : ∃ rows, g.emitAt src looped previous acc id = .ok rows ∧
          ∃ l : List Solution, rows = l.map .solution := by
        refine ⟨_, emitAt_eq_ok_iff.2 ⟨_, hemitted, rfl⟩, ?_⟩
        split
        · exact toList_ofList_solutions emitted
        · exact ⟨emitted, rfl⟩
      rw [List.foldlM_cons, hrows]
      refine ih (fun x hx => horder x (List.mem_cons_of_mem _ hx)) _ fun x => ?_
      by_cases hx : x = id
      · exact ⟨l, by rw [hx, rows_cons_self]⟩
      · rw [rows_cons_of_ne hx]
        exact hacc x

/-- What a round makes of two rounds before it is the same if they agree on the sources of the
feedback edges. -/
theorem round_congr {previous' : Assignment} (looped : List OperatorId)
    (h : ∀ id ∈ order, ∀ i ∈ g.inputs id, i.feedback = true →
      previous.rows i.source = previous'.rows i.source) :
    g.round src looped order previous = g.round src looped order previous' := by
  unfold round
  generalize ([] : Assignment) = acc
  induction order generalizing acc with
  | nil => rw [List.foldlM_nil, List.foldlM_nil]
  | cons id rest ih =>
      have hemit : g.emitAt src looped previous acc id = g.emitAt src looped previous' acc id := by
        simp only [emitAt, operandRows_congr (h id List.mem_cons_self) fun _ _ _ => rfl]
      rw [List.foldlM_cons, List.foldlM_cons, hemit]
      exact congrArg _ (funext fun rows =>
        ih (fun x hx => h x (List.mem_cons_of_mem _ hx)) _)

/-! ## Flows -/

/-- The solutions of every operator after each round. -/
structure Flow (g : Graph Outcome) (src : Source) (F : Nat → OperatorId → List Solution) :
    Prop where
  zero : ∀ id, F 0 id = []
  step : ∀ n, ∀ id ∈ g.ids, ∃ emitted : List Solution,
    g.respond src (g.deliver (fun i =>
      (F (if i.feedback then n else n + 1) i.source).map .solution) id) id =
        .ok (emitted.map .solution) ∧
    (∀ s, s ∈ F (n + 1) id ↔ s ∈ emitted) ∧ (¬ g.OnLoop id → F (n + 1) id = emitted)
  canonical : ∀ id ∈ g.ids, g.OnLoop id → ∀ m n,
    (∀ s, s ∈ F (m + 1) id ↔ s ∈ F (n + 1) id) → F (m + 1) id = F (n + 1) id

/-- The rows after a number of rounds. -/
def stage (g : Graph Outcome) (src : Source) (order : List OperatorId) : Nat → Assignment
  | 0 => []
  | n + 1 => (g.round src g.loopMembers order (g.stage src order n)).toOption.getD []

theorem stage_ofSolutions (htame : g.Tame src) (horder : g.IsTopological order) (n : Nat) :
    (g.stage src order n).OfSolutions := by
  induction n with
  | zero => exact .nil
  | succ n ih =>
      obtain ⟨current, hround, hcurrent⟩ := round_total htame g.loopMembers ih
        fun id hid => (horder.mem_iff id).1 hid
      rw [stage, hround]
      exact hcurrent

/-- No round fails. -/
def Runs (g : Graph Outcome) (src : Source) (order : List OperatorId) : Prop :=
  ∀ n, g.round src g.loopMembers order (g.stage src order n) = .ok (g.stage src order (n + 1))

theorem Tame.runs (htame : g.Tame src) (horder : g.IsTopological order) : g.Runs src order := by
  intro n
  obtain ⟨current, hround, -⟩ := round_total htame g.loopMembers
    (stage_ofSolutions htame horder n) fun id hid => (horder.mem_iff id).1 hid
  rw [stage, hround]
  rfl

/-- The rows of an operator on a loop are those of a set. -/
theorem Runs.rows_eq_toList (hruns : g.Runs src order) (horder : g.IsTopological order) (n : Nat)
    {id : OperatorId} (hid : id ∈ g.ids) (hloop : g.OnLoop id) :
    ∃ l : List Row, (g.stage src order (n + 1)).rows id = (OrdSet.ofList l).toList := by
  obtain ⟨rows, -, hrows⟩ := emitAt_eq_ok_iff.1 ((round_spec horder (hruns n)).2 id hid)
  rw [if_pos (List.contains_iff_mem.2 (mem_loopMembers.2 hloop))] at hrows
  exact ⟨rows, hrows⟩

/-- An operator on a loop has the same list of rows whenever it has the same rows. -/
theorem Runs.rows_congr (hruns : g.Runs src order) (horder : g.IsTopological order) {m n : Nat}
    {id : OperatorId} (hid : id ∈ g.ids) (hloop : g.OnLoop id)
    (h : ∀ row, row ∈ (g.stage src order (m + 1)).rows id ↔
      row ∈ (g.stage src order (n + 1)).rows id) :
    (g.stage src order (m + 1)).rows id = (g.stage src order (n + 1)).rows id := by
  obtain ⟨l, hl⟩ := hruns.rows_eq_toList horder m hid hloop
  obtain ⟨l', hl'⟩ := hruns.rows_eq_toList horder n hid hloop
  rw [hl, hl'] at h ⊢
  refine OrdSet.toList_ofList_congr fun row => ?_
  rw [← OrdSet.mem_ofList, ← OrdSet.mem_toList, h, OrdSet.mem_toList, OrdSet.mem_ofList]

/-- After each round an operator has what it emits from its operands, as a set if it is on a
loop. -/
theorem found_step (htame : g.Tame src) (horder : g.IsTopological order) (n : Nat) {id : OperatorId}
    (hid : id ∈ g.ids) : ∃ emitted : List Solution,
      g.respond src (g.deliver (fun i =>
        ((g.stage src order (if i.feedback then n else n + 1)).found i.source).map .solution) id)
          id = .ok (emitted.map .solution) ∧
      (∀ s, s ∈ (g.stage src order (n + 1)).found id ↔ s ∈ emitted) ∧
      (¬ g.OnLoop id → (g.stage src order (n + 1)).found id = emitted) := by
  have hsol := stage_ofSolutions htame horder
  have hemit := (round_spec horder (htame.runs horder n)).2 id hid
  obtain ⟨rows, hrespond, hrows⟩ := emitAt_eq_ok_iff.1 hemit
  obtain ⟨emitted, hemitted⟩ := htame id hid _ (operandRows_solutions (hsol n) (hsol (n + 1)) id)
  rw [hemitted] at hrespond
  obtain rfl := Except.ok.inj hrespond
  have hread : g.operandRows (g.stage src order n) (g.stage src order (n + 1)) id =
      g.deliver (fun i => (((g.stage src order (if i.feedback then n else n + 1)).found
        i.source).map .solution)) id := by
    rw [operandRows_eq]
    refine deliver_congr fun i _ => ?_
    rw [← (hsol _).rows_eq]
    split <;> rfl
  rw [hread] at hemitted
  rw [(hsol (n + 1)).rows_eq] at hrows
  refine ⟨emitted, hemitted, fun s => ?_, fun hplain => ?_⟩
  · rw [← List.mem_map_of_injective Row.solution_injective, hrows,
      ← List.mem_map_of_injective Row.solution_injective]
    split
    · rw [OrdSet.mem_toList, OrdSet.mem_ofList]
    · rfl
  · rw [if_neg fun hc => hplain (mem_loopMembers.1 (List.contains_iff_mem.1 hc))] at hrows
    exact List.map_injective_iff.2 Row.solution_injective hrows

/-- The rounds over a tame graph form a flow. -/
theorem flow_stage (htame : g.Tame src) (horder : g.IsTopological order) :
    g.Flow src fun n => (g.stage src order n).found where
  zero _ := rfl
  step n _ hid := found_step htame horder n hid
  canonical id hid hloop m n hsame := by
    have hsol := stage_ofSolutions htame horder
    refine List.map_injective_iff.2 Row.solution_injective ?_
    rw [← (hsol (m + 1)).rows_eq, ← (hsol (n + 1)).rows_eq]
    refine (htame.runs horder).rows_congr horder hid hloop fun row => ?_
    rw [(hsol (m + 1)).rows_eq, (hsol (n + 1)).rows_eq, List.mem_map, List.mem_map]
    exact exists_congr fun s => and_congr_left fun _ => hsame s

/-! ## Coming to rest -/

/-- Rounds that are fed back the same rows give the same rows. -/
theorem stage_succ_congr (hruns : g.Runs src order) (horder : g.IsTopological order) {m n : Nat}
    (h : ∀ id ∈ g.ids, ∀ i ∈ g.inputs id, i.feedback = true →
      (g.stage src order m).rows i.source = (g.stage src order n).rows i.source) :
    g.stage src order (m + 1) = g.stage src order (n + 1) := by
  have hround : g.round src g.loopMembers order (g.stage src order m) =
      g.round src g.loopMembers order (g.stage src order n) :=
    round_congr g.loopMembers fun id hid => h id ((horder.mem_iff id).1 hid)
  rw [hruns m, hruns n] at hround
  exact Except.ok.inj hround

theorem stage_eq_of_stable {m : Nat} (h : g.stage src order (m + 1) = g.stage src order m) :
    ∀ n, m ≤ n → g.stage src order n = g.stage src order m := by
  intro n hn
  induction n, hn using Nat.le_induction with
  | base => rfl
  | succ n _ ih =>
      rw [stage, ih]
      exact h

/-- Rounds stop at some stage, at the latest where the stages have become stable. -/
theorem rounds_stage (hruns : g.Runs src order) (limit : Nat)
    {last : Nat}
    (hstable : g.loopMembers ≠ [] →
      g.stage src order (last + 1) = g.stage src order last) :
    ∀ left k before, k ≤ last → last < k + left →
      ∃ m n, g.rounds src g.loopMembers order limit left before (g.stage src order k) =
          .ok (g.stage src order (m + 1), n) ∧ m ≤ last ∧
        (g.loopMembers = [] ∨ g.stage src order (m + 1) = g.stage src order m) := by
  intro left
  induction left with
  | zero => exact fun k before hk hleft => absurd hleft (Nat.not_lt.2 hk)
  | succ left ih =>
      intro k before hk hleft
      rw [rounds, hruns k]
      simp only [bind, Except.bind, pure, Except.pure]
      split
      · next hstop =>
        rw [Bool.or_eq_true, List.isEmpty_iff, beq_iff_eq] at hstop
        exact ⟨k, before, rfl, hk, hstop⟩
      · next hgo =>
        rw [Bool.or_eq_true, List.isEmpty_iff, beq_iff_eq, not_or] at hgo
        have hlast : k ≠ last := fun h => hgo.2 (h ▸ hstable hgo.1)
        exact ih (k + 1) (before + 1) (by omega) (by omega)

/-- If the sources of feedback edges are on loops and have the same rows from some round on, rounds
come to rest under every limit that is not too low, at the rows of all later stages. -/
theorem Runs.rounds_of_steady (hruns : g.Runs src order) (horder : g.IsTopological order)
    (hback : ∀ id ∈ g.ids, ∀ i ∈ g.inputs id, i.feedback = true → g.OnLoop i.source ∧
      ∀ᶠ n in Filter.atTop,
        (g.stage src order (n + 1)).rows i.source = (g.stage src order n).rows i.source) :
    ∃ last, ∀ limit > last, ∃ n, g.rounds src g.loopMembers order limit limit 0 [] =
      .ok (g.stage src order (last + 1), n) ∧
        ∀ m > last, g.stage src order m = g.stage src order (last + 1) := by
  -- from some round on all sources of feedback edges keep their rows
  have hall : ∀ᶠ n in Filter.atTop, ∀ id ∈ g.ids, ∀ i ∈ g.inputs id, i.feedback = true →
      (g.stage src order (n + 1)).rows i.source = (g.stage src order n).rows i.source := by
    refine (Filter.eventually_all_finite g.ids.finite_toSet).2 fun id hid => ?_
    refine (Filter.eventually_all_finite (g.inputs id).finite_toSet).2 fun i hi => ?_
    by_cases hf : i.feedback = true
    · exact (hback id hid i hi hf).2.mono fun n hn _ => hn
    · exact Filter.Eventually.of_forall fun n h => absurd h hf
  obtain ⟨start, hstart⟩ := Filter.eventually_atTop.1 hall
  have hsucc : g.stage src order (start + 2) = g.stage src order (start + 1) :=
    stage_succ_congr hruns horder (hstart start (Nat.le_refl _))
  have hrest : ∀ n > start, g.stage src order n = g.stage src order (start + 1) := fun n hn =>
    stage_eq_of_stable hsucc n hn
  refine ⟨start + 1, fun limit hlimit => ?_⟩
  obtain ⟨m, n, hrounds, hm, hstop⟩ := rounds_stage hruns limit
    (fun _ => hsucc) limit 0 0 (Nat.zero_le _) (by omega)
  have hsame : ∀ k ≥ m + 1, g.stage src order k = g.stage src order (m + 1) := by
    rcases hstop with hnone | hstop
    · -- without loops nothing is fed back, so all rounds are alike
      have hfirst : g.stage src order 2 = g.stage src order 1 := by
        refine stage_succ_congr hruns horder fun id hid i hi hf => ?_
        have hloop := mem_loopMembers.2 (hback id hid i hi hf).1
        rw [hnone] at hloop
        exact absurd hloop List.not_mem_nil
      intro k hk
      rw [stage_eq_of_stable hfirst k (by omega), stage_eq_of_stable hfirst (m + 1) (by omega)]
    · intro k hk
      rw [stage_eq_of_stable hstop k (by omega), hstop]
  refine ⟨n, ?_, fun k hk => ?_⟩
  · rw [hsame (start + 1 + 1) (by omega)]
    exact hrounds
  · rw [hrest k (by omega), hrest (start + 1 + 1) (by omega)]

/-- In a tame graph it is enough that the sources of feedback edges keep their solutions. -/
theorem rounds_of_steady (htame : g.Tame src) (horder : g.IsTopological order)
    (hback : ∀ id ∈ g.ids, ∀ i ∈ g.inputs id, i.feedback = true → g.OnLoop i.source ∧
      ∀ᶠ n in Filter.atTop,
        (g.stage src order (n + 1)).found i.source = (g.stage src order n).found i.source) :
    ∃ last, ∀ limit > last, ∃ n, g.rounds src g.loopMembers order limit limit 0 [] =
      .ok (g.stage src order (last + 1), n) ∧
        ∀ m > last, g.stage src order m = g.stage src order (last + 1) := by
  have hsol := stage_ofSolutions htame horder
  refine (htame.runs horder).rounds_of_steady horder fun id hid i hi hf => ?_
  refine (hback id hid i hi hf).imp_right fun hsteady => hsteady.mono fun n hn => ?_
  rw [(hsol _).rows_eq, (hsol n).rows_eq, hn]

end Graph

end QuadAlgebra
