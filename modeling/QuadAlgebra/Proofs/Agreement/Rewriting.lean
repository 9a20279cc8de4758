import QuadAlgebra.Proofs.Agreement.Copies
import QuadAlgebra.Proofs.Agreement.Removals
import QuadAlgebra.Proofs.Agreement.Sinks
import QuadAlgebra.Proofs.Equivalence.Equalities
import QuadAlgebra.Proofs.Optimization.Termination

/-!
# Rewritten graphs emulate their originals

A graph emulates another one if it mirrors every trace of it (`Graph.Emulates`): however precisely
the rows of the original matter, its own rows can be traced so that they agree with them. Every rule
of the catalogue keeps this (`Reshape.tryAt_keeps_emulates`), hence whole passes do
(`Graph.applyRules_keeps_emulates`).

What mirrors a graph comes to rest no later (`Graph.Mirrors.rests`). The operators on loops rest as
sets, those that never have a row rest anyway, and a feedback edge leads from nothing else
(`Graph.Regular.onLoop_or_idle`).
-/

namespace QuadAlgebra

namespace Graph

/-! ## Coming to rest -/

section Rest

variable {G : Graph Plan} {shapes : Shapes} {src : Source} {limit : Nat} {order : List OperatorId}
  {x : OperatorId} {i : Input} {m n : Nat}

/-- A feedback edge leads to an operator on a loop, or it comes from an idle operator. -/
theorem Regular.onLoop_or_idle (h : G.Regular false shapes) (hi : G.Reads x i)
    (hf : i.feedback = true) : G.OnLoop x ∨ G.Idle shapes i.source := by
  by_cases hreach : Relation.ReflTransGen G.Leads x i.source
  · exact .inl (Relation.TransGen.tail' hreach ((leads_iff h.linked).2 ⟨i, hi, rfl⟩))
  -- what stands behind the operator and is not reached from it waits for more of the same kind
  obtain ⟨S, hgate, hS⟩ := h.exists_gate hi hf
  refine .inr ⟨fun y => S y ∧ ¬ Relation.ReflTransGen G.Leads x y, ⟨hS, hreach⟩, ?_⟩
  rintro y ⟨hy, hapart⟩
  have hne : y ≠ x := fun he => hapart (he ▸ .refl)
  refine ⟨(hgate.waiting y hy hne).1, fun op hop => ?_⟩
  refine ((hgate.waiting y hy hne).2 op hop).transfer (fun _ => Iff.rfl) fun j hj hSj => ⟨hSj, ?_⟩
  exact fun hreach => hapart (hreach.tail ((leads_iff h.linked).2 ⟨j, hj, rfl⟩))

/-- An idle operator emits nothing if what it waits for has nothing. -/
theorem Regular.emit_idle (h : G.Regular false shapes) (hthreads : Threads G.operator? G.Reads)
    (hidle : G.Idle shapes x) {op : Operator Plan} (hop : G.operator? x = some op)
    {read : Input → List Row} (hread : ∀ j, G.Reads x j → G.Idle shapes j.source → read j = [])
    {rows : List Row} (hemit : (op.opened src limit).emit src x (G.deliver read x) = .ok rows) :
    rows = [] := by
  have hwaits := hidle.waiting.2 op hop
  obtain ⟨D, hD⟩ := Option.ne_none_iff_exists'.1 hidle.waiting.1
  have hsettled := h.settled x op D hop hD
  by_cases hjoin : op.kind = .join
  · obtain rfl := Operator.eq_join_of_kind hjoin
    obtain ⟨i, hi, hall⟩ := hwaits.join rfl
    exact emit_starved h.linked hthreads hop ⟨Kind.noConfusion, Kind.noConfusion⟩ Kind.noConfusion
      (.inr ⟨i, hi, rfl, fun j hj hoperand => hread j hj (hall j hj hoperand)⟩) hemit
  have hsteady := ((settled_of_ne hwaits.ne_root hjoin).1 hsettled).1
  have hall {j : Input} (hj : G.Reads x j) (hpasses : op.Passes j.operand) : read j = [] :=
    hread j hj (hwaits.other hjoin j hj hpasses)
  by_cases hminus : op.kind = .minus
  · obtain rfl := Operator.eq_minus_of_kind hminus
    refine Operator.emit_first_nil (by simp [Operator.opened, Operator.withNested]) ?_ hemit
    rw [on_deliver]
    refine List.flatMap_eq_nil_iff.2 fun j hj => ?_
    obtain ⟨hj, hoperand⟩ := List.mem_filter.1 hj
    exact hall (h.linked.mem_inputs.1 hj) fun _ => beq_iff_eq.1 hoperand
  · refine emit_starved h.linked hthreads hop ⟨hwaits.ne_root, fun he => ?_⟩ (fun he => ?_)
      (.inl fun j hj => hall hj fun he => absurd he hminus) hemit
    · simp [he, Operator.steady] at hsteady
    · simp [he, Operator.steady] at hsteady

/-- Idle operators have no rows at any stage. -/
theorem Regular.stage_idle (h : G.Regular false shapes) (hthreads : Threads G.operator? G.Reads)
    (horder : (Plan.opened ⟨G⟩ src limit).IsTopological order) (n : Nat) (hidle : G.Idle shapes x) :
    ((Plan.opened ⟨G⟩ src limit).stage src order n).rows x = [] := by
  induction n generalizing x with
  | zero => rfl
  | succ n ih =>
      rw [stage]
      cases hround : (Plan.opened ⟨G⟩ src limit).round src (Plan.opened ⟨G⟩ src limit).loopMembers
          order ((Plan.opened ⟨G⟩ src limit).stage src order n) with
      | error e => rfl
      | ok current =>
      change current.rows x = []
      obtain ⟨rank, hrank⟩ := horder.exists_rank
      induction hn : rank x using Nat.strong_induction_on generalizing x with
      | _ r before =>
      subst hn
      by_cases hids : x ∈ (Plan.opened ⟨G⟩ src limit).ids
      · obtain ⟨op, hop⟩ := exists_operator?_of_mem_ids (by rwa [ids_opened] at hids)
        obtain ⟨emitted, hemitted, hrows⟩ := emitted_of_round horder hround hop
        have hnil : emitted = [] := by
          refine h.emit_idle hthreads hidle hop (fun j hj hidle => ?_) hemitted
          have hj := (inputs_opened G src limit x).symm ▸ h.linked.mem_inputs.2 hj
          cases hf : j.feedback with
          | true => exact ih hidle
          | false => exact before _ (hrank _ (source_mem_ids hj) _
              (mem_forward_of_mem_inputs hids hj hf)) hidle rfl
        rw [hrows, hnil]
        exact ite_self _
      · unfold Assignment.rows
        have hnone := mt ((round_spec horder hround).1 x).1 hids
        rw [Bool.not_eq_true, Option.isSome_eq_false_iff, Option.isNone_iff_eq_none] at hnone
        rw [hnone]
        rfl

/-- Without loops a second round repeats the first one. -/
theorem Regular.round_again (h : G.Regular false shapes) (hthreads : Threads G.operator? G.Reads)
    (horder : (Plan.opened ⟨G⟩ src limit).IsTopological order) (hnone : ∀ x, ¬ G.OnLoop x)
    (m n : Nat) : (Plan.opened ⟨G⟩ src limit).round src
    (Plan.opened ⟨G⟩ src limit).loopMembers order
        ((Plan.opened ⟨G⟩ src limit).stage src order m) =
      (Plan.opened ⟨G⟩ src limit).round src (Plan.opened ⟨G⟩ src limit).loopMembers order
        ((Plan.opened ⟨G⟩ src limit).stage src order n) := by
  refine round_congr _ fun x _ i hi hf => ?_
  rw [inputs_opened] at hi
  have hidle := (h.onLoop_or_idle (h.linked.mem_inputs.1 hi) hf).resolve_left (hnone x)
  rw [h.stage_idle hthreads horder m hidle, h.stage_idle hthreads horder n hidle]

/-- Stages at which the operators on loops have the same rows are the same. -/
theorem Regular.stage_congr (h : G.Regular false shapes) (hthreads : Threads G.operator? G.Reads)
    (horder : (Plan.opened ⟨G⟩ src limit).IsTopological order)
    (hruns : (Plan.opened ⟨G⟩ src limit).Runs src order)
    (hloop : ∀ x ∈ G.ids, G.OnLoop x → ∀ row, row ∈ G.history src limit order (m + 1) x ↔
      row ∈ G.history src limit order (n + 1) x) :
    (Plan.opened ⟨G⟩ src limit).stage src order (m + 1) =
      (Plan.opened ⟨G⟩ src limit).stage src order (n + 1) := by
  rw [round_eq_map horder (hruns m), round_eq_map horder (hruns n)]
  refine List.map_congr_left fun x hx => congrArg (Prod.mk x) ?_
  replace hx : x ∈ (Plan.opened ⟨G⟩ src limit).ids := (horder.mem_iff x).1 (List.mem_reverse.1 hx)
  obtain ⟨rank, hrank⟩ := horder.exists_rank
  induction hn : rank x using Nat.strong_induction_on generalizing x with
  | _ r before =>
  subst hn
  by_cases hx' : G.OnLoop x
  · exact hruns.rows_congr horder hx (onLoop_opened.2 hx') (hloop x (by rwa [ids_opened] at hx) hx')
  -- an operator that is not on a loop is fed back by idle ones at most
  obtain ⟨op, hop⟩ := exists_operator?_of_mem_ids (by rwa [ids_opened] at hx)
  have hplain : ¬ (Plan.opened ⟨G⟩ src limit).loopMembers.contains x = true := fun hc =>
    hx' (onLoop_opened.1 (mem_loopMembers.1 (List.contains_iff_mem.1 hc)))
  obtain ⟨rows, hemit, hrows⟩ := emitted_of_round horder (hruns m) hop
  obtain ⟨rows', hemit', hrows'⟩ := emitted_of_round horder (hruns n) hop
  rw [if_neg hplain] at hrows hrows'
  rw [hrows, hrows']
  refine Except.ok.inj
    (hemit.symm.trans (Eq.trans (congrArg _ (deliver_congr fun i hi => ?_)) hemit'))
  cases hf : i.feedback with
  | true =>
      have hidle := (h.onLoop_or_idle (h.linked.mem_inputs.1 hi) hf).resolve_left hx'
      exact (h.stage_idle hthreads horder m hidle).trans
        (h.stage_idle hthreads horder n hidle).symm
  | false =>
      have hi := (inputs_opened G src limit x).symm ▸ hi
      exact before _ (hrank _ (source_mem_ids hi) _ (mem_forward_of_mem_inputs hx hi hf)) _
        (source_mem_ids hi) rfl

/-- The rounds come to rest with the stage after the given one. -/
structure Rests (G : Graph Plan) (src : Source) (limit : Nat) (order : List OperatorId) (m : Nat) :
    Prop where
  sorted : (Plan.opened ⟨G⟩ src limit).topologicalOrder = .ok order
  runs : (Plan.opened ⟨G⟩ src limit).Runs src order
  within : m < limit
  stable : ∀ n > m, (Plan.opened ⟨G⟩ src limit).stage src order n =
    (Plan.opened ⟨G⟩ src limit).stage src order (m + 1)
  looped : ∀ x, G.OnLoop x → (Plan.opened ⟨G⟩ src limit).stage src order (m + 1) =
    (Plan.opened ⟨G⟩ src limit).stage src order m

/-- Rounds that come to an end do so at a stage, after which nothing changes if there are loops. -/
theorem rounds_eq_ok {g : Graph Outcome} {left k before : Nat} {a : Assignment}
    (h : g.rounds src g.loopMembers order limit left before (g.stage src order k) = .ok (a, n))
    (hk : ∀ j < k, g.round src g.loopMembers order (g.stage src order j) =
      .ok (g.stage src order (j + 1))) :
    ∃ m < k + left, a = g.stage src order (m + 1) ∧
      (∀ j ≤ m, g.round src g.loopMembers order (g.stage src order j) =
        .ok (g.stage src order (j + 1))) ∧
      (g.loopMembers = [] ∨ g.stage src order (m + 1) = g.stage src order m) := by
  induction left generalizing k before with
  | zero => cases h
  | succ left ih =>
      rw [rounds] at h
      cases hround : g.round src g.loopMembers order (g.stage src order k) with
      | error e =>
          rw [hround] at h
          cases h
      | ok next =>
      have hnext : g.stage src order (k + 1) = next := by
        rw [stage, hround]
        rfl
      have hall (j : Nat) (hj : j ≤ k) : g.round src g.loopMembers order (g.stage src order j) =
          .ok (g.stage src order (j + 1)) := by
        rcases Nat.lt_or_eq_of_le hj with hj | rfl
        · exact hk j hj
        · rw [hround, hnext]
      rw [hround] at h
      simp only [bind, Except.bind, pure, Except.pure] at h
      split at h
      · next hstop =>
        obtain ⟨rfl, -⟩ := Prod.mk.inj (Except.ok.inj h)
        rw [Bool.or_eq_true, List.isEmpty_iff, beq_iff_eq] at hstop
        exact ⟨k, by omega, hnext.symm, hall, hnext ▸ hstop⟩
      · obtain ⟨m, hm, hrest⟩ := ih (k := k + 1) (hnext ▸ h) fun j hj => hall j (by omega)
        exact ⟨m, by omega, hrest⟩

/-- Whenever the rows that operators have in the end can be computed, the rounds come to rest. -/
theorem Regular.rests_of_finalRows (h : G.Regular false shapes)
    (hthreads : Threads G.operator? G.Reads) {a : Assignment}
    (ha : (Plan.opened ⟨G⟩ src limit).finalRows src limit = .ok (a, n)) :
    ∃ order m, G.Rests src limit order m ∧
      a = (Plan.opened ⟨G⟩ src limit).stage src order (m + 1) := by
  rw [finalRows] at ha
  cases horder : (Plan.opened ⟨G⟩ src limit).topologicalOrder with
  | error e =>
      rw [horder] at ha
      cases ha
  | ok order =>
  rw [horder] at ha
  obtain ⟨m, hm, rfl, hrounds, hstop⟩ := rounds_eq_ok (k := 0) ha fun _ hj =>
    absurd hj (Nat.not_lt_zero _)
  have htop := topologicalOrder_spec horder
  by_cases hnone : (Plan.opened ⟨G⟩ src limit).loopMembers = []
  · have hplain (x : OperatorId) : ¬ G.OnLoop x := fun hx => by
      have hmem : x ∈ (Plan.opened ⟨G⟩ src limit).loopMembers :=
        mem_loopMembers.2 (onLoop_opened.2 hx)
      rw [hnone] at hmem
      cases hmem
    have hround (k : Nat) := (h.round_again hthreads htop hplain k 0).trans
      (hrounds 0 (Nat.zero_le m))
    have hstage (k : Nat) : (Plan.opened ⟨G⟩ src limit).stage src order (k + 1) =
        (Plan.opened ⟨G⟩ src limit).stage src order 1 := by
      rw [stage, hround k]
      rfl
    refine ⟨order, m, ⟨horder, fun k => (hround k).trans (congrArg _ (hstage k).symm), by omega,
      fun k hk => ?_, fun x hx => absurd hx (hplain x)⟩, rfl⟩
    obtain ⟨k, rfl⟩ := Nat.exists_eq_succ_of_ne_zero (Nat.ne_zero_of_lt hk)
    exact (hstage k).trans (hstage m).symm
  · have hrest := hstop.resolve_left hnone
    have hstable := stage_eq_of_stable hrest
    refine ⟨order, m, ⟨horder, fun k => ?_, by omega,
      fun k hk => (hstable k hk.le).trans hrest.symm,
      fun x _ => hrest⟩, rfl⟩
    by_cases hk : k ≤ m
    · exact hrounds k hk
    · rw [hstable k (by omega), hstable (k + 1) (by omega), hrounds m le_rfl, hrest]

end Rest

/-! ## Mirrors at rest -/

section Mirrored

variable {G G' : Graph Plan} {shapes : Shapes} {src : Source} {limit : Nat}
  {level level' : OperatorId → Precision} {E' : History} {order order' : List OperatorId} {m : Nat}

/-- A graph that emulates another one comes to rest with it at the latest, and with its results. -/
theorem Mirrors.rests (h : G.Mirrors G' src limit level level' (G.history src limit order) E')
    (hrests : G.Rests src limit order m) (hroot : G.operator? root = some .root)
    (hregular : G'.Regular false shapes)
    (horder : (Plan.opened ⟨G'⟩ src limit).topologicalOrder = .ok order') :
    ∃ m' n', (Plan.opened ⟨G'⟩ src limit).finalRows src limit =
        .ok ((Plan.opened ⟨G'⟩ src limit).stage src order' (m' + 1), n') ∧
      ∀ x form, G.operator? x = some (.result form) →
        (level x).Agree (G.history src limit order (m + 1) x)
          (G'.history src limit order' (m' + 1) x) := by
  have htop := topologicalOrder_spec horder
  have hthreads := h.graded.threads
  obtain ⟨hruns, hhistory⟩ := h.traced.runs h.graded htop
  -- as soon as the first graph rests, so does the second one
  have hstable : (Plan.opened ⟨G'⟩ src limit).loopMembers ≠ [] →
      (Plan.opened ⟨G'⟩ src limit).stage src order' (m + 1) =
        (Plan.opened ⟨G'⟩ src limit).stage src order' m := by
    intro hloops
    obtain ⟨x, hx⟩ := List.exists_mem_of_ne_nil _ hloops
    obtain ⟨y, hy⟩ := h.loops x (onLoop_opened.1 (mem_loopMembers.1 hx))
    have hrest := hrests.looped y hy
    have hsame : E' (m + 1) = E' m := h.follows _ _ (by unfold history; rw [hrest])
    obtain ⟨k, rfl⟩ : ∃ k, m = k + 1 := by
      refine Nat.exists_eq_succ_of_ne_zero fun hzero => ?_
      subst hzero
      have hassigned := (round_spec (topologicalOrder_spec hrests.sorted) (hrests.runs 0)).1 root
      rw [hrest, ids_opened] at hassigned
      exact absurd (hassigned.2 (mem_ids_of_operator? hroot)) Bool.noConfusion
    refine hregular.stage_congr hthreads htop hruns fun x hx hloop row => ?_
    obtain ⟨op, hop⟩ := exists_operator?_of_mem_ids hx
    have hlevel : Precision.members ≤ level' x := by
      rcases h.graded.looped x op hop hloop with he | ⟨he, -⟩
      · exact Precision.le_iff.2 (by rw [he])
      · exact Precision.le_iff.2 (by rw [he]; decide)
    have hlast := (hhistory (k + 2) x hx).mono hlevel
    rw [hsame] at hlast
    exact (hlast row).symm.trans ((hhistory (k + 1) x hx).mono hlevel row)
  obtain ⟨m', n', hrounds, hm', hstop⟩ :=
    rounds_stage hruns limit hstable limit 0 0 (Nat.zero_le _) (by have := hrests.within; omega)
  refine ⟨m', n', by rw [finalRows, horder]; exact hrounds, fun x form hx => ?_⟩
  -- the last stages are the same as that at which the first graph rests
  have hlast : (Plan.opened ⟨G'⟩ src limit).stage src order' (m' + 1) =
      (Plan.opened ⟨G'⟩ src limit).stage src order' (m + 1) := by
    rcases hstop with hnone | hstop
    · refine hregular.stage_congr hthreads htop hruns fun x _ hx => ?_
      have hmem : x ∈ (Plan.opened ⟨G'⟩ src limit).loopMembers :=
        mem_loopMembers.2 (onLoop_opened.2 hx)
      rw [hnone] at hmem
      cases hmem
    · have hrest := stage_eq_of_stable hstop
      rw [hstop, hrest (m + 1) (by omega)]
  obtain ⟨hlevel, hshown⟩ := h.shown x form hx
  have hagree := hhistory (m + 1) x (mem_ids_of_operator? ((h.results x form).2 hx))
  rw [hlevel, hshown (m + 1)] at hagree
  unfold history at hagree ⊢
  rwa [hlast]

end Mirrored

/-! ## Rules -/

section Rules

variable {G G' : Graph Plan} {shapes : Shapes} {src : Source} {limit : Nat}
  {level : OperatorId → Precision} {E : History} {provesEmpty : IndexScan → Bool}

/-- What is traced binds the variables that are certain once the variable sets have been
computed. -/
theorem Traced.binds (h : G.Graded level) (hE : G.Traced src limit level E)
    (hfit : (⟨G⟩ : Plan).Fit false) (hcurrent : (⟨G⟩ : Plan).Current) : G.Binds level E := by
  intro x node hnode hlevel m s hs v hv
  obtain ⟨⟨order, horder⟩, -⟩ := updateVariables_eq_ok hcurrent
  have horder : (Plan.opened ⟨G⟩ src limit).topologicalOrder = .ok order :=
    (topologicalOrder_mapNested _ G).trans horder
  obtain ⟨hruns, hhistory⟩ := hE.runs h (topologicalOrder_spec horder)
  have hreached (k : Nat) : (Plan.opened ⟨G⟩ src limit).Reached src order
      ((Plan.opened ⟨G⟩ src limit).stage src order k) := by
    induction k with
    | zero => exact .start
    | succ k ih => exact ih.next (hruns k)
  have hop : G.operator? x = some node.operator := by
    rw [operator?, hnode]
    rfl
  have hshown : .solution s ∈ G.history src limit order m x :=
    ((hhistory m x (mem_ids_of_operator? hop)).mem_iff hlevel _).1 hs
  exact (hfit.bounds_hold hcurrent src limit x node hnode s
    ((hreached m).shows horder hshown)).certain v hv

/-- Whatever a rule makes of a graph that it reduces mirrors that graph. -/
theorem Reduction.mirrors (hreduction : G.Reduction provesEmpty G') (h : G.Graded level)
    (hE : G.Traced src limit level E) (hregular : G.Regular false shapes) (hsane : G.Sane)
    (hbinds : G.Binds level E) (hsymmetric : G'.Symmetric)
    (hempty : ∀ s, provesEmpty s = true → src.scan s = []) :
    ∃ level' E', G.Mirrors G' src limit level level' E E' := by
  cases hreduction with
  | pruned u op gone hop huseless hmem hexhausts hwired =>
      exact ⟨_, _, hE.pruned h hempty hop huseless hmem hexhausts hsymmetric hwired⟩
  | spliced u hsite hwired => exact ⟨_, _, hE.spliced h hregular hsite hsymmetric hwired⟩
  | merged u inputs scans scan hsite hmerge hwired =>
      exact ⟨_, _, hE.merged h hregular hsymmetric
        ⟨hregular.linked, hregular.root, hsite, hmerge, hwired⟩⟩
  | specialized u f equalities hop hplain hspecialize hwired =>
      exact ⟨_, _, hE.likened h hop (.filter f equalities) hwired hsymmetric fun operands =>
        Operator.emit_ruleFilter_eq (f := ⟨f.condition, _, f.slot⟩) hspecialize src u operands⟩
  | indexed u hop hwired =>
      exact ⟨_, _, hE.likened h hop .distinct hwired hsymmetric fun _ => rfl⟩
  | distributed u op hsite hwired =>
      exact ⟨_, _, hE.distributed h ⟨h.symmetric, hsymmetric, hsane, hsite, hwired⟩⟩
  | lowered u below op l hsite hwired =>
      exact ⟨_, _, hE.lowered h ⟨⟨hregular, hsane, hsite, hwired⟩, h.symmetric, hsymmetric⟩ hbinds⟩
  | renamed u r r' hsite hwired => exact absurd hsite hregular.not_renameSite

/-- The graph is that of a fit plan, and whatever traces the rows of another graph has a counterpart
for it. -/
structure Emulates (G' G : Graph Plan) (src : Source) (limit : Nat) : Prop where
  fit : (⟨G'⟩ : Plan).Fit false
  symmetric : G'.Symmetric
  mirrors : ∀ level E, G.Graded level → G.Traced src limit level E →
    ∃ level' E', G.Mirrors G' src limit level level' E E'

theorem Emulates.updated (h : G'.Emulates G src limit) {g : Graph Plan}
    (hrun : updateVariables.runOn G' = (.ok (), g)) : g.Emulates G src limit := by
  have hsame := (updateVariables_eq_ok hrun).2
  have hsymmetric := hsame.symmetric h.symmetric
  refine ⟨h.fit.updated hrun, hsymmetric, fun level E hgraded hE => ?_⟩
  obtain ⟨level', E', hmirrors⟩ := h.mirrors level E hgraded hE
  exact ⟨level', E', hmirrors.trans (hmirrors.traced.rewired hmirrors.graded hsame.operator?
    (fun x i => by rw [Reads, Reads, hsame.succeeding]) hsymmetric)⟩

/-- A reduction of a graph whose variable sets are right emulates whatever the graph emulates. -/
theorem Emulates.reduced (h : G'.Emulates G src limit) (hcurrent : (⟨G'⟩ : Plan).Current)
    {g : Graph Plan} (hreduction : G'.Reduction provesEmpty g) (hsymmetric : g.Symmetric)
    (hempty : ∀ s, provesEmpty s = true → src.scan s = []) : g.Emulates G src limit := by
  refine ⟨h.fit.reduced hreduction, hsymmetric, fun level E hgraded hE => ?_⟩
  obtain ⟨level', E', hmirrors⟩ := h.mirrors level E hgraded hE
  obtain ⟨shapes, hregular⟩ := h.fit.exists_regular
  obtain ⟨level'', E'', hmirrors'⟩ := hreduction.mirrors hmirrors.graded hmirrors.traced hregular
    h.fit.sane (hmirrors.traced.binds hmirrors.graded h.fit hcurrent) hsymmetric hempty
  exact ⟨level'', E'', hmirrors.trans hmirrors'⟩

end Rules

end Graph

/-! ## Passes -/

section Passes

variable {G : Graph Plan} {src : Source} {limit : Nat} {provesEmpty : IndexScan → Bool}
  {rules : List (PlanRule Plan)} (hempty : ∀ s, provesEmpty s = true → src.scan s = [])

include hempty

/-- A rule that is tried on a graph that emulates another one leaves such a graph. The variable
sets, which rules rely on, are right before and after. -/
theorem Reshape.tryAt_keeps_emulates {rule : PlanRule Plan}
    (hrule : rule ∈ PlanRule.catalogue provesEmpty) (id : OperatorId) :
    (tryAt rule id).Keeps fun w => w.graph.Emulates G src limit ∧ Settled w := by
  intro w ⟨hemulates, hsettled⟩
  refine Edit.Ends.and ?_ (tryAt_keeps_settled rule id w hsettled)
  unfold tryAt
  refine Edit.ends_bind.2 (Edit.ends_get.2 (Edit.ends_ite (fun _ => Edit.ends_pure.2 hemulates)
    fun hkind => ?_))
  have hkind : w.graph.kind? id = some rule.start := by simpa using hkind
  split
  · exact Edit.ends_pure.2 hemulates
  · next m hm =>
    refine Edit.ends_bind.2 fun _ w₁ hrun => ?_
    have hemulates₁ := hemulates.reduced hsettled.updateVariables
      (hemulates.fit.reduces rfl hrule hkind hm hrun)
      (PlanRule.catalogue_keeps Workspace.keptBySteps_symmetric provesEmpty rule hrule m w
        hemulates.symmetric _ w₁ hrun) hempty
    unfold refresh onGraph
    exact Edit.ends_bind.2 (Edit.ends_within.2 fun _ g hrun =>
      Edit.ends_pure.2 (hemulates₁.updated hrun))

/-- However often rules are applied to a graph that emulates another one, it emulates that in the
end. -/
theorem Graph.applyRules_keeps_emulates
    (hrules : ∀ rule ∈ rules, rule ∈ PlanRule.catalogue provesEmpty)
    (passes : Nat) : (applyRules rules passes).Keeps fun g => g.Emulates G src limit := by
  refine fun g hg => ends_applyRules_of (Edit.ends_ite (fun _ => Edit.ends_pure.2 hg) fun _ => ?_)
  have hrefresh : (Reshape.refresh : Reshape Plan Unit).Ends (.ofGraph g) fun _ w =>
      w.graph.Emulates G src limit ∧ Reshape.Settled w := by
    refine Edit.Ends.and ?_ Reshape.ends_refresh_settled
    unfold Reshape.refresh Reshape.onGraph
    exact Edit.ends_within.2 fun _ g' hrun => hg.updated hrun
  refine hrefresh.bind fun _ w hw => ?_
  exact (Reshape.passes_keeps (fun rule hrule id => Reshape.tryAt_keeps_emulates hempty
    (hrules rule hrule) id) _ _ _ w hw).mono fun _ _ h => h.1

end Passes

end QuadAlgebra
