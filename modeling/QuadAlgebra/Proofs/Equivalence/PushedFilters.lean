import QuadAlgebra.Proofs.Equivalence.DistributedFilters
import QuadAlgebra.Proofs.Optimization.Fixpoints
import QuadAlgebra.Proofs.Optimization.Frames
import QuadAlgebra.Proofs.Variables.Certain

/-!
# Filters that are pushed

A filter above a union, a join or an optional pattern is replaced by copies on some edges to that
operator, which is then read in the place of the filter. Below joins and optional patterns this
keeps the rows since variables that are certain are bound, which holds in all graphs without
feedback edges whose variable sets have been computed (`Graph.Produces.binds_certain`).
-/

namespace QuadAlgebra

open List (Perm)

namespace Graph

/-! ## Edges to operators that divide filters -/

/-- The copies of a filter that is moved below an operator stand on all edges to some operands, on
which the variables of the filter are certain to be bound where that matters. -/
theorem exists_divides {γ : Type} {g : Graph γ} {below : OperatorId} {vars : VarSet}
    (hsome : PlanRule.pushTargets g below vars ≠ []) : ∃ op here, g.operator? below = some op ∧
      op.Divides here (fun k => ∀ i ∈ g.inputs below, i.operand = k →
        ∀ n, g.node? i.source = some n → ∀ v ∈ vars, v ∈ n.certain) ∧
      ∀ i ∈ g.inputs below,
        i.source ∈ PlanRule.pushTargets g below vars ↔ here i.operand = true := by
  have hcovers {inputs : List Input} (h : PlanRule.covers g below vars inputs = true) {i : Input}
      (hi : i ∈ inputs) {n : Node γ} (hn : g.node? i.source = some n) :
      ∀ v ∈ vars, v ∈ n.certain := by
    have hi := (Bool.and_eq_true_iff.1 (List.all_eq_true.1 h i hi)).2
    rw [hn] at hi
    exact OrdSet.isSubset_iff.1 hi
  unfold PlanRule.pushTargets at hsome ⊢
  dsimp only at hsome ⊢
  split at hsome
  · exact absurd rfl hsome
  · next hdiffer =>
    rw [if_neg hdiffer]
    have hnodup : ((g.inputs below).map Input.source).Nodup :=
      nodup_of_sourcesDiffer (by simpa using hdiffer)
    have hsame {i j : Input} (hi : i ∈ g.inputs below) (hj : j ∈ g.inputs below)
        (hsource : i.source = j.source) : i = j := List.inj_on_of_nodup_map hnodup hi hj hsource
    split at hsome
    · next hop =>
      refine ⟨.join, fun k => PlanRule.covers g below vars
        ((g.inputs below).filter (·.operand == k)), hop, .join fun k hk i hi hoperand n hn => ?_,
        fun i hi => ?_⟩
      · exact hcovers hk (List.mem_filter.2 ⟨hi, beq_iff_eq.2 hoperand⟩) hn
      · simp only [List.mem_flatMap, List.mem_filter, List.mem_map, Prod.exists,
          exists_eq_right, mem_operandGroups]
        constructor
        · rintro ⟨_, ⟨⟨k, ⟨_, _, rfl⟩, rfl⟩, hcovered⟩, j, hj, hsource⟩
          obtain ⟨hj, hoperand⟩ := List.mem_filter.1 hj
          rwa [hsame hi hj hsource.symm, beq_iff_eq.1 hoperand]
        · exact fun hcovered => ⟨_, ⟨⟨i.operand, ⟨i, hi, rfl⟩, rfl⟩, hcovered⟩, i,
            List.mem_filter.2 ⟨hi, beq_self_eq_true _⟩, rfl⟩
    · next hop =>
      split at hsome
      · next hall =>
        refine ⟨.union, fun _ => true, hop, .union fun _ => rfl, fun i hi => ?_⟩
        simp only [hall, if_true, iff_true]
        exact mem_sourcesOf.2 ⟨i, hi, rfl⟩
      · exact absurd rfl hsome
    · next hop =>
      split at hsome
      · next hall =>
        refine ⟨.optional, fun k => k == 0, hop, .optional (fun _ => rfl) fun i hi hoperand n hn =>
          hcovers hall (List.mem_filter.2 ⟨hi, beq_iff_eq.2 hoperand⟩) hn, fun i hi => ?_⟩
        simp only [hall, if_true, List.mem_map, List.mem_filter]
        constructor
        · rintro ⟨j, ⟨hj, hzero⟩, hsource⟩
          rwa [hsame hi hj hsource.symm]
        · exact fun hzero => ⟨i, ⟨hi, hzero⟩, rfl⟩
      · exact absurd rfl hsome
    · exact absurd rfl hsome

/-- A filter on some operands, for each of the inputs. -/
theorem deliver_sifted {γ : Type} {g : Graph γ} {id : OperatorId} {keep : Solution → Bool}
    {here : Nat → Bool} (found : Input → List Solution) :
    g.deliver
      (fun i => (if here i.operand then (found i).filter keep else found i).map .solution) id =
      solutionOperands (sifted keep here
        ((g.operandGroups id).map fun group => (group.1, group.2.flatMap found))) := by
  rw [deliver_solutions, sifted, List.map_map]
  refine congrArg _ (List.map_congr_left fun group hgroup => ?_)
  obtain ⟨-, hmembers⟩ := mem_operandGroups.1 hgroup
  have hoperand (i : Input) (hi : i ∈ group.2) : i.operand = group.1 := by
    rw [hmembers] at hi
    exact beq_iff_eq.1 (List.mem_filter.1 hi).2
  rw [List.flatMap_congr fun i hi => by rw [hoperand i hi]]
  dsimp only [Function.comp_apply]
  split
  · rw [List.filter_flatMap]
  · rfl

section Dividing

variable {g : Graph Plan} {u below : OperatorId} {op : Operator Plan} {l : List Input} {i : Input}
  {src : Source} {limit : Nat}

theorem LowerSite.mem_iff (hsite : g.LowerSite u below op l) (hi : i ∈ g.inputs below) :
    i ∈ l ↔ i.source ∈ PlanRule.pushTargets g below op.reads := by
  rw [hsite.targets, List.mem_filter, and_iff_right hi, List.contains_iff_mem]

theorem LowerSite.mem_inputs (hsite : g.LowerSite u below op l) (hi : i ∈ l) :
    i ∈ g.inputs below := by
  rw [hsite.targets] at hi
  exact (List.mem_filter.1 hi).1

/-- The operator below a filter divides it over the operands where the copies are put. -/
theorem LowerSite.exists_divides (hsite : g.LowerSite u below op l) :
    ∃ opB here, g.operator? below = some opB ∧
      opB.Divides here (fun k => ∀ i ∈ g.inputs below, i.operand = k →
        ∀ n, g.node? i.source = some n → ∀ v ∈ op.reads, v ∈ n.certain) ∧
      (∀ i ∈ g.inputs below, i ∈ l ↔ here i.operand = true) ∧
        ∃ j ∈ g.inputs below, here j.operand = true := by
  obtain ⟨j, hj⟩ := List.exists_mem_of_ne_nil _ hsite.fed
  have hmem := hsite.mem_inputs hj
  obtain ⟨opB, here, hopB, hdivides, hhere⟩ := Graph.exists_divides
    (List.ne_nil_of_mem ((hsite.mem_iff hmem).1 hj))
  have hl (i : Input) (hi : i ∈ g.inputs below) : i ∈ l ↔ here i.operand = true :=
    (hsite.mem_iff hi).trans (hhere i hi)
  exact ⟨opB, here, hopB, hdivides, hl, j, hmem, (hl j hmem).1 hj⟩

/-- If the operator below a filter emits solutions, then it has read solutions; and where these bind
what is certain, it emits what the filter keeps if it reads that where the copies are put. -/
theorem LowerSite.emit_kept (hsite : g.LowerSite u below op l) {opB : Operator Plan}
    (hopB : g.operator? below = some opB) {read : Input → List Row} {rows : List Row}
    (hemit : (opB.opened src limit).emit src below (g.deliver read below) = .ok rows)
    (hrows : ∀ row ∈ rows, ∃ s, row = .solution s)
    (hbinds : ∀ i ∈ g.inputs below, ∀ n, g.node? i.source = some n → ∀ s, .solution s ∈ read i →
      ∀ v ∈ n.certain, v ∈ s.keySet) :
    (∀ i ∈ g.inputs below, (Operator.solutionsIn (read i)).map .solution = read i) ∧
      (opB.opened src limit).emit src below (g.deliver (fun i =>
        (if i ∈ l then (Operator.solutionsIn (read i)).filter op.keeps
          else Operator.solutionsIn (read i)).map .solution) below) =
        .ok (((Operator.solutionsIn rows).filter op.keeps).map .solution) := by
  obtain ⟨opB', here, hopB', hdivides, hl, j, hj, hhere⟩ := hsite.exists_divides
  obtain rfl := Option.some.inj (hopB.symm.trans hopB')
  have hopened : (opB.opened src limit).Divides here _ := hdivides.withNested _
  have hsolutions (i : Input) (hi : i ∈ g.inputs below) :
      (Operator.solutionsIn (read i)).map .solution = read i := by
    refine map_solutionsIn fun row hrow => ?_
    obtain ⟨o, ho, -, hmem⟩ := exists_mem_deliver read hi
    exact hopened.solution_of_mem nodup_deliver hemit hrows o ho row (hmem row hrow)
  -- what is certain of an input settles what the filter decides
  have hsettles (i : Input) (hi : i ∈ g.inputs below) (hcertain : ∀ n, g.node? i.source = some n →
      ∀ v ∈ op.reads, v ∈ n.certain) : ∀ s ∈ Operator.solutionsIn (read i), s.Settles op.keeps := by
    intro s hs
    obtain ⟨n, hn⟩ := Option.isSome_iff_exists.1 (mem_ids.1 (source_mem_ids hi))
    have hrow : .solution s ∈ read i := hsolutions i hi ▸ List.mem_map_of_mem hs
    exact Operator.settles_keeps fun v hv => hbinds i hi n hn s hrow v (hcertain n hn v hv)
  have hjoined := hopened.imp fun k hk => show ∀ o ∈ (g.operandGroups below).map fun group =>
      (group.1, group.2.flatMap fun i => Operator.solutionsIn (read i)), o.1 = k →
        ∀ s ∈ o.2, s.Settles op.keeps by
    rintro _ ho rfl s hs
    obtain ⟨group, hgroup, rfl⟩ := List.mem_map.1 ho
    obtain ⟨i, hi, hs⟩ := List.mem_flatMap.1 hs
    rw [(mem_operandGroups.1 hgroup).2, List.mem_filter, beq_iff_eq] at hi
    exact hsettles i hi.1 (hk i hi.1 hi.2) s hs
  refine ⟨hsolutions, ?_⟩
  rw [deliver_congr fun i hi => (hsolutions i hi).symm, deliver_solutions] at hemit
  obtain ⟨found, hall, hkept⟩ := hjoined.emit_sifted src below
    ⟨_, List.mem_map_of_mem (mem_operandGroups.2 ⟨⟨j, hj, rfl⟩, rfl⟩), hhere⟩
  obtain rfl := Except.ok.inj (hall.symm.trans hemit)
  rw [deliver_congr fun i hi => by rw [if_congr (hl i hi) rfl rfl], deliver_sifted, hkept,
    solutionsIn_map]

end Dividing

/-! ## Filters above other operators -/

/-- A graph in which copies below an operator have taken the place of the filter above it. -/
structure Lowered (g g' : Graph Plan) (u below : OperatorId) (op : Operator Plan) (l : List Input)
    (rank : OperatorId → Nat) : Prop where
  symmetric : g.Symmetric
  symmetric' : g'.Symmetric
  forward : g.Forward
  ascends : ∀ x, ∀ i ∈ g.inputs x, rank i.source < rank x
  settled : updateVariables.runOn g = (.ok (), g)
  site : g.LowerSite u below op l
  wired : g'.Wired (g.slots.length + l.length)
    (fun x => if x = u then none else withCopies g.operator? g.slots.length l.length op x)
    (loweredReads g.Reads g.slots.length u below l)
  spared : ∀ x ∈ g.ids, rank x < rank below → g'.inputs x = g.inputs x

namespace Lowered

variable {g g' : Graph Plan} {u below x : OperatorId} {op : Operator Plan} {l : List Input}
  {rank : OperatorId → Nat} {i : Input} {src : Source} {limit : Nat}

/-- What the operator below reads in the place of an input. -/
def moved (g : Graph Plan) (l : List Input) (i : Input) : Input :=
  if i ∈ l then ⟨copyAt g.slots.length l i, i.operand, i.feedback⟩ else i

theorem moved_operand : (moved g l i).operand = i.operand := by
  unfold moved
  split <;> rfl

theorem moved_feedback : (moved g l i).feedback = i.feedback := by
  unfold moved
  split <;> rfl

section

variable (h : g.Lowered g' u below op l rank)

include h

/-! ### Edges -/

theorem nodup : l.Nodup := by
  rw [h.site.targets]
  exact (h.symmetric.inputs_spec below).1.filter _

theorem copy_not_mem_ids (hi : i ∈ l) : copyAt g.slots.length l i ∉ g.ids := fun hmem =>
  not_copyOf hmem i ((copyOf_iff h.nodup).2 ⟨hi, rfl⟩)

theorem rank_below : rank below < rank u := by
  obtain ⟨i, hinputs, rfl, -⟩ := h.site.input
  exact h.ascends u i (hinputs ▸ List.mem_singleton_self i)

theorem ne_of_rank (hx : rank x < rank u) : x ≠ u := by
  rintro rfl
  exact absurd hx (Nat.lt_irrefl _)

theorem operator_before (hx : x ∈ g.ids) (hlower : rank x < rank u) :
    g'.operator? x = g.operator? x := by
  rw [h.wired.operator?, if_neg (h.ne_of_rank hlower), withCopies_of_lt (lt_length_of_mem_ids hx)]

theorem operator_copy (hi : i ∈ l) : g'.operator? (copyAt g.slots.length l i) = some op := by
  have hne : copyAt g.slots.length l i ≠ u := by
    intro he
    exact h.copy_not_mem_ids hi (he.symm ▸ mem_ids_of_operator? h.site.operator)
  rw [h.wired.operator?, if_neg hne]
  exact withCopies_of_copyOf ((copyOf_iff h.nodup).2 ⟨hi, rfl⟩)

theorem inputs_copy (hi : i ∈ l) :
    g'.inputs (copyAt g.slots.length l i) = [⟨i.source, 0, false⟩] := by
  refine h.symmetric'.inputs_eq_singleton fun j => (h.wired.reads _ j).trans ?_
  have hnew {j : Input} (hj : g.Reads (copyAt g.slots.length l i) j) : False :=
    h.copy_not_mem_ids hi (mem_ids.2 (h.symmetric.linked.contains_target hj))
  have hbelow : copyAt g.slots.length l i ≠ below := fun he =>
    hnew (he.symm ▸ h.symmetric.linked.mem_inputs.1 (h.site.mem_inputs hi))
  constructor
  · rintro (⟨hj, -⟩ | ⟨i', hi', rfl⟩ | ⟨hj, -⟩ | ⟨-, hj⟩)
    · exact (hnew hj).elim
    · obtain ⟨-, hsame⟩ := (copyOf_iff h.nodup).1 hi'
      rw [copyAt_inj hi hsame]
    · exact absurd hj hbelow
    · exact (hnew hj).elim
  · rintro rfl
    exact .inr (.inl ⟨i, (copyOf_iff h.nodup).2 ⟨hi, rfl⟩, rfl⟩)

/-- The operator below reads the copies on some edges. -/
theorem inputs_below : (g'.inputs below).Perm ((g.inputs below).map (moved g l)) := by
  have hreads {j : Input} : j ∈ g.inputs below ↔ g.Reads below j := h.symmetric.linked.mem_inputs
  have hsource {j : Input} (hj : j ∈ g.inputs below) : j.source ≠ u :=
    h.ne_of_rank ((h.ascends below j hj).trans h.rank_below)
  have hold {j : Input} (hj : j ∈ g.inputs below) : j ∈ l ↔ ∃ k ∈ l, k.source = j.source := by
    refine ⟨fun hl => ⟨j, hl, rfl⟩, fun ⟨k, hk, hs⟩ => (h.site.mem_iff hj).2 (hs ▸ ?_)⟩
    exact (h.site.mem_iff (h.site.mem_inputs hk)).1 hk
  have hapart {j k : Input} (hj : j ∈ l) (hk : k ∈ g.inputs below) :
      k ≠ ⟨copyAt g.slots.length l j, j.operand, j.feedback⟩ := by
    rintro rfl
    exact h.copy_not_mem_ids hj (source_mem_ids hk)
  refine (List.perm_ext_iff_of_nodup (h.symmetric'.inputs_spec below).1
    ((h.symmetric.inputs_spec below).1.map_on fun j hj k hk hjk => ?_)).2 fun j => ?_
  · unfold moved at hjk
    split at hjk <;> split at hjk
    · next hl _ => exact copyAt_inj hl (congrArg Input.source hjk)
    · next hl _ => exact absurd hjk.symm (hapart hl hk)
    · next _ hl => exact absurd hjk (hapart hl hj)
    · exact hjk
  · refine h.symmetric'.linked.mem_inputs.trans ((h.wired.reads below j).trans ?_)
    rw [List.mem_map]
    have hmem : below ∈ g.ids := by
      obtain ⟨k, hk⟩ := List.exists_mem_of_ne_nil _ h.site.fed
      exact mem_ids.2 (h.symmetric.linked.contains_target (hreads.1 (h.site.mem_inputs hk)))
    constructor
    · rintro (⟨hj, -, -, hnot⟩ | ⟨k, hk, -⟩ | ⟨-, k, hk, hoperand, hflag⟩ | ⟨-, hj⟩)
      · have hj := hreads.2 hj
        exact ⟨j, hj, if_neg fun hl => hnot ⟨rfl, (hold hj).1 hl⟩⟩
      · exact absurd hk (not_copyOf hmem k)
      · obtain ⟨hk, hs⟩ := (copyOf_iff h.nodup).1 hk
        refine ⟨k, h.site.mem_inputs hk, (if_pos hk).trans ?_⟩
        rw [← hs, ← hoperand, ← hflag]
      · exact absurd rfl (hsource (hreads.2 hj))
    · rintro ⟨k, hk, rfl⟩
      by_cases hl : k ∈ l
      · rw [moved, if_pos hl]
        exact .inr (.inr (.inl ⟨rfl, k, (copyOf_iff h.nodup).2 ⟨hl, rfl⟩, rfl, rfl⟩))
      · rw [moved, if_neg hl]
        refine .inl ⟨hreads.1 hk, h.ne_of_rank h.rank_below, hsource hk, fun hl' => ?_⟩
        exact hl ((hold hk).2 hl'.2)

theorem forward' : g'.Forward := by
  intro s e he
  rcases (h.wired.reads e.target ⟨s, e.operand, e.feedback⟩).1 he with
    ⟨hi, -⟩ | ⟨_, -, hi⟩ | ⟨-, i, hi, -, hflag⟩ | ⟨-, hi⟩
  · exact h.forward s _ hi
  · exact congrArg Input.feedback hi
  · obtain ⟨hi, -⟩ := (copyOf_iff h.nodup).1 hi
    exact hflag.trans (h.forward.inputs h.symmetric.linked i (h.site.mem_inputs hi))
  · exact h.forward u _ hi

/-- Who has read the filter reads the operator below. -/
theorem inputs_perm (hx : ∃ i ∈ g.inputs x, i.source = u) :
    (g'.inputs x).Perm ((g.inputs x).flatMap (standIns u [below])) := by
  obtain ⟨i, hi, rfl⟩ := hx
  have hread := h.symmetric.linked.mem_inputs.1 hi
  have hmem : x ∈ g.ids := mem_ids.2 (h.symmetric.linked.contains_target hread)
  have hx : x ≠ i.source := by
    rintro rfl
    exact absurd (h.ascends _ i hi) (Nat.lt_irrefl _)
  have hbelow : x ≠ below := by
    rintro rfl
    exact absurd (h.rank_below.trans (h.ascends _ i hi)) (Nat.lt_irrefl _)
  refine inputs_perm_standIns h.symmetric h.symmetric' (List.nodup_singleton below) (fun j => ?_)
    fun s hs k f _ hj => ?_
  · rw [h.wired.reads, List.mem_singleton]
    constructor
    · rintro (⟨hj, -, hne, -⟩ | ⟨k, hk, -⟩ | ⟨he, -⟩ | hj)
      · exact .inl ⟨hj, hne⟩
      · exact absurd hk (not_copyOf hmem k)
      · exact absurd he hbelow
      · exact .inr hj
    · rintro (⟨hj, hne⟩ | hj)
      · exact .inl ⟨hj, hx, hne, fun he => hbelow he.1⟩
      · exact .inr (.inr (.inr hj))
  · -- the operator below is read by the filter only
    obtain ⟨_, -, -, -, honly⟩ := h.site.input_eq h.symmetric.linked
    exact hx (honly x _ hj (List.mem_singleton.1 hs)).1

/-! ### Rows -/

/-- The filter keeps solutions of the operator below. -/
theorem exists_solutions {rows : List Row} (hproduces : g.Produces src limit u rows) :
    ∃ found : List Solution, g.Produces src limit below (found.map .solution) ∧
      rows.Perm ((found.filter op.keeps).map .solution) ∧
        ∀ (id : OperatorId) (l : List (Nat × List Solution)),
          (op.opened src limit).emit src id (solutionOperands l) =
            .ok (((l.flatMap Prod.snd).filter op.keeps).map .solution) := by
  obtain ⟨i, hinputs, rfl, -⟩ := h.site.input
  obtain ⟨read, hread, hrows, hcopies⟩ := hproduces.exists_kept h.site.filters h.site.operator
  rw [hinputs, List.flatMap_singleton] at hrows
  exact ⟨read i, hread i (hinputs ▸ List.mem_singleton_self i), hrows, hcopies⟩

/-- The operator below emits what the filter would have kept if on some edges it reads only that. -/
theorem exists_emit {found : List Solution}
    (hproduces : g.Produces src limit below (found.map .solution)) :
    ∃ (opBelow : Operator Plan) (read : Input → List Solution),
      g.operator? below = some opBelow ∧ opBelow.IgnoresOrder ∧
      (∀ i ∈ g.inputs below, g.Produces src limit i.source ((read i).map .solution)) ∧
        (opBelow.opened src limit).emit src below (g.deliver (fun i =>
          (if i ∈ l then (read i).filter op.keeps else read i).map .solution) below) =
            .ok ((found.filter op.keeps).map .solution) := by
  obtain ⟨opBelow, here, hopBelow, hdivides, -⟩ := h.site.exists_divides
  generalize hrows : found.map Row.solution = rows at hproduces
  cases hproduces with
  | root hroot =>
      rw [hopBelow] at hroot
      obtain rfl := Option.some.inj hroot
      cases hdivides
  | emits read hop _ hread hemit =>
      subst hrows
      obtain rfl := Option.some.inj (hopBelow.symm.trans hop)
      obtain ⟨hsolutions, hkept⟩ := h.site.emit_kept hopBelow hemit
        (fun row hrow => by
          obtain ⟨s, -, rfl⟩ := List.mem_map.1 hrow
          exact ⟨s, rfl⟩)
        fun i hi n hn s hrow v hv => (hread i hi).binds_certain h.settled h.symmetric.linked
          h.forward hrow hn v hv
      rw [solutionsIn_map] at hkept
      exact ⟨opBelow, fun i => Operator.solutionsIn (read i), hopBelow,
        by cases hdivides <;> trivial, fun i hi => (hsolutions i hi).symm ▸ hread i hi, hkept⟩

/-- The operator below produces what the filter would have kept. -/
theorem produces_below {found : List Solution}
    (hproduces : g.Produces src limit below (found.map .solution))
    (hcopies : ∀ (id : OperatorId) (l : List (Nat × List Solution)),
      (op.opened src limit).emit src id (solutionOperands l) =
        .ok (((l.flatMap Prod.snd).filter op.keeps).map .solution)) :
    ∃ rows, g'.Produces src limit below rows ∧
      rows.Perm ((found.filter op.keeps).map .solution) := by
  obtain ⟨opBelow, read, hop, horder, hread, hemit⟩ := h.exists_emit hproduces
  have hmoved (i : Input) (hi : i ∈ g.inputs below) : g'.Produces src limit (moved g l i).source
      ((if i ∈ l then (read i).filter op.keeps else read i).map .solution) := by
    have hbefore := (hread i hi).of_lower_rank h.ascends (fun x hx hlower =>
      ⟨h.operator_before hx (hlower.trans h.rank_below), h.spared x hx hlower⟩)
        (h.ascends below i hi)
    unfold moved
    split
    · next hil => exact produces_copy (h.operator_copy hil) (h.inputs_copy hil) hbefore hcopies
    · exact hbefore
  have halike : (g.deliver (fun i =>
      (if i ∈ l then (read i).filter op.keeps else read i).map .solution) below).Alike
        (g'.deliver (fun i => g'.produced src limit i.source) below) := by
    refine deliver_alike (f := fun i => [moved g l i]) ?_
      (fun i _ k hk => (List.mem_singleton.1 hk).symm ▸ moved_operand)
      (fun _ _ => List.cons_ne_nil _ _) fun i hi => ?_
    · rw [← List.map_eq_flatMap]
      exact h.inputs_below
    · rw [List.flatMap_singleton, (hmoved i hi).produced_eq]
  have hopened : (opBelow.opened src limit).IgnoresOrder :=
    (Operator.ignoresOrder_withNested opBelow _).2 horder
  obtain ⟨rows, hemit', hperm⟩ := Operator.emit_perm hopened src halike _ hemit
  have hmem : below ∈ g.ids := mem_ids_of_operator? hop
  have hinput (k : Input) (hk : k ∈ g'.inputs below) : ∃ i ∈ g.inputs below, moved g l i = k :=
    List.mem_map.1 (h.inputs_below.mem_iff.1 hk)
  refine ⟨rows, .emits _ ((h.operator_before hmem h.rank_below).trans hop) (fun k hk => ?_)
    (fun k hk => ?_) hemit', hperm.symm⟩
  · obtain ⟨i, hi, rfl⟩ := hinput k hk
    exact moved_feedback.trans (h.forward.inputs h.symmetric.linked i hi)
  · obtain ⟨i, hi, rfl⟩ := hinput k hk
    exact (hmoved i hi).produced_eq.symm ▸ hmoved i hi

theorem replaced : g.Replaced g' u [below] := by
  refine ⟨List.nodup_singleton below, fun _ => h.inputs_perm, fun src limit rows hproduces => ?_⟩
  obtain ⟨found, hfound, hrows, hcopies⟩ := h.exists_solutions hproduces
  obtain ⟨rows', hrows', hperm⟩ := h.produces_below hfound hcopies
  refine ⟨fun _ => rows', fun s hs => List.mem_singleton.1 hs ▸ hrows', ?_⟩
  rw [List.flatMap_singleton]
  exact hperm.trans hrows.symm

end

end Lowered

/-! ## Graphs whose variable sets have been computed -/

section SameEdges

variable {γ : Type} {g g' : Graph γ}

theorem SameEdges.symmetric (h : g.SameEdges g') (hg : g.Symmetric) : g'.Symmetric :=
  ⟨balanced_congr h.succeeding h.preceding hg.balanced, fun s => h.succeeding s ▸ hg.nodup s⟩

theorem SameEdges.forward (h : g.SameEdges g') (hg : g.Forward) : g'.Forward :=
  fun s e he => hg s e (h.succeeding s ▸ he)

end SameEdges

/-! ## Rows in the end -/

section Rows

variable {g g' : Graph Plan} {u x : OperatorId} {others : List OperatorId}

/-- What comes before an operator is another one and does not read it. -/
theorem apart_of_rank_lt (hlinked : g.Linked) {rank : OperatorId → Nat}
    (hrank : ∀ x, ∀ i ∈ g.inputs x, rank i.source < rank x) (hx : rank x < rank u) :
    x ≠ u ∧ g.edgesBetween u x = [] := by
  constructor
  · rintro rfl
    exact absurd hx (Nat.lt_irrefl _)
  · by_contra hedge
    obtain ⟨e, he, rfl⟩ := edgesBetween_ne_nil.1 hedge
    have hup := hrank e.target ⟨u, e.operand, e.feedback⟩ (hlinked.mem_inputs.2 he)
    exact absurd (hx.trans hup) (Nat.lt_irrefl _)

/-- Those that have taken the place of an operator have together, in the end, the rows that it
had. -/
theorem Replaced.rows_perm (h : g.Replaced g' u others) (hlinked : g.Linked) (hforward : g.Forward)
    (hlinked' : g'.Linked) (hforward' : g'.Forward) (hu : u ∈ g.ids) {src : Source} {limit n : Nat}
    {a : Assignment} (ha : (Plan.opened ⟨g⟩ src limit).finalRows src limit = .ok (a, n)) :
    (∃ read : OperatorId → List Row, (∀ s ∈ others, g'.Produces src limit s (read s)) ∧
      (others.flatMap read).Perm (a.rows u)) ∧
      ∀ a' n', (Plan.opened ⟨g'⟩ src limit).finalRows src limit = .ok (a', n') →
        (others.flatMap a'.rows).Perm (a.rows u) := by
  obtain ⟨read, hread, hperm⟩ :=
    h.rows src limit _ (produces_of_finalRows hlinked hforward ha hu)
  refine ⟨⟨read, hread, hperm⟩, fun a' n' ha' => ?_⟩
  rwa [List.flatMap_congr fun s hs => (produces_of_finalRows hlinked' hforward' ha'
    (hread s hs).mem_ids).unique (hread s hs)]

end Rows

end Graph

namespace PlanRule

open QuadAlgebra.Graph

section Push

variable {w : Workspace Plan} {name : String} {kind : Kind} {filter : OperatorId} {m : Match}

theorem mem_ids_of_match_push (hlinked : w.graph.Linked) (hkind : kind ∈ filterKinds)
    (hm : (push name kind).match? w.graph filter = some m) : filter ∈ w.graph.ids := by
  rcases exists_pushSite hlinked hkind hm with ⟨op, hsite, -⟩ | ⟨_, op, _, hsite, -⟩
  · exact mem_ids_of_operator? hsite.operator
  · exact mem_ids_of_operator? hsite.operator

/-- A filter that is pushed gives its place to others, and no edge becomes a feedback edge. -/
theorem push_replaces (hsymmetric : w.graph.Symmetric)
    (hroot : w.graph.operator? Graph.root = some .root) (hforward : w.graph.Forward)
    (hsettled : updateVariables.runOn w.graph = (.ok (), w.graph)) (hkind : kind ∈ filterKinds)
    (hm : (push name kind).match? w.graph filter = some m) :
    ((push name kind).replace m).Runs w fun _ w' => w'.graph.Symmetric ∧ w'.graph.Forward ∧
      ∃ others, w.graph.Replaced w'.graph filter others := by
  obtain ⟨⟨order, horder⟩, -⟩ := updateVariables_eq_ok hsettled
  obtain ⟨rank, hrank⟩ := hforward.exists_rank hsymmetric.linked (topologicalOrder_spec horder)
  have horderly : w.graph.Orderly :=
    ⟨hsymmetric.linked, hroot, rank, fun x i hi _ => hrank x i (hsymmetric.linked.mem_inputs.2 hi)⟩
  have hapart {x : OperatorId} (hx : rank x < rank filter) :=
    apart_of_rank_lt hsymmetric.linked hrank hx
  rcases exists_pushSite hsymmetric.linked hkind hm with ⟨op, hsite, rfl⟩ |
    ⟨below, op, l, hsite, rfl⟩
  · rw [replace_push_members name kind hsite]
    obtain ⟨⟨⟩, w', hrun, hwired⟩ := distribute_runs horderly hsite
    have hdistributed : w.graph.Distributed w'.graph filter op rank :=
      { symmetric := hsymmetric
        symmetric' := distribute_keeps Workspace.keptBySteps_symmetric _ _ w hsymmetric _ _ hrun
        ascends := hrank
        site := hsite
        wired := hwired
        spared := fun x hx hlt => Spares.inputs (distribute_spares (hapart hlt).1 (hapart hlt).2
          (lt_length_of_mem_ids hx) _ _ _ hrun) }
    exact ⟨⟨⟩, w', hrun, hdistributed.symmetric', hdistributed.forward' hforward, _,
      hdistributed.replaced⟩
  · rw [replace_push_targets]
    obtain ⟨⟨⟩, w', hrun, hwired⟩ := lower_runs horderly hsite
    obtain ⟨i, hinputs, rfl, -⟩ := hsite.input
    have hbelow : rank i.source < rank filter :=
      hrank filter i (hinputs ▸ List.mem_singleton_self i)
    have hlowered : w.graph.Lowered w'.graph filter i.source op l rank :=
      { symmetric := hsymmetric
        symmetric' := lower_keeps Workspace.keptBySteps_symmetric _ _ _ w hsymmetric _ _ hrun
        forward := hforward
        ascends := hrank
        settled := hsettled
        site := hsite
        wired := hwired
        spared := fun x hx hlt => Spares.inputs (lower_spares (hapart (hlt.trans hbelow)).1
          (hapart (hlt.trans hbelow)).2 (lt_length_of_mem_ids hx)
          (apart_of_rank_lt hsymmetric.linked hrank hlt).1.symm _ _ _ hrun) }
    exact ⟨⟨⟩, w', hrun, hlowered.symmetric', hlowered.forward', _, hlowered.replaced⟩

end Push

/-- Where a rule that pushes filters matches in a graph without feedback edges whose variable sets
have been computed, those that have read the filter read other operators in its place afterwards, on
the same operands, and these produce the rows that the filter had. -/
theorem push_same_rows {g : Graph Plan} (hsymmetric : g.Symmetric)
    (hroot : g.operator? Graph.root = some .root) (hforward : g.Forward) {w : Workspace Plan}
    (hvars : updateVariables.runOn g = (.ok (), w.graph)) {name : String} {kind : Kind}
    (hkind : kind ∈ filterKinds) {filter : OperatorId} {m : Match}
    (hm : (push name kind).match? w.graph filter = some m) :
    ((push name kind).replace m).Runs w fun _ w' => ∃ others,
      w.graph.Replaced w'.graph filter others ∧ ∀ src limit a n,
        (Plan.opened ⟨w.graph⟩ src limit).finalRows src limit = .ok (a, n) →
        (∃ read : OperatorId → List Row, (∀ s ∈ others, w'.graph.Produces src limit s (read s)) ∧
          (others.flatMap read).Perm (a.rows filter)) ∧
        ∀ a' n', (Plan.opened ⟨w'.graph⟩ src limit).finalRows src limit = .ok (a', n') →
          (others.flatMap a'.rows).Perm (a.rows filter) := by
  obtain ⟨-, hsame⟩ := updateVariables_eq_ok hvars
  replace hsymmetric := hsame.symmetric hsymmetric
  replace hforward := hsame.forward hforward
  replace hroot := (hsame.operator? _).trans hroot
  have hfilter := mem_ids_of_match_push hsymmetric.linked hkind hm
  have hreplaces :=
    push_replaces hsymmetric hroot hforward (updateVariables_again hvars) hkind hm
  refine hreplaces.mono fun _ w' ⟨hsymmetric', hforward', others, hothers⟩ =>
    ⟨others, hothers, fun src limit a n ha => ?_⟩
  exact hothers.rows_perm hsymmetric.linked hforward hsymmetric'.linked hforward' hfilter ha

/-- The successors of successors of some node. -/
def filteredJoin : Graph Plan :=
  Graph.edited [.add (.scan ⟨[⟨.var ⟨"s"⟩, .var ⟨"p"⟩, .var ⟨"o"⟩⟩], none, ⟨"main", true⟩⟩),
    .add (.scan ⟨[⟨.var ⟨"o"⟩, .var ⟨"p"⟩, .var ⟨"t"⟩⟩], none, ⟨"main", true⟩⟩), .add .join,
    .add (.ruleFilter [(.var ⟨"s"⟩, .term (.iri "a"))]), .add (.result (.select [])),
    .connect 0 1 0 false, .connect 0 2 0 false, .connect 1 3 0 false, .connect 2 3 1 false,
    .connect 3 4 0 false, .connect 4 5 0 false]

theorem push_same_rows_filteredJoin :
    (pushRuleFilter.replace
      (((Match.only 4).bind .below 3).bindAll .target [1])).Runs
        (.ofGraph (updateVariables.runOn filteredJoin).2) fun _ w' => ∃ others,
          (updateVariables.runOn filteredJoin).2.Replaced w'.graph 4 others := by
  have hvars : updateVariables.runOn filteredJoin =
      (.ok (), (updateVariables.runOn filteredJoin).2) := Prod.ext rfl rfl
  exact (push_same_rows (Graph.symmetric_edited _) (Graph.operator?_root_edited _)
    (Graph.forward_iff.2 (by decide)) (w := .ofGraph (updateVariables.runOn filteredJoin).2) hvars
    (by decide) rfl).mono fun _ _ h => h.imp fun _ h => h.1

end PlanRule

end QuadAlgebra
