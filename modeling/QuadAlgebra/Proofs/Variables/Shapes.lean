import QuadAlgebra.Proofs.Optimization.Edges
import QuadAlgebra.Proofs.Variables.Bounds
import QuadAlgebra.Proofs.Variables.Rounds

/-!
# Shapes

The bounds of an operator leave its feedback inputs out of account, so they hold only if nothing new
comes over a feedback edge. This module says under which conditions that is so. Operators on which
the loops of paths rest emit solutions of a single domain each; a shape assigns these domains to
their operators. In a shaped graph (`Graph.Shaped`) the domains of such operators fit together, and
a feedback edge leads to a matcher, whose solutions do not depend on what it reads, or to an
operator with the same domain as its producer, behind which the producer stands: nothing comes from
the one before something comes from the other.

The bounds of all operators of a shaped graph admit what the operators emit
(`Graph.Shaped.admits`).
-/

namespace QuadAlgebra

/-- The only domain of each operator that has a single one. -/
abbrev Shapes := OperatorId → Option VarSet

/-! ## Operators with a single domain -/

namespace Operator

variable {γ δ : Type} {op : Operator γ} {k : Nat} {D D' E : VarSet}

/-- Every row with the first domain that arrives on the operand becomes one with the second domain,
or none at all. -/
def Fixes (op : Operator γ) (operand : Nat) (E D : VarSet) : Prop :=
  match op with
  | .scan s => D = E ∪ s.vars
  | .probe graph => D = E ∪ Item.vars graph.toList
  | .projection vars => D = E ∩ vars
  | .bind target e => e.isTotal E = true ∧ D = E.insert target
  | .replaceVar r => D = r.vars E
  | .minus => operand = 0 → D = E
  | .union | .filter _ | .ruleFilter _ | .distinct | .indexDistinct => D = E
  | _ => False

/-- Operators that turn each row into at most one row, whose domain is known. -/
def steady : List Kind :=
  [.scan, .probe, .projection, .bind, .replaceVar, .minus, .union, .filter, .ruleFilter, .distinct,
    .indexDistinct]

/-- Operators that pass on the rows of all of their inputs alike. -/
def gathering : List Kind := [.union, .distinct, .indexDistinct]

/-- Rows come from the operand. -/
def Passes (op : Operator γ) (operand : Nat) : Prop := op.kind = .minus → operand = 0

theorem eq_of_fixes (h : op.Fixes k E D) (h' : op.Turns k E D') : D' = D := by
  cases op with
  | bind target e =>
      obtain ⟨htotal, rfl⟩ : e.isTotal E = true ∧ D = E.insert target := h
      rcases (h' : D' = E.insert target ∨ e.isTotal E = false ∧ D' = E) with h' | ⟨hpartial, -⟩
      · exact h'
      · exact absurd (htotal.symm.trans hpartial) Bool.noConfusion
  | minus =>
      obtain ⟨hk, h'⟩ : k = 0 ∧ D' = E := h'
      exact h'.trans ((h : k = 0 → D = E) hk).symm
  | scan _ | probe _ | projection _ | replaceVar _ | union | filter _ | ruleFilter _ | distinct
  | indexDistinct => exact Eq.trans h' (Eq.symm h)
  | _ => exact h.elim

theorem turns_of_fixes (h : op.Fixes k E D) (hpasses : op.Passes k) : op.Turns k E D := by
  cases op with
  | bind target e => exact .inl (h : e.isTotal E = true ∧ D = E.insert target).2
  | minus => exact ⟨hpasses rfl, (h : k = 0 → D = E) (hpasses rfl)⟩
  | scan _ | probe _ | projection _ | replaceVar _ | union | filter _ | ruleFilter _ | distinct
  | indexDistinct => exact h
  | _ => exact h.elim

theorem passes_of_turns (h : op.Turns k E D) : op.Passes k := by
  cases op with
  | minus => exact fun _ => (h : k = 0 ∧ D = E).1
  | command c => cases c <;> exact h.elim
  | _ => exact fun hkind => Kind.noConfusion hkind

theorem not_starts_of_steady (h : op.kind ∈ steady) : ¬ op.Starts D := by
  cases op with
  | root | matchTriple _ | matchAtom _ | group _ _ => simp [kind, steady] at h
  | _ => exact id

theorem fixes_gathering (h : op.kind ∈ gathering) : op.Fixes k E D ↔ D = E := by
  cases op with
  | command c => cases c <;> simp [kind, GraphCommand.kind, gathering] at h
  | union | distinct | indexDistinct => exact Iff.rfl
  | _ => simp [kind, gathering] at h

end Operator

namespace Graph

variable {γ : Type} {g : Graph γ} {shapes : Shapes} {id : OperatorId} {op : Operator γ}
  {S S' : OperatorId → Prop}

/-! ## Operators that wait -/

/-- The operator emits nothing as long as those in the set emit nothing. -/
structure WaitsFor (g : Graph γ) (S : OperatorId → Prop) (id : OperatorId) (op : Operator γ) :
    Prop where
  ne_root : op.kind ≠ .root
  join : op.kind = .join →
    ∃ i, g.Reads id i ∧ ∀ j, g.Reads id j → j.operand = i.operand → S j.source
  other : op.kind ≠ .join → ∀ i, g.Reads id i → op.Passes i.operand → S i.source

theorem WaitsFor.mono (h : g.WaitsFor S id op) (hS : ∀ x, S x → S' x) : g.WaitsFor S' id op where
  ne_root := h.ne_root
  join hop :=
    have ⟨i, hi, hj⟩ := h.join hop
    ⟨i, hi, fun j hread hoperand => hS _ (hj j hread hoperand)⟩
  other hop i hi hpasses := hS _ (h.other hop i hi hpasses)

/-- The shaped operators of the set wait for operators of the set. -/
def Waiting (g : Graph γ) (shapes : Shapes) (S : OperatorId → Prop) (id : OperatorId) : Prop :=
  shapes id ≠ none ∧ ∀ op, g.operator? id = some op → g.WaitsFor S id op

theorem Waiting.mono (h : g.Waiting shapes S id) (hS : ∀ x, S x → S' x) :
    g.Waiting shapes S' id :=
  ⟨h.1, fun op hop => (h.2 op hop).mono hS⟩

/-- An operator that never emits anything, since a set of operators waits for itself. -/
def Idle (g : Graph γ) (shapes : Shapes) (id : OperatorId) : Prop :=
  ∃ S : OperatorId → Prop, S id ∧ ∀ y, S y → g.Waiting shapes S y

theorem Idle.waiting (h : g.Idle shapes id) : g.Waiting shapes (g.Idle shapes) id := by
  obtain ⟨S, hid, hS⟩ := h
  exact (hS id hid).mono fun x hx => ⟨S, hx, hS⟩

theorem idle_of_waiting (h : g.Waiting shapes (g.Idle shapes) id) : g.Idle shapes id := by
  refine ⟨fun x => g.Idle shapes x ∨ x = id, .inr rfl, ?_⟩
  rintro y (hy | rfl)
  · exact hy.waiting.mono fun _ => .inl
  · exact h.mono fun _ => .inl

/-- Nothing comes from the second operator before something comes from the first one. -/
def Behind (g : Graph γ) (shapes : Shapes) (front back : OperatorId) : Prop :=
  ∃ S : OperatorId → Prop, S front ∧ S back ∧ ∀ y, S y → y ≠ front → g.Waiting shapes S y

/-- An operator that is fed, apart from idle producers, only by operators behind itself is idle. -/
theorem idle_of_behind (hshape : shapes id ≠ none)
    (hop : ∀ op, g.operator? id = some op → op.kind ≠ .root ∧ op.kind ≠ .join ∧
      ∀ i, g.Reads id i → op.Passes i.operand →
        g.Idle shapes i.source ∨ g.Behind shapes id i.source) : g.Idle shapes id := by
  refine ⟨fun x => g.Idle shapes x ∨ g.Behind shapes id x ∨ x = id, .inr (.inr rfl), ?_⟩
  have hself : g.Waiting shapes
      (fun x => g.Idle shapes x ∨ g.Behind shapes id x ∨ x = id) id := by
    refine ⟨hshape, fun op h => ?_⟩
    obtain ⟨hroot, hjoin, hreads⟩ := hop op h
    exact ⟨hroot, fun hkind => absurd hkind hjoin,
      fun _ i hi hpasses => (hreads i hi hpasses).imp_right .inl⟩
  rintro y (hy | hy | rfl)
  · exact hy.waiting.mono fun _ => .inl
  · by_cases hne : y = id
    · exact hne ▸ hself
    · obtain ⟨S, hfront, hback, hS⟩ := hy
      exact (hS y hback hne).mono fun x hx => .inr (.inl ⟨S, hfront, hx, hS⟩)
  · exact hself

/-! ## Shaped graphs -/

/-- The shape of an operator follows from the shapes of its inputs. -/
def Settled (g : Graph γ) (shapes : Shapes) (id : OperatorId) (op : Operator γ) (D : VarSet) :
    Prop :=
  match op with
  | .root => D = ∅
  | .join => ∃ part : Nat → VarSet, (∀ i, g.Reads id i → shapes i.source = some (part i.operand)) ∧
      ∀ v, v ∈ D ↔ ∃ i, g.Reads id i ∧ v ∈ part i.operand
  | op => op.kind ∈ Operator.steady ∧
      ∀ i, g.Reads id i → ∃ E, shapes i.source = some E ∧ op.Fixes i.operand E D

/-- A feedback edge leads to a matcher, or back to an operator with the shape of its producer. -/
inductive LeadsBack (g : Graph γ) (shapes : Shapes) (source target : OperatorId) : Prop
  | matcher (op : Operator γ) (hop : g.operator? target = some op)
    (hkind : op.kind ∈ [.matchTriple, .matchAtom])
  | loop (op : Operator γ) (hop : g.operator? target = some op)
    (hkind : op.kind ∈ Operator.gathering) (hshape : shapes target ≠ none)
    (hbehind : g.Behind shapes target source)

/-- The shapes fit the graph, and so do its feedback edges. -/
structure Shaped (g : Graph γ) (shapes : Shapes) : Prop where
  linked : g.Linked
  root : g.operator? root = some .root
  root_shape : shapes Graph.root = some ∅
  settled : ∀ id op D, g.operator? id = some op → shapes id = some D → g.Settled shapes id op D
  /-- Scans and probes read the root, and nothing else. -/
  sources : ∀ id op, g.operator? id = some op → op.kind ∈ [.scan, .probe] →
    (∀ i, g.Reads id i → i.source = Graph.root) ∧ ∃ i, g.Reads id i
  optional : ∀ id i, g.operator? id = some .optional → g.Reads id i → i.operand ≤ 1
  back : ∀ id i, g.Reads id i → i.feedback = true → g.LeadsBack shapes i.source id

theorem settled_of_ne (hroot : op.kind ≠ .root) (hjoin : op.kind ≠ .join) {D : VarSet} :
    g.Settled shapes id op D ↔ op.kind ∈ Operator.steady ∧
      ∀ i, g.Reads id i → ∃ E, shapes i.source = some E ∧ op.Fixes i.operand E D := by
  cases op with
  | root => exact absurd rfl hroot
  | join => exact absurd rfl hjoin
  | _ => exact Iff.rfl

/-! ### Graphs that agree on what an operator reads -/

section Transfer

variable {g' : Graph γ} {shapes' : Shapes} (hreads : ∀ i, g'.Reads id i ↔ g.Reads id i)

include hreads

theorem WaitsFor.transfer (h : g.WaitsFor S id op)
    (hS : ∀ i, g.Reads id i → S i.source → S' i.source) : g'.WaitsFor S' id op where
  ne_root := h.ne_root
  join hop :=
    have ⟨i, hi, hall⟩ := h.join hop
    ⟨i, (hreads i).2 hi, fun j hj hoperand =>
      hS j ((hreads j).1 hj) (hall j ((hreads j).1 hj) hoperand)⟩
  other hop i hi hpasses := hS i ((hreads i).1 hi) (h.other hop i ((hreads i).1 hi) hpasses)

theorem Settled.transfer {D : VarSet} (h : g.Settled shapes id op D)
    (hshapes : ∀ i E, g.Reads id i → shapes i.source = some E → shapes' i.source = some E) :
    g'.Settled shapes' id op D := by
  by_cases hroot : op.kind = .root
  · obtain rfl := Operator.eq_root_of_kind hroot
    exact h
  by_cases hjoin : op.kind = .join
  · obtain rfl := Operator.eq_join_of_kind hjoin
    obtain ⟨part, hpart, hdomain⟩ : ∃ part : Nat → VarSet,
      (∀ i, g.Reads id i → shapes i.source = some (part i.operand)) ∧
        ∀ v, v ∈ D ↔ ∃ i, g.Reads id i ∧ v ∈ part i.operand := h
    refine ⟨part, fun i hi => hshapes i _ ((hreads i).1 hi) (hpart i ((hreads i).1 hi)),
      fun v => ?_⟩
    rw [hdomain]
    exact exists_congr fun i => and_congr_left' (hreads i).symm
  · rw [settled_of_ne hroot hjoin] at h ⊢
    refine ⟨h.1, fun i hi => ?_⟩
    obtain ⟨E, hE, hfixes⟩ := h.2 i ((hreads i).1 hi)
    exact ⟨E, hshapes i E ((hreads i).1 hi) hE, hfixes⟩

end Transfer

/-- Shapes fit all graphs with the same operators and edges. -/
theorem Shaped.congr {g' : Graph γ} {size : Nat} (h : g.Shaped shapes)
    (h' : g'.Wired size g.operator? g.Reads) : g'.Shaped shapes where
  linked := h'.linked
  root := (h'.operator? _).trans h.root
  root_shape := h.root_shape
  settled id op D hop hD :=
    (h.settled id op D ((h'.operator? id).symm.trans hop) hD).transfer (h'.reads id)
      fun _ _ _ hE => hE
  sources id op hop hkind := by
    simp only [h'.reads]
    exact h.sources id op ((h'.operator? id).symm.trans hop) hkind
  optional id i hop hi :=
    h.optional id i ((h'.operator? id).symm.trans hop) ((h'.reads id i).1 hi)
  back id i hi hf := by
    cases h.back id i ((h'.reads id i).1 hi) hf with
    | matcher op hop hkind => exact .matcher op ((h'.operator? id).trans hop) hkind
    | loop op hop hkind hshape hbehind =>
        obtain ⟨S, hfront, hback, hS⟩ := hbehind
        refine .loop op ((h'.operator? id).trans hop) hkind hshape ⟨S, hfront, hback,
          fun y hy hne =>
          ⟨(hS y hy hne).1, fun op hop => ?_⟩⟩
        exact ((hS y hy hne).2 op ((h'.operator? y).symm.trans hop)).transfer (h'.reads y)
          fun _ _ hi => hi

namespace Shaped

variable {bounds : OperatorId → VarBounds}

theorem mem_inputs (h : g.Shaped shapes) {i : Input} : i ∈ g.inputs id ↔ g.Reads id i :=
  h.linked.mem_inputs

theorem source_empty (h : g.Shaped shapes) (hop : g.operator? id = some op)
    (hkind : op.kind = .scan ∨ op.kind = .probe) {i : Input} (hi : g.Reads id i) :
    shapes i.source = some ∅ := by
  rw [(h.sources id op hop (by simpa using hkind)).1 i hi, h.root_shape]

/-- An operator with a single domain that is read over a feedback edge reads rows of this domain. -/
theorem shape_eq_of_gathering (h : g.Shaped shapes) (hop : g.operator? id = some op)
    (hkind : op.kind ∈ Operator.gathering) {D : VarSet} (hD : shapes id = some D) {i : Input}
    (hi : g.Reads id i) : shapes i.source = some D := by
  have hsettled := h.settled id op D hop hD
  rw [settled_of_ne (by rintro he; simp [he, Operator.gathering] at hkind)
    (by rintro he; simp [he, Operator.gathering] at hkind)] at hsettled
  obtain ⟨E, hE, hfixes⟩ := hsettled.2 i hi
  rw [(Operator.fixes_gathering hkind).1 hfixes]
  exact hE

/-- Feedback edges lead to operators of few kinds. -/
theorem kind_of_feedback (h : g.Shaped shapes) (hop : g.operator? id = some op) {i : Input}
    (hi : g.Reads id i) (hf : i.feedback = true) :
    op.kind ∈ [Kind.matchTriple, .matchAtom] ∨ op.kind ∈ Operator.gathering := by
  cases h.back id i hi hf with
  | matcher op' hop' hkind =>
      obtain rfl := Option.some.inj (hop.symm.trans hop')
      exact .inl hkind
  | loop op' hop' hkind _ _ =>
      obtain rfl := Option.some.inj (hop.symm.trans hop')
      exact .inr hkind

theorem forward_of_kind (h : g.Shaped shapes) (kind : Kind) (hop : g.operator? id = some op)
    (hkind : op.kind = kind) (hnot : kind ∉ [Kind.matchTriple, .matchAtom] ++ Operator.gathering)
    {i : Input} (hi : g.Reads id i) : i.feedback = false := by
  cases hf : i.feedback with
  | false => rfl
  | true =>
      refine absurd ?_ hnot
      rw [← hkind]
      exact List.mem_append.2 (h.kind_of_feedback hop hi hf)

/-! ### Shapes lie within bounds -/

section Static

variable (h : g.Shaped shapes) (hb : g.BoundedBy bounds)
  (before : ∀ i : Input, g.Reads id i → i.feedback = false → ∀ E, shapes i.source = some E →
    ¬ g.Idle shapes i.source → (bounds i.source).Admits E)

include h hb in
/-- The bounds of an input count for an operator that reads it forward. -/
theorem exists_operand_bounds (hop : g.operator? id = some op) : ∃ operands,
    bounds id = op.bounds operands ∧ (operands.map Prod.fst).Nodup ∧
      (∀ i, g.Reads id i → i.feedback = false →
        ∃ b, operands.lookup i.operand = some b ∧ (bounds i.source).Weakens b) ∧
      ∀ o ∈ operands, ∃ i, g.Reads id i ∧ i.operand = o.1 := by
  simpa only [h.mem_inputs] using hb.exists_operands hop

include h hb in
/-- The bounds of a join admit the union of what each operand has a domain from. -/
theorem admits_joined (hop : g.operator? id = some .join) {D : VarSet} {part : Nat → VarSet}
    (hpart : ∀ i, g.Reads id i → ∃ j, g.Reads id j ∧ j.operand = i.operand ∧
      (bounds j.source).Admits (part i.operand))
    (hdomain : ∀ v, v ∈ D ↔ ∃ i, g.Reads id i ∧ v ∈ part i.operand) : (bounds id).Admits D := by
  have hforward {i : Input} (hi : g.Reads id i) : i.feedback = false :=
    h.forward_of_kind .join hop rfl (by decide) hi
  obtain ⟨operands, hbounds, hnodup, hcounts, hread⟩ := exists_operand_bounds h hb hop
  rw [hbounds]
  refine Operator.bounds_admits_of_joins
    (show ∀ o ∈ operands, o.2.Admits (part o.1) from fun o ho => ?_) fun v => ?_
  · obtain ⟨i, hi, hk⟩ := hread o ho
    obtain ⟨j, hj, hoperand, hadmits⟩ := hpart i hi
    obtain ⟨b, hlookup, hweakens⟩ := hcounts j hj (hforward hj)
    obtain rfl : b = o.2 := by
      have ho' := lookup_of_mem_of_nodup hnodup (show (o.1, o.2) ∈ operands from ho)
      rw [hoperand, hk, ho'] at hlookup
      exact (Option.some.inj hlookup).symm
    exact hk ▸ hadmits.weaken hweakens
  · rw [hdomain]
    constructor
    · rintro ⟨i, hi, hv⟩
      obtain ⟨b, hlookup, -⟩ := hcounts i hi (hforward hi)
      exact ⟨(i.operand, b), lookup_mem hlookup, hv⟩
    · rintro ⟨o, ho, hv⟩
      obtain ⟨i, hi, hk⟩ := hread o ho
      exact ⟨i, hi, hk ▸ hv⟩

include h hb before in
theorem admits_join_shape (hop : g.operator? id = some .join) {D : VarSet}
    (hD : shapes id = some D) (hlive : ¬ g.Idle shapes id) : (bounds id).Admits D := by
  obtain ⟨part, hpart, hdomain⟩ : ∃ part : Nat → VarSet,
    (∀ i, g.Reads id i → shapes i.source = some (part i.operand)) ∧
      ∀ v, v ∈ D ↔ ∃ i, g.Reads id i ∧ v ∈ part i.operand := h.settled id .join D hop hD
  refine admits_joined h hb hop (fun i hi => ?_) hdomain
  -- each operand has an input that is not idle
  obtain ⟨j, hj, hoperand, hactive⟩ :
      ∃ j, g.Reads id j ∧ j.operand = i.operand ∧ ¬ g.Idle shapes j.source := by
    by_contra hnone
    push Not at hnone
    refine hlive (idle_of_waiting ⟨by simp [hD], fun op hop' => ?_⟩)
    obtain rfl := Option.some.inj (hop.symm.trans hop')
    exact ⟨Kind.noConfusion, fun _ => ⟨i, hi, fun j hj hoperand => hnone j hj hoperand⟩,
      fun hne => absurd rfl hne⟩
  have hforward := h.forward_of_kind .join hop rfl (by decide) hj
  exact ⟨j, hj, hoperand, hoperand ▸ before j hj hforward _ (hpart j hj) hactive⟩

include h hb before in
theorem admits_steady_shape (hop : g.operator? id = some op) (hroot : op.kind ≠ .root)
    (hjoin : op.kind ≠ .join) {D : VarSet} (hD : shapes id = some D)
    (hlive : ¬ g.Idle shapes id) : (bounds id).Admits D := by
  obtain ⟨hsteady, hfixes⟩ := (settled_of_ne hroot hjoin).1 (h.settled id op D hop hD)
  -- some forward input is not idle, as feedback inputs are behind the operator itself
  obtain ⟨i, hi, hf, hpasses, hactive⟩ : ∃ i, g.Reads id i ∧ i.feedback = false ∧
      op.Passes i.operand ∧ ¬ g.Idle shapes i.source := by
    by_contra hnone
    push Not at hnone
    refine hlive (idle_of_behind (by simp [hD]) fun op' hop' => ?_)
    obtain rfl := Option.some.inj (hop.symm.trans hop')
    refine ⟨hroot, hjoin, fun i hi hpasses => ?_⟩
    cases hf : i.feedback with
    | false => exact .inl (hnone i hi hf hpasses)
    | true =>
        cases h.back id i hi hf with
        | matcher op' hop' hkind =>
            obtain rfl := Option.some.inj (hop.symm.trans hop')
            rcases List.mem_pair.1 hkind with he | he <;> simp [he, Operator.steady] at hsteady
        | loop _ _ _ _ hbehind => exact .inr hbehind
  obtain ⟨E, hE, hfix⟩ := hfixes i hi
  obtain ⟨operands, hbounds, -, hcounts, -⟩ := exists_operand_bounds h hb hop
  obtain ⟨b, hlookup, hweakens⟩ := hcounts i hi hf
  rw [hbounds]
  refine Operator.bounds_admits_of_turns hlookup ((before i hi hf E hE hactive).weaken hweakens)
    (Operator.turns_of_fixes hfix hpasses) fun hkind => ?_
  exact Option.some.inj (hE.symm.trans (h.source_empty hop hkind hi))

end Static

variable {order : List OperatorId}

/-- The bounds of an operator that is not idle admit its shape. -/
theorem admits_shape (h : g.Shaped shapes) (hb : g.BoundedBy bounds)
    (horder : g.IsTopological order) (hop : g.operator? id = some op) {D : VarSet}
    (hD : shapes id = some D) (hlive : ¬ g.Idle shapes id) : (bounds id).Admits D := by
  obtain ⟨rank, hrank⟩ := horder.exists_rank
  induction hn : rank id using Nat.strong_induction_on generalizing id op D with
  | _ n ih =>
  have before : ∀ i : Input, g.Reads id i → i.feedback = false → ∀ E, shapes i.source = some E →
      ¬ g.Idle shapes i.source → (bounds i.source).Admits E := by
    intro i hi hf E hE hactive
    have hids := mem_ids_of_operator? hop
    have hi' := h.mem_inputs.2 hi
    obtain ⟨op', hop'⟩ : ∃ op', g.operator? i.source = some op' := Option.isSome_iff_exists.1 (by
      rw [operator?, Option.isSome_map]
      exact Graph.mem_ids.1 (source_mem_ids hi'))
    refine ih _ ?_ hop' hE hactive rfl
    exact hn ▸ hrank _ (source_mem_ids hi') _ (mem_forward_of_mem_inputs hids hi' hf)
  by_cases hroot : op.kind = .root
  · obtain rfl := Operator.eq_root_of_kind hroot
    obtain rfl : D = ∅ := h.settled id .root D hop hD
    obtain ⟨operands, hbounds, -⟩ := exists_operand_bounds h hb hop
    rw [hbounds]
    exact VarBounds.admits_none
  · by_cases hjoin : op.kind = .join
    · obtain rfl := Operator.eq_join_of_kind hjoin
      exact admits_join_shape h hb before hop hD hlive
    · exact admits_steady_shape h hb before hop hroot hjoin hD hlive

/-! ### What operators emit lies within bounds -/

/-- A domain that an operator may have: no operator that is idle has one, it lies within the bounds,
and it is the shape of the operator if that has one. -/
structure Fits (g : Graph γ) (shapes : Shapes) (bounds : OperatorId → VarBounds) (id : OperatorId)
    (D : VarSet) : Prop where
  live : ¬ g.Idle shapes id
  admits : (bounds id).Admits D
  shape : ∀ E, shapes id = some E → D = E

/-- What an operator with a shape makes of rows that have the shapes of its producers has its
shape. -/
theorem shape_of_makes (h : g.Shaped shapes) {T : OperatorId → VarSet → Prop}
    (hT : ∀ x F, T x F → ∀ E, shapes x = some E → F = E) {D : VarSet} (hmakes : g.Makes T id op D)
    (hop : g.operator? id = some op) {E : VarSet} (hE : shapes id = some E) : D = E := by
  have hsettled := h.settled id op E hop hE
  by_cases hroot : op.kind = .root
  · obtain rfl := Operator.eq_root_of_kind hroot
    obtain rfl : E = ∅ := hsettled
    cases hmakes with
    | starts hstarts => exact hstarts
    | turns _ _ _ _ hturns => exact hturns.elim
    | «extends» hkind => cases hkind
    | joins hkind => cases hkind
  by_cases hjoin : op.kind = .join
  · obtain rfl := Operator.eq_join_of_kind hjoin
    obtain ⟨part, hpart, hdomain⟩ : ∃ part : Nat → VarSet,
      (∀ i, g.Reads id i → shapes i.source = some (part i.operand)) ∧
        ∀ v, v ∈ E ↔ ∃ i, g.Reads id i ∧ v ∈ part i.operand := hsettled
    cases hmakes with
    | starts hstarts => exact hstarts.elim
    | turns _ _ _ _ hturns => exact hturns.elim
    | «extends» hkind => cases hkind
    | joins _ part' hpart' hdomain' =>
        refine OrdSet.eq_of_mem_iff fun v => ?_
        rw [hdomain, hdomain']
        refine exists_congr fun i => ?_
        rw [h.mem_inputs]
        refine and_congr_right fun hi => ?_
        obtain ⟨j, hj, hoperand, hfits⟩ := hpart' i (h.mem_inputs.2 hi)
        rw [hT _ _ hfits _ (hpart j (h.mem_inputs.1 hj)), hoperand]
  obtain ⟨hsteady, hfixes⟩ := (settled_of_ne hroot hjoin).1 hsettled
  cases hmakes with
  | starts hstarts => exact absurd hstarts (Operator.not_starts_of_steady hsteady)
  | turns i hi F hF hturns =>
      obtain ⟨G, hG, hfix⟩ := hfixes i (h.mem_inputs.1 hi)
      rw [hT _ F hF G hG] at hturns
      exact Operator.eq_of_fixes hfix hturns
  | «extends» hkind => simp [hkind, Operator.steady] at hsteady
  | joins hkind => exact absurd hkind hjoin

/-- In every round the rows of an operator with a shape have this shape. -/
theorem closed_shapes (h : g.Shaped shapes) :
    g.Closed fun id D => ∀ E, shapes id = some E → D = E :=
  fun _ _ _ hop hmakes _ hE => h.shape_of_makes (fun _ _ h => h) hmakes hop hE

section Dynamic

variable (h : g.Shaped shapes) {D : VarSet}
  (hmakes : g.Makes (Fits g shapes bounds) id op D) (hop : g.operator? id = some op)

include h hop hmakes in
theorem live_of_makes : ¬ g.Idle shapes id := by
  intro hidle
  have hwaits := hidle.waiting.2 op hop
  have hsettled : ∃ E, g.Settled shapes id op E := by
    obtain ⟨E, hE⟩ := Option.ne_none_iff_exists'.1 hidle.waiting.1
    exact ⟨E, h.settled id op E hop hE⟩
  obtain ⟨E, hsettled⟩ := hsettled
  cases hmakes with
  | starts hstarts =>
      by_cases hjoin : op.kind = .join
      · obtain rfl := Operator.eq_join_of_kind hjoin
        exact hstarts
      · exact Operator.not_starts_of_steady ((settled_of_ne hwaits.ne_root hjoin).1 hsettled).1
          hstarts
  | turns i hi F hF hturns =>
      have hjoin : op.kind ≠ .join := by
        rintro hjoin
        obtain rfl := Operator.eq_join_of_kind hjoin
        exact hturns
      exact hF.live (hwaits.other hjoin i (h.mem_inputs.1 hi) (Operator.passes_of_turns hturns))
  | «extends» hkind i j hi hj hleft hright E F hE hF hD =>
      obtain rfl := Operator.eq_optional_of_kind hkind
      exact hE.live (hwaits.other Kind.noConfusion i (h.mem_inputs.1 hi) fun _ => hleft)
  | joins hkind part hpart hdomain =>
      obtain ⟨i, hi, hall⟩ := hwaits.join hkind
      obtain ⟨j, hj, hoperand, hfits⟩ := hpart i (h.mem_inputs.2 hi)
      exact hfits.live (hall j (h.mem_inputs.1 hj) hoperand)

include h hop in
/-- What an operator makes of rows that are fed back to it: it has their shape. -/
theorem admits_of_back (hb : g.BoundedBy bounds) (horder : g.IsTopological order)
    (hlive : ¬ g.Idle shapes id) {i : Input} {F : VarSet} (hi : g.Reads id i)
    (hf : i.feedback = true) (hturns : op.Turns i.operand F D)
    (hshape : ∀ E, shapes id = some E → D = E) : (bounds id).Admits D := by
  cases h.back id i hi hf with
  | matcher op' hop' hkind =>
      obtain rfl := Option.some.inj (hop.symm.trans hop')
      cases op with
      | matchTriple p => exact hturns.elim
      | matchAtom a => exact hturns.elim
      | command c => cases c <;> simp [Operator.kind, GraphCommand.kind] at hkind
      | _ => simp [Operator.kind] at hkind
  | loop _ _ _ hshaped _ =>
      obtain ⟨E, hE⟩ := Option.ne_none_iff_exists'.1 hshaped
      rw [hshape E hE]
      exact h.admits_shape hb horder hop hE hlive

include h hop hmakes in
theorem admits_of_makes (hb : g.BoundedBy bounds) (horder : g.IsTopological order) :
    (bounds id).Admits D := by
  have hlive := live_of_makes h hmakes hop
  have hshape := fun E hE => h.shape_of_makes (fun _ _ hF => hF.shape) hmakes hop (E := E) hE
  obtain ⟨operands, hbounds, -, hcounts, -⟩ := exists_operand_bounds h hb hop
  cases hmakes with
  | starts hstarts =>
      rw [hbounds]
      exact Operator.bounds_admits_of_starts hstarts
  | turns i hi F hF hturns =>
      have hi := h.mem_inputs.1 hi
      cases hf : i.feedback with
      | true => exact admits_of_back h hop hb horder hlive hi hf hturns hshape
      | false =>
          obtain ⟨b, hlookup, hweakens⟩ := hcounts i hi hf
          rw [hbounds]
          refine Operator.bounds_admits_of_turns hlookup (hF.admits.weaken hweakens) hturns
            fun hkind => hF.shape ∅ (h.source_empty hop hkind hi)
  | «extends» hkind i j hi hj hleft hright E F hE hF hD =>
      obtain rfl := Operator.eq_optional_of_kind hkind
      subst hD
      have hi := h.mem_inputs.1 hi
      have hj := h.mem_inputs.1 hj
      obtain ⟨b, hlookup, hweakens⟩ :=
        hcounts i hi (h.forward_of_kind .optional hop rfl (by decide) hi)
      obtain ⟨b', hlookup', hweakens'⟩ :=
        hcounts j hj (h.forward_of_kind .optional hop rfl (by decide) hj)
      have hone : j.operand = 1 :=
        Nat.le_antisymm (h.optional id j hop hj) (Nat.one_le_iff_ne_zero.2 hright)
      rw [hbounds]
      exact Operator.bounds_admits_of_extends (hleft ▸ hlookup) (hE.admits.weaken hweakens)
        (hone ▸ hlookup') (hF.admits.weaken hweakens')
  | joins hkind part hpart hdomain =>
      obtain rfl := Operator.eq_join_of_kind hkind
      simp only [h.mem_inputs] at hdomain
      refine admits_joined h hb hop (fun i hi => ?_) hdomain
      obtain ⟨j, hj, hoperand, hfits⟩ := hpart i (h.mem_inputs.2 hi)
      exact ⟨j, h.mem_inputs.1 hj, hoperand, hfits.admits⟩

end Dynamic

theorem closed_fits (h : g.Shaped shapes) (hb : g.BoundedBy bounds)
    (horder : g.IsTopological order) : g.Closed (Fits g shapes bounds) := fun _ _ _ hop hmakes =>
  ⟨h.live_of_makes hmakes hop, h.admits_of_makes hmakes hop hb horder,
    fun _ hE => h.shape_of_makes (fun _ _ hF => hF.shape) hmakes hop hE⟩

/-- The bounds of a shaped graph admit the domains of all solutions in all rounds, whatever is
nested in its filters. -/
theorem admits (h : g.Shaped shapes) (hb : g.BoundedBy bounds) (horder : g.IsTopological order)
    (nested : γ → Outcome) {src : Source} {s : Solution}
    (hs : (g.mapNested nested).Shows src id s) : (bounds id).Admits s.keySet :=
  (hs.of_closed ((h.closed_fits hb horder).mapNested nested)).admits

end Shaped

end Graph

end QuadAlgebra
