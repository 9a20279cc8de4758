import QuadAlgebra.Proofs.Optimization.Reductions
import QuadAlgebra.Proofs.Variables.Shapes

/-!
# Recast graphs

A rule replaces operators by others that emit in their stead. `Graph.Recast` says what it takes for
that to keep the shapes of a graph: what an old operator reads stands for what it has read before on
the same operand, and new operators pass on what they read. Then a regular graph is regular again
(`Graph.Recast.regular`). Regular graphs are shaped graphs in which, besides, loops have the form
that paths give them, so that no rule can open one in a wrong place.
-/

namespace QuadAlgebra

/-! ## Operators that do the same work -/

namespace Operator

variable {γ : Type} {op op' : Operator γ} {k : Nat} {D E : VarSet}

/-- A filter may have another condition or compare terms only, and duplicates may be removed with an
index. -/
inductive Like : Operator γ → Operator γ → Prop
  | same (op : Operator γ) : Like op op
  | refilter (f f' : Filter γ) : Like (.filter f') (.filter f)
  | filter (f : Filter γ) (equalities : List (Item × Item)) :
        Like (.ruleFilter equalities) (.filter f)
  | distinct : Like .indexDistinct .distinct

/-- Operators that remove duplicates. -/
def deduplicating : List Kind := [.distinct, .indexDistinct]

namespace Like

theorem kind_iff (h : op'.Like op) {kind : Kind}
    (hkind : kind ∉ [Kind.filter, .ruleFilter, .distinct, .indexDistinct]) :
    op'.kind = kind ↔ op.kind = kind := by
  simp only [List.mem_cons, List.not_mem_nil, or_false, not_or] at hkind
  obtain ⟨hfilter, hrule, hdistinct, hindex⟩ := hkind
  cases h with
  | same | refilter => exact Iff.rfl
  | filter f equalities => exact iff_of_false (fun h => hrule h.symm) fun h => hfilter h.symm
  | distinct => exact iff_of_false (fun h => hindex h.symm) fun h => hdistinct h.symm

theorem mem_steady (h : op'.Like op) : op'.kind ∈ steady ↔ op.kind ∈ steady := by
  cases h with
  | same => exact Iff.rfl
  | _ => simp [kind, steady]

theorem mem_gathering (h : op'.Like op) : op'.kind ∈ gathering ↔ op.kind ∈ gathering := by
  cases h with
  | same => exact Iff.rfl
  | _ => simp [kind, gathering]

theorem mem_deduplicating (h : op'.Like op) :
    op'.kind ∈ deduplicating ↔ op.kind ∈ deduplicating := by
  cases h with
  | same => exact Iff.rfl
  | _ => simp [kind, deduplicating]

theorem fixes (h : op'.Like op) (hfixes : op.Fixes k E D) : op'.Fixes k E D := by
  cases h with
  | _ => exact hfixes

theorem passes (h : op'.Like op) : op'.Passes k ↔ op.Passes k :=
  imp_congr_left (h.kind_iff (by decide))

end Like

/-! ## Operators that hand on what they read -/

/-- Operators that hand on solutions of their inputs, all of them or some, as they are. -/
def relaying : List Kind := [.union, .filter, .ruleFilter]

theorem relaying_union : (.union : Operator γ).kind ∈ relaying := List.mem_cons_self

section Relaying

variable (h : op.kind ∈ relaying)

include h

theorem kind_ne_of_relaying {kind : Kind} (hkind : kind ∉ relaying) : op.kind ≠ kind :=
  fun he => hkind (he ▸ h)

theorem fixes_relaying : op.Fixes k E D ↔ D = E := by
  cases op with
  | command c => cases c <;> simp [kind, GraphCommand.kind, relaying] at h
  | union | filter _ | ruleFilter _ => exact Iff.rfl
  | _ => simp [kind, relaying] at h

theorem steady_of_relaying : op.kind ∈ steady :=
  (by decide : ∀ kind ∈ relaying, kind ∈ steady) _ h

theorem not_deduplicating_of_relaying : op.kind ∉ deduplicating :=
  (by decide : ∀ kind ∈ relaying, kind ∉ deduplicating) _ h

end Relaying

end Operator

namespace Graph

variable {γ : Type} {g g' : Graph γ} {shapes shapes' : Shapes} {id front : OperatorId}
  {op op' : Operator γ} {S S' : OperatorId → Prop}

/-- The shape of an operator that hands on solutions is that of all of its inputs. -/
theorem settled_relaying (h : op.kind ∈ Operator.relaying) {D : VarSet} :
    g.Settled shapes id op D ↔ ∀ i, g.Reads id i → shapes i.source = some D := by
  rw [settled_of_ne (Operator.kind_ne_of_relaying h (by decide))
    (Operator.kind_ne_of_relaying h (by decide)), and_iff_right (Operator.steady_of_relaying h)]
  simp only [Operator.fixes_relaying h, exists_eq_right']

theorem waitsFor_relaying (h : op.kind ∈ Operator.relaying) :
    g.WaitsFor S id op ↔ ∀ i, g.Reads id i → S i.source := by
  constructor
  · exact fun hwaits i hi => hwaits.other (Operator.kind_ne_of_relaying h (by decide)) i hi
      fun hminus => absurd hminus (Operator.kind_ne_of_relaying h (by decide))
  · exact fun hall => ⟨Operator.kind_ne_of_relaying h (by decide),
      fun hjoin => absurd hjoin (Operator.kind_ne_of_relaying h (by decide)),
      fun _ i hi _ => hall i hi⟩

theorem Filters.relaying (h : Filters op) : op.kind ∈ Operator.relaying :=
  List.mem_cons_of_mem _ h.1

theorem Filters.not_deduplicating (h : Filters op) : op.kind ∉ Operator.deduplicating :=
  Operator.not_deduplicating_of_relaying h.relaying

/-! ## Regular graphs -/

/-- A shaped graph whose loops have the form that paths give them: renamings read operators that
remove duplicates, and a union that is read back is read by one operator only, which removes
duplicates. Heads and matchers are there in rule programs only. -/
structure Regular (rules : Bool) (g : Graph γ) (shapes : Shapes) : Prop
    extends g.Shaped shapes where
  plain : rules = false → ∀ id op, g.operator? id = some op → op.kind ∉ ruleKinds
  renamed : ∀ id op i op', g.operator? id = some op → op.kind = .replaceVar → g.Reads id i →
    g.operator? i.source = some op' → op'.kind ∈ Operator.deduplicating
  loopUnion : ∀ id i, g.operator? id = some .union → g.Reads id i → i.feedback = true →
    ∀ t j, g.Reads t j → j.source = id → j.feedback = false ∧
      (∃ op, g.operator? t = some op ∧ op.kind ∈ Operator.deduplicating) ∧ shapes t ≠ none ∧
        ∀ t' j', g.Reads t' j' → j'.source = id → t' = t

/-- All operators of a set wait for the set, apart from the one in front. -/
structure Gate (g : Graph γ) (shapes : Shapes) (S : OperatorId → Prop) (front : OperatorId) :
    Prop where
  mem : S front
  shape : shapes front ≠ none
  gathering : ∃ op, g.operator? front = some op ∧ op.kind ∈ Operator.gathering
  waiting : ∀ y, S y → y ≠ front → g.Waiting shapes S y

/-- The first operator stands in for the second one: they are the same, or the second one is the
operator with the given number, and the first one of its inputs. -/
def InPlaceOf (g : Graph γ) (u a b : OperatorId) : Prop :=
  a = b ∨ b = u ∧ ∃ i, g.Reads u i ∧ i.source = a

/-- A gate that encloses an operator encloses all inputs of it that it hands on. -/
theorem Gate.mem_of_inPlaceOf (h : g.Gate shapes S front) {u a b : OperatorId}
    (hop : g.operator? u = some op) (hkind : op.kind ∈ Operator.relaying) (hne : u ≠ front)
    (hab : g.InPlaceOf u a b) (hb : S b) : S a := by
  rcases hab with rfl | ⟨rfl, i, hi, rfl⟩
  · exact hb
  · exact (waitsFor_relaying hkind).1 ((h.waiting b hb hne).2 op hop) i hi

theorem Gate.shape_of_mem (h : g.Gate shapes S front) {x : OperatorId} (hx : S x) :
    shapes x ≠ none := by
  by_cases hne : x = front
  · exact hne ▸ h.shape
  · exact (h.waiting x hx hne).1

theorem exists_operator?_of_reads (h : g.Linked) {i : Input} (hi : g.Reads id i) :
    ∃ op, g.operator? id = some op :=
  Option.ne_none_iff_exists'.1 ((Wired.of_linked h).ends_of_reads hi).1

theorem exists_operator?_source (h : g.Linked) {i : Input} (hi : g.Reads id i) :
    ∃ op, g.operator? i.source = some op :=
  Option.ne_none_iff_exists'.1 ((Wired.of_linked h).ends_of_reads hi).2

namespace Regular

/-- In a plan without rules, feedback edges close loops. -/
theorem exists_gate (h : g.Regular false shapes) {i : Input} (hi : g.Reads id i)
    (hf : i.feedback = true) : ∃ S, g.Gate shapes S id ∧ S i.source := by
  cases h.back id i hi hf with
  | matcher op hop hkind =>
      refine absurd ?_ (h.plain rfl id op hop)
      rcases List.mem_pair.1 hkind with he | he <;> rw [he] <;> decide
  | loop op hop hkind hshape hbehind =>
      obtain ⟨S, hfront, hback, hS⟩ := hbehind
      exact ⟨S, ⟨hfront, hshape, ⟨op, hop, hkind⟩, hS⟩, hback⟩

/-- What stands in for an operator that hands on solutions has its shape. -/
theorem shape_of_inPlaceOf (h : g.Regular false shapes) {u a b : OperatorId}
    (hop : g.operator? u = some op) (hkind : op.kind ∈ Operator.relaying)
    (hab : g.InPlaceOf u a b) {D : VarSet} (hD : shapes b = some D) : shapes a = some D := by
  rcases hab with rfl | ⟨rfl, i, hi, rfl⟩
  · exact hD
  · exact (settled_relaying hkind).1 (h.settled b op D hop hD) i hi

end Regular

/-! ## Recasting -/

/-- A change of a graph after which operators stand for others: they emit in their stead. Old
operators read from what stands for their inputs. -/
structure Recast (g g' : Graph γ) (shapes shapes' : Shapes)
    (Stands : OperatorId → OperatorId → Prop) (Fresh : OperatorId → Prop) : Prop where
  linked : g'.Linked
  root : g'.operator? root = some .root
  root_old : ¬ Fresh Graph.root
  old : ∀ x op', ¬ Fresh x → g'.operator? x = some op' →
    ∃ op, g.operator? x = some op ∧ op'.Like op
  shape : ∀ x, ¬ Fresh x → shapes' x = shapes x
  reads : ∀ x i', ¬ Fresh x → g'.Reads x i' →
    ∃ i, g.Reads x i ∧ i.operand = i'.operand ∧ Stands i'.source i.source
  /-- Joins keep their operands, and what the root feeds stays fed. -/
  kept : ∀ x op i, ¬ Fresh x → g'.operator? x = some op → op.kind ∈ [.join, .scan, .probe] →
    g.Reads x i → ∃ i', g'.Reads x i' ∧ i'.operand = i.operand
  stands_self : ∀ a, ¬ Fresh a → Stands a a
  stands_shape : ∀ a b D, Stands a b → shapes b = some D → shapes' a = some D
  /-- Scans and probes read what they have read before. -/
  sources : ∀ x op i, ¬ Fresh x → g'.operator? x = some op → op.kind ∈ [.scan, .probe] →
    g'.Reads x i → g.Reads x i
  /-- Gates in front of operators that are still there enclose what stands for their operators. -/
  stands_old : ∀ S front a b, g.Gate shapes S front → g'.operator? front ≠ none → S b →
    Stands a b → ¬ Fresh a → S a
  back : ∀ x i', g'.Reads x i' → i'.feedback = true →
    (¬ Fresh x ∧ ∃ i, g.Reads x i ∧ i.feedback = true ∧ Stands i'.source i.source) ∨
      g'.LeadsBack shapes' i'.source x ∧ g'.operator? x ≠ some .union
  renamed : ∀ x op i, g'.operator? x = some op → op.kind = .replaceVar → g'.Reads x i → g.Reads x i
  loopUnion : ∀ x i, g.operator? x = some .union → g.Reads x i → i.feedback = true →
    ∀ t j, g'.Reads t j → j.source = x → g.Reads t j
  fresh : ∀ n, Fresh n → g.operator? n = none
  fresh_kind : ∀ n op, Fresh n → g'.operator? n = some op → op.kind ∈ [.filter, .ruleFilter, .scan]
  fresh_settled : ∀ n op D, Fresh n → g'.operator? n = some op → shapes' n = some D →
    g'.Settled shapes' n op D
  fresh_scan : ∀ n op, Fresh n → g'.operator? n = some op → op.kind = .scan →
    (∀ i, g'.Reads n i → i.source = Graph.root) ∧ ∃ i, g'.Reads n i
  fresh_waits : ∀ S front n b, g.Gate shapes S front → g'.operator? front ≠ none → S b →
    Stands n b → Fresh n → g'.Waiting shapes' (fun a => ∃ b, S b ∧ Stands a b) n

namespace Recast

variable {Stands : OperatorId → OperatorId → Prop} {Fresh : OperatorId → Prop}
  (hr : g.Recast g' shapes shapes' Stands Fresh)

include hr

theorem settled (hnew : ¬ Fresh id) (hop : g'.operator? id = some op') (hlike : op'.Like op)
    {D : VarSet} (h : g.Settled shapes id op D) : g'.Settled shapes' id op' D := by
  by_cases hroot : op.kind = .root
  · obtain rfl := Operator.eq_root_of_kind hroot
    obtain rfl := Operator.eq_root_of_kind ((hlike.kind_iff (by decide)).2 hroot)
    exact h
  by_cases hjoin : op.kind = .join
  · have hjoin' := (hlike.kind_iff (by decide)).2 hjoin
    obtain rfl := Operator.eq_join_of_kind hjoin
    obtain rfl := Operator.eq_join_of_kind hjoin'
    obtain ⟨part, hpart, hD⟩ : ∃ part : Nat → VarSet,
      (∀ i, g.Reads id i → shapes i.source = some (part i.operand)) ∧
        ∀ v, v ∈ D ↔ ∃ i, g.Reads id i ∧ v ∈ part i.operand := h
    refine ⟨part, fun i' hi' => ?_, fun v => (hD v).trans ⟨?_, ?_⟩⟩
    · obtain ⟨i, hi, hoperand, hstands⟩ := hr.reads id i' hnew hi'
      exact hr.stands_shape _ _ _ hstands (hoperand ▸ hpart i hi)
    · rintro ⟨i, hi, hv⟩
      obtain ⟨i', hi', hoperand⟩ := hr.kept id .join i hnew hop (by simp [Operator.kind]) hi
      exact ⟨i', hi', hoperand ▸ hv⟩
    · rintro ⟨i', hi', hv⟩
      obtain ⟨i, hi, hoperand, -⟩ := hr.reads id i' hnew hi'
      exact ⟨i, hi, hoperand ▸ hv⟩
  · obtain ⟨hsteady, hfixes⟩ := (settled_of_ne hroot hjoin).1 h
    refine (settled_of_ne (mt (hlike.kind_iff (by decide)).1 hroot)
      (mt (hlike.kind_iff (by decide)).1 hjoin)).2 ⟨hlike.mem_steady.2 hsteady, fun i' hi' => ?_⟩
    obtain ⟨i, hi, hoperand, hstands⟩ := hr.reads id i' hnew hi'
    obtain ⟨E, hE, hfix⟩ := hfixes i hi
    exact ⟨E, hr.stands_shape _ _ _ hstands hE, hoperand ▸ hlike.fixes hfix⟩

theorem waitsFor (hnew : ¬ Fresh id) (hop : g'.operator? id = some op') (hlike : op'.Like op)
    (h : g.WaitsFor S id op) (hS : ∀ a b, S b → Stands a b → S' a) : g'.WaitsFor S' id op' where
  ne_root := mt (hlike.kind_iff (by decide)).1 h.ne_root
  join hjoin := by
    obtain ⟨i, hi, hall⟩ := h.join ((hlike.kind_iff (by decide)).1 hjoin)
    obtain ⟨i', hi', hoperand⟩ := hr.kept id op' i hnew hop (by simp [hjoin]) hi
    refine ⟨i', hi', fun j' hj' hsame => ?_⟩
    obtain ⟨j, hj, hoperand', hstands⟩ := hr.reads id j' hnew hj'
    exact hS _ _ (hall j hj (hoperand'.trans (hsame.trans hoperand))) hstands
  other hjoin i' hi' hpasses := by
    obtain ⟨i, hi, hoperand, hstands⟩ := hr.reads id i' hnew hi'
    refine hS _ _ (h.other (mt (hlike.kind_iff (by decide)).2 hjoin) i hi ?_) hstands
    exact hoperand ▸ hlike.passes.1 hpasses

/-- What stands behind a gate still waits for it. -/
theorem gate (h : g.Gate shapes S front) (hnew : ¬ Fresh front)
    (hop : g'.operator? front = some op') :
    g'.Gate shapes' (fun a => ∃ b, S b ∧ Stands a b) front := by
  have halive : g'.operator? front ≠ none := by simp [hop]
  refine ⟨⟨front, h.mem, hr.stands_self front hnew⟩, hr.shape front hnew ▸ h.shape,
    ⟨op', hop, ?_⟩, ?_⟩
  · obtain ⟨op, hop', hkind⟩ := h.gathering
    obtain ⟨op₁, hop₁, hlike⟩ := hr.old front op' hnew hop
    obtain rfl := Option.some.inj (hop'.symm.trans hop₁)
    exact hlike.mem_gathering.2 hkind
  · rintro y ⟨b, hb, hstands⟩ hne
    by_cases hfresh : Fresh y
    · exact hr.fresh_waits S front y b h halive hb hstands hfresh
    · have hy := h.waiting y (hr.stands_old S front y b h halive hb hstands hfresh) hne
      refine ⟨hr.shape y hfresh ▸ hy.1, fun op' hop' => ?_⟩
      obtain ⟨op, hop, hlike⟩ := hr.old y op' hfresh hop'
      exact hr.waitsFor hfresh hop' hlike (hy.2 op hop) fun a b hb hab => ⟨b, hb, hab⟩

theorem leadsBack (h : g.Regular false shapes) {x : OperatorId} {i' : Input}
    (hi' : g'.Reads x i') (hf : i'.feedback = true) : g'.LeadsBack shapes' i'.source x := by
  rcases hr.back x i' hi' hf with ⟨hnew, i, hi, hf, hstands⟩ | ⟨hback, -⟩
  · obtain ⟨op', hop'⟩ := exists_operator?_of_reads hr.linked hi'
    obtain ⟨S, hgate, hS⟩ := h.exists_gate hi hf
    obtain ⟨hmem, hshape, ⟨op, hop, hkind⟩, hwaiting⟩ := hr.gate hgate hnew hop'
    exact .loop op hop hkind hshape
      ⟨_, hmem, ⟨i.source, hS, hstands⟩, hwaiting⟩
  · exact hback

theorem shaped (h : g.Regular false shapes) : g'.Shaped shapes' where
  linked := hr.linked
  root := hr.root
  root_shape := (hr.shape _ hr.root_old).trans h.root_shape
  settled id op' D hop' hD := by
    by_cases hnew : Fresh id
    · exact hr.fresh_settled id op' D hnew hop' hD
    · obtain ⟨op, hop, hlike⟩ := hr.old id op' hnew hop'
      rw [hr.shape id hnew] at hD
      exact hr.settled hnew hop' hlike (h.settled id op D hop hD)
  sources id op' hop' hkind := by
    by_cases hnew : Fresh id
    · refine hr.fresh_scan id op' hnew hop' ?_
      have hfresh := hr.fresh_kind id op' hnew hop'
      rcases List.mem_pair.1 hkind with he | he
      · exact he
      · simp [he] at hfresh
    · obtain ⟨op, hop, hlike⟩ := hr.old id op' hnew hop'
      have hsource : op.kind ∈ [.scan, .probe] := by
        rcases List.mem_pair.1 hkind with he | he
        · exact List.mem_pair.2 (.inl ((hlike.kind_iff (by decide)).1 he))
        · exact List.mem_pair.2 (.inr ((hlike.kind_iff (by decide)).1 he))
      obtain ⟨hroot, i, hi⟩ := h.sources id op hop hsource
      refine ⟨fun i' hi' => ?_, ?_⟩
      · exact hroot i' (hr.sources id op' i' hnew hop' hkind hi')
      · obtain ⟨i', hi', -⟩ := hr.kept id op' i hnew hop' (List.mem_cons_of_mem _ hkind) hi
        exact ⟨i', hi'⟩
  optional id i' hop' hi' := by
    have hnew : ¬ Fresh id := fun hnew => by
      simpa [Operator.kind] using hr.fresh_kind id .optional hnew hop'
    obtain ⟨op, hop, hlike⟩ := hr.old id .optional hnew hop'
    obtain rfl := Operator.eq_optional_of_kind ((hlike.kind_iff (by decide)).1 rfl)
    obtain ⟨i, hi, hoperand, -⟩ := hr.reads id i' hnew hi'
    exact hoperand ▸ h.optional id i hop hi
  back id i' hi' hf := hr.leadsBack h hi' hf

/-- What is recast from a regular graph is regular. -/
theorem regular (h : g.Regular false shapes) : g'.Regular false shapes' where
  toShaped := hr.shaped h
  plain _ id op' hop' := by
    by_cases hnew : Fresh id
    · have hkind := hr.fresh_kind id op' hnew hop'
      intro hrule
      simp only [List.mem_cons, List.not_mem_nil, or_false] at hkind
      rcases hkind with he | he | he <;> simp [he, ruleKinds] at hrule
    · obtain ⟨op, hop, hlike⟩ := hr.old id op' hnew hop'
      have hplain := h.plain rfl id op hop
      cases hlike with
      | same => exact hplain
      | _ => simp [Operator.kind, ruleKinds]
  renamed id op' i opᵢ hop' hkind hi' hsource := by
    have hnew : ¬ Fresh id := fun hnew => by
      simpa [hkind] using hr.fresh_kind id op' hnew hop'
    obtain ⟨op, hop, hlike⟩ := hr.old id op' hnew hop'
    have hi := hr.renamed id op' i hop' hkind hi'
    obtain ⟨opₛ, hopₛ⟩ := exists_operator?_source h.linked hi
    have hold : ¬ Fresh i.source := fun hnew => by
      rw [hr.fresh _ hnew] at hopₛ
      cases hopₛ
    obtain ⟨opₜ, hopₜ, hlike'⟩ := hr.old i.source opᵢ hold hsource
    exact hlike'.mem_deduplicating.2
      (h.renamed id op i opₜ hop ((hlike.kind_iff (by decide)).1 hkind) hi hopₜ)
  loopUnion id i' hop' hi' hf t j hj hsource := by
    obtain ⟨hnew, i, hi, hf, -⟩ := (hr.back id i' hi' hf).resolve_right fun hback => hback.2 hop'
    obtain ⟨op, hop, hlike⟩ := hr.old id .union hnew hop'
    obtain rfl : op = .union := by
      cases hlike
      rfl
    have hread {t : OperatorId} {j : Input} (hj : g'.Reads t j) (hsource : j.source = id) :
        g.Reads t j := hr.loopUnion id i hop hi hf t j hj hsource
    obtain ⟨hforward, ⟨opₜ, hopₜ, hkind⟩, hshape, honly⟩ :=
      h.loopUnion id i hop hi hf t j (hread hj hsource) hsource
    obtain ⟨opₜ', hopₜ'⟩ := exists_operator?_of_reads hr.linked hj
    have hold : ¬ Fresh t := fun hnew => by
      rw [hr.fresh _ hnew] at hopₜ
      cases hopₜ
    obtain ⟨op₁, hop₁, hlike⟩ := hr.old t opₜ' hold hopₜ'
    obtain rfl := Option.some.inj (hopₜ.symm.trans hop₁)
    exact ⟨hforward, ⟨opₜ', hopₜ', hlike.mem_deduplicating.2 hkind⟩, hr.shape t hold ▸ hshape,
      fun t' j' hj' hsource' => honly t' j' (hread hj' hsource') hsource'⟩

end Recast

end Graph

end QuadAlgebra
