import QuadAlgebra.Proofs.Variables.Recasting

/-!
# Regular graphs that grow

A regular graph stays regular while it is drawn on. What has a shape is finished: only operators
without a shape get inputs, and an operator may get its shape once it has its inputs
(`Graph.Extension.regular`). The one exception is the edge that closes a loop: it feeds a union
that has a shape back with what stands behind it (`Graph.Looping.regular`).
-/

namespace QuadAlgebra

namespace Graph

variable {γ : Type} {g g' : Graph γ} {shapes shapes' : Shapes} {id x front : OperatorId}
  {op : Operator γ} {rules : Bool} {Open : OperatorId → Prop}

/-- An operator that is no union that is read back. -/
def Unlooped (g : Graph γ) (id : OperatorId) : Prop :=
  ∀ i, g.operator? id = some .union → g.Reads id i → i.feedback = false

/-- What the kind of an operator demands of its inputs. -/
structure Fed (g : Graph γ) (rules : Bool) (id : OperatorId) (op : Operator γ) : Prop where
  plain : rules = false → op.kind ∉ ruleKinds
  sources : op.kind ∈ [.scan, .probe] →
    (∀ i, g.Reads id i → i.source = Graph.root) ∧ ∃ i, g.Reads id i
  optional : op.kind = .optional → ∀ i, g.Reads id i → i.operand ≤ 1
  renamed : op.kind = .replaceVar → ∀ i op', g.Reads id i → g.operator? i.source = some op' →
    op'.kind ∈ Operator.deduplicating

theorem Regular.fed (h : g.Regular rules shapes) (hop : g.operator? id = some op) :
    g.Fed rules id op where
  plain hrules := h.plain hrules id op hop
  sources := h.sources id op hop
  optional hkind i hi := by
    obtain rfl := Operator.eq_optional_of_kind hkind
    exact h.optional id i hop hi
  renamed hkind i op' hi hop' := h.renamed id op i op' hop hkind hi hop'

/-- Some operators without a shape are added, fed or given a shape; all others stay as they are. -/
structure Extension (rules : Bool) (g g' : Graph γ) (shapes shapes' : Shapes)
    (Open : OperatorId → Prop) : Prop where
  linked : g'.Linked
  unshaped : ∀ x, Open x → shapes x = none
  same : ∀ x, ¬ Open x → g'.operator? x = g.operator? x
  same_shape : ∀ x, ¬ Open x → shapes' x = shapes x
  same_reads : ∀ x i, ¬ Open x → (g'.Reads x i ↔ g.Reads x i)
  kept : ∀ x op, Open x → g.operator? x = some op → g'.operator? x = some op
  fed : ∀ x op, Open x → g'.operator? x = some op → g'.Fed rules x op
  settled : ∀ x op D, Open x → g'.operator? x = some op → shapes' x = some D →
    g'.Settled shapes' x op D
  feedback : ∀ x i, Open x → g'.Reads x i → i.feedback = true → g.Reads x i ∨
    ∃ op, g'.operator? x = some op ∧ op.kind ∈ [.matchTriple, .matchAtom]
  unlooped : ∀ x i, Open x → g'.Reads x i → g.Reads x i ∨ g.Unlooped i.source

namespace Extension

variable (he : Extension rules g g' shapes shapes' Open)

include he

theorem not_open (h : shapes x ≠ none) : ¬ Open x := fun hx => h (he.unshaped x hx)

theorem operators (h : g.operator? x = some op) : g'.operator? x = some op := by
  by_cases hx : Open x
  · exact he.kept x op hx h
  · exact (he.same x hx).trans h

theorem shapes_eq {D : VarSet} (h : shapes x = some D) : shapes' x = some D :=
  (he.same_shape x (he.not_open (by simp [h]))).trans h

theorem waiting {S : OperatorId → Prop} (h : g.Waiting shapes S x) : g'.Waiting shapes' S x := by
  have hx := he.not_open h.1
  refine ⟨he.same_shape x hx ▸ h.1, fun op hop => ?_⟩
  exact (h.2 op ((he.same x hx).symm.trans hop)).transfer (fun i => he.same_reads x i hx)
    fun _ _ hi => hi

theorem behind {back : OperatorId} (h : g.Behind shapes front back) :
    g'.Behind shapes' front back := by
  obtain ⟨S, hfront, hback, hS⟩ := h
  exact ⟨S, hfront, hback, fun y hy hne => he.waiting (hS y hy hne)⟩

theorem leadsBack {i : Input} (h : g.LeadsBack shapes i.source x) :
    g'.LeadsBack shapes' i.source x := by
  cases h with
  | matcher op hop hkind => exact .matcher op (he.operators hop) hkind
  | loop op hop hkind hshape hbehind =>
      refine .loop op (he.operators hop) hkind ?_ (he.behind hbehind)
      rw [he.same_shape x (he.not_open hshape)]
      exact hshape

theorem shaped (h : g.Regular rules shapes) : g'.Shaped shapes' where
  linked := he.linked
  root := he.operators h.root
  root_shape := he.shapes_eq h.root_shape
  settled x op D hop hD := by
    by_cases hx : Open x
    · exact he.settled x op D hx hop hD
    · rw [he.same x hx] at hop
      rw [he.same_shape x hx] at hD
      exact (h.settled x op D hop hD).transfer (fun i => he.same_reads x i hx)
        fun _ _ _ => he.shapes_eq
  sources x op hop hkind := by
    by_cases hx : Open x
    · exact (he.fed x op hx hop).sources hkind
    · simp only [he.same_reads x _ hx]
      exact h.sources x op ((he.same x hx).symm.trans hop) hkind
  optional x i hop hi := by
    by_cases hx : Open x
    · exact (he.fed x .optional hx hop).optional rfl i hi
    · exact h.optional x i ((he.same x hx).symm.trans hop) ((he.same_reads x i hx).1 hi)
  back x i hi hf := by
    by_cases hx : Open x
    · rcases he.feedback x i hx hi hf with hold | ⟨op, hop, hkind⟩
      · exact he.leadsBack (h.back x i hold hf)
      · exact .matcher op hop hkind
    · exact he.leadsBack (h.back x i ((he.same_reads x i hx).1 hi) hf)

/-- A union that is read back was there before, with the same edge. -/
theorem union_old (h : g.Linked) {i : Input} (hop : g'.operator? x = some .union)
    (hi : g'.Reads x i) (hf : i.feedback = true) : g.operator? x = some .union ∧ g.Reads x i := by
  by_cases hx : Open x
  · rcases he.feedback x i hx hi hf with hold | ⟨op, hop', hkind⟩
    · obtain ⟨op, hop'⟩ := exists_operator?_of_reads h hold
      obtain rfl := Option.some.inj (hop.symm.trans (he.kept x op hx hop'))
      exact ⟨hop', hold⟩
    · obtain rfl := Option.some.inj (hop.symm.trans hop')
      simp [Operator.kind] at hkind
  · exact ⟨(he.same x hx).symm.trans hop, (he.same_reads x i hx).1 hi⟩

theorem regular (h : g.Regular rules shapes) : g'.Regular rules shapes' where
  toShaped := he.shaped h
  plain hrules x op hop := by
    by_cases hx : Open x
    · exact (he.fed x op hx hop).plain hrules
    · exact h.plain hrules x op ((he.same x hx).symm.trans hop)
  renamed x op i op' hop hkind hi hop' := by
    by_cases hx : Open x
    · exact (he.fed x op hx hop).renamed hkind i op' hi hop'
    · have hold := (he.same_reads x i hx).1 hi
      obtain ⟨op₁, hop₁⟩ := exists_operator?_source h.linked hold
      obtain rfl := Option.some.inj (hop'.symm.trans (he.operators hop₁))
      exact h.renamed x op i op' ((he.same x hx).symm.trans hop) hkind hold hop₁
  loopUnion x i hop hi hf t j hj hsource := by
    obtain ⟨hop, hi⟩ := he.union_old h.linked hop hi hf
    have hold {t : OperatorId} {j : Input} (hj : g'.Reads t j) (hsource : j.source = x) :
        g.Reads t j := by
      by_cases ht : Open t
      · refine (he.unlooped t j ht hj).resolve_right fun hforward => ?_
        rw [hsource] at hforward
        exact absurd ((hforward i hop hi).symm.trans hf) Bool.noConfusion
      · exact (he.same_reads t j ht).1 hj
    obtain ⟨hforward, ⟨op, hop', hkind⟩, hshape, honly⟩ :=
      h.loopUnion x i hop hi hf t j (hold hj hsource) hsource
    refine ⟨hforward, ⟨op, he.operators hop', hkind⟩, ?_, fun t' j' hj' hsource' =>
      honly t' j' (hold hj' hsource') hsource'⟩
    rw [he.same_shape t (he.not_open hshape)]
    exact hshape

end Extension

/-! ## Loops -/

/-- What stands behind an operator still does so after an operator has been read back that may
itself stand there. -/
theorem Behind.looped {u back : OperatorId} {i : Input} (h : g.Behind shapes front back)
    (hop : ∀ x, g'.operator? x = g.operator? x)
    (hreads : ∀ x j, g'.Reads x j ↔ g.Reads x j ∨ x = u ∧ j = i)
    (hu : ∀ op, g.operator? u = some op → op.kind ≠ .join)
    (hbehind : g.Behind shapes u i.source) : g'.Behind shapes front back := by
  obtain ⟨S, hfront, hback, hS⟩ := h
  obtain ⟨T, hTfront, hTback, hT⟩ := hbehind
  have hsame {y : OperatorId} (hy : y ≠ u) (j : Input) : g'.Reads y j ↔ g.Reads y j := by
    rw [hreads, or_iff_left fun h => hy h.1]
  have hwaiting {R R' : OperatorId → Prop} {y : OperatorId} (hy : y ≠ u) (hR : ∀ x, R x → R' x)
      (hw : g.Waiting shapes R y) : g'.Waiting shapes R' y :=
    ⟨hw.1, fun op hop' => (hw.2 op ((hop y).symm.trans hop')).transfer (hsame hy)
      fun _ _ => hR _⟩
  by_cases hfirst : u = front
  · subst hfirst
    exact ⟨S, hfront, hback, fun y hy hne => hwaiting hne (fun _ => id) (hS y hy hne)⟩
  by_cases hSu : S u
  · -- what is new at the union comes from operators that wait for the union
    refine ⟨fun y => S y ∨ T y, .inl hfront, .inl hback, fun y hy hne => ?_⟩
    by_cases hyu : y = u
    · subst hyu
      have hw := hS y hSu hne
      refine ⟨hw.1, fun op hop' => ?_⟩
      have hop' := (hop y).symm.trans hop'
      refine ⟨(hw.2 op hop').ne_root, fun hjoin => absurd hjoin (hu op hop'),
        fun hjoin j hj hk => ?_⟩
      rcases (hreads y j).1 hj with hj | ⟨-, rfl⟩
      · exact .inl ((hw.2 op hop').other hjoin j hj hk)
      · exact .inr hTback
    · rcases hy with hy | hy
      · exact hwaiting hyu (fun _ => .inl) (hS y hy hne)
      · exact hwaiting hyu (fun _ => .inr) (hT y hy hyu)
  · refine ⟨S, hfront, hback, fun y hy hne => hwaiting ?_ (fun _ => id) (hS y hy hne)⟩
    rintro rfl
    exact hSu hy

/-- A union that may be fed back with rows of its own domain, which come from behind itself: it is
read by one operator only, which removes duplicates. -/
structure Loopable (g : Graph γ) (shapes : Shapes) (u known back : OperatorId) (D : VarSet) :
    Prop where
  union : g.operator? u = some .union
  shape : shapes u = some D
  feeds : ∃ op, g.operator? back = some op ∧ op.kind ≠ .union
  feeds_shape : shapes back = some D
  behind : g.Behind shapes u back
  reader : ∃ op, g.operator? known = some op ∧ op.kind ∈ Operator.deduplicating
  reader_shape : shapes known ≠ none
  readers : ∀ t j, g.Reads t j → j.source = u → t = known ∧ j.feedback = false

/-- Such a union has been fed back, and nothing else has changed. -/
structure Looping (g g' : Graph γ) (shapes : Shapes) (u known back : OperatorId) (operand : Nat)
    (D : VarSet) : Prop extends g.Loopable shapes u known back D where
  linked : g'.Linked
  same : ∀ x, g'.operator? x = g.operator? x
  reads : ∀ x i, g'.Reads x i ↔ g.Reads x i ∨ x = u ∧ i = ⟨back, operand, true⟩

namespace Looping

variable {u known back t : OperatorId} {operand : Nat} {D : VarSet}
  (hl : Looping g g' shapes u known back operand D)

include hl

theorem reads_of_ne (hx : x ≠ u) (i : Input) : g'.Reads x i ↔ g.Reads x i := by
  rw [hl.reads, or_iff_left fun h => hx h.1]

theorem ne_of_kind (hop : g.operator? x = some op) (hkind : op.kind ≠ .union) : x ≠ u := by
  rintro rfl
  obtain rfl := Option.some.inj (hl.union.symm.trans hop)
  exact hkind rfl

theorem behind_new {last : OperatorId} (h : g.Behind shapes front last) :
    g'.Behind shapes front last :=
  h.looped hl.same hl.reads (fun op hop hjoin => hl.ne_of_kind hop (by simp [hjoin]) rfl) hl.behind

/-- The rows of the union are still those of one domain. -/
theorem settled_union (h : g.Shaped shapes) : g'.Settled shapes u .union D := by
  refine (settled_of_ne Kind.noConfusion Kind.noConfusion).2
    ⟨by simp [Operator.kind, Operator.steady], fun i hi => ?_⟩
  rcases (hl.reads u i).1 hi with hi | ⟨-, rfl⟩
  · have hgathering : (.union : Operator γ).kind ∈ Operator.gathering := by
      simp [Operator.kind, Operator.gathering]
    exact ⟨D, h.shape_eq_of_gathering hl.union hgathering hl.shape hi, rfl⟩
  · exact ⟨D, hl.feeds_shape, rfl⟩

theorem leadsBack (h : g.Shaped shapes) {i : Input} (hi : g'.Reads x i)
    (hf : i.feedback = true) : g'.LeadsBack shapes i.source x := by
  rcases (hl.reads x i).1 hi with hi | ⟨rfl, rfl⟩
  · cases h.back x i hi hf with
    | matcher op hop hkind => exact .matcher op ((hl.same x).trans hop) hkind
    | loop op hop hkind hshape hbehind =>
        exact .loop op ((hl.same x).trans hop) hkind hshape (hl.behind_new hbehind)
  · exact .loop .union ((hl.same x).trans hl.union) (by simp [Operator.kind, Operator.gathering])
      (by simp [hl.shape]) (hl.behind_new hl.behind)

theorem shaped (h : g.Shaped shapes) : g'.Shaped shapes where
  linked := hl.linked
  root := (hl.same _).trans h.root
  root_shape := h.root_shape
  settled x op E hop hE := by
    rw [hl.same] at hop
    by_cases hx : x = u
    · subst hx
      obtain rfl := Option.some.inj (hl.union.symm.trans hop)
      obtain rfl := Option.some.inj (hl.shape.symm.trans hE)
      exact hl.settled_union h
    · exact (h.settled x op E hop hE).transfer (hl.reads_of_ne hx) fun _ _ _ hE => hE
  sources x op hop hkind := by
    rw [hl.same] at hop
    simp only [hl.reads_of_ne (hl.ne_of_kind hop (by rintro he; simp [he] at hkind))]
    exact h.sources x op hop hkind
  optional x i hop hi := by
    rw [hl.same] at hop
    exact h.optional x i hop ((hl.reads_of_ne (hl.ne_of_kind hop Kind.noConfusion) i).1 hi)
  back _ _ hi hf := hl.leadsBack h hi hf

/-- Nobody reads a union over the new edge, which comes from an operator of another kind. -/
theorem reads_union {j : Input} (hop : g.operator? x = some .union) (hj : g'.Reads t j)
    (hsource : j.source = x) : g.Reads t j := by
  obtain ⟨op, hback, hkind⟩ := hl.feeds
  refine ((hl.reads t j).1 hj).resolve_right fun hnew => hkind ?_
  rw [hnew.2] at hsource
  obtain rfl := Option.some.inj (hback.symm.trans ((congrArg g.operator? hsource).trans hop))
  rfl

theorem regular (h : g.Regular rules shapes) : g'.Regular rules shapes where
  toShaped := hl.shaped h.toShaped
  plain hrules x op hop := h.plain hrules x op ((hl.same x).symm.trans hop)
  renamed x op i op' hop hkind hi hop' := by
    rw [hl.same] at hop hop'
    have hx := hl.ne_of_kind hop (by rw [hkind]; exact Kind.noConfusion)
    exact h.renamed x op i op' hop hkind ((hl.reads_of_ne hx i).1 hi) hop'
  loopUnion x i hop hi hf t j hj hsource := by
    rw [hl.same] at hop
    have hold := hl.reads_union hop hj hsource
    by_cases hx : x = u
    · subst hx
      obtain ⟨rfl, hforward⟩ := hl.readers t j hold hsource
      obtain ⟨op, hknown, hkind⟩ := hl.reader
      exact ⟨hforward, ⟨op, (hl.same t).trans hknown, hkind⟩, hl.reader_shape,
        fun t' j' hj' hsource' =>
          (hl.readers t' j' (hl.reads_union hop hj' hsource') hsource').1⟩
    · obtain ⟨hforward, ⟨op, hop', hkind⟩, hshape, honly⟩ :=
        h.loopUnion x i hop ((hl.reads_of_ne hx i).1 hi) hf t j hold hsource
      exact ⟨hforward, ⟨op, (hl.same t).trans hop', hkind⟩, hshape, fun t' j' hj' hsource' =>
        honly t' j' (hl.reads_union hop hj' hsource') hsource'⟩

end Looping

end Graph

end QuadAlgebra
