import QuadAlgebra.Proofs.Variables.Replacing

/-!
# Copies of filters in regular graphs

A filter is split over its inputs, or moves below the operator that it reads. Either way copies of
it are put on edges. A filter has the shape of what it reads and waits for it, so each copy has the
shape of its producer, and the graph stays regular (`Graph.Copied.regular`). What is left to show of
each of the two moves is who reads whom afterwards (`Graph.Distributing.copied`,
`Graph.Lowering.copied`).
-/

namespace QuadAlgebra

namespace Graph

variable {γ : Type} {g g' : Graph γ} {shapes shapes' : Shapes} {u x n front : OperatorId}
  {op op' : Operator γ} {i : Input} {count : Nat} {S : OperatorId → Prop}

/-! ## Copies in the place of a filter -/

/-- What was there before the copies is still the same operator. -/
theorem old_of_copies (hx : (x : Nat) < g.slots.length)
    (hop' : (if x = u then none else withCopies g.operator? g.slots.length count op x) = some op') :
    x ≠ u ∧ g.operator? x = some op' := by
  rw [withCopies_of_lt hx] at hop'
  split at hop'
  · cases hop'
  · next hne => exact ⟨hne, hop'⟩

/-- What is new is a copy. -/
theorem new_of_copies (hsane : g.Sane) (hx : ¬ (x : Nat) < g.slots.length)
    (hop' : (if x = u then none else withCopies g.operator? g.slots.length count op x) = some op') :
    op' = op := by
  split at hop'
  · cases hop'
  · unfold withCopies at hop'
    split at hop'
    · exact (Option.some.inj hop').symm
    · exact absurd (hsane.lt hop') hx

/-- An operator reads what stands for one of its old inputs. It is none of those that may only read
the root or operators that remove duplicates, and what it reads is new or has been read by the
filter. -/
structure Moved (g : Graph γ) (u : OperatorId) (Stands : OperatorId → OperatorId → Prop)
    (x : OperatorId) (i : Input) : Prop where
  plain : ∃ op, g.operator? x = some op ∧ op.kind ∉ [Kind.scan, .probe, .replaceVar]
  source : (i.source : Nat) < g.slots.length → ∃ j, g.Reads u j ∧ j.source = i.source
  stands : ∃ j, g.Reads x j ∧ j.operand = i.operand ∧ j.feedback = i.feedback ∧
    Stands i.source j.source

/-- A regular graph in which copies of a filter have taken its place. Each copy has the shape of the
old operator that it reads, and old operators read what stands for their inputs. -/
structure Copied (g g' : Graph γ) (shapes shapes' : Shapes) (u : OperatorId) (op : Operator γ)
    (count : Nat) (Stands : OperatorId → OperatorId → Prop) : Prop where
  before : g.Regular false shapes
  sane : g.Sane
  operator : g.operator? u = some op
  filters : Filters op
  linked : g'.Linked
  operators : ∀ x, g'.operator? x =
    if x = u then none else withCopies g.operator? g.slots.length count op x
  shape_old : ∀ x : OperatorId, (x : Nat) < g.slots.length → shapes' x = shapes x
  /-- Each operand that has been fed stays fed. -/
  kept : ∀ x i, (x : Nat) < g.slots.length → x ≠ u → g.Reads x i →
    ∃ j, g'.Reads x j ∧ j.operand = i.operand
  stands_self : ∀ a : OperatorId, (a : Nat) < g.slots.length → Stands a a
  stands_old : ∀ a b : OperatorId, (a : Nat) < g.slots.length → Stands a b → g.InPlaceOf u a b
  stands_new : ∀ n b : OperatorId, ¬ (n : Nat) < g.slots.length → Stands n b →
    shapes' n = shapes b ∧ ∀ i, g'.Reads n i → g.InPlaceOf u i.source b
  reads_old : ∀ x i, (x : Nat) < g.slots.length → g'.Reads x i →
    (g.Reads x i ∧ (i.source : Nat) < g.slots.length) ∨ g.Moved u Stands x i
  /-- Copies read forward, and from where operators have read that keep duplicates. -/
  reads_new : ∀ n i, ¬ (n : Nat) < g.slots.length → g'.Reads n i →
    i.feedback = false ∧ (i.source : Nat) < g.slots.length ∧
      (∀ D, shapes' n = some D → shapes i.source = some D) ∧
      ∃ y op j, g.operator? y = some op ∧ op.kind ∉ Operator.deduplicating ∧ g.Reads y j ∧
        j.source = i.source

namespace Copied

variable {Stands : OperatorId → OperatorId → Prop} {a b : OperatorId}
  (h : g.Copied g' shapes shapes' u op count Stands)

include h

theorem old (hx : (x : Nat) < g.slots.length) (hop : g'.operator? x = some op') :
    x ≠ u ∧ g.operator? x = some op' :=
  old_of_copies hx ((h.operators x).symm.trans hop)

theorem new (hx : ¬ (x : Nat) < g.slots.length) (hop : g'.operator? x = some op') : op' = op :=
  new_of_copies h.sane hx ((h.operators x).symm.trans hop)

theorem operator_root : g'.operator? Graph.root = some .root := by
  have hroot := h.before.ne_root h.operator (h.filters.kind_ne (by decide))
  rw [h.operators, if_neg hroot.symm, withCopies_of_lt h.sane.root_lt]
  exact h.before.root

theorem front_ne (hfront : g'.operator? front ≠ none) : u ≠ front := by
  rintro rfl
  exact hfront (by rw [h.operators, if_pos rfl])

theorem operator_none (hn : ¬ (n : Nat) < g.slots.length) : g.operator? n = none :=
  h.sane.wired.eq_none_of_le (Nat.not_lt.1 hn)

/-- An old operator reads in the place of each of its inputs. -/
theorem exists_reads (hx : (x : Nat) < g.slots.length) (hi : g'.Reads x i) :
    ∃ j, g.Reads x j ∧ j.operand = i.operand ∧ j.feedback = i.feedback ∧
      Stands i.source j.source := by
  rcases h.reads_old x i hx hi with ⟨hi, hlt⟩ | hmoved
  · exact ⟨i, hi, rfl, rfl, h.stands_self _ hlt⟩
  · exact hmoved.stands

/-- Operators of some kinds read nothing that has been moved. -/
theorem reads_of_kind (hx : (x : Nat) < g.slots.length) (hop : g'.operator? x = some op')
    (hkind : op'.kind ∈ [Kind.scan, .probe, .replaceVar]) (hi : g'.Reads x i) : g.Reads x i := by
  rcases h.reads_old x i hx hi with ⟨hi, -⟩ | hmoved
  · exact hi
  · obtain ⟨op₁, hop₁, hnot⟩ := hmoved.plain
    obtain rfl := Option.some.inj ((h.old hx hop).2.symm.trans hop₁)
    exact absurd hkind hnot

/-- Renamings read what they have read. -/
theorem renamed (hop : g'.operator? x = some op') (hkind : op'.kind = .replaceVar)
    (hi : g'.Reads x i) : g.Reads x i := by
  by_cases hx : (x : Nat) < g.slots.length
  · exact h.reads_of_kind hx hop (by simp [hkind]) hi
  · exact absurd (h.new hx hop ▸ hkind) (h.filters.kind_ne (by decide))

/-- What stands in for an operator has the shape of it. -/
theorem stands_shape (hab : Stands a b) {D : VarSet} (hD : shapes b = some D) :
    shapes' a = some D := by
  by_cases ha : (a : Nat) < g.slots.length
  · rw [h.shape_old a ha]
    exact h.before.shape_of_inPlaceOf h.operator h.filters.relaying (h.stands_old a b ha hab) hD
  · exact (h.stands_new a b ha hab).1.trans hD

/-- A feedback edge leads to an old operator, and stands for one that was there. -/
theorem back (hi : g'.Reads x i) (hf : i.feedback = true) : (x : Nat) < g.slots.length ∧
    ∃ j, g.Reads x j ∧ j.feedback = true ∧ Stands i.source j.source := by
  by_cases hx : (x : Nat) < g.slots.length
  · obtain ⟨j, hj, -, hfeedback, hstands⟩ := h.exists_reads hx hi
    exact ⟨hx, j, hj, hfeedback.trans hf, hstands⟩
  · exact absurd ((h.reads_new x i hx hi).1.symm.trans hf) Bool.noConfusion

/-- Who reads a union that is read back has read it before. -/
theorem loopUnion (hunion : g.operator? x = some .union) (hi : g.Reads x i)
    (hf : i.feedback = true) {t : OperatorId} {j : Input} (hj : g'.Reads t j)
    (hsource : j.source = x) : g.Reads t j := by
  subst hsource
  by_cases ht : (t : Nat) < g.slots.length
  · rcases h.reads_old t j ht hj with ⟨hj, -⟩ | hmoved
    · exact hj
    · obtain ⟨k, hk, hsource⟩ := hmoved.source (h.sane.lt hunion)
      rw [← hsource] at hunion hi
      exact (h.before.not_loop_of_reads hk h.operator h.filters.not_deduplicating hunion hi hf).elim
  · obtain ⟨-, -, -, y, opY, k, hop, hkind, hk, hsource⟩ := h.reads_new t j ht hj
    rw [← hsource] at hunion hi
    exact (h.before.not_loop_of_reads hk hop hkind hunion hi hf).elim

/-- A copy with a shape is settled by the shape of the input that it reads. -/
theorem settled (hn : ¬ (n : Nat) < g.slots.length) {D : VarSet} (hD : shapes' n = some D) :
    g'.Settled shapes' n op D := by
  refine (settled_relaying h.filters.relaying).2 fun i hi => ?_
  obtain ⟨-, hlt, hshape, -⟩ := h.reads_new n i hn hi
  exact (h.shape_old _ hlt).trans (hshape D hD)

/-- A copy waits for what it reads, as what it stands for has done. -/
theorem waiting (hgate : g.Gate shapes S front) (hfront : g'.operator? front ≠ none) (hb : S b)
    (hab : Stands n b) (hn : ¬ (n : Nat) < g.slots.length) :
    g'.Waiting shapes' (fun a => ∃ b, S b ∧ Stands a b) n := by
  obtain ⟨hshape, hreads⟩ := h.stands_new n b hn hab
  refine ⟨hshape ▸ hgate.shape_of_mem hb, fun op' hop => ?_⟩
  obtain rfl := h.new hn hop
  refine (waitsFor_relaying h.filters.relaying).2 fun i hi => ⟨i.source, ?_, ?_⟩
  · exact hgate.mem_of_inPlaceOf h.operator h.filters.relaying (h.front_ne hfront) (hreads i hi) hb
  · exact h.stands_self _ (h.reads_new n i hn hi).2.1

/-- A filter may make place for copies. -/
theorem regular : g'.Regular false shapes' := by
  refine Recast.regular (show g.Recast g' shapes shapes' Stands
      (fun x => ¬ (x : Nat) < g.slots.length) from
    { linked := h.linked
      root := h.operator_root
      root_old := not_not.2 h.sane.root_lt
      old := fun x op' hx hop => ⟨op', (h.old (not_not.1 hx) hop).2, .same op'⟩
      shape := fun x hx => h.shape_old x (not_not.1 hx)
      reads := fun x i hx hi => ?reads
      kept := fun x _ i hx hop _ hi => h.kept x i (not_not.1 hx) (h.old (not_not.1 hx) hop).1 hi
      sources := fun _ _ _ hx hop hkind hi => ?sources
      stands_self := fun a ha => h.stands_self a (not_not.1 ha)
      stands_shape := fun _ _ _ hab hD => h.stands_shape hab hD
      stands_old := fun S front a b hgate hfront hb hab ha => ?gate
      back := fun _ _ hi hf => .inl ((h.back hi hf).imp_left not_not.2)
      renamed := fun _ _ _ hop hkind hi => h.renamed hop hkind hi
      loopUnion := fun _ _ hunion hi hf _ _ hj hsource => h.loopUnion hunion hi hf hj hsource
      fresh := fun n hn => h.operator_none hn
      fresh_kind := fun n op' hn hop => ?kind
      fresh_settled := fun n op' D hn hop hD => h.new hn hop ▸ h.settled hn hD
      fresh_scan := fun n op' hn hop hscan => ?scan
      fresh_waits := fun _ _ _ _ hgate hfront hb hab hn => h.waiting hgate hfront hb hab hn })
        h.before
  case reads =>
    obtain ⟨j, hj, hoperand, -, hstands⟩ := h.exists_reads (not_not.1 hx) hi
    exact ⟨j, hj, hoperand, hstands⟩
  case sources =>
    exact h.reads_of_kind (not_not.1 hx) hop (List.mem_append_left [Kind.replaceVar] hkind) hi
  case gate =>
    exact hgate.mem_of_inPlaceOf h.operator h.filters.relaying (h.front_ne hfront)
      (h.stands_old a b (not_not.1 ha) hab) hb
  case kind =>
    rw [h.new hn hop]
    rcases List.mem_pair.1 h.filters.1 with he | he <;> simp [he]
  case scan =>
    exact absurd (h.new hn hop ▸ hscan) (h.filters.kind_ne (by decide))

end Copied

/-- What reads an operator that keeps duplicates is no renaming, and reads no scan or probe. -/
theorem Regular.exists_plain (h : g.Regular false shapes) (hop : g.operator? i.source = some op)
    (hroot : op.kind ≠ .root) (hkind : op.kind ∉ Operator.deduplicating) (hi : g.Reads x i) :
    ∃ op', g.operator? x = some op' ∧ op'.kind ∉ [Kind.scan, .probe, .replaceVar] := by
  obtain ⟨op', hop'⟩ := exists_operator?_of_reads h.linked hi
  have hsource := h.not_source_of_reads hop hroot hi hop'
  have hrenaming := h.not_renaming_of_reads hop hkind hi hop'
  refine ⟨op', hop', fun hmem => ?_⟩
  simp only [List.mem_cons, List.not_mem_nil, or_false] at hmem hsource
  rcases hmem with he | he | he
  · exact hsource (.inl he)
  · exact hsource (.inr he)
  · exact hrenaming he

/-! ## A copy for each input -/

/-- A regular graph in which copies for its inputs have taken the place of a filter. -/
structure Distributing (g g' : Graph γ) (shapes : Shapes) (u : OperatorId) (op : Operator γ) :
    Prop where
  regular : g.Regular false shapes
  sane : g.Sane
  site : g.DistributeSite u op
  wired : g'.Wired (g.slots.length + (g.inputs u).length)
    (fun x => if x = u then none
      else withCopies g.operator? g.slots.length (g.inputs u).length op x)
    (distributedReads g.Reads g.slots.length u ((g.inputs u).map Input.source))

namespace Distributing

/-- Copies play the part of the filter. -/
def part (g : Graph γ) (u x : OperatorId) : OperatorId :=
  if (x : Nat) < g.slots.length then x else u

theorem part_of_lt (hx : (x : Nat) < g.slots.length) : part g u x = x := if_pos hx

theorem part_of_not_lt (hx : ¬ (x : Nat) < g.slots.length) : part g u x = u := if_neg hx

variable (h : g.Distributing g' shapes u op)

include h

/-- Each copy reads a producer of the filter. -/
theorem exists_input {s : OperatorId}
    (hx : CopyOf g.slots.length ((g.inputs u).map Input.source) x s) :
    ¬ (x : Nat) < g.slots.length ∧ ∃ i, g.Reads u i ∧ i.source = s := by
  obtain ⟨i, hi, rfl⟩ := List.mem_map.1 hx.mem
  exact ⟨Nat.not_lt.2 hx.bounds.1, i, h.regular.linked.mem_inputs.1 hi, rfl⟩

/-- A copy reads forward what the filter has read. -/
theorem reads_copy (hx : ¬ (x : Nat) < g.slots.length) (hi : g'.Reads x i) :
    i.feedback = false ∧ ∃ j, g.Reads u j ∧ j.source = i.source := by
  rcases (h.wired.reads x i).1 hi with ⟨hi, -⟩ | ⟨s, hs, rfl⟩ | ⟨s, -, hi⟩
  · exact absurd (h.sane.lt_of_reads hi).1 hx
  · exact ⟨rfl, (h.exists_input hs).2⟩
  · exact absurd (h.sane.lt_of_reads hi).1 hx

/-- Others read what they have read, or copies in the place of the filter. -/
theorem reads_cases (hx : (x : Nat) < g.slots.length) (hi : g'.Reads x i) :
    (g.Reads x i ∧ (i.source : Nat) < g.slots.length) ∨
      (¬ (i.source : Nat) < g.slots.length ∧ g.Reads x ⟨u, i.operand, i.feedback⟩) := by
  rcases (h.wired.reads x i).1 hi with ⟨hi, -⟩ | ⟨s, hs, -⟩ | ⟨s, hs, hi⟩
  · exact .inl ⟨hi, (h.sane.lt_of_reads hi).2⟩
  · exact absurd hx (h.exists_input hs).1
  · exact .inr ⟨(h.exists_input hs).1, hi⟩

/-- An operator that stays is read on all operands on which it was read. -/
theorem kept (hxu : x ≠ u) (hi : g.Reads x i) : ∃ j, g'.Reads x j ∧ j.operand = i.operand := by
  obtain ⟨source, operand, f⟩ := i
  by_cases hu : source = u
  · subst hu
    obtain ⟨j, hj⟩ := List.exists_mem_of_length_pos (Nat.lt_of_lt_of_le Nat.two_pos h.site.many)
    obtain ⟨n, hn⟩ := exists_copyOf g.slots.length (List.mem_map_of_mem (f := Input.source) hj)
    exact ⟨⟨n, operand, f⟩, (h.wired.reads _ _).2 (.inr (.inr ⟨_, hn, hi⟩)), rfl⟩
  · exact ⟨⟨source, operand, f⟩, (h.wired.reads _ _).2 (.inl ⟨hi, hxu, hu⟩), rfl⟩

/-- An edge from a copy stands for an edge from the filter. -/
theorem moved (hlt : ¬ (i.source : Nat) < g.slots.length)
    (hi : g.Reads x ⟨u, i.operand, i.feedback⟩) : g.Moved u (fun a b => part g u a = b) x i where
  plain := h.regular.exists_plain h.site.operator (h.site.filters.kind_ne (by decide))
    h.site.filters.not_deduplicating hi
  source hs := absurd hs hlt
  stands := ⟨_, hi, rfl, rfl, part_of_not_lt hlt⟩

/-- A filter may be replaced by one copy for each of its inputs. -/
theorem copied : g.Copied g' shapes (fun x => shapes (part g u x)) u op (g.inputs u).length
    fun a b => part g u a = b where
  before := h.regular
  sane := h.sane
  operator := h.site.operator
  filters := h.site.filters
  linked := h.wired.linked
  operators := h.wired.operator?
  shape_old x hx := congrArg shapes (part_of_lt hx)
  kept x i _ hxu hi := h.kept hxu hi
  stands_self a ha := part_of_lt ha
  stands_old a b ha hab := .inl ((part_of_lt ha).symm.trans hab)
  stands_new n b hn hab := by
    obtain rfl := (part_of_not_lt hn).symm.trans hab
    exact ⟨congrArg shapes hab, fun i hi => .inr ⟨rfl, (h.reads_copy hn hi).2⟩⟩
  reads_old x i hx hi := (h.reads_cases hx hi).imp_right fun hi => h.moved hi.1 hi.2
  reads_new n i hn hi := by
    obtain ⟨hforward, j, hj, hsource⟩ := h.reads_copy hn hi
    refine ⟨hforward, hsource ▸ (h.sane.lt_of_reads hj).2, fun D hD => ?_, u, op, j,
      h.site.operator, h.site.filters.not_deduplicating, hj, hsource⟩
    rw [part_of_not_lt hn] at hD
    exact hsource ▸ (settled_relaying h.site.filters.relaying).1
      (h.regular.settled u op D h.site.operator hD) j hj

end Distributing

/-! ## Copies below another operator -/

/-- A regular graph in which copies of a filter, on some of the edges to the operator below it, have
taken its place. -/
structure Lowering (g g' : Graph γ) (shapes : Shapes) (u below : OperatorId) (op : Operator γ)
    (l : List Input) : Prop where
  regular : g.Regular false shapes
  sane : g.Sane
  site : g.LowerSite u below op l
  wired : g'.Wired (g.slots.length + l.length)
    (fun x => if x = u then none else withCopies g.operator? g.slots.length l.length op x)
    (loweredReads g.Reads g.slots.length u below l)

namespace Lowering

variable {below a : OperatorId} {l : List Input} {j : Input}

/-- The operator below the filter stands for it, and a copy stands for what it reads. All others
stand for themselves. -/
def Stands (g : Graph γ) (u below : OperatorId) (l : List Input) (a b : OperatorId) : Prop :=
  (a = b ∧ (a : Nat) < g.slots.length) ∨ (b = u ∧ a = below) ∨
    ∃ j, CopyOf g.slots.length l a j ∧ b = j.source

/-- The shapes where each copy has that of what it reads. -/
def shapesAfter (g : Graph γ) (shapes : Shapes) (l : List Input) (x : OperatorId) :
    Option VarSet :=
  if (x : Nat) < g.slots.length then shapes x
  else l[x - g.slots.length]?.bind fun j => shapes j.source

theorem not_lt_of_copyOf (hx : CopyOf g.slots.length l x j) : ¬ (x : Nat) < g.slots.length :=
  Nat.not_lt.2 hx.bounds.1

/-- Old operators keep their shapes. -/
theorem shapesAfter_of_lt (hx : (x : Nat) < g.slots.length) : shapesAfter g shapes l x = shapes x :=
  if_pos hx

/-- A copy gets the shape of what it reads. -/
theorem shapesAfter_of_copyOf (hx : CopyOf g.slots.length l x j) :
    shapesAfter g shapes l x = shapes j.source := by
  refine (if_neg (not_lt_of_copyOf hx)).trans ?_
  obtain ⟨k, hk, rfl⟩ := hx
  rw [Nat.add_sub_cancel_left, hk]
  rfl

variable (h : g.Lowering g' shapes u below op l)

include h

/-- The filter reads the operator below. -/
theorem exists_read : ∃ k, g.Reads u ⟨below, k, false⟩ := by
  obtain ⟨i, hread, hsource, hf, -⟩ := h.site.input_eq h.sane.linked
  have hi : i = ⟨below, i.operand, false⟩ := Input.eq_iff.2 ⟨hsource, rfl, hf⟩
  exact ⟨i.operand, hi ▸ (hread i).2 rfl⟩

theorem below_lt : (below : Nat) < g.slots.length := by
  obtain ⟨k, hread⟩ := h.exists_read
  exact (h.sane.lt_of_reads hread).2

/-- The operator below a lowered filter removes no duplicates, and is no source or renaming. -/
theorem exists_below : ∃ op, g.operator? below = some op ∧
    op.kind ∉ Operator.deduplicating ∧ op.kind ∉ [Kind.scan, .probe, .replaceVar] := by
  obtain ⟨op, hmem, hop⟩ := h.site.exists_below
  refine ⟨op, hop, ?_⟩
  simp only [List.mem_cons, List.not_mem_nil, or_false] at hmem
  rcases hmem with rfl | rfl | rfl <;> simp [Operator.kind, Operator.deduplicating]

theorem reads_below (hx : CopyOf g.slots.length l x j) : g.Reads below j :=
  (h.site.reads h.sane.linked hx.mem).1

/-- A copy reads what the operator below has read. -/
theorem reads_copy (hx : ¬ (x : Nat) < g.slots.length) (hi : g'.Reads x i) :
    ∃ j, CopyOf g.slots.length l x j ∧ i = ⟨j.source, 0, false⟩ := by
  rcases (h.wired.reads x i).1 hi with ⟨hi, -⟩ | hcopied | ⟨rfl, -⟩ | ⟨-, hi⟩
  · exact absurd (h.sane.lt_of_reads hi).1 hx
  · exact hcopied
  · exact absurd h.below_lt hx
  · exact absurd (h.sane.lt_of_reads hi).1 hx

/-- The operator below reads copies in the place of some inputs, and is itself read in the place of
the filter. -/
theorem reads_cases (hx : (x : Nat) < g.slots.length) (hi : g'.Reads x i) :
    (g.Reads x i ∧ (i.source : Nat) < g.slots.length) ∨
      (x = below ∧ ∃ j, CopyOf g.slots.length l i.source j ∧ i.operand = j.operand ∧
        i.feedback = j.feedback) ∨
        (i.source = below ∧ g.Reads x ⟨u, i.operand, i.feedback⟩) := by
  rcases (h.wired.reads x i).1 hi with ⟨hi, -⟩ | ⟨j, hj, -⟩ | hcopied | hlowered
  · exact .inl ⟨hi, (h.sane.lt_of_reads hi).2⟩
  · exact absurd hx (not_lt_of_copyOf hj)
  · exact .inr (.inl hcopied)
  · exact .inr (.inr hlowered)

theorem kept (hxu : x ≠ u) (hi : g.Reads x i) : ∃ j, g'.Reads x j ∧ j.operand = i.operand := by
  obtain ⟨source, operand, f⟩ := i
  by_cases hu : source = u
  · subst hu
    exact ⟨⟨below, operand, f⟩, (h.wired.reads _ _).2 (.inr (.inr (.inr ⟨rfl, hi⟩))), rfl⟩
  by_cases hcut : x = below ∧ ∃ j ∈ l, j.source = source
  · obtain ⟨rfl, j, hj, hs⟩ := hcut
    obtain ⟨hread, hfeeds⟩ := h.site.reads h.sane.linked hj
    obtain ⟨-, rfl⟩ := eq_of_feedsOnly hfeeds hread hi hs.symm
    obtain ⟨n, hn⟩ := exists_copyOf g.slots.length hj
    exact ⟨⟨n, operand, f⟩,
      (h.wired.reads _ _).2 (.inr (.inr (.inl ⟨rfl, _, hn, rfl, rfl⟩))), rfl⟩
  · exact ⟨⟨source, operand, f⟩, (h.wired.reads _ _).2 (.inl ⟨hi, hxu, hu, hcut⟩), rfl⟩

/-- The operator below reads a copy in the place of an input. -/
theorem moved_of_copyOf (hj : CopyOf g.slots.length l i.source j) (hoperand : i.operand = j.operand)
    (hfeedback : i.feedback = j.feedback) : g.Moved u (Stands g u below l) below i where
  plain := by
    obtain ⟨op, hop, -, hkind⟩ := h.exists_below
    exact ⟨op, hop, hkind⟩
  source hlt := absurd hlt (not_lt_of_copyOf hj)
  stands := ⟨j, h.reads_below hj, hoperand.symm, hfeedback.symm, .inr (.inr ⟨j, hj, rfl⟩)⟩

/-- Who has read the filter reads the operator below. -/
theorem moved_of_reads (hs : i.source = below) (hi : g.Reads x ⟨u, i.operand, i.feedback⟩) :
    g.Moved u (Stands g u below l) x i where
  plain := h.regular.exists_plain h.site.operator (h.site.filters.kind_ne (by decide))
    h.site.filters.not_deduplicating hi
  source _ := by
    obtain ⟨k, hread⟩ := h.exists_read
    exact ⟨_, hread, hs.symm⟩
  stands := ⟨_, hi, rfl, rfl, .inr (.inl ⟨rfl, hs⟩)⟩

/-- What stands in for an operator is in its place. -/
theorem inPlaceOf (ha : (a : Nat) < g.slots.length) {b : OperatorId}
    (hab : Stands g u below l a b) : g.InPlaceOf u a b := by
  rcases hab with ⟨rfl, -⟩ | ⟨rfl, rfl⟩ | ⟨j, hj, -⟩
  · exact .inl rfl
  · obtain ⟨k, hread⟩ := h.exists_read
    exact .inr ⟨rfl, _, hread, rfl⟩
  · exact absurd ha (not_lt_of_copyOf hj)

/-- A filter may move below the operator that it reads, onto some of the edges to it. -/
theorem copied : g.Copied g' shapes (shapesAfter g shapes l) u op l.length
    (Stands g u below l) where
  before := h.regular
  sane := h.sane
  operator := h.site.operator
  filters := h.site.filters
  linked := h.wired.linked
  operators := h.wired.operator?
  shape_old _ hx := shapesAfter_of_lt hx
  kept x i _ hxu hi := h.kept hxu hi
  stands_self a ha := .inl ⟨rfl, ha⟩
  stands_old a b ha hab := h.inPlaceOf ha hab
  stands_new n b hn hab := by
    rcases hab with ⟨-, hlt⟩ | ⟨-, rfl⟩ | ⟨j, hj, rfl⟩
    · exact absurd hlt hn
    · exact absurd h.below_lt hn
    · refine ⟨shapesAfter_of_copyOf hj, fun i hi => .inl ?_⟩
      obtain ⟨j', hj', rfl⟩ := h.reads_copy hn hi
      obtain rfl := hj'.unique hj
      rfl
  reads_old x i hx hi := by
    rcases h.reads_cases hx hi with hi | ⟨rfl, j, hj, hoperand, hfeedback⟩ | ⟨hs, hi⟩
    · exact .inl hi
    · exact .inr (h.moved_of_copyOf hj hoperand hfeedback)
    · exact .inr (h.moved_of_reads hs hi)
  reads_new n i hn hi := by
    obtain ⟨j, hj, rfl⟩ := h.reads_copy hn hi
    obtain ⟨opB, hopB, hkind, -⟩ := h.exists_below
    have hread := h.reads_below hj
    exact ⟨rfl, (h.sane.lt_of_reads hread).2, fun D hD => (shapesAfter_of_copyOf hj).symm.trans hD,
      below, opB, j, hopB, hkind, hread, rfl⟩

end Lowering

end Graph

end QuadAlgebra
