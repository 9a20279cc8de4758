import QuadAlgebra.Proofs.Agreement.Copies

/-!
# Mirrors with filters below others

A filter that moves below a join, a union or an optional pattern leaves this operator in its place:
that now has the rows that the filter had, so it plays the part of the filter, and the copies on the
edges to it play its own part (`Graph.Traced.lowered`). Below joins and optional patterns the rows
have to bind what their operators are certain to bind (`Graph.Binds`).
-/

namespace QuadAlgebra

open List (Perm)

namespace Graph

/-- A graph of a query in which copies below an operator have taken the place of the filter above
it. -/
structure Sinking (g g' : Graph Plan) (shapes : Shapes) (u below : OperatorId)
    (op : Operator Plan) (l : List Input) : Prop extends g.Lowering g' shapes u below op l where
  symmetric : g.Symmetric
  symmetric' : g'.Symmetric

namespace Sinking

section Edges

variable {g g' : Graph Plan} {shapes : Shapes} {u below x : OperatorId}
  {op op' : Operator Plan} {l : List Input} {i : Input}

/-- The operator below plays the part of the filter, and copies play its part. -/
def part (g : Graph Plan) (u below x : OperatorId) : OperatorId :=
  if x = below then u else if (x : Nat) < g.slots.length then x else below

/-- The operator below plays the part of the filter. -/
theorem part_below : part g u below below = u := if_pos rfl

/-- An old operator plays its own part. -/
theorem part_of_lt (hne : x ≠ below) (hx : (x : Nat) < g.slots.length) : part g u below x = x := by
  rw [part, if_neg hne, if_pos hx]

/-- A copy plays the part of the operator below. -/
theorem part_of_not_lt (hne : x ≠ below) (hx : ¬ (x : Nat) < g.slots.length) :
    part g u below x = below := by
  rw [part, if_neg hne, if_neg hx]

theorem not_copy_lt : ¬ (copyAt g.slots.length l i : Nat) < g.slots.length :=
  Nat.not_lt.2 (Nat.le_add_right _ _)

/-- Where the edge onto `x` comes from: it has stayed as it was; or it leads to a copy, as an edge
to the operator below did; or it leads from a copy to the operator below, and the filter is what has
read this one; or it starts at the operator below instead of the filter. -/
def Origin (g : Graph Plan) (u below : OperatorId) (l : List Input) (x : OperatorId) (i : Input)
    (y : OperatorId) (j : Input) : Prop :=
  (y = x ∧ j = i ∧ x ≠ u ∧ i.source ≠ below ∧ (x = below → i ∉ l)) ∨
  (y = below ∧ j ∈ l ∧ x = copyAt g.slots.length l j ∧ i = ⟨j.source, 0, false⟩) ∨
  (y = u ∧ ∃ k ∈ l, x = below ∧ i = ⟨copyAt g.slots.length l k, k.operand, k.feedback⟩) ∨
    (y = x ∧ j = ⟨u, i.operand, i.feedback⟩ ∧ x ≠ u ∧ x ≠ below ∧ i.source = below)

variable (h : g.Sinking g' shapes u below op l)

include h

/-- Copies stand on edges that are recorded once. -/
theorem nodup : l.Nodup := by
  rw [h.site.targets]
  exact (h.symmetric.inputs_spec below).1.filter _

theorem reads (hi : i ∈ l) : g.Reads below i := (h.site.reads h.sane.linked hi).1

/-- The filter reads the operator below, and nothing else does. -/
theorem exists_input : ∃ k, g.inputs u = [⟨below, k, false⟩] ∧
    (∀ x j, g.Reads x j → j.source = below → x = u ∧ j = ⟨below, k, false⟩) ∧
      ∀ j, g.Reads u j ↔ j = ⟨below, k, false⟩ := by
  obtain ⟨i, hread, hsource, hf, honly⟩ := h.site.input_eq h.sane.linked
  have he : i = ⟨below, i.operand, false⟩ := Input.eq_iff.2 ⟨hsource, rfl, hf⟩
  exact ⟨i.operand, he ▸ h.symmetric.inputs_eq_singleton hread, he ▸ honly, he ▸ hread⟩

/-- The filter is the only one that reads the operator below. -/
theorem reader_of_below (hi : g.Reads x i) (hs : i.source = below) : x = u := by
  obtain ⟨_, -, honly, -⟩ := h.exists_input
  exact (honly x i hi hs).1

theorem below_ne : below ≠ u := by
  obtain ⟨k, hread⟩ := h.exists_read
  exact h.sane.source_ne hread rfl

theorem copy_ne_below (i : Input) : copyAt g.slots.length l i ≠ below := fun he =>
  not_copy_lt (he.symm ▸ h.below_lt : (copyAt g.slots.length l i : Nat) < g.slots.length)

/-- The operator below stands on no loop of its own. -/
theorem forward (hi : g.Reads below i) : i.feedback = false := by
  obtain ⟨k, hread⟩ := h.exists_read
  obtain ⟨opB, hmem, hopB⟩ := h.site.exists_below
  simp only [List.mem_cons, List.not_mem_nil, or_false] at hmem
  rcases hmem with rfl | rfl | rfl
  · exact h.regular.toShaped.forward_of_kind .join hopB rfl (by decide) hi
  · by_contra hf
    exact h.regular.not_loop_of_reads hread h.site.operator h.site.filters.not_deduplicating hopB hi
      (by simpa using hf)
  · exact h.regular.toShaped.forward_of_kind .optional hopB rfl (by decide) hi

/-- In each round the operator below reads what others have in the same one. -/
theorem over_below (E : History) (n : Nat) (hi : g.Reads below i) :
    E.over n i = E (n + 1) i.source := by
  rw [History.over, h.forward hi]
  rfl

theorem source_ne_below (hi : g.Reads below i) : i.source ≠ below := fun hs =>
  h.below_ne (h.reader_of_below hi hs)

/-- The operator below does not read the filter. -/
theorem source_ne (hi : g.Reads below i) : i.source ≠ u := by
  obtain ⟨k, hread⟩ := h.exists_read
  obtain ⟨rank, hrank⟩ := h.sane.ascends
  intro hs
  have hup := hrank below i hi (h.forward hi)
  rw [hs] at hup
  exact absurd (hup.trans (hrank u _ hread rfl)) (Nat.lt_irrefl _)

/-- Copies stand on all edges from the same producer or on none of them. -/
theorem mem_iff (hi : g.Reads below i) : i ∈ l ↔ ∃ k ∈ l, k.source = i.source := by
  refine ⟨fun hl => ⟨i, hl, rfl⟩, fun ⟨k, hk, hs⟩ => ?_⟩
  obtain ⟨hread, hfeeds⟩ := h.site.reads h.sane.linked hk
  exact (eq_of_feedsOnly hfeeds hread hi hs.symm).2 ▸ hk

/-- Copies stand on some edges to the operator below, who is read in the place of the filter. -/
theorem reads_cases (hi : g'.Reads x i) :
    (∃ k ∈ l, x = copyAt g.slots.length l k ∧ i = ⟨k.source, 0, false⟩) ∨
    (∃ k ∈ l, x = below ∧ i = ⟨copyAt g.slots.length l k, k.operand, k.feedback⟩) ∨
    (g.Reads x i ∧ x ≠ u ∧ i.source ≠ u ∧ i.source ≠ below ∧ (x = below → i ∉ l)) ∨
      (g.Reads x ⟨u, i.operand, i.feedback⟩ ∧ x ≠ u ∧ x ≠ below ∧ i.source = below) := by
  rcases (h.wired.reads x i).1 hi with ⟨hi, hx, hs, hnot⟩ | ⟨k, hk, rfl⟩ |
    ⟨hx, k, hk, hoperand, hf⟩ |
    ⟨hs, hi⟩
  · refine .inr (.inr (.inl ⟨hi, hx, hs, fun hs => hx (h.reader_of_below hi hs), ?_⟩))
    rintro rfl hl
    exact hnot ⟨rfl, i, hl, rfl⟩
  · obtain ⟨hmem, rfl⟩ := (copyOf_iff h.nodup).1 hk
    exact .inl ⟨k, hmem, rfl, rfl⟩
  · obtain ⟨hmem, hs⟩ := (copyOf_iff h.nodup).1 hk
    exact .inr (.inl ⟨k, hmem, hx, Input.eq_iff.2 ⟨hs, hoperand, hf⟩⟩)
  · refine .inr (.inr (.inr ⟨hi, ?_, ?_, hs⟩))
    · rintro rfl
      obtain ⟨k, -, -, hread⟩ := h.exists_input
      exact h.below_ne (congrArg Input.source ((hread _).1 hi)).symm
    · rintro rfl
      exact h.source_ne hi rfl

/-- The operators that were there, apart from the filter, are still there. -/
theorem operator_old (hx : (x : Nat) < g.slots.length) (hop : g'.operator? x = some op') :
    x ≠ u ∧ g.operator? x = some op' := old_of_copies hx ((h.wired.operator? x).symm.trans hop)

/-- What is new is a copy of the filter. -/
theorem operator_new (hx : ¬ (x : Nat) < g.slots.length) (hop : g'.operator? x = some op') :
    op' = op ∧ ∃ i ∈ l, x = copyAt g.slots.length l i := by
  refine ⟨new_of_copies h.sane hx ((h.wired.operator? x).symm.trans hop), ?_⟩
  have hlt : (x : Nat) < g.slots.length + l.length := h.wired.lt_of_ne_none (by
    rw [← h.wired.operator?, hop]
    exact Option.some_ne_none _)
  obtain ⟨i, hi⟩ := exists_of_copy_bounds (l := l) (Nat.not_lt.1 hx) hlt
  exact ⟨i, (copyOf_iff h.nodup).1 hi⟩

/-- What reads now and was there before is the same operator. -/
theorem exists_old (hi : g'.Reads x i) (hx : (x : Nat) < g.slots.length) :
    ∃ op', g.operator? x = some op' ∧ g'.operator? x = some op' := by
  obtain ⟨op', hop⟩ := exists_operator?_of_reads h.wired.linked hi
  exact ⟨op', (h.operator_old hx hop).2, hop⟩

/-- The operator below spreads its rows over operands. -/
theorem exists_below : ∃ opB, g.operator? below = some opB ∧ opB.kind ∈ spread ∧ opB.Steadfast ∧
    opB.kind ∉ Operator.deduplicating ++ [.result, .limit, .scan, .probe, .service, .root] := by
  obtain ⟨opB, hmem, hopB⟩ := h.site.exists_below
  simp only [List.mem_cons, List.not_mem_nil, or_false] at hmem
  refine ⟨opB, hopB, ?_⟩
  rcases hmem with rfl | rfl | rfl <;>
    exact ⟨by simp [spread, Operator.kind], trivial,
      by simp [Operator.kind, Operator.deduplicating]⟩

/-- A copy reads the producer at the other end of its edge. -/
theorem inputs_copy (hi : i ∈ l) :
    g'.inputs (copyAt g.slots.length l i) = [⟨i.source, 0, false⟩] := by
  refine h.symmetric'.inputs_eq_singleton fun j => ⟨fun hj => ?_, ?_⟩
  · rcases h.reads_cases hj with ⟨k, hk, he, rfl⟩ | ⟨k, -, he, -⟩ | ⟨hj, -⟩ | ⟨hj, -⟩
    · rw [copyAt_inj hi he]
    · exact absurd he (h.copy_ne_below i)
    · exact absurd (h.sane.lt_of_reads hj).1 not_copy_lt
    · exact absurd (h.sane.lt_of_reads hj).1 not_copy_lt
  · rintro rfl
    exact (h.wired.reads _ _).2 (.inr (.inl ⟨i, (copyOf_iff h.nodup).2 ⟨hi, rfl⟩, rfl⟩))

/-- The operator below reads the copies on some edges. -/
theorem inputs_below : (g'.inputs below).Perm
    ((g.inputs below).flatMap fun i => [Lowered.moved g l i]) := by
  refine inputs_perm_flatMap h.symmetric h.symmetric' (fun _ => List.nodup_singleton _)
    (fun i j hi hj k hki hkj => ?_) fun j => ?_
  · have hmoved := (List.mem_singleton.1 hki).symm.trans (List.mem_singleton.1 hkj)
    unfold Lowered.moved at hmoved
    split at hmoved <;> split at hmoved
    · next hl _ => exact copyAt_inj hl (congrArg Input.source hmoved)
    · exact absurd (congrArg Input.source hmoved ▸ (h.sane.lt_of_reads hj).2) not_copy_lt
    · exact absurd (congrArg Input.source hmoved ▸ (h.sane.lt_of_reads hi).2) not_copy_lt
    · exact hmoved
  · simp only [List.mem_singleton]
    constructor
    · intro hj
      rcases h.reads_cases hj with ⟨k, -, he, -⟩ | ⟨k, hk, -, rfl⟩ | ⟨hj, -, -, -, hnot⟩ |
        ⟨-, -, hne, -⟩
      · exact absurd he.symm (h.copy_ne_below k)
      · exact ⟨k, h.reads hk, (if_pos hk).symm⟩
      · exact ⟨j, hj, (if_neg (hnot rfl)).symm⟩
      · exact absurd rfl hne
    · rintro ⟨i, hi, rfl⟩
      refine (h.wired.reads _ _).2 ?_
      unfold Lowered.moved
      split
      · next hl => exact .inr (.inr (.inl ⟨rfl, i, (copyOf_iff h.nodup).2 ⟨hl, rfl⟩, rfl, rfl⟩))
      · next hl =>
          exact .inl ⟨hi, h.below_ne, h.source_ne hi, fun hl' => hl ((h.mem_iff hi).2 hl'.2)⟩

/-- Who has read the filter reads the operator below. -/
theorem inputs_perm (hx : (x : Nat) < g.slots.length) (hxu : x ≠ u) (hxb : x ≠ below) :
    (g'.inputs x).Perm ((g.inputs x).flatMap (standIns u [below])) := by
  refine inputs_perm_standIns h.symmetric h.symmetric' (List.nodup_singleton below) (fun j => ?_)
    fun s hs k f _ hj => hxu (h.reader_of_below hj (List.mem_singleton.1 hs))
  rw [List.mem_singleton]
  constructor
  · intro hj
    rcases h.reads_cases hj with ⟨k, -, rfl, -⟩ | ⟨k, -, he, -⟩ | ⟨hj, -, hs, -⟩ | ⟨hj, -, -, hs⟩
    · exact absurd hx not_copy_lt
    · exact absurd he hxb
    · exact .inl ⟨hj, hs⟩
    · exact .inr ⟨hs, hj⟩
  · rintro (⟨hj, hs⟩ | hj)
    · exact (h.wired.reads _ _).2 (.inl ⟨hj, hxu, hs, fun he => hxb he.1⟩)
    · exact (h.wired.reads _ _).2 (.inr (.inr (.inr hj)))

theorem below_ne_root : below ≠ Graph.root := by
  obtain ⟨opB, hopB, -, -, hkind⟩ := h.exists_below
  exact h.sane.ne_root hopB fun he => hkind (by simp [he])

theorem ne_root : u ≠ Graph.root :=
  h.sane.ne_root h.site.operator (h.site.filters.kind_ne (by decide))

theorem not_renames_below : ¬ Renames g.operator? below := fun ⟨r, hr⟩ => by
  obtain ⟨opB, hopB, hspread, -⟩ := h.exists_below
  obtain rfl := Option.some.inj (hopB.symm.trans hr)
  simp [Operator.kind, spread] at hspread

theorem not_renames : ¬ Renames g.operator? u := fun ⟨r, hr⟩ => by
  obtain rfl := Option.some.inj (h.site.operator.symm.trans hr)
  exact h.site.filters.kind_ne (show Kind.replaceVar ∉ filterKinds by decide) rfl

/-- No renaming is made of other operators. -/
theorem not_renames_old (hi : g'.Reads x i) (hx : (x : Nat) < g.slots.length)
    (hrenames : ¬ Renames g'.operator? x) : ¬ Renames g.operator? x := fun ⟨r, hr⟩ => by
  obtain ⟨op', hop, hop'⟩ := h.exists_old hi hx
  exact hrenames ⟨r, by rw [hop', ← hop, hr]⟩

/-- Each edge comes from one that does not start at the root if it does not, and that no renaming
reads if none reads it. -/
theorem exists_origin (hi : g'.Reads x i) (hroot : i.source ≠ Graph.root)
    (hx : ¬ Renames g'.operator? x) : ∃ y j, Origin g u below l x i y j ∧ g.Reads y j ∧
      j.source = part g u below i.source ∧ j.source ≠ Graph.root ∧ ¬ Renames g.operator? y := by
  rcases h.reads_cases hi with ⟨k, hk, rfl, rfl⟩ | ⟨k, hk, rfl, rfl⟩ | ⟨hread, hxu, hs, hsb, hnot⟩ |
    ⟨hread, hxu, hxb, hs⟩
  · have hread := h.reads hk
    exact ⟨below, k, .inr (.inl ⟨rfl, hk, rfl, rfl⟩), hread,
      (part_of_lt (h.source_ne_below hread) (h.sane.lt_of_reads hread).2).symm, hroot,
      h.not_renames_below⟩
  · obtain ⟨n, hread⟩ := h.exists_read
    exact ⟨u, _, .inr (.inr (.inl ⟨rfl, k, hk, rfl, rfl⟩)), hread,
      (part_of_not_lt (h.copy_ne_below k) not_copy_lt).symm, h.below_ne_root, h.not_renames⟩
  · exact ⟨x, i, .inl ⟨rfl, rfl, hxu, hsb, hnot⟩, hread,
      (part_of_lt hsb (h.sane.lt_of_reads hread).2).symm, hroot,
      h.not_renames_old hi (h.sane.lt_of_reads hread).1 hx⟩
  · refine ⟨x, _, .inr (.inr (.inr ⟨rfl, rfl, hxu, hxb, hs⟩)), hread, ?_, h.ne_root,
      h.not_renames_old hi (h.sane.lt_of_reads hread).1 hx⟩
    rw [hs, part_below]

/-- Two edges from one operator come from different edges. -/
theorem unique_of_origin {x' y : OperatorId} {i' j : Input} (ho : Origin g u below l x i y j)
    (ho' : Origin g u below l x' i' y j) (hsource : i.source = i'.source) : x = x' ∧ i = i' := by
  have hfrom {k : Input} (hk : k ∈ l) : k.source ≠ below := h.source_ne_below (h.reads hk)
  rcases ho with ⟨rfl, rfl, hxu, hs, hnot⟩ | ⟨rfl, hj, rfl, rfl⟩ | ⟨rfl, k, hk, rfl, rfl⟩ |
      ⟨rfl, rfl, hxu, hxb, hs⟩ <;>
    rcases ho' with ⟨hy, rfl, hxu', hs', hnot'⟩ | ⟨hy, hj', rfl, rfl⟩ | ⟨hy, k', hk', rfl, rfl⟩ |
      ⟨hy, he, hxu', hxb', hs'⟩
  · exact ⟨hy, rfl⟩
  · exact absurd hj' (hnot hy)
  · exact absurd hy hxu
  · exact absurd (hsource.trans hs') hs
  · exact absurd hj (hnot' hy.symm)
  · exact ⟨rfl, rfl⟩
  · exact absurd hy h.below_ne
  · exact (hfrom hj (hsource.trans hs')).elim
  · exact absurd hy.symm hxu'
  · exact absurd hy.symm h.below_ne
  · obtain rfl := copyAt_inj hk hsource
    exact ⟨rfl, rfl⟩
  · exact absurd hy.symm hxu'
  · exact absurd (hsource.symm.trans hs) hs'
  · exact absurd hy hxb
  · exact absurd hy hxu
  · obtain ⟨-, hoperand, hfeedback⟩ := Input.mk.inj he
    exact ⟨hy, Input.eq_iff.2 ⟨hsource, hoperand, hfeedback⟩⟩

/-- The new edges are threads like the old ones. -/
theorem threads (hthreads : Threads g.operator? g.Reads) : Threads g'.operator? g'.Reads := by
  obtain ⟨opB, hopB, hspread, -, hkind⟩ := h.exists_below
  simp only [List.mem_append, List.mem_cons, List.not_mem_nil, or_false, not_or] at hkind
  obtain ⟨-, -, -, hscan, hprobe, hservice, -⟩ := hkind
  refine ⟨hthreads.single_of_origin (part g u below) (Origin g u below l)
    (fun x i hi hroot hx => h.exists_origin hi hroot hx)
    (fun x i x' i' y j ho ho' hsource => h.unique_of_origin ho ho' hsource),
    fun x i hi hroot => ?sources, fun x i op' hi hop hkind => ?operands⟩
  case sources =>
    rcases h.reads_cases hi with ⟨k, hk, rfl, rfl⟩ | ⟨k, hk, rfl, rfl⟩ | ⟨hread, -⟩ | ⟨-, -, -, hs⟩
    · obtain ⟨-, op', hop, hsources⟩ := hthreads.sources below k (h.reads hk) hroot
      obtain rfl := Option.some.inj (hopB.symm.trans hop)
      simp [hscan, hprobe, hservice] at hsources
    · have hlt := h.sane.root_lt
      rw [← hroot] at hlt
      exact absurd hlt not_copy_lt
    · obtain ⟨op', hop, hop'⟩ := h.exists_old hi (h.sane.lt_of_reads hread).1
      rw [hop', ← hop]
      exact hthreads.sources x i hread hroot
    · exact absurd (hs.symm.trans hroot) h.below_ne_root
  case operands =>
    rcases h.reads_cases hi with ⟨k, hk, rfl, rfl⟩ | ⟨k, hk, rfl, rfl⟩ | ⟨hread, -⟩ | ⟨hread, -⟩
    · rfl
    · obtain ⟨-, hop⟩ := h.operator_old h.below_lt hop
      obtain rfl := Option.some.inj (hopB.symm.trans hop)
      exact absurd hspread hkind
    · exact hthreads.operands x i op' hread
        (h.operator_old (h.sane.lt_of_reads hread).1 hop).2 hkind
    · have hzero := hthreads.operands x _ op' hread
        (h.operator_old (h.sane.lt_of_reads hread).1 hop).2 hkind
      exact hzero

/-- What feeds an operator now stands in for what has fed the one whose part it plays. -/
theorem feeds (hi : g'.Reads x i) : g.Feeds (part g u below i.source) (part g u below x) := by
  obtain ⟨k₀, hread₀⟩ := h.exists_read
  obtain ⟨opB, hopB, -, -, hkindB⟩ := h.exists_below
  rcases h.reads_cases hi with ⟨k, hk, rfl, rfl⟩ | ⟨k, hk, rfl, rfl⟩ | ⟨hread, hxu, -, hsb, -⟩ |
    ⟨hread, -, hxb, hs⟩
  · have hread := h.reads hk
    rw [part_of_not_lt (h.copy_ne_below k) not_copy_lt,
      part_of_lt (h.source_ne_below hread) (h.sane.lt_of_reads hread).2]
    exact .direct hread
  · rw [part_below, part_of_not_lt (h.copy_ne_below k) not_copy_lt]
    exact .of_source hread₀ rfl
  · rw [part_of_lt hsb (h.sane.lt_of_reads hread).2]
    by_cases hxb : x = below
    · subst hxb
      rw [part_below]
      exact .through hread₀ hopB (fun hmem => hkindB (List.mem_append_left _ hmem)) hread
    · rw [part_of_lt hxb (h.sane.lt_of_reads hread).1]
      exact .direct hread
  · rw [hs, part_below, part_of_lt hxb (h.sane.lt_of_reads hread).1]
    exact .of_source hread rfl

/-- Operators are as precise as those whose parts they play. -/
theorem graded {level : OperatorId → Precision} (hgraded : g.Graded level) :
    g'.Graded fun x => level (part g u below x) := by
  obtain ⟨opB, hopB, -, hsteadfast, hkindB⟩ := h.exists_below
  simp only [List.mem_append, List.mem_cons, List.not_mem_nil, or_false, not_or] at hkindB
  obtain ⟨hdedupB, hresult, hlimit, -⟩ := hkindB
  have hfilters := h.site.filters
  refine hgraded.along ⟨h.symmetric', h.threads hgraded.threads⟩ _
    (part_of_lt h.below_ne_root.symm h.sane.root_lt) (fun x op' hop => ?_) fun x i hi => h.feeds hi
  by_cases hxb : x = below
  · subst hxb
    obtain ⟨-, hop⟩ := h.operator_old h.below_lt hop
    obtain rfl := Option.some.inj (hopB.symm.trans hop)
    rw [part_below]
    exact ⟨op, h.site.operator, hsteadfast.fills hdedupB hfilters.not_deduplicating
      hfilters.not_shown⟩
  · by_cases hx : (x : Nat) < g.slots.length
    · rw [part_of_lt hxb hx]
      exact ⟨op', (h.operator_old hx hop).2, .refl op'⟩
    · rw [part_of_not_lt hxb hx, (h.operator_new hx hop).1]
      exact ⟨opB, hopB, hfilters.steadfast.fills hfilters.not_deduplicating hdedupB
        (by simp [hresult, hlimit])⟩

end Edges

end Sinking

/-! ## Rows -/

/-- Where it matters which rows there are, solutions bind all variables that are certain. -/
def Binds (G : Graph Plan) (level : OperatorId → Precision) (E : History) : Prop :=
  ∀ x n, G.node? x = some n → level x ≠ .emptiness → ∀ m s, .solution s ∈ E m x →
    ∀ v ∈ n.certain, v ∈ s.keySet

section Lowered

variable {G G' : Graph Plan} {src : Source} {limit : Nat} {level : OperatorId → Precision}
  {E : History} {shapes : Shapes} {u below : OperatorId} {op : Operator Plan} {l : List Input}

section Reading

variable (h : G.Graded level) (hsinking : G.Sinking G' shapes u below op l)

include h hsinking

/-- It matters which rows the operator below has. -/
theorem Sinking.level_below : level below ≠ .emptiness := by
  obtain ⟨opB, hopB, -, -, hkind⟩ := hsinking.exists_below
  simp only [List.mem_append, List.mem_cons, List.not_mem_nil, or_false, not_or] at hkind
  exact (h.bears below opB hopB).ne_emptiness (by simp [hkind.2.1, hkind.2.2.1])

/-- It matters which rows the operator below reads. -/
theorem Sinking.level_read {i : Input} (hi : G.Reads below i) : level i.source ≠ .emptiness := by
  obtain ⟨opB, hopB, -, -, hkind⟩ := hsinking.exists_below
  have hdemand := h.demands below opB i hopB hi
  rw [Operator.demand_eq, if_neg fun hmem => hkind (List.mem_append_left _ hmem)] at hdemand
  intro he
  rw [he] at hdemand
  exact hsinking.level_below h (le_antisymm hdemand (Precision.le_iff.2 (Nat.zero_le _)))

variable (hE : G.Traced src limit level E)

include hE

/-- The filter reads the rows of the operator below, which are solutions, and has what it keeps. -/
theorem Traced.sift_below (n : Nat) : (∀ row ∈ E (n + 1) below, ∃ s, row = .solution s) ∧
    (level u).Agree (op.sift (E (n + 1) below)) (E (n + 1) u) := by
  obtain ⟨k, hinputs, -⟩ := hsinking.exists_input
  obtain ⟨hsolutions, hsifted⟩ := hE.sift h hsinking.site.operator hsinking.site.filters n
  rw [hinputs, List.flatMap_singleton] at hsolutions hsifted
  exact ⟨hsolutions, hsifted⟩

/-- What the operator below makes of solutions, some of which have been filtered, is what the filter
makes of the solutions that it has. -/
theorem Traced.emit_below (hbinds : G.Binds level E) (n : Nat) :
    ∃ (opB : Operator Plan) (read : Input → List Solution), G.operator? below = some opB ∧
      opB.Steadfast ∧ (∀ i ∈ G.inputs below, E (n + 1) i.source = (read i).map .solution) ∧
      ∃ rows, (opB.opened src limit).emit src below (G.deliver (fun i =>
          (if i ∈ l then (read i).filter op.keeps else read i).map .solution) below) = .ok rows ∧
        (level u).Agree rows (E (n + 1) u) := by
  have hop := hsinking.site.operator
  have hfilters := hsinking.site.filters
  obtain ⟨opB, hopB, -, hsteadfast, -⟩ := hsinking.exists_below
  obtain ⟨hsolutions, hsifted⟩ := hE.sift_below h hsinking n
  obtain ⟨rows, hemit, hrows⟩ := hE.step n below opB hopB
  rw [deliver_congr fun i hi => hsinking.over_below E n (h.symmetric.linked.mem_inputs.1 hi)]
    at hemit
  obtain ⟨hread, hkept⟩ := hsinking.site.emit_kept hopB hemit
    (fun row hrow => hsolutions row ((hrows.mem_iff (hsinking.level_below h) row).1 hrow))
    fun i hi m hm s hs => hbinds i.source m hm
      (hsinking.level_read h (h.symmetric.linked.mem_inputs.1 hi)) (n + 1) s hs
  refine ⟨opB, fun i => Operator.solutionsIn (E (n + 1) i.source), hopB, hsteadfast,
    fun i hi => (hread i hi).symm, op.sift rows, hkept, ?_⟩
  obtain ⟨k, hread₀⟩ := hsinking.exists_read
  have hdemand := h.demands u op _ hop hread₀
  rw [Operator.demand_eq, if_neg hfilters.not_deduplicating] at hdemand
  exact (Operator.sift_agree ((h.bears u op hop).ne_emptiness hfilters.not_shown)
    (hrows.mono hdemand)).trans hsifted

end Reading

/-- The rows where the operator below has those of the filter, and copies have what the filter
keeps. -/
def sunk (G : Graph Plan) (u below : OperatorId) (op : Operator Plan) (l : List Input)
    (E : History) : History := fun n x =>
  withSifted G.slots.length l op (E n) (if x = below then u else x)

namespace Sinking

variable {x : OperatorId} {i : Input} {n : Nat}

/-- Old operators have the rows that they had. -/
theorem sunk_of_lt (hne : x ≠ below) (hx : (x : Nat) < G.slots.length) :
    sunk G u below op l E n x = E n x := by
  rw [sunk, if_neg hne, withSifted_of_lt hx]

variable (hsinking : G.Sinking G' shapes u below op l)

include hsinking

/-- The operator below has the rows of the filter. -/
theorem sunk_below : sunk G u below op l E n below = E n u := by
  rw [sunk, if_pos rfl, withSifted_of_lt (hsinking.sane.lt hsinking.site.operator)]

/-- A copy keeps of its producer's rows what the filter keeps. -/
theorem sunk_copy (hi : i ∈ l) :
    sunk G u below op l E n (copyAt G.slots.length l i) = op.sift (E n i.source) := by
  rw [sunk, if_neg (hsinking.copy_ne_below i), withSifted_copyAt hi]

/-- A producer that has a copy above it has the rows that it had. -/
theorem sunk_read (hi : G.Reads below i) : sunk G u below op l E n i.source = E n i.source :=
  sunk_of_lt (hsinking.source_ne_below hi) (hsinking.sane.lt_of_reads hi).2

/-- Each edge to the operator below delivers what it did, or what the copy on it keeps. -/
theorem over_moved {read : Input → List Solution}
    (hread : ∀ i ∈ G.inputs below, E (n + 1) i.source = (read i).map .solution)
    (hi : i ∈ G.inputs below) : (sunk G u below op l E).over n (Lowered.moved G l i) =
      (if i ∈ l then (read i).filter op.keeps else read i).map .solution := by
  have hi' := hsinking.symmetric.linked.mem_inputs.1 hi
  rw [History.over, Lowered.moved_feedback, hsinking.forward hi']
  by_cases hl : i ∈ l
  · rw [Lowered.moved, if_pos hl, if_pos hl, ← Operator.sift_map, ← hread i hi]
    exact hsinking.sunk_copy hl
  · rw [Lowered.moved, if_neg hl, if_neg hl, ← hread i hi]
    exact hsinking.sunk_read hi'

end Sinking

section Rounds

variable (h : G.Graded level) (hE : G.Traced src limit level E)
  (hsinking : G.Sinking G' shapes u below op l)

include h hE hsinking

/-- In each round the operator below has the rows of the filter. -/
theorem Traced.step_below (hbinds : G.Binds level E) {opB : Operator Plan}
    (hopB : G.operator? below = some opB) (n : Nat) :
    ∃ rows, (opB.opened src limit).emit src below
        (G'.deliver ((sunk G u below op l E).over n) below) = .ok rows ∧
      (level u).Agree rows (E (n + 1) u) := by
  obtain ⟨opB', read, hopB', hsteadfast, hread, rows, hemit, hrows⟩ :=
    hE.emit_below h hsinking hbinds n
  obtain rfl := Option.some.inj (hopB.symm.trans hopB')
  have hagree : (G.deliver (fun i => (if i ∈ l then (read i).filter op.keeps else read i).map
      .solution) below).Agree .bag (G'.deliver ((sunk G u below op l E).over n) below) := by
    refine deliver_agree hsinking.inputs_below
      (fun i _ k hk => (List.mem_singleton.1 hk).symm ▸ Lowered.moved_operand) fun i hi => ?_
    rw [List.flatMap_singleton, hsinking.over_moved hread hi]
    exact .refl _ _
  have hkeys : (G.deliver (fun i => (if i ∈ l then (read i).filter op.keeps else read i).map
        .solution) below).map Prod.fst =
      (G'.deliver ((sunk G u below op l E).over n) below).map Prod.fst := by
    refine keys_deliver_eq fun k => ?_
    simp only [hsinking.inputs_below.mem_iff, List.mem_flatMap, List.mem_singleton]
    constructor
    · rintro ⟨i, hi, rfl⟩
      exact ⟨_, ⟨i, hi, rfl⟩, Lowered.moved_operand⟩
    · rintro ⟨_, ⟨i, hi, rfl⟩, rfl⟩
      exact ⟨i, hi, Lowered.moved_operand.symm⟩
  obtain ⟨rows', hemit', hrows'⟩ := Operator.emit_agree (p := .bag)
    ((Operator.steadfast_withNested opB _).2 hsteadfast) src
    (fun k => (hagree k).mono (Operator.demand_le _ _)) nodup_deliver nodup_deliver
    (fun _ => hkeys) rows hemit
  exact ⟨rows', hemit', (Precision.Agree.of_perm _ hrows'.symm).trans hrows⟩

/-- In each round a copy has what it keeps of the rows of its input. -/
theorem Traced.step_copy (hbinds : G.Binds level E) {i : Input} (hi : i ∈ l) (n : Nat) :
    (op.opened src limit).emit src (copyAt G.slots.length l i)
        (G'.deliver ((sunk G u below op l E).over n) (copyAt G.slots.length l i)) =
      .ok (sunk G u below op l E (n + 1) (copyAt G.slots.length l i)) := by
  have hread := hsinking.reads hi
  have hsame : sunk G u below op l E (n + 1) i.source = E (n + 1) i.source :=
    hsinking.sunk_read hread
  have hsource : (sunk G u below op l E).over n ⟨i.source, 0, false⟩ = E (n + 1) i.source := hsame
  obtain ⟨_, read, -, -, hsolutions, -⟩ := hE.emit_below h hsinking hbinds n
  rw [hsinking.sunk_copy hi, ← hsource]
  refine hE.emit_copy hsinking.site.operator hsinking.site.filters (hsinking.inputs_copy hi)
    fun row hrow => ?_
  rw [hsource, hsolutions i (h.symmetric.linked.mem_inputs.2 hread), List.mem_map] at hrow
  obtain ⟨s, -, rfl⟩ := hrow
  exact ⟨s, rfl⟩

/-- In each round all other operators have the rows that they had. -/
theorem Traced.step_apart {x : OperatorId} {op' : Operator Plan} (hxb : x ≠ below) (hxu : x ≠ u)
    (hop : G.operator? x = some op') (n : Nat) :
    ∃ rows, (op'.opened src limit).emit src x
        (G'.deliver ((sunk G u below op l E).over n) x) = .ok rows ∧
      (level x).Agree rows (E (n + 1) x) := by
  refine hE.of_standIns h hop (hsinking.inputs_perm (hsinking.sane.lt hop) hxu hxb)
    (List.cons_ne_nil _ _) (fun n => ?_) (fun i hi _ n => ?_) n
  · rw [List.flatMap_singleton, hsinking.sunk_below]
    exact .refl _ _
  · have hi := h.symmetric.linked.mem_inputs.1 hi
    exact Sinking.sunk_of_lt (fun hs => hxu (hsinking.reader_of_below hi hs))
      (hsinking.sane.lt_of_reads hi).2

/-- A filter may move below the operator that it reads, onto some of the edges to it. -/
theorem Traced.lowered (hbinds : G.Binds level E) :
    G.Mirrors G' src limit level (fun x => level (Sinking.part G u below x)) E
      (sunk G u below op l E) := by
  refine ⟨hsinking.graded h, ⟨fun x => withSifted_nil hE.zero, fun n x op' hop' => ?step⟩,
    fun x hx => ⟨_, hx.along h.symmetric.linked hsinking.symmetric'.linked _ fun _ _ =>
      hsinking.feeds⟩, fun m n he => funext fun x => by rw [sunk, sunk, he], fun x form => ?results,
    fun x form hx => ?shown⟩
  case step =>
    by_cases hxb : x = below
    · subst hxb
      rw [Sinking.part_below, hsinking.sunk_below]
      exact hE.step_below h hsinking hbinds (hsinking.operator_old hsinking.below_lt hop').2 n
    · by_cases hx : (x : Nat) < G.slots.length
      · obtain ⟨hxu, hop'⟩ := hsinking.operator_old hx hop'
        rw [Sinking.part_of_lt hxb hx, Sinking.sunk_of_lt hxb hx]
        exact hE.step_apart h hsinking hxb hxu hop' n
      · obtain ⟨rfl, i, hi, rfl⟩ := hsinking.operator_new hx hop'
        exact ⟨_, hE.step_copy h hsinking hbinds hi n, .refl _ _⟩
  case results =>
    rw [hsinking.wired.operator?]
    exact hsinking.site.filters.result_iff h.symmetric.linked hsinking.site.operator
  case shown =>
    have hxb : x ≠ below := by
      rintro rfl
      obtain ⟨opB, hopB, -, -, hkind⟩ := hsinking.exists_below
      obtain rfl := Option.some.inj (hx.symm.trans hopB)
      simp [Operator.kind] at hkind
    have hlt := hsinking.sane.lt hx
    exact ⟨congrArg level (Sinking.part_of_lt hxb hlt), fun n => Sinking.sunk_of_lt hxb hlt⟩

end Rounds

end Lowered

end Graph

end QuadAlgebra
