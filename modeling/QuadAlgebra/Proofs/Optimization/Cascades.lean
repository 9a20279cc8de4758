import Mathlib.Data.List.TakeWhile
import QuadAlgebra.Proofs.Optimization.Removals

/-!
# Cascades

A cascade takes an operator out of a graph, together with what contributes nothing without it. The
root and the results stay, and whatever else stays is still fed and still read: of the inputs of an
operator on an operand that it requires, one is left, and so is one of the operators that read it.

A set of operators is closed if it holds what contributes nothing without its members (`Closed`).
The operators that a cascade removes are closed, and among the members of every closed set that
holds the operators on the stack (`Reshape.runs_cascadeFrom`): whatever waits on the stack belongs
to all such sets, and whatever a closed set is to hold waits there from the moment when the last
edge disappears that kept it out. So the order of the stack does not matter.
-/

namespace QuadAlgebra

/-! ## Operators that may be removed -/

/-- The operator is neither the root nor a result. -/
def Operator.Removable {γ : Type} (op : Operator γ) : Prop := op.kind ≠ .root ∧ op.kind ≠ .result

namespace Graph

variable {γ : Type} {g : Graph γ} {id : OperatorId} {op : Operator γ} {operand : Nat}

theorem isRemovable_iff :
    g.isRemovable id = true ↔ ∃ op, g.operator? id = some op ∧ op.Removable := by
  unfold isRemovable kind? Operator.Removable
  cases g.operator? id with
  | none => simp
  | some op =>
      simp only [Option.map_some, Option.some.injEq, exists_eq_left']
      cases op.kind <;> simp

theorem removable_of_isStarved (h : g.isStarved id operand = true) :
    ∃ op, g.operator? id = some op ∧ op.Removable := by
  unfold isStarved at h
  unfold Operator.Removable
  cases hop : g.operator? id with
  | none => simp [hop] at h
  | some op =>
      cases op with
      | root => simp [hop] at h
      | result _ => simp [hop] at h
      | command c => exact ⟨_, rfl, by cases c <;> simp [Operator.kind, GraphCommand.kind]⟩
      | _ => exact ⟨_, rfl, by simp [Operator.kind]⟩

theorem isStarved_iff (hop : g.operator? id = some op) (hremovable : op.Removable) :
    g.isStarved id operand = true ↔ ∀ i ∈ g.inputs id,
      op.requires operand = true ∧ i.operand ≠ operand := by
  have hstarved : g.isStarved id operand = ((g.inputs id).isEmpty ||
      (!(g.inputs id).any (·.operand == operand) && op.requires operand)) := by
    unfold isStarved
    rw [hop]
    cases op with
    | root => exact absurd rfl hremovable.1
    | result _ => exact absurd rfl hremovable.2
    | _ => rfl
  rw [hstarved]
  cases hinputs : g.inputs id with
  | nil => simp
  | cons i rest =>
      simp only [List.isEmpty_cons, Bool.false_or, Bool.and_eq_true, Bool.not_eq_true',
        List.any_eq_false, beq_iff_eq]
      constructor
      · exact fun h j hj => ⟨h.2, h.1 j hj⟩
      · exact fun h => ⟨fun j hj => (h j hj).2, (h i List.mem_cons_self).1⟩

end Graph

/-! ## What cascades leave -/

section Remains

variable {γ : Type} (ops : OperatorId → Option (Operator γ)) (reads : OperatorId → Input → Prop)
  (gone : List OperatorId)

/-- The operators that are left. -/
def remaining (x : OperatorId) : Option (Operator γ) := if x ∈ gone then none else ops x

/-- The inputs that are left. -/
def remainingReads (x : OperatorId) (i : Input) : Prop := reads x i ∧ x ∉ gone ∧ i.source ∉ gone

/-- The operator is left, but not enough of what it reads: nothing at all, or nothing on an operand
that it requires. -/
def Lacks (x : OperatorId) : Prop :=
  x ∉ gone ∧ ∃ op i, ops x = some op ∧ op.Removable ∧ reads x i ∧
    ∀ j, reads x j → j.source ∉ gone → op.requires i.operand = true ∧ j.operand ≠ i.operand

/-- The operator is left, but nothing of what read it is. -/
def Idles (x : OperatorId) : Prop :=
  x ∉ gone ∧ ∃ op y i, ops x = some op ∧ op.Removable ∧ reads y i ∧ i.source = x ∧
    ∀ y' i', reads y' i' → i'.source = x → y' ∈ gone

/-- The set holds what contributes nothing without its members: an operator that reads a member, if
all that it reads are members, or all that it reads on the same operand, which it requires; and an
operator that a member reads, if only members do. -/
structure Closed (S : Set OperatorId) : Prop where
  starved : ∀ x op i, ops x = some op → op.Removable → reads x i → i.source ∈ S →
    ((∀ j, reads x j → j.source ∈ S) ∨
      op.requires i.operand = true ∧ ∀ j, reads x j → j.operand = i.operand → j.source ∈ S) →
    x ∈ S
  unread : ∀ x op y i, ops x = some op → op.Removable → y ∈ S → reads y i → i.source = x →
    (∀ y' i', reads y' i' → i'.source = x → y' ∈ S) → x ∈ S

/-- Only removable operators are gone, and all others have enough to read. -/
structure Pruned : Prop where
  removable : ∀ x ∈ gone, ∃ op, ops x = some op ∧ op.Removable
  fed : ∀ x, ¬ Lacks ops reads gone x

end Remains

variable {γ : Type} {ops : OperatorId → Option (Operator γ)} {reads : OperatorId → Input → Prop}
  {gone : List OperatorId} {x : OperatorId} {op : Operator γ}

theorem remaining_of_not_mem (hx : x ∉ gone) : remaining ops gone x = ops x := if_neg hx

theorem remaining_eq_some : remaining ops gone x = some op ↔ x ∉ gone ∧ ops x = some op := by
  unfold remaining
  split <;> simp [*]

/-- An operator that lacks inputs after a removal lacked them before or read what was removed. -/
theorem Lacks.of_cons {id : OperatorId} (h : Lacks ops reads (id :: gone) x) :
    Lacks ops reads gone x ∨ ∃ i, reads x i ∧ i.source = id ∧ x ∉ gone ∧
      ∃ op, ops x = some op ∧ op.Removable ∧ ∀ j, remainingReads reads (id :: gone) x j →
        op.requires i.operand = true ∧ j.operand ≠ i.operand := by
  obtain ⟨hx, op, i, hop, hremovable, hi, hall⟩ := h
  have hgone : x ∉ gone := fun hmem => hx (List.mem_cons_of_mem _ hmem)
  by_cases hbefore : ∀ j, reads x j → j.source ∉ gone →
      op.requires i.operand = true ∧ j.operand ≠ i.operand
  · exact .inl ⟨hgone, op, i, hop, hremovable, hi, hbefore⟩
  · simp only [not_forall] at hbefore
    obtain ⟨j, hj, hsource, hnot⟩ := hbefore
    have hid : j.source = id := by
      by_contra hne
      exact hnot (hall j hj (by simp [hne, hsource]))
    refine .inr ⟨j, hj, hid, hgone, op, hop, hremovable, fun j' hj' => ?_⟩
    obtain ⟨hrequires, hoperand⟩ := hall j' hj'.1 hj'.2.2
    have hsame : j.operand = i.operand := by
      by_contra hne
      exact hnot ⟨hrequires, hne⟩
    exact hsame ▸ ⟨hrequires, hoperand⟩

/-- An operator that is not read after a removal was not read before or fed what was removed. -/
theorem Idles.of_cons {id : OperatorId} (h : Idles ops reads (id :: gone) x) :
    Idles ops reads gone x ∨ ∃ i, reads id i ∧ i.source = x := by
  obtain ⟨hx, op, y, i, hop, hremovable, hi, hsource, hall⟩ := h
  have hgone : x ∉ gone := fun hmem => hx (List.mem_cons_of_mem _ hmem)
  by_cases hid : ∃ i, reads id i ∧ i.source = x
  · exact .inr hid
  · refine .inl ⟨hgone, op, y, i, hop, hremovable, hi, hsource, fun y' i' hi' hsource' => ?_⟩
    rcases List.mem_cons.1 (hall y' i' hi' hsource') with rfl | hmem
    · exact absurd ⟨i', hi', hsource'⟩ hid
    · exact hmem

namespace Closed

variable {S : Set OperatorId} (h : Closed ops reads S) (hgone : ∀ x ∈ gone, x ∈ S)

include h hgone

/-- A closed set holds what lacks inputs without some of its members. -/
theorem mem_of_lacks (hx : Lacks ops reads gone x) : x ∈ S := by
  obtain ⟨-, op, i, hop, hremovable, hi, hall⟩ := hx
  have hi' : i.source ∈ S := by
    by_contra hsource
    exact (hall i hi fun hmem => hsource (hgone _ hmem)).2 rfl
  refine h.starved x op i hop hremovable hi hi' ?_
  by_cases hleft : ∃ j, reads x j ∧ j.source ∉ gone
  · obtain ⟨j, hj, hsource⟩ := hleft
    refine .inr ⟨(hall j hj hsource).1, fun j' hj' hoperand => ?_⟩
    by_contra hsource'
    exact (hall j' hj' fun hmem => hsource' (hgone _ hmem)).2 hoperand
  · simp only [not_exists, not_and, not_not] at hleft
    exact .inl fun j hj => hgone _ (hleft j hj)

/-- A closed set holds what is not read without some of its members. -/
theorem mem_of_idles (hx : Idles ops reads gone x) : x ∈ S := by
  obtain ⟨-, op, y, i, hop, hremovable, hi, hsource, hall⟩ := hx
  have hread (y' : OperatorId) (i' : Input) (hi' : reads y' i') (hsource' : i'.source = x) :
      y' ∈ S := hgone y' (hall y' i' hi' hsource')
  exact h.unread x op y i hop hremovable (hread y i hi hsource) hi hsource hread

end Closed

/-- What is gone is closed if everything that is left is fed and read. -/
theorem closed_of_not (hfed : ∀ x, ¬ Lacks ops reads gone x)
    (hread : ∀ x, ¬ Idles ops reads gone x) : Closed ops reads {x | x ∈ gone} where
  starved x op i hop hremovable hi _ hall := by
    by_contra hx
    refine hfed x ⟨hx, op, i, hop, hremovable, hi, fun j hj hsource => ?_⟩
    rcases hall with hall | ⟨hrequires, hall⟩
    · exact absurd (hall j hj) hsource
    · exact ⟨hrequires, fun hoperand => hsource (hall j hj hoperand)⟩
  unread x op y i hop hremovable _ hi hsource hall := by
    by_contra hx
    exact hread x ⟨hx, op, y, i, hop, hremovable, hi, hsource, hall⟩

theorem mem_dropWhile_of_not {α : Type} {p : α → Bool} {l : List α} {a : α} (ha : a ∈ l)
    (hp : p a = false) : a ∈ l.dropWhile p := by
  induction l with
  | nil => cases ha
  | cons b rest ih =>
      rw [List.dropWhile_cons]
      split
      · next hb =>
        rcases List.mem_cons.1 ha with rfl | ha
        · rw [hb] at hp
          cases hp
        · exact ih ha
      · exact ha

/-! ## Stacks -/

namespace Graph

/-- What a graph without some operators looks like. -/
theorem wired_without {g : Graph γ} (gone : List OperatorId) (h : g.Linked) :
    (g.without gone).Wired g.slots.length (remaining g.operator? gone)
    (remainingReads g.Reads gone) where
  linked := h.without
  length := length_without
  operator? x := operator?_without x
  reads x i := by
    rw [Reads, mem_succeeding_without, remainingReads, Reads]
    tauto

end Graph

/-- What a stack of operators makes of what is gone: a closed set of removable operators that holds
what is gone and what is on the stack, and nothing that is not in all such sets. -/
structure Exhausts (ops : OperatorId → Option (Operator γ)) (reads : OperatorId → Input → Prop)
    (gone pending gone' : List OperatorId) : Prop where
  nodup : gone'.Nodup
  removable : ∀ x ∈ gone', ∃ op, ops x = some op ∧ op.Removable
  closed : Closed ops reads {x | x ∈ gone'}
  kept : ∀ x ∈ gone, x ∈ gone'
  done : ∀ x ∈ pending, ∀ op, ops x = some op → op.Removable → x ∈ gone'
  least : ∀ S : Set OperatorId, Closed ops reads S → (∀ x ∈ gone, x ∈ S) →
    (∀ x ∈ pending, ∀ op, ops x = some op → op.Removable → x ∈ S) → ∀ x ∈ gone', x ∈ S

theorem Exhausts.pruned {pending gone' : List OperatorId}
    (h : Exhausts ops reads gone pending gone') : Pruned ops reads gone' :=
  ⟨h.removable, fun _ hlacks => hlacks.1 (h.closed.mem_of_lacks (fun _ hx => hx) hlacks)⟩

section Stack

variable {g g' : Graph γ} {size : Nat} {pending : List OperatorId} {id : OperatorId}

/-- What a graph still has to lose: the removable operators on a stack. -/
theorem isRemovable_of_wired (h : g.Wired size (remaining ops gone) reads) :
    g.isRemovable x = true ↔ x ∉ gone ∧ ∃ op, ops x = some op ∧ op.Removable := by
  rw [Graph.isRemovable_iff]
  simp only [h.operator?, remaining_eq_some, and_assoc, exists_and_left]

/-- Where what cannot be removed is taken off a stack, a removable operator comes to its top, and
the removable ones stay. -/
theorem next_of_dropWhile (h : g.Wired size (remaining ops gone) reads) {rest : List OperatorId}
    (hcons : pending.dropWhile (!g.isRemovable ·) = id :: rest) :
    (id ∉ gone ∧ ∃ op, ops id = some op ∧ op.Removable) ∧ (∀ x ∈ id :: rest, x ∈ pending) ∧
      ∀ x ∈ pending, x ∉ gone → (∃ op, ops x = some op ∧ op.Removable) → x ∈ id :: rest := by
  refine ⟨(isRemovable_of_wired h).1 ?_, fun x hx => ?_, fun x hx hmem hremovable => ?_⟩
  · have hfirst := List.dropWhile_get_zero_not (!g.isRemovable ·) pending
      (by rw [hcons]; exact Nat.succ_pos _)
    simpa [hcons] using hfirst
  · exact (List.dropWhile_sublist _).mem (hcons ▸ hx)
  · have hstays := (isRemovable_of_wired h).2 ⟨hmem, hremovable⟩
    exact hcons ▸ mem_dropWhile_of_not hx (by simp [hstays])

/-- A stack from which nothing can be removed takes nothing more along, if it holds what lacks
inputs and what is not read. -/
theorem exhausts_of_idle (h : g.Wired size (remaining ops gone) (remainingReads reads gone))
    (hnodup : gone.Nodup) (hgone : ∀ x ∈ gone, ∃ op, ops x = some op ∧ op.Removable)
    (hpending : ∀ x, Lacks ops reads gone x ∨ Idles ops reads gone x → x ∈ pending)
    (hidle : ∀ x ∈ pending, g.isRemovable x = false) : Exhausts ops reads gone pending gone := by
  have hmem (x : OperatorId) (hx : x ∈ pending) (op : Operator γ) (hop : ops x = some op)
      (hop' : op.Removable) : x ∈ gone := by
    by_contra hx'
    have hremovable := (isRemovable_of_wired h).2 ⟨hx', op, hop, hop'⟩
    rw [hidle x hx] at hremovable
    cases hremovable
  have hclosed : Closed ops reads {x | x ∈ gone} := by
    refine closed_of_not (fun x hx => ?_) fun x hx => ?_
    · obtain ⟨hnot, op, -, hop, hop', -⟩ := id hx
      exact hnot (hmem x (hpending x (.inl hx)) op hop hop')
    · obtain ⟨hnot, op, -, -, hop, hop', -⟩ := id hx
      exact hnot (hmem x (hpending x (.inr hx)) op hop hop')
  exact ⟨hnodup, hgone, hclosed, fun _ hx => hx, hmem, fun _ _ hsub _ => hsub⟩

/-- No operator is left if as many as there are slots are gone. -/
theorem idle_of_length_le (h : g.Wired size (remaining ops gone) reads) (hnodup : gone.Nodup)
    (hgone : ∀ x ∈ gone, (x : Nat) < size) (hlength : size ≤ gone.length) (x : OperatorId) :
    g.isRemovable x = false := by
  by_contra hx
  obtain ⟨hmem, op, hop, -⟩ := (isRemovable_of_wired h).1 (by simpa using hx)
  have hlive : (x : Nat) < size := h.lt_of_ne_none (by simp [remaining_of_not_mem hmem, hop])
  have hsub : (x :: gone).Subperm (List.range size) :=
    (List.nodup_cons.2 ⟨hmem, hnodup⟩).subperm fun y hy => List.mem_range.2 <|
      (List.mem_cons.1 hy).elim (fun he => he ▸ hlive) (hgone y)
  have hle := hsub.length_le
  rw [List.length_cons, List.length_range] at hle
  omega

section Removal

variable (h : g.Wired size (remaining ops gone) (remainingReads reads gone))
  (h' : g'.Wired size (remaining ops (id :: gone)) (remainingReads reads (id :: gone)))

include h'

/-- Only what lacks inputs is starved by a removal. -/
theorem lacks_of_isStarved {e : Edge}
    (h : g.Wired size (remaining ops gone) (remainingReads reads gone))
    (he : e ∈ g.succeeding id) (hstarved : g'.isStarved e.target e.operand = true) :
    Lacks ops reads (id :: gone) e.target := by
  obtain ⟨op, hop, hremovable⟩ := Graph.removable_of_isStarved hstarved
  have hall := (Graph.isStarved_iff hop hremovable).1 hstarved
  obtain ⟨hx, hops⟩ := remaining_eq_some.1 ((h'.operator? e.target).symm.trans hop)
  refine ⟨hx, op, _, hops, hremovable, (h.mem_succeeding.1 he).1, fun j hj hsource => ?_⟩
  exact hall j (h'.mem_inputs.2 ⟨hj, hx, hsource⟩)

include h in
/-- What lacks inputs after a removal lacked them before, or is starved by the removal. -/
theorem mem_starved_of_lacks (hid : id ∉ gone) (hlacks : Lacks ops reads (id :: gone) x) :
    Lacks ops reads gone x ∨
      x ∈ ((g.succeeding id).filter fun e => g'.isStarved e.target e.operand).map Edge.target := by
  refine hlacks.of_cons.imp_right ?_
  rintro ⟨i, hi, rfl, hx, op, hop, hremovable, hall⟩
  refine List.mem_map.2 ⟨⟨x, i.operand, i.feedback⟩, List.mem_filter.2 ⟨?_, ?_⟩, rfl⟩
  · exact h.mem_succeeding.2 ⟨hi, hx, hid⟩
  · have hop' : g'.operator? x = some op :=
      (h'.operator? x).trans (remaining_eq_some.2 ⟨hlacks.1, hop⟩)
    exact (Graph.isStarved_iff hop' hremovable).2 fun j hj => hall j (h'.mem_inputs.1 hj)

/-- Of the producers of what has been removed, those are idle that nothing reads any more. -/
theorem isUnread_iff {i : Input} (hi : reads id i) (hop : ops i.source = some op)
    (hremovable : op.Removable) :
    g'.isUnread i.source = true ↔ Idles ops reads (id :: gone) i.source := by
  have hlive : g'.contains i.source = true ↔ i.source ∉ id :: gone := by
    rw [h'.contains_iff, remaining, hop]
    split <;> simp [*]
  rw [Graph.isUnread, Bool.and_eq_true, hlive, List.isEmpty_iff, List.eq_nil_iff_forall_not_mem]
  refine and_congr_right fun hx => ?_
  constructor
  · intro hnone
    refine ⟨op, id, i, hop, hremovable, hi, rfl, fun y' i' hi' hsource => ?_⟩
    by_contra hy
    have hedge : (⟨y', i'.operand, i'.feedback⟩ : Edge) ∈ g'.succeeding i.source :=
      h'.mem_succeeding.2 ⟨by rwa [← hsource], hy, hx⟩
    exact hnone _ hedge
  · rintro ⟨-, -, -, -, -, -, -, hall⟩ e he
    obtain ⟨hi', hx', -⟩ := h'.mem_succeeding.1 he
    exact hx' (hall _ _ hi' rfl)

include h in
/-- What is not read after a removal was not read before, or only by what was removed. -/
theorem mem_unread_of_idles (hid : id ∉ gone) (hidles : Idles ops reads (id :: gone) x) :
    Idles ops reads gone x ∨ x ∈ (g.preceding id).filter g'.isUnread := by
  refine hidles.of_cons.imp_right ?_
  rintro ⟨i, hi, rfl⟩
  have ⟨hleft, op, _, _, hop, hremovable, _⟩ := hidles
  have hsource : i.source ∉ gone := fun hmem => hleft (List.mem_cons_of_mem _ hmem)
  refine List.mem_filter.2 ⟨(h.linked _ _).2 ⟨_, (h.reads id i).2 ⟨hi, hid, hsource⟩, rfl⟩, ?_⟩
  exact (isUnread_iff h' hi hop hremovable).2 hidles

include h in
/-- A stack that has held whatever lacks inputs or readers holds it again after a removal, with what
the removal has put on it. -/
theorem mem_pushed {rest : List OperatorId} (hid : id ∉ gone)
    (hpending : ∀ x, Lacks ops reads gone x ∨ Idles ops reads gone x → x ∈ pending)
    (hkept : ∀ x ∈ pending, x ∉ gone → (∃ op, ops x = some op ∧ op.Removable) → x ∈ id :: rest)
    (hx : Lacks ops reads (id :: gone) x ∨ Idles ops reads (id :: gone) x) :
    x ∈ ((g.preceding id).filter g'.isUnread).reverse ++
      (((g.succeeding id).filter fun e => g'.isStarved e.target e.operand).map
        Edge.target).reverse ++ rest := by
  -- what has waited on the stack still does
  have hwaits (hbefore : Lacks ops reads gone x ∨ Idles ops reads gone x)
      (hleft : x ∉ id :: gone) (hremovable : ∃ op, ops x = some op ∧ op.Removable) :
      x ∈ rest := by
    rw [List.mem_cons, not_or] at hleft
    exact (List.mem_cons.1 (hkept x (hpending x hbefore) hleft.2 hremovable)).resolve_left hleft.1
  simp only [List.mem_append, List.mem_reverse]
  rcases hx with hlacks | hidles
  · have ⟨hleft, op, _, hop, hop', _⟩ := hlacks
    rcases mem_starved_of_lacks h h' hid hlacks with hbefore | hstarved
    · exact .inr (hwaits (.inl hbefore) hleft ⟨op, hop, hop'⟩)
    · exact .inl (.inr hstarved)
  · have ⟨hleft, op, _, _, hop, hop', _⟩ := hidles
    rcases mem_unread_of_idles h h' hid hidles with hbefore | hunread
    · exact .inr (hwaits (.inr hbefore) hleft ⟨op, hop, hop'⟩)
    · exact .inl (.inl hunread)

/-- A stack that is exhausted after a removal, with what the removal put on it, is exhausted with
the removed operator instead. -/
theorem Exhausts.of_cons {rest gone' : List OperatorId} {op : Operator γ}
    (h : g.Wired size (remaining ops gone) (remainingReads reads gone))
    (hid : id ∈ pending) (hop : ops id = some op) (hop' : op.Removable)
    (hkept : ∀ x ∈ pending, x ∉ gone → (∃ op, ops x = some op ∧ op.Removable) → x ∈ id :: rest)
    (hrest : ∀ x ∈ rest, x ∈ pending)
    (hexhausts : Exhausts ops reads (id :: gone)
      (((g.preceding id).filter g'.isUnread).reverse ++
        (((g.succeeding id).filter fun e => g'.isStarved e.target e.operand).map
          Edge.target).reverse ++ rest) gone') :
    Exhausts ops reads gone pending gone' := by
  refine ⟨hexhausts.nodup, hexhausts.removable, hexhausts.closed,
    fun x hx => hexhausts.kept x (List.mem_cons_of_mem _ hx), fun x hx op hop hop' => ?_,
    fun S hS hgone hpending => ?_⟩
  · by_cases hmem : x ∈ gone
    · exact hexhausts.kept x (List.mem_cons_of_mem _ hmem)
    · rcases List.mem_cons.1 (hkept x hx hmem ⟨op, hop, hop'⟩) with rfl | hx
      · exact hexhausts.kept _ List.mem_cons_self
      · exact hexhausts.done x (by simp [hx]) op hop hop'
  · have hcons : ∀ x ∈ id :: gone, x ∈ S :=
      List.forall_mem_cons.2 ⟨hpending id hid op hop hop', hgone⟩
    refine hexhausts.least S hS hcons fun x hx op hop hop' => ?_
    simp only [List.mem_append, List.mem_reverse] at hx
    rcases hx with (hunread | hstarved) | hx
    · obtain ⟨hpreceding, hunread⟩ := List.mem_filter.1 hunread
      obtain ⟨e, he, htarget⟩ := (h.linked x id).1 hpreceding
      have hread := (h.mem_succeeding.1 he).1
      rw [htarget] at hread
      exact hS.mem_of_idles hcons ((isUnread_iff h' hread hop hop').1 hunread)
    · obtain ⟨e, he, rfl⟩ := List.mem_map.1 hstarved
      obtain ⟨he, hstarved⟩ := List.mem_filter.1 he
      exact hS.mem_of_lacks hcons (lacks_of_isStarved h' h he hstarved)
    · exact hpending x (hrest x hx) op hop hop'

end Removal

end Stack

/-! ## Cascades -/

namespace Reshape

open Edit

variable {g : Graph γ} {w : Workspace γ} {size : Nat} {id : OperatorId}

theorem runs_remove_without (h : w.graph.Linked) (hroot : id ≠ Graph.root)
    (hop : w.graph.operator? id ≠ none) :
    (remove id).Runs w fun _ w' => w'.graph = w.graph.without [id] := by
  obtain ⟨n, hn⟩ : ∃ n, w.graph.node? id = some n := by
    cases hn : w.graph.node? id with
    | none => simp [Graph.operator?, hn] at hop
    | some n => exact ⟨n, rfl⟩
  refine (runs_onGraph (Graph.runs_remove_without h hroot hn)).bind fun _ w₁ h₁ => ?_
  exact runs_onIndex.mono fun _ w₂ h₂ => h₂.trans h₁.2

/-- A cascade has whatever lacks inputs or readers on its stack, and the bound exceeds the number of
operators that are left; so the stack is exhausted in the end. -/
theorem runs_cascadeFrom (hg : g.Linked) (hroot : g.operator? Graph.root = some .root) (bound : Nat)
    (pending : List OperatorId) (hw : w.graph = g.without gone)
    (hgone : ∀ x ∈ gone, ∃ op, g.operator? x = some op ∧ op.Removable) (hnodup : gone.Nodup)
    (hbound : g.slots.length ≤ bound + gone.length)
    (hpending : ∀ x, Lacks g.operator? g.Reads gone x ∨ Idles g.operator? g.Reads gone x →
      x ∈ pending) :
    (cascadeFrom bound pending).Runs w fun n w' => ∃ gone',
      w'.graph = g.without gone' ∧ gone'.length = gone.length + n ∧
        Exhausts g.operator? g.Reads gone pending gone' := by
  induction bound generalizing w gone pending with
  | zero =>
      have h := hw ▸ Graph.wired_without gone hg
      have hlive (x : OperatorId) (hx : x ∈ gone) : (x : Nat) < g.slots.length := by
        obtain ⟨op, hop, -⟩ := hgone x hx
        exact (Graph.Wired.of_linked hg).lt_of_ne_none (by simp [hop])
      refine runs_pure.2 ⟨gone, hw, rfl, exhausts_of_idle h hnodup hgone hpending fun x _ => ?_⟩
      exact idle_of_length_le h hnodup hlive (by omega) x
  | succ bound ih =>
      have h := hw ▸ Graph.wired_without gone hg
      unfold cascadeFrom
      refine runs_bind.2 (runs_get ?_)
      dsimp only
      split
      · next hnil =>
        refine runs_pure.2 ⟨gone, hw, rfl, exhausts_of_idle h hnodup hgone hpending fun x hx => ?_⟩
        simpa using List.dropWhile_eq_nil_iff.1 hnil x hx
      · next id rest hcons =>
        obtain ⟨⟨hid, op, hop, hop'⟩, hsub, hkept⟩ := next_of_dropWhile h hcons
        have hne : id ≠ Graph.root := by
          rintro rfl
          exact hop'.1 (Option.some.inj (hop.symm.trans hroot) ▸ rfl)
        have hlive : w.graph.operator? id ≠ none := by
          simp [h.operator?, remaining_of_not_mem hid, hop]
        refine (runs_remove_without h.linked hne hlive).bind fun _ w₁ hw₁ =>
          runs_bind.2 (runs_get ?_)
        rw [hw, Graph.without_without] at hw₁
        have h₁ := hw₁ ▸ Graph.wired_without (id :: gone) hg
        refine (ih _ hw₁ ?_ (List.nodup_cons.2 ⟨hid, hnodup⟩) ?_ fun x hx => ?_).bind
          fun n w₂ ⟨gone', hw₂, hlength, hexhausts⟩ => runs_pure.2 ⟨gone', hw₂, ?_, ?_⟩
        · exact List.forall_mem_cons.2 ⟨⟨op, hop, hop'⟩, hgone⟩
        · rw [List.length_cons]
          omega
        · exact mem_pushed h h₁ hid hpending hkept hx
        · rw [hlength, List.length_cons]
          omega
        · exact hexhausts.of_cons h₁ h (hsub id List.mem_cons_self) hop hop' hkept
            fun x hx => hsub x (List.mem_cons_of_mem _ hx)

/-- A cascade removes the operator, if it may be removed, with what contributes nothing without
it. -/
theorem runs_cascade_without (hg : w.graph.Linked)
    (hroot : w.graph.operator? Graph.root = some .root) :
    (cascade id).Runs w fun n w' => ∃ gone, w'.graph = w.graph.without gone ∧ gone.length = n ∧
      Exhausts w.graph.operator? w.graph.Reads [] [id] gone := by
  unfold cascade
  refine runs_bind.2 (runs_get ?_)
  refine (runs_cascadeFrom hg hroot _ [id] Graph.without_nil.symm
    (fun _ hx => absurd hx List.not_mem_nil) List.nodup_nil (by simp) fun x hx => ?_).mono
      fun n w' ⟨gone, hw', hlength, hexhausts⟩ => ⟨gone, hw', by simpa using hlength, hexhausts⟩
  rcases hx with ⟨-, op, i, -, -, hi, hall⟩ | ⟨-, op, y, i, -, -, hi, hsource, hall⟩
  · exact absurd rfl (hall i hi List.not_mem_nil).2
  · exact absurd (hall y i hi hsource) List.not_mem_nil

/-- A cascade takes the operator and what contributes nothing without it out of the graph. -/
theorem runs_cascade (h : w.graph.Wired size ops reads) (hroot : ops Graph.root = some .root) :
    (cascade id).Runs w fun _ w' => ∃ gone,
      w'.graph.Wired size (remaining ops gone) (remainingReads reads gone) ∧
        Exhausts ops reads [] [id] gone := by
  obtain rfl : ops = w.graph.operator? := funext fun x => (h.operator? x).symm
  obtain rfl : reads = w.graph.Reads := funext₂ fun x i => propext (h.reads x i).symm
  refine (runs_cascade_without h.linked hroot).mono fun _ w' ⟨gone, hw', _, hexhausts⟩ => ?_
  have hwired := h.length ▸ hw' ▸ Graph.wired_without gone h.linked
  exact ⟨gone, hwired, hexhausts⟩

end Reshape

end QuadAlgebra
