import QuadAlgebra.Proofs.Equivalence.Conditions
import QuadAlgebra.Proofs.Equivalence.StandIns

/-!
# Filters that are distributed

A filter with several inputs is replaced by a copy for each of them. Those that are read in the
place of the filter produce together what the filter did (`Graph.Replaced`).
-/

namespace QuadAlgebra

open List (Perm)

namespace Graph

/-- In a graph without feedback edges others have taken the place of an operator: who has read that
one reads each of them on the same operands, and together they produce the rows that it did. -/
structure Replaced (g g' : Graph Plan) (u : OperatorId) (others : List OperatorId) : Prop where
  nodup : others.Nodup
  inputs : ∀ x, (∃ i ∈ g.inputs x, i.source = u) →
    (g'.inputs x).Perm ((g.inputs x).flatMap (standIns u others))
  rows : ∀ src limit rows, g.Produces src limit u rows → ∃ read : OperatorId → List Row,
    (∀ s ∈ others, g'.Produces src limit s (read s)) ∧ (others.flatMap read).Perm rows

/-! ## Copies of filters -/

section Copies

variable {first x : OperatorId} {l : List Input} {i j : Input}

/-- The number of the copy for an input, where copies are numbered from the given number on. -/
def copyAt (first : OperatorId) (l : List Input) (i : Input) : OperatorId := first + l.idxOf i

theorem copyAt_inj (hi : i ∈ l) (h : copyAt first l i = copyAt first l j) : i = j :=
  (List.idxOf_inj hi).1 (Nat.add_left_cancel h)

theorem copyOf_iff (hnodup : l.Nodup) : CopyOf first l x i ↔ i ∈ l ∧ x = copyAt first l i := by
  constructor
  · rintro ⟨k, hk, rfl⟩
    obtain ⟨hlt, rfl⟩ := List.getElem?_eq_some_iff.1 hk
    exact ⟨List.getElem_mem hlt, by rw [copyAt, hnodup.idxOf_getElem]⟩
  · rintro ⟨hi, rfl⟩
    exact ⟨l.idxOf i, List.getElem?_idxOf hi, rfl⟩

theorem copyOf_source_iff {s : OperatorId} (hnodup : l.Nodup) :
    CopyOf first (l.map Input.source) x s ↔ ∃ i ∈ l, i.source = s ∧ x = copyAt first l i := by
  constructor
  · rintro ⟨k, hk, hx⟩
    rw [List.getElem?_map] at hk
    obtain ⟨i, hi, rfl⟩ := Option.map_eq_some_iff.1 hk
    obtain ⟨hi, hx⟩ := (copyOf_iff hnodup).1 ⟨k, hi, hx⟩
    exact ⟨i, hi, rfl, hx⟩
  · rintro ⟨i, hi, rfl, hx⟩
    obtain ⟨k, hk, hx⟩ := (copyOf_iff hnodup).2 ⟨hi, hx⟩
    exact ⟨k, by rw [List.getElem?_map, hk]; rfl, hx⟩

variable {G : Graph Plan} {src : Source} {limit : Nat} {op : Operator Plan}

/-- A copy of a filter that reads a single operator has what the filter keeps. -/
theorem produces_copy {s : OperatorId} {found : List Solution} (hop : G.operator? x = some op)
    (hinputs : G.inputs x = [⟨s, 0, false⟩]) (hs : G.Produces src limit s (found.map .solution))
    (hemit : ∀ (id : OperatorId) (l : List (Nat × List Solution)),
      (op.opened src limit).emit src id (solutionOperands l) =
        .ok (((l.flatMap Prod.snd).filter op.keeps).map .solution)) :
    G.Produces src limit x ((found.filter op.keeps).map .solution) := by
  have hmem (j : Input) (hj : j ∈ G.inputs x) : j = ⟨s, 0, false⟩ := by simpa [hinputs] using hj
  refine .emits (fun _ => found.map .solution) hop (fun j hj => hmem j hj ▸ rfl)
    (fun j hj => hmem j hj ▸ hs) ?_
  rw [deliver_solutions fun _ => found, hemit]
  simp [operandGroups, hinputs, distinctOf]

theorem Filters.opened (h : Filters op) : Filters (op.opened src limit) := by
  rcases h.eq_filter_or with ⟨f, rfl⟩ | ⟨equalities, rfl⟩
  · have hnested : f.nested = [] := h.2
    exact ⟨h.1, by simp [Operator.opened, Operator.withNested, Operator.nested, hnested]⟩
  · exact ⟨h.1, rfl⟩

/-- A filter keeps solutions of all that it reads, and its copies keep the same ones. -/
theorem Produces.exists_kept {rows : List Row} (hfilters : Filters op)
    (hop : G.operator? x = some op) (hproduces : G.Produces src limit x rows) :
    ∃ read : Input → List Solution,
      (∀ i ∈ G.inputs x, G.Produces src limit i.source ((read i).map .solution)) ∧
      rows.Perm ((((G.inputs x).flatMap read).filter op.keeps).map .solution) ∧
        ∀ (id : OperatorId) (l : List (Nat × List Solution)),
          (op.opened src limit).emit src id (solutionOperands l) =
            .ok (((l.flatMap Prod.snd).filter op.keeps).map .solution) := by
  cases hproduces with
  | root hroot =>
      obtain rfl := Option.some.inj (hop.symm.trans hroot)
      exact absurd rfl (hfilters.kind_ne (by decide))
  | emits read hop' _ hread hemit =>
      obtain rfl := Option.some.inj (hop.symm.trans hop')
      obtain ⟨found, hfound, rfl, hcopies⟩ := Operator.emit_filters hfilters.opened hemit
      rw [Operator.opened, Operator.keeps_withNested] at hcopies ⊢
      have hrows : (found.map Row.solution).Perm ((G.inputs x).flatMap read) :=
        hfound ▸ rows_deliver_perm read
      have hsolutions (i : Input) (hi : i ∈ G.inputs x) :
          ∀ row ∈ read i, ∃ s, row = .solution s := by
        intro row hrow
        obtain ⟨s, -, rfl⟩ := List.mem_map.1 (hrows.mem_iff.2 (List.mem_flatMap.2 ⟨i, hi, hrow⟩))
        exact ⟨s, rfl⟩
      refine ⟨fun i => Operator.solutionsIn (read i), fun i hi => ?_, ?_, hcopies⟩
      · rw [map_solutionsIn (hsolutions i hi)]
        exact hread i hi
      · have hperm := hrows.filterMap Row.solution?
        rw [List.filterMap_flatMap, ← Operator.solutionsIn, solutionsIn_map] at hperm
        exact (hperm.filter _).map _

end Copies

/-! ## Operators before others -/

section Before

variable {g g' : Graph Plan} {rank : OperatorId → Nat}

theorem lt_length_of_mem_ids {γ : Type} {g : Graph γ} {x : OperatorId} (hx : x ∈ g.ids) :
    (x : Nat) < g.slots.length := by
  by_contra hle
  have hcontains := mem_ids.1 hx
  rw [contains, node?_eq_none (Nat.not_lt.1 hle)] at hcontains
  cases hcontains

/-- Copies are new. -/
theorem not_copyOf {α γ : Type} {g : Graph γ} {l : List α} {x : OperatorId}
    (hx : x ∈ g.ids) (a : α) :
    ¬ CopyOf g.slots.length l x a := fun hcopy =>
  absurd hcopy.bounds.1 (Nat.not_le.2 (lt_length_of_mem_ids hx))

theorem Symmetric.inputs_eq_singleton {γ : Type} {g : Graph γ} {x : OperatorId} {i : Input}
    (h : g.Symmetric) (hreads : ∀ j, g.Reads x j ↔ j = i) : g.inputs x = [i] := by
  refine List.perm_singleton.1 ((List.perm_ext_iff_of_nodup (h.inputs_spec x).1
    (List.nodup_singleton i)).2 fun j => ?_)
  rw [h.linked.mem_inputs, List.mem_singleton]
  exact hreads j

/-- The operators below some rank produce what they did if they have stayed as they were. -/
theorem Produces.of_lower_rank (hrank : ∀ x, ∀ i ∈ g.inputs x, rank i.source < rank x) {r : Nat}
    (hsame : ∀ x ∈ g.ids, rank x < r → g'.operator? x = g.operator? x ∧ g'.inputs x = g.inputs x)
    {src : Source} {limit : Nat} {x : OperatorId} {rows : List Row}
    (hproduces : g.Produces src limit x rows) (hx : rank x < r) : g'.Produces src limit x rows := by
  refine hproduces.transfer (fun x => x ∈ g.ids ∧ rank x < r) (fun x hx => ?_)
    ⟨hproduces.mem_ids, hx⟩
  obtain ⟨hop, hinputs⟩ := hsame x hx.1 hx.2
  exact ⟨hop, hinputs, fun i hi => ⟨source_mem_ids hi, (hrank x i hi).trans hx.2⟩⟩

end Before

/-! ## Filters with several inputs -/

/-- A graph in which copies have taken the place of a filter with several inputs. -/
structure Distributed (g g' : Graph Plan) (u : OperatorId) (op : Operator Plan)
    (rank : OperatorId → Nat) : Prop where
  symmetric : g.Symmetric
  symmetric' : g'.Symmetric
  ascends : ∀ x, ∀ i ∈ g.inputs x, rank i.source < rank x
  site : g.DistributeSite u op
  wired : g'.Wired (g.slots.length + (g.inputs u).length)
    (fun x => if x = u then none
      else withCopies g.operator? g.slots.length (g.inputs u).length op x)
    (distributedReads g.Reads g.slots.length u ((g.inputs u).map Input.source))
  spared : ∀ x ∈ g.ids, rank x < rank u → g'.inputs x = g.inputs x

namespace Distributed

variable {g g' : Graph Plan} {u x : OperatorId} {op : Operator Plan} {rank : OperatorId → Nat}
  {i : Input}

/-- The copy for an input of the filter. -/
def copy (g : Graph Plan) (u : OperatorId) (i : Input) : OperatorId :=
  copyAt g.slots.length (g.inputs u) i

section

variable (h : g.Distributed g' u op rank)

include h

theorem nodup : (g.inputs u).Nodup := (h.symmetric.inputs_spec u).1

theorem nodup_copies : ((g.inputs u).map (copy g u)).Nodup :=
  h.nodup.map_on fun _ hi _ _ hij => copyAt_inj hi hij

theorem copy_not_mem_ids (hi : i ∈ g.inputs u) : copy g u i ∉ g.ids := fun hmem =>
  not_copyOf hmem i.source ((copyOf_source_iff h.nodup).2 ⟨i, hi, rfl, rfl⟩)

theorem operator_before (hx : x ∈ g.ids) (hlower : rank x < rank u) :
    g'.operator? x = g.operator? x := by
  have hne : x ≠ u := by
    rintro rfl
    exact absurd hlower (Nat.lt_irrefl _)
  rw [h.wired.operator?, if_neg hne, withCopies_of_lt (lt_length_of_mem_ids hx)]

theorem operator_copy (hi : i ∈ g.inputs u) : g'.operator? (copy g u i) = some op := by
  have hne : copy g u i ≠ u := by
    intro he
    exact h.copy_not_mem_ids hi (he.symm ▸ mem_ids_of_operator? h.site.operator)
  rw [h.wired.operator?, if_neg hne]
  exact withCopies_of_copyOf ((copyOf_iff h.nodup).2 ⟨hi, rfl⟩)

theorem inputs_copy (hi : i ∈ g.inputs u) : g'.inputs (copy g u i) = [⟨i.source, 0, false⟩] := by
  refine h.symmetric'.inputs_eq_singleton fun j => (h.wired.reads _ j).trans ?_
  have hnew {j : Input} (hj : g.Reads (copy g u i) j) : False :=
    h.copy_not_mem_ids hi (mem_ids.2 (h.symmetric.linked.contains_target hj))
  constructor
  · rintro (⟨hj, -⟩ | ⟨s, hs, rfl⟩ | ⟨s, -, hj⟩)
    · exact (hnew hj).elim
    · obtain ⟨i', hi', rfl, hsame⟩ := (copyOf_source_iff h.nodup).1 hs
      rw [copyAt_inj hi hsame]
    · exact (hnew hj).elim
  · rintro rfl
    exact .inr (.inl ⟨i.source, (copyOf_source_iff h.nodup).2 ⟨i, hi, rfl, rfl⟩, rfl⟩)

theorem forward' (hforward : g.Forward) : g'.Forward := by
  intro s e he
  rcases (h.wired.reads e.target ⟨s, e.operand, e.feedback⟩).1 he with
    ⟨hi, -⟩ | ⟨_, -, hi⟩ | ⟨_, -, hi⟩
  · exact hforward s _ hi
  · exact congrArg Input.feedback hi
  · exact hforward u _ hi

/-- Who has read the filter reads the copies. -/
theorem inputs_perm (hx : ∃ i ∈ g.inputs x, i.source = u) :
    (g'.inputs x).Perm ((g.inputs x).flatMap (standIns u ((g.inputs u).map (copy g u)))) := by
  obtain ⟨i, hi, hsource⟩ := hx
  have hx : x ∈ g.ids :=
    mem_ids.2 (h.symmetric.linked.contains_target (h.symmetric.linked.mem_inputs.1 hi))
  have hne : x ≠ u := by
    rintro rfl
    exact absurd (hsource ▸ h.ascends x i hi) (Nat.lt_irrefl _)
  refine inputs_perm_standIns h.symmetric h.symmetric' h.nodup_copies (fun j => ?_)
    fun s hs k f _ hfresh => ?_
  · rw [h.wired.reads]
    refine or_congr ⟨fun hj => ⟨hj.1, hj.2.2⟩, fun hj => ⟨hj.1, hne, hj.2⟩⟩ ?_
    rw [or_iff_right fun ⟨s, hs, _⟩ => not_copyOf hx s hs]
    simp only [copyOf_source_iff h.nodup, List.mem_map]
    constructor
    · rintro ⟨-, ⟨i, hi, -, hj⟩, hx⟩
      exact ⟨⟨i, hi, hj.symm⟩, hx⟩
    · rintro ⟨⟨i, hi, hj⟩, hx⟩
      exact ⟨i.source, ⟨i, hi, rfl, hj.symm⟩, hx⟩
  · obtain ⟨i, hi, rfl⟩ := List.mem_map.1 hs
    exact h.copy_not_mem_ids hi (mem_ids.2 (contains_of_mem_succeeding hfresh))

/-- Together the copies produce what the filter did. -/
theorem produces {src : Source} {limit : Nat} {rows : List Row}
    (hproduces : g.Produces src limit u rows) : ∃ read : OperatorId → List Row,
      (∀ s ∈ (g.inputs u).map (copy g u), g'.Produces src limit s (read s)) ∧
        (((g.inputs u).map (copy g u)).flatMap read).Perm rows := by
  obtain ⟨read, hread, hrows, hcopies⟩ := hproduces.exists_kept h.site.filters h.site.operator
  have hcopy (i : Input) (hi : i ∈ g.inputs u) : g'.Produces src limit (copy g u i)
      (((read i).filter op.keeps).map .solution) := by
    refine produces_copy (h.operator_copy hi) (h.inputs_copy hi) ?_ hcopies
    exact (hread i hi).of_lower_rank h.ascends
      (fun x hx hlower => ⟨h.operator_before hx hlower, h.spared x hx hlower⟩)
      (h.ascends u i hi)
  refine ⟨g'.produced src limit, fun s hs => ?_, ?_⟩
  · obtain ⟨i, hi, rfl⟩ := List.mem_map.1 hs
    exact (hcopy i hi).produced_eq.symm ▸ hcopy i hi
  · rw [List.flatMap_map, List.flatMap_congr fun i hi => (hcopy i hi).produced_eq,
      ← List.map_flatMap, ← List.filter_flatMap]
    exact hrows.symm

theorem replaced : g.Replaced g' u ((g.inputs u).map (copy g u)) :=
  ⟨h.nodup_copies, fun _ => h.inputs_perm, fun _ _ _ => h.produces⟩

end

end Distributed

end Graph

end QuadAlgebra
