import QuadAlgebra.Proofs.Agreement.Mirrors
import QuadAlgebra.Proofs.Equivalence.MergedScans
import QuadAlgebra.Proofs.Equivalence.PushedFilters
import QuadAlgebra.Proofs.Variables.Copying

/-!
# Mirrors with new operators

A scan takes the place of a join of scans, and copies of a filter take the place of the filter. Each
new operator plays the part of an old one, which settles its level, and has rows that are made of
those of old ones in the same round (`Graph.Traced.merged`, `Graph.Traced.distributed`).
-/

namespace QuadAlgebra

open List (Perm)

namespace Graph

/-! ## What is traced -/

section Tracing

variable {G G' : Graph Plan} {src : Source} {limit : Nat} {level : OperatorId → Precision}
  {E E' : History} {u x : OperatorId} {op : Operator Plan} {others : List OperatorId}

/-- The root has a single empty solution. -/
theorem Traced.root_rows (h : G.Graded level) (hE : G.Traced src limit level E)
    (hroot : G.operator? root = some .root) (n : Nat) : E (n + 1) root = [.solution ∅] := by
  obtain ⟨rows, hemit, hrows⟩ := hE.step n root .root hroot
  obtain rfl := Except.ok.inj hemit
  rw [h.root] at hrows
  exact (List.singleton_perm.1 hrows).symm

/-- What is produced is traced. -/
theorem Traced.produced (h : G.Graded level) (hE : G.Traced src limit level E) {rows : List Row}
    (hproduces : G.Produces src limit x rows) (n : Nat) : (level x).Agree (E (n + 1) x) rows := by
  induction hproduces with
  | @root x hroot =>
      obtain ⟨rows, hemit, hrows⟩ := hE.step n x .root hroot
      obtain rfl := Except.ok.inj hemit
      exact hrows.symm
  | @emits x op rows read hop hforward _ hemit ih =>
      have hread (i : Input) (hi : i ∈ G.inputs x) :
          (level i.source).Agree (E.over n i) (read i) := by
        rw [History.over, hforward i hi]
        exact ih i hi
      obtain ⟨rows', hemit', hrows⟩ := hE.emits h hop hread
      obtain rfl := Except.ok.inj (hemit.symm.trans hemit')
      exact hrows

/-- An operator emits what it did where others stand in for one that it has read. -/
theorem Traced.of_standIns (h : G.Graded level) (hE : G.Traced src limit level E)
    (hop : G.operator? x = some op)
    (hinputs : (G'.inputs x).Perm ((G.inputs x).flatMap (standIns u others))) (hsome : others ≠ [])
    (hrows : ∀ n, (level u).Agree (E n u) (others.flatMap (E' n)))
    (hsame : ∀ i ∈ G.inputs x, i.source ≠ u → ∀ n, E' n i.source = E n i.source) (n : Nat) :
    ∃ rows, (op.opened src limit).emit src x (G'.deliver (E'.over n) x) = .ok rows ∧
      (level x).Agree rows (E (n + 1) x) := by
  refine hE.transfer h hop hinputs (fun _ _ _ => mem_standIns_operand) (fun _ i hi => ?_)
    fun i hi => ?_
  · obtain ⟨j, hj⟩ := List.exists_mem_of_ne_nil _ (standIns_ne_nil hsome (u := u) (i := i))
    exact ⟨j, hinputs.mem_iff.2 (List.mem_flatMap.2 ⟨i, hi, hj⟩), mem_standIns_operand hj⟩
  · unfold standIns
    split
    · next hi =>
      rw [List.flatMap_map, History.over, hi]
      exact hrows _
    · next hne =>
      rw [List.flatMap_singleton, History.over, History.over, hsame i hi hne]
      exact .refl _ _

end Tracing

/-! ## Scans that are merged -/

namespace Merging

section Edges

variable {γ : Type} {g g' : Graph γ} {shapes : Shapes} {join x : OperatorId} {inputs : List Input}
  {scans : List IndexScan} {scan : IndexScan} {op : Operator γ} {i : Input}

variable (h : g.Merging g' join inputs scans scan)

include h

/-- Only the new operator may read without standing in the old graph. -/
theorem exists_operator (hi : g'.Reads x i) (hx : x ≠ g.slots.length) :
    ∃ op, g.operator? x = some op ∧ g'.operator? x = some op := by
  obtain ⟨op, hop⟩ := exists_operator?_of_reads h.wired.linked hi
  exact ⟨op, h.operator_old hx hop, hop⟩

/-- Copying keeps the graph threaded. -/
theorem threads (hthreads : Threads g.operator? g.Reads) : Threads g'.operator? g'.Reads := by
  have hjoin : join ≠ Graph.root := ne_root_of_kind h.root h.site.join Kind.noConfusion
  have hpart : part g join Graph.root = Graph.root := part_of_ne (h.ne_new h.root)
  refine ⟨hthreads.single_of_origin (part g join)
    (fun x i y j => y = x ∧ j = ⟨part g join i.source, i.operand, i.feedback⟩)
    (fun x i hi hroot hx => ?_) (fun x i x' i' y j ho ho' hsource => ?_),
    fun x i hi hroot => ?_, fun x i op hi hop hkind => ?_⟩
  · rcases h.reads_cases hi with ⟨-, rfl⟩ | ⟨hne, hi'⟩
    · exact absurd rfl hroot
    · refine ⟨x, _, ⟨rfl, rfl⟩, hi', rfl, ?_, fun ⟨r, hr⟩ => hx ⟨r, ?_⟩⟩
      · unfold part
        split
        · exact hjoin
        · exact hroot
      · obtain ⟨op, hop, hop'⟩ := h.exists_operator hi hne
        rw [hop', ← hop, hr]
  · obtain ⟨rfl, rfl⟩ := ho
    obtain ⟨rfl, he⟩ := ho'
    obtain ⟨-, hoperand, hfeedback⟩ := Input.mk.inj he
    exact ⟨rfl, Input.eq_iff.2 ⟨hsource, hoperand, hfeedback⟩⟩
  · rcases h.reads_cases hi with ⟨rfl, rfl⟩ | ⟨hne, hi'⟩
    · exact ⟨rfl, _, h.operator_new, by simp [Operator.kind]⟩
    · obtain ⟨op, hop, hop'⟩ := h.exists_operator hi hne
      rw [hop', ← hop]
      obtain ⟨he, hsource⟩ := hthreads.sources x _ hi' (hroot ▸ hpart)
      obtain ⟨-, hoperand, hfeedback⟩ := Input.mk.inj he
      exact ⟨Input.eq_iff.2 ⟨hroot, hoperand, hfeedback⟩, hsource⟩
  · rcases h.reads_cases hi with ⟨-, rfl⟩ | ⟨hne, hi'⟩
    · rfl
    · have hzero := hthreads.operands x _ op hi' (h.operator_old hne hop) hkind
      exact hzero

/-- Who has read the join reads the merged scan. -/
theorem inputs_perm (hsymmetric : g.Symmetric) (hsymmetric' : g'.Symmetric)
    (hx : x ≠ g.slots.length) (hop : g'.operator? x = some op) :
    (g'.inputs x).Perm ((g.inputs x).flatMap (standIns join [g.slots.length])) := by
  have hleft : x ≠ join ∧ x ∉ inputs.map Input.source := by
    rw [h.wired.operator?] at hop
    split at hop
    · cases hop
    · next hleft => exact not_or.1 hleft
  refine inputs_perm_standIns hsymmetric hsymmetric' (List.nodup_singleton _) (fun j => ?_)
    fun s hs k f _ hnew => ?_
  · rw [h.wired.reads, List.mem_singleton]
    constructor
    · rintro (⟨hj, -, hs, -⟩ | ⟨hnew, -⟩ | hj)
      · exact .inl ⟨hj, hs⟩
      · exact absurd hnew hx
      · exact .inr hj
    · rintro (⟨hj, hs⟩ | hj)
      · exact .inl ⟨hj, hleft.1, hs, hleft.2⟩
      · exact .inr (.inr hj)
  · exact (h.ne_new_of_reads hnew).2 (List.mem_singleton.1 hs)

/-- The root feeds the merged scan, and it has fed the scans that the join has read. -/
theorem feeds (hregular : g.Regular false shapes) (hi : g'.Reads x i) :
    g.Feeds (part g join i.source) (part g join x) := by
  rcases h.reads_cases hi with ⟨rfl, rfl⟩ | ⟨hx, hi⟩
  · obtain ⟨j, hj⟩ := List.exists_mem_of_length_pos (Nat.lt_of_lt_of_le Nat.two_pos h.site.many)
    obtain ⟨s, hs⟩ := h.site.exists_scan hj
    have hread := (h.site.reads_iff h.linked).2 hj
    obtain ⟨-, ⟨source, k, f⟩, hk⟩ := hregular.sources _ _ hs (by simp [Operator.kind])
    rw [part_new, part_of_ne (h.ne_new h.root)]
    obtain ⟨rfl, -⟩ := h.site.roots j hj _ hk
    exact .through hread hs (by simp [Operator.kind, Operator.deduplicating]) hk
  · rw [part_of_ne hx]
    exact .of_source hi rfl

/-- Copying keeps the graph graded, each copy at the level of what it stands for. -/
theorem graded {level : OperatorId → Precision} (hgraded : g.Graded level)
    (hregular : g.Regular false shapes) (hsymmetric' : g'.Symmetric) :
    g'.Graded fun x => level (part g join x) := by
  refine hgraded.along ⟨hsymmetric', h.threads hgraded.threads⟩ _ (part_of_ne (h.ne_new h.root))
    (fun x op hop => ?_) fun x i hi => h.feeds hregular hi
  by_cases hx : x = g.slots.length
  · subst hx
    rw [h.operator_new] at hop
    obtain rfl := Option.some.inj hop
    rw [part_new]
    exact ⟨.join, h.site.join, Operator.Steadfast.fills trivial
      (by simp [Operator.kind, Operator.deduplicating])
      (by simp [Operator.kind, Operator.deduplicating]) (by simp [Operator.kind])⟩
  · rw [part_of_ne hx]
    exact ⟨op, h.operator_old hx hop, .refl op⟩

end Edges

end Merging

section Merged

variable {G G' : Graph Plan} {src : Source} {limit : Nat} {level : OperatorId → Precision}
  {E : History} {shapes : Shapes} {join : OperatorId} {inputs : List Input}
  {scans : List IndexScan} {scan : IndexScan}

/-- One scan may take the place of a join of scans. -/
theorem Traced.merged (h : G.Graded level) (hE : G.Traced src limit level E)
    (hregular : G.Regular false shapes) (hsymmetric' : G'.Symmetric)
    (hmerging : G.Merging G' join inputs scans scan) :
    G.Mirrors G' src limit level (fun x => level (Merging.part G join x)) E
      fun n x => E n (Merging.part G join x) := by
  have hfed (i : Input) (hi : i ∈ inputs) : (G.inputs i.source).length = 1 := by
    obtain ⟨s, hs⟩ := hmerging.site.exists_scan hi
    obtain ⟨hroot, j, hj⟩ := hregular.sources _ _ hs (by simp [Operator.kind])
    rw [h.symmetric.inputs_eq_singleton (i := ⟨root, 0, false⟩) fun k =>
      ⟨fun hk => (h.threads.sources _ k hk (hroot k hk)).1, fun hk => ?_⟩]
    · rfl
    · rw [hk, ← (h.threads.sources _ j hj (hroot j hj)).1]
      exact hj
  have hscanned (n : Nat) : (level join).Agree (E (n + 1) join)
      ((joinAll (scans.map src.scan)).map .solution) :=
    hE.produced h (hmerging.site.produces src limit h.symmetric.linked hregular.root hfed) n
  refine ⟨hmerging.graded h hregular hsymmetric', ⟨fun x => hE.zero _, fun n x op hop => ?step⟩,
    fun x hx => ⟨_, hx.along h.symmetric.linked hsymmetric'.linked _ fun _ _ =>
      hmerging.feeds hregular⟩, fun m n he => funext fun x => congrFun he _, fun x form => ?results,
      fun x form hx => ?shown⟩
  case step =>
    by_cases hx : x = G.slots.length
    · subst hx
      obtain rfl := Option.some.inj (hmerging.operator_new.symm.trans hop)
      rw [Merging.part_new]
      refine ⟨_, ?_, (hscanned n).symm⟩
      rw [← (hmerging.produces src limit hsymmetric').emit_eq hop]
      refine congrArg _ (deliver_congr fun i hi => ?_)
      rw [hmerging.inputs_new hsymmetric', List.mem_singleton] at hi
      subst hi
      rw [(Produces.root hmerging.operator_root).produced_eq, History.over,
        Merging.part_of_ne (hmerging.ne_new hregular.root)]
      exact hE.root_rows h hregular.root n
    · rw [Merging.part_of_ne hx]
      refine hE.of_standIns h (hmerging.operator_old hx hop)
        (hmerging.inputs_perm h.symmetric hsymmetric' hx hop) (List.cons_ne_nil _ _) (fun n => ?_)
        (fun i hi _ n => ?_) n
      · rw [List.flatMap_singleton, Merging.part_new]
        exact .refl _ _
      · rw [Merging.part_of_ne (hmerging.ne_new_of_reads (h.symmetric.linked.mem_inputs.1 hi)).2]
  case results =>
    rw [hmerging.wired.operator?]
    split
    · next hx =>
      rcases hx with rfl | hx
      · rw [hmerging.site.join]
        simp
      · obtain ⟨i, hi, rfl⟩ := List.mem_map.1 hx
        obtain ⟨s, hs⟩ := hmerging.site.exists_scan hi
        rw [hs]
        simp
    · split
      · next hx =>
        rw [hx, (Wired.of_linked hmerging.linked).eq_none_of_le le_rfl]
        simp
      · rfl
  case shown =>
    rw [Merging.part_of_ne (hmerging.ne_new hx)]
    exact ⟨rfl, fun _ => rfl⟩

end Merged

end Graph

/-! ## Copies of filters -/

namespace Operator

/-- The solutions that a filter keeps. -/
def sift {γ : Type} (op : Operator γ) (rows : List Row) : List Row :=
  ((solutionsIn rows).filter op.keeps).map .solution

section Sifting

variable {γ : Type} {op : Operator γ} {p : Precision} {l r : List Row}

/-- A filter lets nothing of nothing pass. -/
@[simp] theorem sift_nil : op.sift [] = [] := rfl

/-- A filter lets the solutions pass that it keeps. -/
theorem sift_map (found : List Solution) :
    op.sift (found.map .solution) = (found.filter op.keeps).map .solution := by
  rw [sift, solutionsIn_map]

/-- A filter goes through a list part by part. -/
theorem sift_flatMap {α : Type} (l : List α) (f : α → List Row) :
    op.sift (l.flatMap f) = l.flatMap fun a => op.sift (f a) := by
  simp only [sift, solutionsIn, List.filterMap_flatMap, List.filter_flatMap, List.map_flatMap]

/-- Filtering keeps agreement, except about emptiness alone. -/
theorem sift_agree (hp : p ≠ .emptiness) (h : p.Agree l r) : p.Agree (op.sift l) (op.sift r) :=
  ((h.filterMap hp _).filter hp _).map _

end Sifting

end Operator

namespace Graph

/-- Rows of copies of a filter: each has what it keeps of the rows of its input. -/
def withSifted {γ : Type} (first : Nat) (l : List Input) (op : Operator γ)
    (e : OperatorId → List Row) (x : OperatorId) : List Row :=
  if (x : Nat) < first then e x else (l[x - first]?).elim [] fun j => op.sift (e j.source)

section Copies

variable {γ : Type} {first : Nat} {l : List Input} {op : Operator γ} {e : OperatorId → List Row}
  {x : OperatorId} {i : Input}

/-- An old operator keeps its rows. -/
theorem withSifted_of_lt (hx : (x : Nat) < first) : withSifted first l op e x = e x := if_pos hx

/-- The copy over an input has the filtered rows of the input. -/
theorem withSifted_copyAt (hi : i ∈ l) :
    withSifted first l op e (copyAt first l i) = op.sift (e i.source) := by
  have hget : l[copyAt first l i - first]? = some i := by
    rw [copyAt, Nat.add_sub_cancel_left, List.getElem?_idxOf hi]
  have hnot : ¬ (copyAt first l i : Nat) < first := Nat.not_lt.2 (Nat.le_add_right _ _)
  rw [withSifted, if_neg hnot, hget]
  rfl

/-- At the start the copies have no rows either. -/
theorem withSifted_nil (he : ∀ x, e x = []) : withSifted first l op e x = [] := by
  unfold withSifted
  split
  · exact he x
  · cases l[x - first]? with
    | none => rfl
    | some j => simp [he]

/-- A filter is steadfast. -/
theorem Filters.steadfast (h : Filters op) : op.Steadfast := by
  rcases h.eq_filter_or with ⟨f, rfl⟩ | ⟨equalities, rfl⟩ <;> trivial

/-- A filter neither shows results nor cuts them. -/
theorem Filters.not_shown (h : Filters op) : op.kind ∉ [.result, .limit] := fun hmem => by
  rcases List.mem_pair.1 h.1 with he | he <;> simp [he] at hmem

/-- A filter is no source. -/
theorem Filters.not_source (h : Filters op) : op.kind ∉ [.scan, .probe, .service] := fun hmem => by
  rcases List.mem_pair.1 h.1 with he | he <;> simp [he] at hmem

/-- What a filter and its copies show does not depend on their place. -/
theorem Filters.result_iff {g : Graph γ} {u : OperatorId} {count : Nat} {form : ResultForm}
    (h : Filters op) (hlinked : g.Linked) (hop : g.operator? u = some op) :
    (if x = u then none else withCopies g.operator? g.slots.length count op x) =
      some (.result form) ↔ g.operator? x = some (.result form) := by
  have hresult : op ≠ .result form := by
    rintro rfl
    exact h.kind_ne (show Kind.result ∉ filterKinds by decide) rfl
  split
  · next hx => simp [hx, hop, hresult]
  · unfold withCopies
    split
    · next hx => simp [hresult, (Wired.of_linked hlinked).eq_none_of_le hx.1]
    · rfl

end Copies

section Filtering

variable {G G' : Graph Plan} {src : Source} {limit : Nat} {level : OperatorId → Precision}
  {E : History} {u x : OperatorId} {op : Operator Plan}

/-- A filter that succeeds in the first round filters whatever solutions it reads. -/
theorem Traced.emit_filters (hE : G.Traced src limit level E) (hop : G.operator? u = some op)
    (hfilters : Filters op) (id : OperatorId) (l : List (Nat × List Solution)) :
    (op.opened src limit).emit src id (solutionOperands l) =
      .ok (((l.flatMap Prod.snd).filter op.keeps).map .solution) := by
  obtain ⟨rows, hemit, -⟩ := hE.step 0 u op hop
  obtain ⟨found, -, -, hcopies⟩ := Operator.emit_filters hfilters.opened hemit
  rw [hcopies, Operator.opened, Operator.keeps_withNested]

/-- A filter reads solutions, and has those that it keeps. -/
theorem Traced.sift (h : G.Graded level) (hE : G.Traced src limit level E)
    (hop : G.operator? u = some op) (hfilters : Filters op) (n : Nat) :
    (∀ row ∈ (G.inputs u).flatMap (E.over n), ∃ s, row = .solution s) ∧
      (level u).Agree (op.sift ((G.inputs u).flatMap (E.over n))) (E (n + 1) u) := by
  obtain ⟨rows, hemit, hrows⟩ := hE.step n u op hop
  obtain ⟨found, hfound, rfl, -⟩ := Operator.emit_filters hfilters.opened hemit
  rw [Operator.opened, Operator.keeps_withNested, ← Operator.sift_map, ← hfound] at hrows
  have hperm : (G.deliver (E.over n) u).rows.Perm ((G.inputs u).flatMap (E.over n)) :=
    rows_deliver_perm (E.over n)
  refine ⟨fun row hrow => ?_, Precision.Agree.trans (Operator.sift_agree
    ((h.bears u op hop).ne_emptiness hfilters.not_shown) (.of_perm _ hperm.symm)) hrows⟩
  have hrow := hperm.mem_iff.2 hrow
  rw [hfound, List.mem_map] at hrow
  obtain ⟨s, -, rfl⟩ := hrow
  exact ⟨s, rfl⟩

/-- A copy of a filter that reads solutions of a single operator has those that it keeps. -/
theorem Traced.emit_copy (hE : G.Traced src limit level E) (hop : G.operator? u = some op)
    (hfilters : Filters op) {s : OperatorId} (hinputs : G'.inputs x = [⟨s, 0, false⟩])
    {read : Input → List Row} (hread : ∀ row ∈ read ⟨s, 0, false⟩, ∃ s, row = .solution s) :
    (op.opened src limit).emit src x (G'.deliver read x) = .ok (op.sift (read ⟨s, 0, false⟩)) := by
  have hmem (j : Input) (hj : j ∈ G'.inputs x) : j = ⟨s, 0, false⟩ := by simpa [hinputs] using hj
  rw [deliver_congr fun j hj => (hmem j hj ▸ (map_solutionsIn hread).symm :
      read j = (Operator.solutionsIn (read ⟨s, 0, false⟩)).map .solution),
    deliver_solutions fun _ => _, hE.emit_filters hop hfilters]
  simp [operandGroups, hinputs, distinctOf, Operator.sift]

end Filtering

/-! ## Filters that are distributed -/

/-- A graph of a query in which copies have taken the place of a filter with several inputs. -/
structure Splitting {γ : Type} (g g' : Graph γ) (u : OperatorId) (op : Operator γ) : Prop where
  symmetric : g.Symmetric
  symmetric' : g'.Symmetric
  sane : g.Sane
  site : g.DistributeSite u op
  wired : g'.Wired (g.slots.length + (g.inputs u).length)
    (fun x => if x = u then none
      else withCopies g.operator? g.slots.length (g.inputs u).length op x)
    (distributedReads g.Reads g.slots.length u ((g.inputs u).map Input.source))

namespace Splitting

open Distributing (part part_of_lt part_of_not_lt)

section Edges

variable {γ : Type} {g g' : Graph γ} {u x : OperatorId} {op op' : Operator γ}
  {i : Input}

/-- The copy for an input of the filter. -/
def copy (g : Graph γ) (u : OperatorId) (i : Input) : OperatorId :=
  copyAt g.slots.length (g.inputs u) i

/-- A copy is part of the operator it was made of. -/
theorem part_copy : part g u (copy g u i) = u := if_neg (Nat.not_lt.2 (Nat.le_add_right _ _))

/-- The identifiers of the copies lie beyond the old ones. -/
theorem not_copy_lt : ¬ (copy g u i : Nat) < g.slots.length := Nat.not_lt.2 (Nat.le_add_right _ _)

variable (h : g.Splitting g' u op)

include h

/-- The operator reads no input twice. -/
theorem nodup : (g.inputs u).Nodup := (h.symmetric.inputs_spec u).1

/-- The operator does not read itself. -/
theorem ne_source (hi : g.Reads u i) : i.source ≠ u := h.site.source_ne h.sane.orderly hi

/-- A copy reads an input of the filter. Others read what they have read, or copies in the place of
the filter. -/
theorem reads_cases (hi : g'.Reads x i) : (i ∈ g.inputs u ∧ x = copy g u i) ∨
    (x : Nat) < g.slots.length ∧ x ≠ u ∧ i.source ≠ u ∧
      g.Reads x ⟨part g u i.source, i.operand, i.feedback⟩ := by
  rcases (h.wired.reads x i).1 hi with ⟨hi, hx, hs⟩ | ⟨s, hs, rfl⟩ | ⟨s, hs, hi⟩
  · rw [part_of_lt (h.sane.lt_of_reads hi).2]
    exact .inr ⟨(h.sane.lt_of_reads hi).1, hx, hs, hi⟩
  · obtain ⟨j, hj, rfl, rfl⟩ := (copyOf_source_iff h.nodup).1 hs
    obtain ⟨hf, hk⟩ := h.site.forward j (h.symmetric.linked.mem_inputs.1 hj)
    have he : j = ⟨j.source, 0, false⟩ := Input.eq_iff.2 ⟨rfl, hk, hf⟩
    exact .inl ⟨he ▸ hj, congrArg (copy g u) he⟩
  · obtain ⟨j, hj, rfl, he⟩ := (copyOf_source_iff h.nodup).1 hs
    have hlt := h.sane.lt_of_reads hi
    refine .inr ⟨hlt.1, ?_, ?_, ?_⟩
    · rintro rfl
      exact h.ne_source hi rfl
    · rintro hu
      exact not_copy_lt (he ▸ hu ▸ hlt.2)
    · rw [he]
      exact part_copy.symm ▸ hi

/-- An old identifier other than the removed one holds what it held. -/
theorem operator_old (hx : (x : Nat) < g.slots.length) (hop : g'.operator? x = some op') :
    x ≠ u ∧ g.operator? x = some op' := old_of_copies hx ((h.wired.operator? x).symm.trans hop)

/-- A new identifier holds the operator, over one of its inputs. -/
theorem operator_new (hx : ¬ (x : Nat) < g.slots.length) (hop : g'.operator? x = some op') :
    op' = op ∧ ∃ i ∈ g.inputs u, x = copy g u i := by
  refine ⟨new_of_copies h.sane hx ((h.wired.operator? x).symm.trans hop), ?_⟩
  have hlt : (x : Nat) < g.slots.length + (g.inputs u).length := h.wired.lt_of_ne_none (by
    rw [← h.wired.operator?, hop]
    exact Option.some_ne_none _)
  obtain ⟨i, hi⟩ := exists_of_copy_bounds (l := g.inputs u) (Nat.not_lt.1 hx) hlt
  exact ⟨i, (copyOf_iff h.nodup).1 hi⟩

/-- A copy reads its one input on the first operand. -/
theorem inputs_copy (hi : i ∈ g.inputs u) : g'.inputs (copy g u i) = [⟨i.source, 0, false⟩] := by
  refine h.symmetric'.inputs_eq_singleton fun j => ⟨fun hj => ?_, ?_⟩
  · rcases h.reads_cases hj with ⟨hj, he⟩ | ⟨hlt, -⟩
    · obtain rfl := copyAt_inj hi he
      obtain ⟨hf, hk⟩ := h.site.forward i (h.symmetric.linked.mem_inputs.1 hi)
      exact Input.eq_iff.2 ⟨rfl, hk, hf⟩
    · exact absurd hlt not_copy_lt
  · rintro rfl
    exact (h.wired.reads _ _).2
      (.inr (.inl ⟨i.source, (copyOf_source_iff h.nodup).2 ⟨i, hi, rfl, rfl⟩, rfl⟩))

/-- Distributing keeps the graph threaded. -/
theorem threads (hthreads : Threads g.operator? g.Reads) : Threads g'.operator? g'.Reads := by
  have hu : u ≠ Graph.root := h.sane.ne_root h.site.operator (h.site.filters.kind_ne (by decide))
  have hold {x : OperatorId} {i : Input} (hi : g'.Reads x i) (hx : (x : Nat) < g.slots.length) :
      ∃ op', g.operator? x = some op' ∧ g'.operator? x = some op' := by
    obtain ⟨op', hop⟩ := exists_operator?_of_reads h.wired.linked hi
    exact ⟨op', (h.operator_old hx hop).2, hop⟩
  refine ⟨hthreads.single_of_origin (part g u) (fun x i y j =>
      ((x : Nat) < g.slots.length ∧ x ≠ u ∧ y = x ∧
        j = ⟨part g u i.source, i.operand, i.feedback⟩) ∨
        y = u ∧ j = i ∧ x = copy g u i)
    (fun x i hi hroot hx => ?origin) (fun x i x' i' y j ho ho' hsource => ?unique),
    fun x i hi hroot => ?sources, fun x i op' hi hop hkind => ?operands⟩
  case origin =>
    rcases h.reads_cases hi with ⟨hmem, rfl⟩ | ⟨hlt, hxu, -, hread⟩
    · have hread := h.symmetric.linked.mem_inputs.1 hmem
      refine ⟨u, i, .inr ⟨rfl, rfl, rfl⟩, hread, (part_of_lt (h.sane.lt_of_reads hread).2).symm,
        hroot, fun ⟨r, hr⟩ => ?_⟩
      obtain rfl := Option.some.inj (h.site.operator.symm.trans hr)
      exact h.site.filters.kind_ne (show Kind.replaceVar ∉ filterKinds by decide) rfl
    · refine ⟨x, _, .inl ⟨hlt, hxu, rfl, rfl⟩, hread, rfl, ?_, fun ⟨r, hr⟩ => hx ⟨r, ?_⟩⟩
      · unfold part
        split
        · exact hroot
        · exact hu
      · obtain ⟨op', hop, hop'⟩ := hold hi hlt
        rw [hop', ← hop, hr]
  case unique =>
    rcases ho with ⟨-, hxu, rfl, rfl⟩ | ⟨rfl, rfl, rfl⟩
    · rcases ho' with ⟨-, -, rfl, he⟩ | ⟨rfl, -⟩
      · obtain ⟨-, hoperand, hfeedback⟩ := Input.mk.inj he
        exact ⟨rfl, Input.eq_iff.2 ⟨hsource, hoperand, hfeedback⟩⟩
      · exact absurd rfl hxu
    · rcases ho' with ⟨-, hxu, rfl, -⟩ | ⟨-, rfl, rfl⟩
      · exact absurd rfl hxu
      · exact ⟨rfl, rfl⟩
  case sources =>
    rcases h.reads_cases hi with ⟨hmem, rfl⟩ | ⟨hlt, -, -, hread⟩
    · obtain ⟨-, op', hop, hkind⟩ :=
        hthreads.sources u i (h.symmetric.linked.mem_inputs.1 hmem) hroot
      obtain rfl := Option.some.inj (h.site.operator.symm.trans hop)
      exact absurd hkind h.site.filters.not_source
    · obtain ⟨op', hop, hop'⟩ := hold hi hlt
      rw [hop', ← hop]
      obtain ⟨he, hsource⟩ := hthreads.sources x _ hread
        (by rw [hroot]; exact part_of_lt h.sane.root_lt)
      obtain ⟨-, hoperand, hfeedback⟩ := Input.mk.inj he
      exact ⟨Input.eq_iff.2 ⟨hroot, hoperand, hfeedback⟩, hsource⟩
  case operands =>
    rcases h.reads_cases hi with ⟨hmem, rfl⟩ | ⟨hlt, -, -, hread⟩
    · exact (h.site.forward i (h.symmetric.linked.mem_inputs.1 hmem)).2
    · have hzero := hthreads.operands x _ op' hread (h.operator_old hlt hop).2 hkind
      exact hzero

/-- Who has read the filter reads the copies. -/
theorem inputs_perm (hx : (x : Nat) < g.slots.length) (hxu : x ≠ u) :
    (g'.inputs x).Perm ((g.inputs x).flatMap (standIns u ((g.inputs u).map (copy g u)))) := by
  refine inputs_perm_standIns h.symmetric h.symmetric'
    (h.nodup.map_on fun _ hi _ _ hij => copyAt_inj hi hij) (fun j => ?_) fun s hs k f _ hnew => ?_
  · rw [List.mem_map]
    constructor
    · intro hj
      rcases h.reads_cases hj with ⟨-, rfl⟩ | ⟨-, -, hs, hread⟩
      · exact absurd hx not_copy_lt
      · by_cases hlt : (j.source : Nat) < g.slots.length
        · rw [part_of_lt hlt] at hread
          exact .inl ⟨hread, hs⟩
        · obtain ⟨op', hop⟩ := exists_operator?_source h.wired.linked hj
          obtain ⟨-, i, hi, he⟩ := h.operator_new hlt hop
          rw [part_of_not_lt hlt] at hread
          exact .inr ⟨⟨i, hi, he.symm⟩, hread⟩
    · rintro (⟨hj, hs⟩ | ⟨⟨i, hi, he⟩, hread⟩)
      · exact (h.wired.reads _ _).2 (.inl ⟨hj, hxu, hs⟩)
      · exact (h.wired.reads _ _).2
          (.inr (.inr ⟨i.source, (copyOf_source_iff h.nodup).2 ⟨i, hi, rfl, he.symm⟩, hread⟩))
  · obtain ⟨i, -, rfl⟩ := List.mem_map.1 hs
    exact not_copy_lt (h.sane.lt_of_reads hnew).2

/-- Each new read follows an old one between the operators the ends are part of. -/
theorem feeds (hi : g'.Reads x i) : g.Feeds (part g u i.source) (part g u x) := by
  rcases h.reads_cases hi with ⟨hmem, rfl⟩ | ⟨hlt, -, -, hread⟩
  · have hread := h.symmetric.linked.mem_inputs.1 hmem
    rw [part_copy, part_of_lt (h.sane.lt_of_reads hread).2]
    exact .direct hread
  · rw [part_of_lt hlt]
    exact .of_source hread rfl

/-- Distributing keeps the graph graded. -/
theorem graded {level : OperatorId → Precision} (hgraded : g.Graded level) :
    g'.Graded fun x => level (part g u x) := by
  refine hgraded.along ⟨h.symmetric', h.threads hgraded.threads⟩ _ (part_of_lt h.sane.root_lt)
    (fun x op' hop => ?_) fun x i hi => h.feeds hi
  by_cases hx : (x : Nat) < g.slots.length
  · rw [part_of_lt hx]
    exact ⟨op', (h.operator_old hx hop).2, .refl op'⟩
  · rw [part_of_not_lt hx, (h.operator_new hx hop).1]
    exact ⟨op, h.site.operator, .refl op⟩

end Edges

end Splitting

section Distributed

variable {G G' : Graph Plan} {src : Source} {limit : Nat} {level : OperatorId → Precision}
  {E : History} {u : OperatorId} {op : Operator Plan}

/-- Copies may take the place of a filter with several inputs. -/
theorem Traced.distributed (h : G.Graded level) (hE : G.Traced src limit level E)
    (hsplitting : G.Splitting G' u op) :
    G.Mirrors G' src limit level (fun x => level (Distributing.part G u x)) E
      fun n => withSifted G.slots.length (G.inputs u) op (E n) := by
  have hop := hsplitting.site.operator
  have hfilters := hsplitting.site.filters
  have hread (n : Nat) (i : Input) (hi : i ∈ G.inputs u) : E.over n i = E (n + 1) i.source := by
    rw [History.over, (hsplitting.site.forward i (h.symmetric.linked.mem_inputs.1 hi)).1]
    rfl
  have hlt {x : OperatorId} {i : Input} (hi : i ∈ G.inputs x) : (i.source : Nat) < G.slots.length :=
    (hsplitting.sane.lt_of_reads (h.symmetric.linked.mem_inputs.1 hi)).2
  refine ⟨hsplitting.graded h, ⟨fun x => withSifted_nil hE.zero, fun n x op' hop' => ?step⟩,
    fun x hx => ⟨_, hx.along h.symmetric.linked hsplitting.symmetric'.linked _ fun _ _ =>
      hsplitting.feeds⟩, fun m n he => by rw [he], fun x form => ?results, fun x form hx => ?shown⟩
  case step =>
    by_cases hx : (x : Nat) < G.slots.length
    · obtain ⟨hxu, hold⟩ := hsplitting.operator_old hx hop'
      rw [Distributing.part_of_lt hx, withSifted_of_lt hx]
      refine hE.of_standIns h hold (hsplitting.inputs_perm hx hxu) ?_ (fun n => ?_)
        (fun i hi _ n => withSifted_of_lt (hlt hi)) n
      · refine List.map_eq_nil_iff.not.2 (List.ne_nil_of_length_pos ?_)
        exact Nat.lt_of_lt_of_le Nat.two_pos hsplitting.site.many
      · have hcopies : ((G.inputs u).map (Splitting.copy G u)).flatMap
            (withSifted G.slots.length (G.inputs u) op (E n)) =
              op.sift ((G.inputs u).flatMap fun i => E n i.source) := by
          rw [List.flatMap_map, Operator.sift_flatMap]
          exact List.flatMap_congr fun i hi => withSifted_copyAt hi
        rw [hcopies]
        cases n with
        | zero =>
            rw [hE.zero, List.flatMap_eq_nil_iff.2 fun i _ => hE.zero i.source]
            exact .refl _ []
        | succ n =>
            rw [← List.flatMap_congr fun i hi => hread n i hi]
            exact (hE.sift h hop hfilters n).2.symm
    · obtain ⟨rfl, i, hi, rfl⟩ := hsplitting.operator_new hx hop'
      have hsource : (History.over (fun n => withSifted G.slots.length (G.inputs u) op' (E n)) n)
          ⟨i.source, 0, false⟩ = E (n + 1) i.source := by
        have hi := hlt hi
        exact withSifted_of_lt hi
      refine ⟨_, hE.emit_copy hop hfilters (hsplitting.inputs_copy hi) fun row hrow => ?_, ?_⟩
      · refine (hE.sift h hop hfilters n).1 row (List.mem_flatMap.2 ⟨i, hi, ?_⟩)
        rwa [hread n i hi, ← hsource]
      · rw [hsource, Splitting.copy, withSifted_copyAt hi]
        exact .refl _ _
  case results =>
    rw [hsplitting.wired.operator?]
    exact hfilters.result_iff h.symmetric.linked hop
  case shown =>
    have hx := hsplitting.sane.lt hx
    exact ⟨congrArg level (Distributing.part_of_lt hx), fun n => withSifted_of_lt hx⟩

end Distributed

end Graph

end QuadAlgebra
