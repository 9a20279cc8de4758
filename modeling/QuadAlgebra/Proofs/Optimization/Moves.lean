import QuadAlgebra.Proofs.Optimization.Cascades

/-!
# Moves of operators

Rules move work from one place of a graph to another: an operator makes place for its inputs, copies
of a filter are put on edges, a scan takes the place of a join of scans, and scans take the place of
a renaming. Each move succeeds where the rule that makes it matches, and is described by the
operators and edges that it leaves.
-/

namespace QuadAlgebra

/-! ## Descriptions -/

section Descriptions

variable {γ α : Type} (ops : OperatorId → Option (Operator γ)) (reads : OperatorId → Input → Prop)

/-- What is read instead of an operator: each of its inputs, over the same operand. -/
def Bypass (u x : OperatorId) (i' : Input) : Prop :=
  ∃ i f, reads u i ∧ reads x ⟨u, i'.operand, f⟩ ∧
    i' = ⟨i.source, i'.operand, i.feedback || f⟩

/-- An operator makes place for its inputs. -/
def splicedReads (u x : OperatorId) (i : Input) : Prop :=
  (reads x i ∧ x ≠ u ∧ i.source ≠ u) ∨ Bypass reads u x i

/-- The operator with this number is the copy for an element of a list, where copies are numbered
from the given number on. -/
def CopyOf (first : Nat) (l : List α) (x : OperatorId) (a : α) : Prop :=
  ∃ k, l[k]? = some a ∧ x = first + k

/-- So many copies of an operator are added. -/
def withCopies (first n : Nat) (op : Operator γ) (x : OperatorId) : Option (Operator γ) :=
  if first ≤ x ∧ x < first + n then some op else ops x

/-- Copies, one for each producer, take the place of an operator. -/
def distributedReads (first : Nat) (u : OperatorId) (members : List OperatorId) (x : OperatorId)
    (i : Input) : Prop :=
  (reads x i ∧ x ≠ u ∧ i.source ≠ u) ∨
    (∃ s, CopyOf first members x s ∧ i = ⟨s, 0, false⟩) ∨
      ∃ s, CopyOf first members i.source s ∧ reads x ⟨u, i.operand, i.feedback⟩

/-- Copies stand on some edges to a consumer. -/
def insertedReads (first : Nat) (below : OperatorId) (l : List Input) (x : OperatorId)
    (i : Input) : Prop :=
  (reads x i ∧ ¬ (x = below ∧ ∃ j ∈ l, j.source = i.source)) ∨
    (∃ j, CopyOf first l x j ∧ i = ⟨j.source, 0, false⟩) ∨
      (x = below ∧ ∃ j, CopyOf first l i.source j ∧ i.operand = j.operand ∧
        i.feedback = j.feedback)

/-- Copies stand on some edges to the operator below another one, whose place it takes. -/
def loweredReads (first : Nat) (u below : OperatorId) (l : List Input) (x : OperatorId)
    (i : Input) : Prop :=
  (reads x i ∧ x ≠ u ∧ i.source ≠ u ∧ ¬ (x = below ∧ ∃ j ∈ l, j.source = i.source)) ∨
    (∃ j, CopyOf first l x j ∧ i = ⟨j.source, 0, false⟩) ∨
      (x = below ∧ ∃ j, CopyOf first l i.source j ∧ i.operand = j.operand ∧
        i.feedback = j.feedback) ∨
          i.source = below ∧ reads x ⟨u, i.operand, i.feedback⟩

/-- A new operator, which reads the root, takes the place of an operator and of those that only it
reads. -/
def mergedReads (first : Nat) (u : OperatorId) (sources : List OperatorId) (x : OperatorId)
    (i : Input) : Prop :=
  (reads x i ∧ x ≠ u ∧ i.source ≠ u ∧ x ∉ sources) ∨ (x = first ∧ i = ⟨Graph.root, 0, false⟩) ∨
    i.source = first ∧ reads x ⟨u, i.operand, i.feedback⟩

/-- Scans feed whoever has read a renaming, which does not read them any more. -/
def releasedReads (u : OperatorId) (done : List OperatorId) (x : OperatorId) (i : Input) : Prop :=
  (reads x i ∧ ¬ (x = u ∧ i.source ∈ done)) ∨ i.source ∈ done ∧ reads x ⟨u, i.operand, i.feedback⟩

end Descriptions

section Released

variable {reads : OperatorId → Input → Prop} {u x : OperatorId} {i : Input}

/-- One scan more is released. -/
theorem releasedReads_append_singleton {done : List OperatorId} {s : OperatorId}
    (hself : ∀ i, reads u i → i.source ≠ u) : releasedReads reads u (done ++ [s]) x i ↔
      (releasedReads reads u done x i ∧ ¬ (x = u ∧ i.source = s)) ∨
        i.source = s ∧ reads x ⟨u, i.operand, i.feedback⟩ := by
  simp only [releasedReads, List.mem_append, List.mem_singleton]
  constructor
  · rintro (⟨hi, hnot⟩ | ⟨hs | hs, hx⟩)
    · exact .inl ⟨.inl ⟨hi, fun hboth => hnot ⟨hboth.1, .inl hboth.2⟩⟩,
        fun hboth => hnot ⟨hboth.1, .inr hboth.2⟩⟩
    · refine .inl ⟨.inr ⟨hs, hx⟩, ?_⟩
      rintro ⟨rfl, -⟩
      exact hself _ hx rfl
    · exact .inr ⟨hs, hx⟩
  · rintro (⟨⟨hi, hnot⟩ | ⟨hs, hx⟩, hnot'⟩ | ⟨hs, hx⟩)
    · exact .inl ⟨hi, fun hboth => hboth.2.elim (fun hs => hnot ⟨hboth.1, hs⟩)
        fun hs => hnot' ⟨hboth.1, hs⟩⟩
    · exact .inr ⟨.inl hs, hx⟩
    · exact .inr ⟨.inr hs, hx⟩

/-- Once the renaming is taken out after all that it has read is released, it has made place for
its inputs. -/
theorem releasedReads_iff_splicedReads {sources : List OperatorId}
    (hself : ∀ i, reads u i → i.source ≠ u)
    (hinputs : ∀ i, reads u i → i.source ∈ sources ∧ i.feedback = false)
    (hread : ∀ s ∈ sources, ∃ i, reads u i ∧ i.source = s) :
    (releasedReads reads u sources x i ∧ x ≠ u ∧ i.source ≠ u) ↔ splicedReads reads u x i := by
  constructor
  · rintro ⟨⟨hi, -⟩ | ⟨hs, hx⟩, hx', hs'⟩
    · exact .inl ⟨hi, hx', hs'⟩
    · obtain ⟨j, hj, hjs⟩ := hread i.source hs
      refine .inr ⟨j, i.feedback, hj, hx, ?_⟩
      rw [hjs, (hinputs j hj).2, Bool.false_or]
  · rintro (⟨hi, hx, hs⟩ | ⟨j, f, hj, hx, he⟩)
    · exact ⟨.inl ⟨hi, fun hboth => hx hboth.1⟩, hx, hs⟩
    · rw [(hinputs j hj).2, Bool.false_or] at he
      have hsource : i.source = j.source := by rw [he]
      have hf : i.feedback = f := by rw [he]
      refine ⟨.inr ⟨hsource ▸ (hinputs j hj).1, hf ▸ hx⟩, ?_, hsource.trans_ne (hself j hj)⟩
      rintro rfl
      exact hself _ hx rfl

end Released

section CopyOf

variable {γ α : Type} {ops : OperatorId → Option (Operator γ)} {first n : Nat} {l : List α}
  {x y : OperatorId} {a b : α} {op : Operator γ}

theorem CopyOf.mem (h : CopyOf first l x a) : a ∈ l := by
  obtain ⟨k, hk, -⟩ := h
  exact List.mem_of_getElem? hk

theorem CopyOf.bounds (h : CopyOf first l x a) : first ≤ x ∧ x < first + l.length := by
  obtain ⟨k, hk, rfl⟩ := h
  obtain ⟨hlt, -⟩ := List.getElem?_eq_some_iff.1 hk
  exact ⟨Nat.le_add_right _ _, Nat.add_lt_add_left hlt _⟩

theorem CopyOf.unique (h : CopyOf first l x a) (h' : CopyOf first l x b) : a = b := by
  obtain ⟨k, hk, rfl⟩ := h
  obtain ⟨k', hk', he⟩ := h'
  obtain rfl : k = k' := Nat.add_left_cancel he
  exact Option.some.inj (hk.symm.trans hk')

theorem exists_copyOf (first : Nat) (ha : a ∈ l) : ∃ x, CopyOf first l x a := by
  obtain ⟨k, hk⟩ := List.mem_iff_getElem?.1 ha
  exact ⟨first + k, k, hk, rfl⟩

theorem exists_of_copy_bounds (hle : first ≤ x) (hlt : x < first + l.length) :
    ∃ a, CopyOf first l x a := by
  obtain ⟨k, rfl⟩ := Nat.exists_eq_add_of_le hle
  have hk : k < l.length := Nat.lt_of_add_lt_add_left hlt
  exact ⟨l[k], k, List.getElem?_eq_getElem hk, rfl⟩

@[simp] theorem not_copyOf_nil : ¬ CopyOf first ([] : List α) x a := by
  rintro ⟨k, hk, -⟩
  simp at hk

theorem copyOf_append_singleton :
    CopyOf first (l ++ [b]) x a ↔ CopyOf first l x a ∨ x = first + l.length ∧ a = b := by
  constructor
  · rintro ⟨k, hk, rfl⟩
    rcases Nat.lt_trichotomy k l.length with hlt | rfl | hgt
    · rw [List.getElem?_append_left hlt] at hk
      exact .inl ⟨k, hk, rfl⟩
    · simp only [List.getElem?_concat_length, Option.some.injEq] at hk
      exact .inr ⟨rfl, hk.symm⟩
    · rw [List.getElem?_eq_none (by simp; omega)] at hk
      cases hk
  · rintro (⟨k, hk, rfl⟩ | ⟨rfl, rfl⟩)
    · exact ⟨k, by rw [List.getElem?_append_left (List.getElem?_eq_some_iff.1 hk).1]; exact hk, rfl⟩
    · exact ⟨l.length, by simp, rfl⟩

theorem exists_copyOf_append {P : α → Prop} : (∃ a, CopyOf first (l ++ [b]) x a ∧ P a) ↔
    (∃ a, CopyOf first l x a ∧ P a) ∨ x = first + l.length ∧ P b := by
  simp only [copyOf_append_singleton, or_and_right, exists_or, and_assoc, exists_and_left,
    exists_eq_left]

theorem withCopies_zero : withCopies ops first 0 op x = ops x :=
  if_neg fun h => absurd h.2 (Nat.not_lt.2 h.1)

theorem withCopies_succ : (if x = first + n then some op else withCopies ops first n op x) =
    withCopies ops first (n + 1) op x := by
  unfold withCopies
  by_cases hx : x = first + n
  · subst hx
    rw [if_pos rfl, if_pos ⟨Nat.le_add_right _ _, Nat.lt_succ_self _⟩]
  · rw [if_neg hx]
    refine if_congr (and_congr_right fun _ => ⟨Nat.lt_succ_of_lt, fun hlt => ?_⟩) rfl rfl
    exact Nat.lt_of_le_of_ne (Nat.le_of_lt_succ hlt) hx

theorem withCopies_of_lt (hx : x < first) : withCopies ops first n op x = ops x :=
  if_neg fun h => absurd h.1 (Nat.not_le.2 hx)

theorem withCopies_of_copyOf (h : CopyOf first l x a) :
    withCopies ops first l.length op x = some op :=
  if_pos h.bounds

end CopyOf

/-- A scan with renamed variables. -/
def Operator.renamedScan {γ : Type} (r : VarMap) : Operator γ → Operator γ
  | .scan s => .scan (s.renamed r)
  | op => op

@[simp] theorem Operator.kind_renamedScan {γ : Type} (r : VarMap) (op : Operator γ) :
    (op.renamedScan r).kind = op.kind := by
  cases op <;> rfl

namespace Reshape

open Edit

variable {γ : Type} {w : Workspace γ} {id below : OperatorId} {op : Operator γ} {size : Nat}
  {ops : OperatorId → Option (Operator γ)} {reads : OperatorId → Input → Prop}

/-! ## Splicing -/

/-- The consumers of an operator are connected to its inputs, and it is removed. -/
theorem runs_splice (h : w.graph.Wired size ops reads) (hroot : id ≠ Graph.root)
    (hid : ops id ≠ none) {inputs : List Input} {outputs : List Edge}
    (hinputs : ∀ i, i ∈ inputs ↔ reads id i)
    (houtputs : ∀ e : Edge, e ∈ outputs ↔ reads e.target ⟨id, e.operand, e.feedback⟩)
    (hself : ∀ i, reads id i → i.source ≠ id) :
    (do inputs.forM fun i => outputs.forM fun e =>
          connect i.source e.target e.operand (i.feedback || e.feedback)
        remove id : Reshape γ Unit).Runs w fun _ w' =>
      w'.graph.Wired size (fun x => if x = id then none else ops x) (splicedReads reads id) := by
  have hlive (i : Input) (hi : i ∈ inputs) : ops i.source ≠ none :=
    (h.ends_of_reads ((hinputs i).1 hi)).2
  have hlive' (e : Edge) (he : e ∈ outputs) : ops e.target ≠ none :=
    (h.ends_of_reads ((houtputs e).1 he)).1
  have hconnect : (inputs.forM fun i => outputs.forM fun e =>
      connect i.source e.target e.operand (i.feedback || e.feedback)).Runs w fun _ w' =>
        w'.graph.Wired size ops fun x i => reads x i ∨ ∃ j ∈ inputs, ∃ e ∈ outputs,
          x = e.target ∧ i = ⟨j.source, e.operand, j.feedback || e.feedback⟩ := by
    refine runs_forM_of_step (fun (done : List Input) (w' : Workspace γ) =>
      w'.graph.Wired size ops fun x i => reads x i ∨ ∃ j ∈ done, ∃ e ∈ outputs,
        x = e.target ∧ i = ⟨j.source, e.operand, j.feedback || e.feedback⟩)
      (h.congr (fun _ => rfl) (by simp)) fun done j rest hl w₁ h₁ => ?_
    refine (runs_forM_of_step (fun (done' : List Edge) (w' : Workspace γ) =>
      w'.graph.Wired size ops fun x i => (reads x i ∨ ∃ j ∈ done, ∃ e ∈ outputs,
        x = e.target ∧ i = ⟨j.source, e.operand, j.feedback || e.feedback⟩) ∨
          ∃ e ∈ done', x = e.target ∧ i = ⟨j.source, e.operand, j.feedback || e.feedback⟩)
      (h₁.congr (fun _ => rfl) (by simp)) fun done' e rest' hl' w₂ h₂ => ?_).mono
        fun _ w₂ h₂ => h₂.congr (fun _ => rfl) fun x i => ?_
    · refine (runs_connect h₂ e.operand (j.feedback || e.feedback) (hlive j (by simp [hl]))
        (hlive' e (by simp [hl']))).mono fun _ _ h₃ => h₃.congr (fun _ => rfl) fun x i => ?_
      simp only [List.mem_append, List.mem_singleton, or_and_right, exists_or, exists_eq_left,
        or_assoc]
    · simp only [List.mem_append, List.mem_singleton, or_and_right, exists_or, exists_eq_left,
        or_assoc]
  refine hconnect.bind fun _ w₁ h₁ => (runs_remove h₁ hroot hid).mono fun _ w₂ h₂ =>
    h₂.congr (fun _ => rfl) fun x i => ?_
  constructor
  · rintro ⟨hi | ⟨j, hj, e, he, rfl, rfl⟩, hx, hsource⟩
    · exact .inl ⟨hi, hx, hsource⟩
    · exact .inr ⟨j, e.feedback, (hinputs j).1 hj, (houtputs e).1 he, rfl⟩
  · rintro (⟨hi, hx, hsource⟩ | ⟨j, f, hj, hx, he⟩)
    · exact ⟨.inl hi, hx, hsource⟩
    · refine ⟨.inr ⟨j, (hinputs j).2 hj, ⟨x, i.operand, f⟩, (houtputs _).2 hx, rfl, he⟩, ?_, ?_⟩
      · rintro rfl
        exact hself _ hx rfl
      · rw [he]
        exact hself j hj

/-! ## Copies of a filter -/

/-- A copy of the operator for each of some producers takes the place of the operator. -/
theorem runs_distribute (h : w.graph.Wired size ops reads) (hroot : id ≠ Graph.root)
    (hop : ops id = some op) {members : List OperatorId}
    (hmembers : ∀ s ∈ members, ops s ≠ none ∧ s ≠ id) (hself : ∀ i, reads id i → i.source ≠ id) :
    (PlanRule.distribute id members).Runs w fun _ w' =>
      w'.graph.Wired (size + members.length)
        (fun x => if x = id then none else withCopies ops size members.length op x)
        (distributedReads reads size id members) := by
  have hlt : id < size := h.lt_of_ne_none (by simp [hop])
  have houtput (e : Edge) : e ∈ w.graph.succeeding id ↔
      reads e.target ⟨id, e.operand, e.feedback⟩ := h.mem_succeeding
  have hconsumer (e : Edge) (he : e ∈ w.graph.succeeding id) :
      e.target < size ∧ ops e.target ≠ none ∧ e.target ≠ id := by
    have hlive := (h.ends_of_reads ((houtput e).1 he)).1
    refine ⟨h.lt_of_ne_none hlive, hlive, fun heq => ?_⟩
    have hread := (houtput e).1 he
    rw [heq] at hread
    exact hself _ hread rfl
  unfold PlanRule.distribute
  refine runs_bind.2 (runs_operator ((h.operator? id).trans hop) (runs_bind.2 (runs_look ?_)))
  refine (runs_remove h hroot (by simp [hop])).bind fun _ w₁ h₁ => ?_
  refine (runs_forM_of_step (fun (done : List OperatorId) (w' : Workspace γ) =>
    w'.graph.Wired (size + done.length)
      (fun x => if x = id then none else withCopies ops size done.length op x)
      (distributedReads reads size id done))
    (h₁.congr (fun x => ?_) fun x i => ?_) fun done s rest hl w₂ h₂ => ?_)
  · rw [List.length_nil, withCopies_zero]
  · simp [distributedReads]
  · obtain ⟨hs, hsid⟩ := hmembers s (by simp [hl])
    have hslt : s < size := h.lt_of_ne_none hs
    have hkept {x : OperatorId} (hx : x < size) (hlive : ops x ≠ none) (hne : x ≠ id) :
        (if x = id then none else withCopies ops size done.length op x) ≠ none := by
      rwa [if_neg hne, withCopies_of_lt hx]
    refine (runs_above h₂ op (hkept hslt hs hsid)).bind fun n w₃ ⟨hn, h₃⟩ => ?_
    subst hn
    refine (runs_feedAll h₃ (by simp) fun e he => ?_).mono fun _ w₄ h₄ => ?_
    · obtain ⟨hlt', hlive, hne⟩ := hconsumer e he
      rw [if_neg (Nat.lt_of_lt_of_le hlt' (Nat.le_add_right _ _)).ne]
      exact hkept hlt' hlive hne
    · rw [List.length_append, List.length_singleton, ← Nat.add_assoc]
      refine h₄.congr (fun x => ?_) fun x i => ?_
      · rw [← withCopies_succ]
        by_cases hx : x = size + done.length
        · subst hx
          have hne : size + done.length ≠ id :=
            (Nat.lt_of_lt_of_le hlt (Nat.le_add_right _ _)).ne'
          rw [if_pos rfl, if_neg hne, if_pos rfl]
        · rw [if_neg hx, if_neg hx]
      · have hfed : (∃ e ∈ w.graph.succeeding id,
            x = e.target ∧ i = ⟨size + done.length, e.operand, e.feedback⟩) ↔
              i.source = size + done.length ∧ reads x ⟨id, i.operand, i.feedback⟩ := by
          constructor
          · rintro ⟨e, he, rfl, rfl⟩
            exact ⟨rfl, (houtput e).1 he⟩
          · rintro ⟨hsource, hread⟩
            exact ⟨⟨x, i.operand, i.feedback⟩, (houtput _).2 hread, rfl, by rw [← hsource]⟩
        unfold distributedReads
        rw [exists_copyOf_append, exists_copyOf_append, hfed, or_or_or_comm, or_assoc, or_assoc,
          or_assoc]

/-- A copy of the operator is put on each of some edges to a consumer. -/
theorem runs_insertCopies (h : w.graph.Wired size ops reads) (op : Operator γ) {l : List Input}
    (hl : ∀ j ∈ l, reads below j) (hbelow : ops below ≠ none) :
    (l.forM fun i => do
      let _ ← insertBetween i below op : Reshape γ Unit).Runs w fun _ w' =>
        w'.graph.Wired (size + l.length) (withCopies ops size l.length op)
          (insertedReads reads size below l) := by
  have hblt : below < size := h.lt_of_ne_none hbelow
  have hsource (j : Input) (hj : j ∈ l) : ops j.source ≠ none := (h.ends_of_reads (hl j hj)).2
  refine runs_forM_of_step (fun (done : List Input) (w' : Workspace γ) =>
    w'.graph.Wired (size + done.length) (withCopies ops size done.length op)
      (insertedReads reads size below done))
    (h.congr (fun x => withCopies_zero.symm) fun x i => by simp [insertedReads])
      fun done j rest hdone w₁ h₁ => ?_
  have hj : j ∈ l := by simp [hdone]
  have hlive {x : OperatorId} (hx : ops x ≠ none) :
      withCopies ops size done.length op x ≠ none := by
    rwa [withCopies_of_lt (h.lt_of_ne_none hx)]
  refine (runs_insertBetween h₁ op (hlive (hsource j hj)) (hlive hbelow)).bind
    fun n w₂ ⟨hn, h₂⟩ => runs_pure.2 ?_
  subst hn
  rw [List.length_append, List.length_singleton, ← Nat.add_assoc]
  refine h₂.congr (fun x => withCopies_succ) fun x i => ?_
  constructor
  · rintro (⟨⟨hi, hnot⟩ | ⟨j', hcopy, he⟩ | ⟨hx, j', hcopy, hk⟩, hnew⟩ | ⟨hx, he⟩ | ⟨hx, rfl⟩)
    · refine .inl ⟨hi, ?_⟩
      rintro ⟨hx, j', hj', hs⟩
      rcases List.mem_append.1 hj' with hj' | hj'
      · exact hnot ⟨hx, j', hj', hs⟩
      · exact hnew ⟨hx, by rw [← hs, List.mem_singleton.1 hj']⟩
    · exact .inr (.inl ⟨j', copyOf_append_singleton.2 (.inl hcopy), he⟩)
    · exact .inr (.inr ⟨hx, j', copyOf_append_singleton.2 (.inl hcopy), hk⟩)
    · exact .inr (.inl ⟨j, copyOf_append_singleton.2 (.inr ⟨hx, rfl⟩), he⟩)
    · exact .inr (.inr ⟨hx, j, copyOf_append_singleton.2 (.inr ⟨rfl, rfl⟩), rfl, rfl⟩)
  · rintro (⟨hi, hnot⟩ | ⟨j', hcopy, he⟩ | ⟨hx, j', hcopy, hk⟩)
    · refine .inl ⟨.inl ⟨hi, ?_⟩, ?_⟩
      · rintro ⟨hx, j', hj', hs⟩
        exact hnot ⟨hx, j', List.mem_append_left _ hj', hs⟩
      · rintro ⟨hx, hs⟩
        exact hnot ⟨hx, j, by simp, hs.symm⟩
    · rcases copyOf_append_singleton.1 hcopy with hcopy | ⟨hx, rfl⟩
      · refine .inl ⟨.inr (.inl ⟨j', hcopy, he⟩), ?_⟩
        rintro ⟨rfl, -⟩
        exact absurd hblt (Nat.not_lt.2 hcopy.bounds.1)
      · exact .inr (.inl ⟨hx, he⟩)
    · rcases copyOf_append_singleton.1 hcopy with hcopy | ⟨hs, rfl⟩
      · refine .inl ⟨.inr (.inr ⟨hx, j', hcopy, hk⟩), ?_⟩
        rintro ⟨-, hs⟩
        exact absurd (h.lt_of_ne_none (hsource j hj)) (Nat.not_lt.2 (hs ▸ hcopy.bounds.1))
      · refine .inr (.inr ⟨hx, ?_⟩)
        rw [← hs, ← hk.1, ← hk.2]

/-- Copies of the operator are put on edges to the operator below it, which takes its place. -/
theorem runs_lower (h : w.graph.Wired size ops reads) (hroot : id ≠ Graph.root)
    (hop : ops id = some op) (hbelow : ops below ≠ none) (hne : below ≠ id)
    {targets : List OperatorId} {l : List Input}
    (hl : l = (w.graph.inputs below).filter fun i => targets.contains i.source)
    (hsource : ∀ j ∈ l, j.source ≠ id) (hself : ∀ i, reads id i → i.source ≠ id) :
    (PlanRule.lower id below targets).Runs w fun _ w' =>
      w'.graph.Wired (size + l.length)
        (fun x => if x = id then none else withCopies ops size l.length op x)
        (loweredReads reads size id below l) := by
  have hlt : id < size := h.lt_of_ne_none (by simp [hop])
  have hmem (j : Input) (hj : j ∈ l) : reads below j := by
    rw [hl] at hj
    exact h.mem_inputs.1 (List.mem_filter.1 hj).1
  unfold PlanRule.lower
  refine runs_bind.2 (runs_operator ((h.operator? id).trans hop) (runs_bind.2 (runs_look ?_)))
  rw [← hl]
  refine (runs_insertCopies h op hmem hbelow).bind fun _ w₁ h₁ => ?_
  have hlive {x : OperatorId} (hx : ops x ≠ none) : withCopies ops size l.length op x ≠ none := by
    rwa [withCopies_of_lt (h.lt_of_ne_none hx)]
  have hoverlook {x : OperatorId} {j : Input} (hcopy : CopyOf size l x j) : x ≠ id :=
    (Nat.lt_of_lt_of_le hlt hcopy.bounds.1).ne'
  have houtput (e : Edge) : e ∈ w₁.graph.succeeding id ↔
      reads e.target ⟨id, e.operand, e.feedback⟩ := by
    rw [h₁.mem_succeeding]
    constructor
    · rintro (⟨hi, -⟩ | ⟨j, hcopy, he⟩ | ⟨-, j, hcopy, -⟩)
      · exact hi
      · exact absurd (congrArg Input.source he).symm (hsource j hcopy.mem)
      · exact absurd rfl (hoverlook hcopy)
    · refine fun hi => .inl ⟨hi, ?_⟩
      rintro ⟨-, j, hj, hs⟩
      exact hsource j hj hs
  refine runs_bind.2 (runs_look ((runs_remove h₁ hroot (hlive (by simp [hop]))).bind
    fun _ w₂ h₂ => ?_))
  have hlive' {x : OperatorId} (hx : ops x ≠ none) (hne : x ≠ id) :
      (if x = id then none else withCopies ops size l.length op x) ≠ none := by
    rw [if_neg hne]
    exact hlive hx
  refine (runs_feedAll h₂ (hlive' hbelow hne) fun e he => ?_).mono fun _ w₃ h₃ =>
    h₃.congr (fun _ => rfl) fun x i => ?_
  · have hread := (houtput e).1 he
    refine hlive' (h.ends_of_reads hread).1 fun heq => ?_
    rw [heq] at hread
    exact hself _ hread rfl
  · constructor
    · rintro (⟨⟨hi, hnot⟩ | ⟨j, hcopy, he⟩ | ⟨hx, j, hcopy, hk⟩, hx', hs'⟩ | ⟨e, he, rfl, rfl⟩)
      · exact .inl ⟨hi, hx', hs', hnot⟩
      · exact .inr (.inl ⟨j, hcopy, he⟩)
      · exact .inr (.inr (.inl ⟨hx, j, hcopy, hk⟩))
      · exact .inr (.inr (.inr ⟨rfl, (houtput e).1 he⟩))
    · rintro (⟨hi, hx', hs', hnot⟩ | ⟨j, hcopy, rfl⟩ | ⟨rfl, j, hcopy, hk⟩ | ⟨rfl, hi⟩)
      · exact .inl ⟨.inl ⟨hi, hnot⟩, hx', hs'⟩
      · exact .inl ⟨.inr (.inl ⟨j, hcopy, rfl⟩), hoverlook hcopy, hsource j hcopy.mem⟩
      · exact .inl ⟨.inr (.inr ⟨rfl, j, hcopy, hk⟩), hne, hoverlook hcopy⟩
      · exact .inr ⟨⟨x, i.operand, i.feedback⟩, (houtput _).2 hi, rfl, rfl⟩

/-! ## Scans -/

theorem runs_expectScan {rule : String} {scan : IndexScan} {post : IndexScan → Workspace γ → Prop}
    (hop : w.graph.operator? id = some (.scan scan)) (h : post scan w) :
    (PlanRule.expectScan rule id).Runs w post := by
  unfold PlanRule.expectScan
  exact runs_bind.2 (runs_operator hop (runs_pure.2 h))

theorem runs_mapM_expectScan {rule : String} {sources : List OperatorId} {scans : List IndexScan}
    (h : List.Forall₂ (fun s scan => w.graph.operator? s = some (.scan scan)) sources scans) :
    (sources.mapM (PlanRule.expectScan rule)).Runs w fun r w' => r = scans ∧ w' = w := by
  induction h with
  | nil =>
      rw [List.mapM_nil]
      exact runs_pure.2 ⟨rfl, rfl⟩
  | cons hscan _ ih =>
      rw [List.mapM_cons]
      refine runs_bind.2 (runs_expectScan hscan (ih.bind fun r w' hr => ?_))
      obtain ⟨rfl, rfl⟩ := hr
      exact runs_pure.2 ⟨rfl, rfl⟩

/-- Operators are removed one after the other, with all edges to and from them. -/
theorem runs_forM_remove (h : w.graph.Wired size ops reads) {l : List OperatorId} (hnodup : l.Nodup)
    (hl : ∀ s ∈ l, ops s ≠ none ∧ s ≠ Graph.root) :
    (l.forM remove : Reshape γ Unit).Runs w fun _ w' =>
      w'.graph.Wired size (fun x => if x ∈ l then none else ops x) fun x i =>
        reads x i ∧ x ∉ l ∧ i.source ∉ l := by
  refine runs_forM_of_step (fun (done : List OperatorId) (w' : Workspace γ) =>
    w'.graph.Wired size (fun x => if x ∈ done then none else ops x) fun x i =>
      reads x i ∧ x ∉ done ∧ i.source ∉ done)
    (h.congr (fun x => by simp) fun x i => by simp) fun done s rest hdone w' h' => ?_
  obtain ⟨hlive, hroot⟩ := hl s (by simp [hdone])
  have hnew : s ∉ done := by
    rw [hdone, List.nodup_middle, List.nodup_cons] at hnodup
    exact fun hs => hnodup.1 (List.mem_append_left _ hs)
  refine (runs_remove h' hroot (by rwa [if_neg hnew])).mono fun _ w'' h'' =>
    h''.congr (fun x => ?_) fun x i => ?_
  · by_cases hx : x = s <;> simp [hx]
  · simp only [List.mem_append, List.mem_singleton, not_or]
    tauto

/-- A scan takes the place of a join and of the scans that only the join reads. -/
theorem runs_mergeScans (h : w.graph.Wired size ops reads) {scan : IndexScan}
    {sources : List OperatorId} (hroot : ops Graph.root = some .root) (hid : ops id ≠ none)
    (hne : id ≠ Graph.root) (hself : ∀ i, reads id i → i.source ≠ id)
    (hnodup : sources.Nodup) (hsources : ∀ s ∈ sources, ops s ≠ none ∧ s ≠ id ∧ s ≠ Graph.root)
    (honly : ∀ x i, reads x i → i.source ∈ sources → x = id)
    (hroots : ∀ s ∈ sources, ∀ i, reads s i → i.source = Graph.root) :
    (do let n ← add (.scan scan)
        connect Graph.root n 0 false
        redirectOutputs id n
        remove id
        sources.forM remove : Reshape γ Unit).Runs w fun _ w' =>
      w'.graph.Wired (size + 1) (fun x => if x = id ∨ x ∈ sources then none
        else if x = size then some (.scan scan) else ops x)
          (mergedReads reads size id sources) := by
  have hlt {x : OperatorId} (hx : ops x ≠ none) : x ≠ size := (h.lt_of_ne_none hx).ne
  refine (runs_add h (.scan scan)).bind fun n w₁ ⟨hn, h₁⟩ => ?_
  subst hn
  refine (runs_connect h₁ 0 false (by rw [if_neg (hlt (by simp [hroot]))]; simp [hroot])
    (by simp)).bind fun _ w₂ h₂ => ?_
  refine (runs_redirectOutputs h₂ (hlt hid) (by rwa [if_neg (hlt hid)]) (by simp)).bind
    fun _ w₃ h₃ => ?_
  refine (runs_remove h₃ hne (by rwa [if_neg (hlt hid)])).bind fun _ w₄ h₄ => ?_
  refine (runs_forM_remove h₄ hnodup fun s hs => ?_).mono fun _ w₅ h₅ =>
    h₅.congr (fun x => ?_) fun x i => ?_
  · obtain ⟨hlive, hsid, hsroot⟩ := hsources s hs
    rw [if_neg hsid, if_neg (hlt hlive)]
    exact ⟨hlive, hsroot⟩
  · by_cases hx : x = id <;> simp [hx]
  constructor
  · rintro ⟨⟨⟨hi | ⟨hx, he⟩, -⟩ | ⟨hs, hi | ⟨-, he⟩⟩, hx', hs'⟩, hmem, -⟩
    · exact .inl ⟨hi, hx', hs', hmem⟩
    · exact .inr (.inl ⟨hx, he⟩)
    · exact .inr (.inr ⟨hs, hi⟩)
    · exact absurd (congrArg Input.source he) hne
  · rintro (⟨hi, hx, hs, hmem⟩ | ⟨rfl, rfl⟩ | ⟨hs, hi⟩)
    · exact ⟨⟨.inl ⟨.inl hi, hs⟩, hx, hs⟩, hmem, fun hmem' => hx (honly x i hi hmem')⟩
    · exact ⟨⟨.inl ⟨.inr ⟨rfl, rfl⟩, hne.symm⟩, (hlt hid).symm, hne.symm⟩,
        fun hmem => hlt (hsources _ hmem).1 rfl, fun hmem => (hsources _ hmem).2.2 rfl⟩
    · refine ⟨⟨.inr ⟨hs, .inl hi⟩, ?_, hs.trans_ne (hlt hid).symm⟩, fun hmem => ?_, fun hmem => ?_⟩
      · rintro rfl
        exact hself _ hi rfl
      · exact hne (hroots x hmem _ hi)
      · exact hlt (hsources _ hmem).1 hs

/-- One scan whose variables are renamed feeds whoever has read a renaming, and the renaming does
not read it any more. -/
theorem runs_renameScan (h : w.graph.Wired size ops reads) {s : OperatorId} {scan : IndexScan}
    (hscan : ops s = some (.scan scan)) (hid : ops id ≠ none) {r : VarMap} {outputs : List Edge}
    (houtputs : ∀ e ∈ outputs, ops e.target ≠ none) :
    (PlanRule.renameScan id r outputs s : Reshape γ Unit).Runs w fun _ w' => w'.graph.Wired size
      (fun x => if x = s then (ops x).map (Operator.renamedScan r) else ops x)
      fun x i => (reads x i ∧ ¬ (x = id ∧ i.source = s)) ∨
        ∃ e ∈ outputs, x = e.target ∧ i = ⟨s, e.operand, e.feedback⟩ := by
  have hlive {x : OperatorId} (hx : ops x ≠ none) :
      (if x = s then some (.scan (scan.renamed r)) else ops x) ≠ none := by
    split
    · exact Option.some_ne_none _
    · exact hx
  have hscan' : w.graph.operator? s = some (.scan scan) := (h.operator? s).trans hscan
  unfold PlanRule.renameScan
  refine runs_bind.2 (runs_expectScan hscan' ?_)
  refine (runs_replaceOperator h (.scan (scan.renamed r)) (by simp [hscan])).bind fun _ w₁ h₁ => ?_
  refine (runs_disconnect h₁ (by simp) (hlive hid)).bind fun _ w₂ h₂ => ?_
  refine (runs_feedAll h₂ (by simp) fun e he => hlive (houtputs e he)).mono fun _ w₃ h₃ =>
    h₃.congr (fun x => ?_) fun x i => Iff.rfl
  by_cases hx : x = s
  · subst hx
    simp [hscan, Operator.renamedScan]
  · simp [hx]

/-- Scans whose variables are renamed take the place of a renaming that reads them. -/
theorem runs_renameScans (h : w.graph.Wired size ops reads) (hid : ops id ≠ none)
    (hne : id ≠ Graph.root) (hself : ∀ i, reads id i → i.source ≠ id) {r : VarMap}
    {sources : List OperatorId} (hnodup : sources.Nodup)
    (hsources : ∀ s ∈ sources, ∃ scan, ops s = some (.scan scan)) {outputs : List Edge}
    (houtputs : ∀ e : Edge, e ∈ outputs ↔ reads e.target ⟨id, e.operand, e.feedback⟩)
    (hinputs : ∀ i, reads id i → i.source ∈ sources ∧ i.feedback = false)
    (hread : ∀ s ∈ sources, ∃ i, reads id i ∧ i.source = s) :
    (do sources.forM (PlanRule.renameScan id r outputs)
        remove id : Reshape γ Unit).Runs w fun _ w' =>
      w'.graph.Wired size (fun x => if x = id then none
        else if x ∈ sources then (ops x).map (Operator.renamedScan r) else ops x)
        (splicedReads reads id) := by
  have hlive (done : List OperatorId) {x : OperatorId} (hx : ops x ≠ none) :
      (if x ∈ done then (ops x).map (Operator.renamedScan r) else ops x) ≠ none := by
    split <;> simpa using hx
  refine (runs_forM_of_step (fun (done : List OperatorId) (w' : Workspace γ) =>
    w'.graph.Wired size
      (fun x => if x ∈ done then (ops x).map (Operator.renamedScan r) else ops x)
      (releasedReads reads id done))
    (h.congr (fun x => by simp) fun x i => by simp [releasedReads])
    fun done s rest hdone w₁ h₁ => ?step).bind fun _ w₁ h₁ =>
      (runs_remove h₁ hne (hlive sources hid)).mono fun _ w₂ h₂ =>
        h₂.congr (fun _ => rfl) fun _ _ => releasedReads_iff_splicedReads hself hinputs hread
  case step =>
    obtain ⟨scan, hscan⟩ := hsources s (by simp [hdone])
    have hnew : s ∉ done := by
      rw [hdone, List.nodup_middle, List.nodup_cons] at hnodup
      exact fun hs => hnodup.1 (List.mem_append_left _ hs)
    refine (runs_renameScan h₁ (by rw [if_neg hnew, hscan]) (hlive done hid) fun e he => hlive done
      (h.ends_of_reads ((houtputs e).1 he)).1).mono fun _ w₂ h₂ =>
        h₂.congr (fun x => ?_) fun x i => ?_
    · by_cases hx : x = s <;> simp [hx, hnew]
    · rw [releasedReads_append_singleton hself]
      refine or_congr_right ?_
      constructor
      · rintro ⟨e, he, rfl, rfl⟩
        exact ⟨rfl, (houtputs e).1 he⟩
      · rintro ⟨rfl, hx⟩
        exact ⟨⟨x, i.operand, i.feedback⟩, (houtputs _).2 hx, rfl, rfl⟩

end Reshape

end QuadAlgebra
