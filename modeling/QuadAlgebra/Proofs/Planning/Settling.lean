import QuadAlgebra.Proofs.Planning.Growth
import QuadAlgebra.Proofs.Semantics.Emission

/-!
# Operators that settle

Round after round an operator may come to hold more solutions. It settles at a set of solutions when
it never holds any other, and holds each of the set from some round on (`Settles`); unless it may be
late, it holds the whole set from the first round on. A drawing places operators that settle at
given sets when they do so in every graph that has its operators (`Placed`). Drawings can be chained
(`Placed.append`) and be given one operator more, before or after what it reads
(`Placed.addedBefore`, `Placed.addedAfter`).
-/

namespace QuadAlgebra

/-! ## Settling -/

/-- A statement about rounds that holds from some round on, and from the first one unless it may be
late. -/
def Lasts (late : Prop) (P : Nat → Prop) : Prop := ∃ start, (start = 0 ∨ late) ∧ ∀ n ≥ start, P n

namespace Lasts

variable {late : Prop} {P Q : Nat → Prop}

/-- What always holds holds from some round on. -/
theorem always (h : ∀ n, P n) : Lasts late P := ⟨0, .inl rfl, fun n _ => h n⟩

/-- What follows from something that lasts lasts, too. -/
theorem imp (h : Lasts late P) (hPQ : ∀ n, P n → Q n) : Lasts late Q := by
  obtain ⟨start, hlate, hP⟩ := h
  exact ⟨start, hlate, fun n hn => hPQ n (hP n hn)⟩

/-- Two things that last hold together from some round on. -/
theorem and (hP : Lasts late P) (hQ : Lasts late Q) : Lasts late fun n => P n ∧ Q n := by
  obtain ⟨first, hfirst, hP⟩ := hP
  obtain ⟨second, hsecond, hQ⟩ := hQ
  refine ⟨max first second, ?_, fun n hn => ⟨hP n (by omega), hQ n (by omega)⟩⟩
  rcases hfirst with hfirst | hlate
  · rcases hsecond with hsecond | hlate
    · exact .inl (by omega)
    · exact .inr hlate
  · exact .inr hlate

/-- Finitely many things that last hold together from some round on. -/
theorem forall₂ {α β : Type} {R : Nat → α → β → Prop} {as : List α} {bs : List β}
    (h : List.Forall₂ (fun a b => Lasts late fun n => R n a b) as bs) :
    Lasts late fun n => List.Forall₂ (R n) as bs := by
  induction h with
  | nil => exact always fun n => .nil
  | cons hab _ ih => exact (hab.and ih).imp fun n hn => .cons hn.1 hn.2

theorem forall_mem {α : Type} {P : Nat → α → Prop} {as : List α}
    (h : ∀ a ∈ as, Lasts late fun n => P n a) : Lasts late fun n => ∀ a ∈ as, P n a := by
  induction as with
  | nil => exact always fun n a ha => absurd ha List.not_mem_nil
  | cons a as ih =>
      have hrest := ih fun b hb => h b (List.mem_cons_of_mem _ hb)
      exact ((h a List.mem_cons_self).and hrest).imp fun n hn => List.forall_mem_cons.2 hn

/-- What holds a round later is late. -/
theorem delay (h : Lasts True P) (hPQ : ∀ n, P n → Q (n + 1)) : Lasts True Q := by
  obtain ⟨start, -, hP⟩ := h
  refine ⟨start + 1, .inr trivial, fun n hn => ?_⟩
  obtain ⟨k, rfl⟩ : ∃ k, n = k + 1 := ⟨n - 1, by omega⟩
  exact hPQ k (hP k (by omega))

/-- What lasts at once lasts later. -/
theorem late_of (h : Lasts False P) : Lasts late P := by
  obtain ⟨start, hstart, hP⟩ := h
  exact ⟨start, .inl (hstart.resolve_right id), hP⟩

/-- What has never to be waited for holds in every round. -/
theorem of_not_late (h : Lasts False P) (n : Nat) : P n := by
  obtain ⟨start, hstart, hP⟩ := h
  exact hP n (hstart.resolve_right id ▸ Nat.zero_le n)

end Lasts

/-- A set of solutions. -/
abbrev SolutionSet := Solution → Prop

/-- An operator holds no other solutions than those of a set, and each of these in the end. -/
def Settles (late : Prop) (F : Nat → OperatorId → List Solution) (id : OperatorId)
    (S : SolutionSet) : Prop :=
  (∀ n, ∀ r ∈ F n id, S r) ∧ ∀ r, S r → Lasts late fun n => r ∈ F (n + 1) id

section

variable {late : Prop} {F : Nat → OperatorId → List Solution} {id : OperatorId} {S : SolutionSet}

/-- What settles at once settles later. -/
theorem Settles.late_of (h : Settles False F id S) : Settles late F id S :=
  ⟨h.1, fun r hr => (h.2 r hr).late_of⟩

/-- An operator that is not late has its whole set from the first round on. -/
theorem Settles.mem_iff (h : Settles False F id S) (n : Nat) {r : Solution} :
    r ∈ F (n + 1) id ↔ S r := ⟨h.1 (n + 1) r, fun hr => (h.2 r hr).of_not_late n⟩

end

/-! ## Rounds of a scene -/

namespace Scene

variable {src : Source} {limit : Nat} {G : Graph Plan} {F : Nat → OperatorId → List Solution}
  {id input : OperatorId} {op : Operator Plan}

/-- Nothing has been emitted before the first round. -/
theorem zero (h : Scene src limit G F) (id : OperatorId) : F 0 id = [] := h.flow.zero id

/-- Solutions settle if all that is emitted belongs to them, and each of them is emitted from some
round on. -/
theorem settles {late : Prop} {S : SolutionSet} (h : Scene src limit G F)
    (hsound : ∀ n, ∀ r ∈ F (n + 1) id, S r)
    (hcomplete : ∀ r, S r → Lasts late fun n => r ∈ F (n + 1) id) : Settles late F id S := by
  refine ⟨fun n r hr => ?_, hcomplete⟩
  cases n with
  | zero =>
      rw [h.zero] at hr
      exact absurd hr List.not_mem_nil
  | succ n => exact hsound n r hr

/-- The root emits the empty solution in each round. -/
theorem mem_root (h : Scene src limit G F) (n : Nat) {r : Solution} :
    r ∈ F (n + 1) Graph.root ↔ r = ∅ := by
  rw [(h.step h.root n Operator.emit_root).1]
  exact List.mem_singleton

/-- What an operator on one operand has, if it treats its rows one by one. -/
theorem mem_one (h : Scene src limit G F) {f : List Solution → List Solution}
    {φ : Solution → Solution → Prop} (hop : G.operator? id = some op)
    (hin : G.inputs id = [⟨input, 0, false⟩])
    (hemit : ∀ l, (op.opened src limit).emit src id (solutionOperands l) =
      .ok ((f (l.flatMap Prod.snd)).map .solution))
    (hf : ∀ rows r, r ∈ f rows ↔ ∃ s ∈ rows, φ s r) (n : Nat) {r : Solution} :
    r ∈ F (n + 1) id ↔ ∃ s ∈ F (n + 1) input, φ s r := by
  rw [(h.step hop n (hemit _)).1, hin, hf]
  simp [read]

/-- A union emits what it reads. -/
theorem mem_union (h : Scene src limit G F) (hop : G.operator? id = some .union) (n : Nat)
    {r : Solution} : r ∈ F (n + 1) id ↔ ∃ i ∈ G.inputs id, r ∈ read F n i := by
  rw [(h.step hop n Operator.emit_union).1, List.flatMap_map, List.mem_flatMap]

/-- A join emits what can be joined of what it reads. -/
theorem mem_join (h : Scene src limit G F) (hop : G.operator? id = some .join)
    (hne : G.inputs id ≠ []) (n : Nat) {r : Solution} :
    r ∈ F (n + 1) id ↔ r ∈ joinMany ((G.inputs id).map (read F n)) := by
  have hne' : ((G.inputs id).map fun i => (i.operand, read F n i)).map Prod.snd ≠ [] := by
    simpa using hne
  rw [(h.step hop n Operator.emit_join).1, joinAll_eq_joinMany hne', List.map_map]
  rfl

/-- A minus emits what has no compatible solution on its right. -/
theorem mem_minus (h : Scene src limit G F) {right : OperatorId}
    (hop : G.operator? id = some .minus)
    (hin : G.inputs id = [⟨input, 0, false⟩, ⟨right, 1, false⟩]) (n : Nat) {r : Solution} :
    r ∈ F (n + 1) id ↔ r ∈ F (n + 1) input ∧
      ∀ s ∈ F (n + 1) right, ¬ (r.compatible s = true ∧ r.overlaps s = true) := by
  rw [(h.step hop n Operator.emit_minus).1, hin, subtractSolutions, List.mem_filter]
  simp [read, List.filter_cons]

/-- An operator on a loop that settles at a finite set comes to rest. -/
theorem rests {late : Prop} {S : SolutionSet} {l : List Solution} (hscene : Scene src limit G F)
    (hop : G.operator? id = some op) (hloop : (Plan.opened ⟨G⟩ src limit).OnLoop id)
    (h : Settles late F id S) (hfinite : ∀ r, S r → r ∈ l) :
    Lasts True fun n => F (n + 1) id = F n id := by
  have hall : Lasts late fun n => ∀ r ∈ l, S r → r ∈ F (n + 1) id := by
    refine Lasts.forall_mem fun r _ => ?_
    by_cases hr : S r
    · exact (h.2 r hr).imp fun n hn _ => hn
    · exact .always fun n hr' => absurd hr' hr
  obtain ⟨start, -, hstart⟩ := hall
  have hmem : ∀ n ≥ start, ∀ r, r ∈ F (n + 1) id ↔ S r := fun n hn r =>
    ⟨h.1 _ r, fun hr => hstart n hn r (hfinite r hr) hr⟩
  refine ⟨start + 1, .inr trivial, fun n hn => ?_⟩
  obtain ⟨k, rfl⟩ : ∃ k, n = k + 1 := ⟨n - 1, by omega⟩
  refine hscene.flow.canonical id ?_ hloop (k + 1) k fun r => ?_
  · rw [Graph.ids_opened]
    exact Graph.mem_ids_of_operator? hop
  · rw [hmem (k + 1) (by omega), hmem k (by omega)]

end Scene

/-! ## Growing by plain operators -/

/-- The operator is no result, has no nested plans and does not fail on solutions. -/
structure Operator.IsPlain (src : Source) (op : Operator Plan) : Prop where
  kind : op.kind ≠ .result
  nested : op.nested = []
  tame : ∀ limit, op.IsTame src limit

namespace Operator.IsPlain

variable {src : Source}

theorem union : IsPlain src .union := ⟨nofun, rfl, fun _ _ _ => ⟨_, emit_union⟩⟩

theorem join : IsPlain src .join := ⟨nofun, rfl, fun _ _ _ => ⟨_, emit_join⟩⟩

theorem minus : IsPlain src .minus := ⟨nofun, rfl, fun _ _ _ => ⟨_, emit_minus⟩⟩

end Operator.IsPlain

/-- A draft that has grown by plain operators. -/
structure Draft.Grows (src : Source) (touched : OperatorId → Prop) (d d' : Draft) : Prop where
  ext : d.Extends d' touched
  ranked : d.graph.Ranked → d'.graph.Ranked
  plain : ∀ id, d.size ≤ id → id < d'.size →
    ∃ op, d'.graph.operator? id = some op ∧ op.IsPlain src

namespace Draft.Grows

variable {src : Source} {touched touched' : OperatorId → Prop} {d d₁ d' : Draft}
  {op : Operator Plan} {target : OperatorId} {new : List Input}

/-- Nothing has been drawn yet. -/
theorem refl (hd : d.Sound) : Grows src touched d d :=
  ⟨.refl hd, id, fun _ hid hid' => absurd hid (Nat.not_le.2 hid')⟩

/-- More operators may be touched. -/
theorem mono (h : Grows src touched d d') (hsub : ∀ id, touched id → touched' id) :
    Grows src touched' d d' := ⟨h.ext.mono hsub, h.ranked, h.plain⟩

/-- A draft may grow in two steps, the second of which may touch what is new. -/
theorem trans (h : Grows src touched d d₁) (h' : Grows src touched' d₁ d')
    (hold : ∀ id < d.size, touched' id → touched id) : Grows src touched d d' where
  ext := h.ext.trans h'.ext hold
  ranked hr := h'.ranked (h.ranked hr)
  plain id hid hid' := by
    rcases Nat.lt_or_ge id d₁.size with hlt | hge
    · rw [h'.ext.operator?_eq id hlt]
      exact h.plain id hid hlt
    · exact h'.plain id hge hid'

/-- A plain operator is added. -/
theorem withOperator (h : Grows src touched d d₁) (hplain : op.IsPlain src) :
    Grows src touched d (d₁.withOperator op) where
  ext := h.ext.withOperator
  ranked hr := (h.ranked hr).withOperator
  plain id hid hid' := by
    rw [Draft.operator?_withOperator]
    split
    · exact ⟨op, rfl, hplain⟩
    · next hne =>
      rw [Draft.size_withOperator] at hid'
      exact h.plain id hid (Nat.lt_of_le_of_ne (Nat.le_of_lt_succ hid') hne)

/-- Numbers may be handed out in between. -/
theorem of_graph_eq (h : Grows src touched d d₁) (hgraph : d'.graph = d₁.graph)
    (hvar : d₁.nextVar ≤ d'.nextVar) : Grows src touched d d' := by
  have hsize : d'.size = d₁.size := by rw [Draft.size, Draft.size, hgraph]
  exact ⟨h.ext.of_graph_eq hgraph hvar, hgraph ▸ h.ranked, hgraph ▸ hsize ▸ h.plain⟩

/-- New inputs for an operator that nobody reads, or over feedback edges. -/
theorem fed (h : Grows src touched d d₁) (hfed : d₁.FedBy d' target new)
    (htarget : d.size ≤ target ∨ touched target)
    (hranks : (d₁.graph.Unread target ∧ ∀ i ∈ new, i.source ≠ target) ∨
      ∀ i ∈ new, i.feedback = true)
    (hnew : ∀ i ∈ new, i.source = Graph.root ∨ d.size ≤ i.source) : Grows src touched d d' where
  ext := hfed.extension h.ext htarget hnew
  ranked hr := hfed.ranked hranks (h.ranked hr)
  plain id hid hid' := by
    rw [hfed.operator?]
    exact h.plain id hid (hfed.size ▸ hid')

end Draft.Grows

/-! ## Placed operators -/

/-- A draft that has grown by operators some of which settle at sets of solutions. Sources of new
feedback edges are on loops and come to rest. -/
structure Placed (src : Source) (late : Prop) (touched : OperatorId → Prop) (d d' : Draft)
    (outs : List OperatorId) (sets : List SolutionSet) : Prop
    extends Draft.Grows src touched d d' where
  range : ∀ out ∈ outs, d.size ≤ out ∧ out < d'.size
  rests : ∀ limit G F, Scene src limit G F → d'.graph.Agrees G d.size d'.size →
    ∀ id, d.size ≤ id → id < d'.size → ∀ i ∈ d'.graph.inputs id, i.feedback = true →
      (Plan.opened ⟨G⟩ src limit).OnLoop i.source ∧
        Lasts True fun n => F (n + 1) i.source = F n i.source
  settles : ∀ limit G F, Scene src limit G F → d'.graph.Agrees G d.size d'.size →
    List.Forall₂ (Settles late F) outs sets

namespace Placed

variable {src : Source} {late : Prop} {touched : OperatorId → Prop} {d d₁ d' : Draft}
  {outs outs' : List OperatorId} {sets sets' : List SolutionSet} {op : Operator Plan}

/-- Nothing has been placed yet. -/
theorem nil (h : d.Sound) : Placed src late touched d d [] [] where
  toGrows := .refl h
  range _ hout := absurd hout List.not_mem_nil
  rests _ _ _ _ _ _ hid hid' := absurd hid (Nat.not_le.2 hid')
  settles _ _ _ _ _ := .nil

theorem late_of (h : Placed src False touched d d' outs sets) :
    Placed src late touched d d' outs sets :=
  ⟨h.toGrows, h.range, h.rests, fun limit G F hscene hagrees =>
    (h.settles limit G F hscene hagrees).imp fun _ _ hs => hs.late_of⟩

/-- More operators may be touched by what has been placed. -/
theorem mono {touched' : OperatorId → Prop} (h : Placed src late touched d d' outs sets)
    (hsub : ∀ id, touched id → touched' id) : Placed src late touched' d d' outs sets :=
  ⟨h.toGrows.mono hsub, h.range, h.rests, h.settles⟩

/-- Some of what has been placed may be forgotten. -/
theorem imp (h : Placed src late touched d d' outs sets) (hrange : ∀ out ∈ outs', out ∈ outs)
    (hsets : ∀ F, List.Forall₂ (Settles late F) outs sets →
      List.Forall₂ (Settles late F) outs' sets') :
    Placed src late touched d d' outs' sets' :=
  ⟨h.toGrows, fun out hout => h.range out (hrange out hout), h.rests,
    fun limit G F hscene hagrees => hsets F (h.settles limit G F hscene hagrees)⟩

/-- One drawing after the other. What the second one touches is older than both. -/
theorem append (h : Placed src late touched d d₁ outs sets)
    (h' : Placed src late touched d₁ d' outs' sets') (hold : ∀ id, touched id → id < d.size) :
    Placed src late touched d d' (outs ++ outs') (sets ++ sets') := by
  have hsub : ∀ {G}, d'.graph.Agrees G d.size d'.size → d₁.graph.Agrees G d.size d₁.size :=
    fun hagrees => hagrees.of_keeps h'.ext.toKeeps (Nat.le_refl _) h'.ext.size_le (Nat.le_refl _)
      fun id hid _ ht => absurd hid (Nat.not_le.2 (hold id ht))
  have hrest : ∀ {G}, d'.graph.Agrees G d.size d'.size → d'.graph.Agrees G d₁.size d'.size :=
    fun hagrees id hid => hagrees id (Nat.le_trans h.ext.size_le hid)
  refine ⟨h.toGrows.trans h'.toGrows fun _ _ ht => ht, fun out hout => ?_,
    fun limit G F hscene hagrees id hid hid' => ?_, fun limit G F hscene hagrees => ?_⟩
  · rcases List.mem_append.1 hout with hout | hout
    · exact ⟨(h.range out hout).1, Nat.lt_of_lt_of_le (h.range out hout).2 h'.ext.size_le⟩
    · exact ⟨Nat.le_trans h.ext.size_le (h'.range out hout).1, (h'.range out hout).2⟩
  · rcases Nat.lt_or_ge id d₁.size with hlt | hge
    · rw [h'.ext.inputs_eq id hlt fun ht => absurd hid (Nat.not_le.2 (hold id ht))]
      exact h.rests limit G F hscene (hsub hagrees) id hid hlt
    · exact h'.rests limit G F hscene (hrest hagrees) id hge hid'
  · exact List.rel_append (h.settles limit G F hscene (hsub hagrees))
      (h'.settles limit G F hscene (hrest hagrees))

/-- Numbers that are handed out before a drawing do not matter. -/
theorem of_graph_eq (h : Placed src late touched d₁ d' outs sets) (hgraph : d₁.graph = d.graph)
    (hvar : d.nextVar ≤ d₁.nextVar) : Placed src late touched d d' outs sets := by
  have hsize : d₁.size = d.size := by rw [Draft.size, Draft.size, hgraph]
  exact ⟨⟨h.ext.after_numbers hgraph hvar, hgraph ▸ h.ranked, hsize ▸ h.plain⟩, hsize ▸ h.range,
    hsize ▸ h.rests, hsize ▸ h.settles⟩

end Placed

/-! ## One operator more -/

namespace Placed

variable {src : Source} {late late' : Prop} {touched : OperatorId → Prop} {d d₁ d' : Draft}
  {outs : List OperatorId} {sets : List SolutionSet} {op : Operator Plan} {S : SolutionSet}
  {target id : OperatorId} {new : List Input}

/-- Feeding an older operator that nobody reads. -/
theorem feed (h : Placed src late touched d d₁ outs sets) (hfed : d₁.FedBy d' target new)
    (htouched : touched target) (hold : target < d.size) (hroot : target ≠ Graph.root)
    (hunread : d.graph.Unread target) (hnew : ∀ i ∈ new, d.size ≤ i.source) :
    Placed src late touched d d' outs sets := by
  have hinputs : ∀ id, d.size ≤ id → d'.graph.inputs id = d₁.graph.inputs id := fun id hid => by
    have hne : id ≠ target := Nat.ne_of_gt (Nat.lt_of_lt_of_le hold hid)
    rw [hfed.inputs, if_neg hne]
  have hagree : ∀ {G}, d'.graph.Agrees G d.size d'.size → d₁.graph.Agrees G d.size d₁.size := by
    intro G hagrees id hid hid'
    obtain ⟨hop, hin⟩ := hagrees id hid (hfed.size ▸ hid')
    exact ⟨hop.trans (hfed.operator? id), hin.trans (hinputs id hid)⟩
  have hother : ∀ i ∈ new, i.source ≠ target := fun i hi he =>
    absurd (hnew i hi) (Nat.not_le.2 (he ▸ hold))
  refine ⟨h.toGrows.fed hfed (.inr htouched) (.inl ⟨h.ext.unread hold hroot hunread, hother⟩)
    fun i hi => .inr (hnew i hi), hfed.size ▸ h.range,
    fun limit G F hscene hagrees id hid hid' => ?_,
    fun limit G F hscene hagrees => h.settles limit G F hscene (hagree hagrees)⟩
  rw [hinputs id hid]
  exact h.rests limit G F hscene (hagree hagrees) id hid (hfed.size ▸ hid')

/-- An operator that has been added before what it reads. -/
theorem addedBefore (hd : d.Sound)
    (h : Placed src late (· = d.size) (d.withOperator op) d' outs sets)
    (hin : d'.graph.inputs d.size = new) (hforward : ∀ i ∈ new, i.feedback = false)
    (hplain : op.IsPlain src)
    (hstep : ∀ limit G F, Scene src limit G F → G.operator? d.size = some op →
      G.inputs d.size = new → List.Forall₂ (Settles late F) outs sets →
        Settles late' F d.size S) :
    Placed src late' (fun _ => False) d d' [d.size] [S] := by
  have hsize : (d.withOperator op).size = d.size + 1 := Draft.size_withOperator
  have hlt : d.size < d'.size := Nat.lt_of_lt_of_le (by simp) h.ext.size_le
  have hop : d'.graph.operator? d.size = some op := by
    rw [h.ext.operator?_eq _ (by simp), Draft.operator?_withOperator, if_pos rfl]
  have hsub : ∀ {G}, d'.graph.Agrees G d.size d'.size →
      d'.graph.Agrees G (d.withOperator op).size d'.size := fun hagrees id hid =>
    hagrees id (Nat.le_trans (by simp) hid)
  refine ⟨((Draft.Grows.refl hd).withOperator hplain).trans h.toGrows fun id hid he =>
      absurd (he ▸ hid) (Nat.lt_irrefl _), fun out hout => ?_,
    fun limit G F hscene hagrees id hid hid' i hi hf => ?_,
    fun limit G F hscene hagrees => .cons ?_ .nil⟩
  · rw [List.mem_singleton.1 hout]
    exact ⟨Nat.le_refl _, hlt⟩
  · rcases Nat.eq_or_lt_of_le hid with rfl | hgt
    · rw [hin] at hi
      rw [hforward i hi] at hf
      cases hf
    · exact h.rests limit G F hscene (hsub hagrees) id (hsize ▸ hgt) hid' i hi hf
  · obtain ⟨hG, hGin⟩ := hagrees d.size (Nat.le_refl _) hlt
    exact hstep limit G F hscene (hG.trans hop) (hGin.trans hin)
      (h.settles limit G F hscene (hsub hagrees))

/-- An operator that has been added after what it reads. -/
theorem addedAfter (h : Placed src late (fun _ => False) d d₁ outs sets)
    (hfed : (d₁.withOperator op).FedBy d' d₁.size new)
    (hnew : ∀ i ∈ new, i.feedback = false ∧ i.source ≠ d₁.size ∧
      (i.source = Graph.root ∨ d.size ≤ i.source))
    (hplain : op.IsPlain src)
    (hstep : ∀ limit G F, Scene src limit G F → G.operator? d₁.size = some op →
      G.inputs d₁.size = new → List.Forall₂ (Settles late F) outs sets →
        Settles late' F d₁.size S) :
    Placed src late' (fun _ => False) d d' [d₁.size] [S] := by
  obtain ⟨hkeeps, hop, hin⟩ := hfed.new_operator h.ext.sound
  have hsize : d'.size = d₁.size + 1 := by rw [hfed.size, Draft.size_withOperator]
  have hsub : ∀ {G}, d'.graph.Agrees G d.size d'.size → d₁.graph.Agrees G d.size d₁.size :=
    fun hagrees => hagrees.of_keeps hkeeps (Nat.le_refl _) hkeeps.size_le (Nat.le_refl _)
      fun _ _ _ => not_false
  refine ⟨(h.toGrows.withOperator hplain).fed hfed (.inl h.ext.size_le)
      (.inl ⟨Graph.unread_withOperator h.ext.sound.tidy, fun i hi => (hnew i hi).2.1⟩)
      fun i hi => (hnew i hi).2.2, fun out hout => ?_,
    fun limit G F hscene hagrees id hid hid' i hi hf => ?_,
    fun limit G F hscene hagrees => .cons ?_ .nil⟩
  · rw [List.mem_singleton.1 hout]
    exact ⟨h.ext.size_le, hsize ▸ Nat.lt_succ_self _⟩
  · rcases Nat.lt_succ_iff_lt_or_eq.1 (hsize ▸ hid' : id < d₁.size + 1) with hlt | rfl
    · rw [hkeeps.inputs_eq id hlt not_false] at hi
      exact h.rests limit G F hscene (hsub hagrees) id hid hlt i hi hf
    · rw [hin] at hi
      rw [(hnew i hi).1] at hf
      cases hf
  · obtain ⟨hG, hGin⟩ := hagrees d₁.size h.ext.size_le (hsize ▸ Nat.lt_succ_self _)
    exact hstep limit G F hscene (hG.trans hop) (hGin.trans hin)
      (h.settles limit G F hscene (hsub hagrees))

end Placed

end QuadAlgebra
