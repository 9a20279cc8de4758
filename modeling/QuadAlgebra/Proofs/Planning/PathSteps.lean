import QuadAlgebra.Planning.Path
import QuadAlgebra.Proofs.Planning.Settling
import QuadAlgebra.Proofs.Semantics.Scans
import QuadAlgebra.Proofs.Solution.Ends

/-!
# Single steps of path plans

An operator on one operand that treats its rows one by one settles at what it makes of the set that
its producer settles at (`Placed.above`), and so do unions, joins and differences. Differences need
a right side that is not late: what they have emitted they cannot take back.
-/

namespace QuadAlgebra

/-! ## Operators that treat rows one by one -/

/-- An operator that makes rows of single rows. -/
def Operator.Maps (src : Source) (op : Operator Plan) (φ : Solution → Solution → Prop) : Prop :=
  op.kind ≠ .result ∧ op.nested = [] ∧ ∃ f : List Solution → List Solution,
    (∀ limit id l, (op.opened src limit).emit src id (solutionOperands l) =
      .ok ((f (l.flatMap Prod.snd)).map .solution)) ∧
    ∀ rows r, r ∈ f rows ↔ ∃ s ∈ rows, φ s r

namespace Operator

variable {src : Source}

theorem Maps.isPlain {op : Operator Plan} {φ : Solution → Solution → Prop} (h : op.Maps src φ) :
    op.IsPlain src := by
  obtain ⟨hkind, hnested, f, hemit, -⟩ := h
  exact ⟨hkind, hnested, fun limit id l => ⟨_, hemit limit id l⟩⟩

theorem maps_scan (s : IndexScan) :
    (scan s : Operator Plan).Maps src fun r r' => ∃ t ∈ src.scan s,
      r.compatible t = true ∧ r.merge t = r' :=
  ⟨nofun, rfl, fun rows => joinSolutions rows (src.scan s), fun _ _ _ => emit_scan s,
    fun _ _ => mem_joinSolutions⟩

theorem maps_probe (graph : Option Item) :
    (probe graph : Operator Plan).Maps src fun r r' => ∃ t ∈ src.probe graph,
      r.compatible t = true ∧ r.merge t = r' :=
  ⟨nofun, rfl, fun rows => joinSolutions rows (src.probe graph), fun _ _ _ => emit_probe graph,
    fun _ _ => mem_joinSolutions⟩

theorem maps_projection (vars : VarSet) :
    (projection vars : Operator Plan).Maps src fun r r' => r.restrict vars = r' :=
  ⟨nofun, rfl, List.map (·.restrict vars), fun _ _ _ => emit_projection vars,
    fun _ _ => List.mem_map⟩

theorem maps_bind (target : Variable) (e : Expression) :
    (bind target e : Operator Plan).Maps src fun r r' => bindValue target e r = r' :=
  ⟨nofun, rfl, List.map (bindValue target e), fun _ _ _ => emit_bind target e,
    fun _ _ => List.mem_map⟩

theorem maps_replaceVar (ren : Renaming) :
    (replaceVar ren : Operator Plan).Maps src fun r r' => ren.solution r = r' :=
  ⟨nofun, rfl, List.map ren.solution, fun _ _ _ => emit_replaceVar ren, fun _ _ => List.mem_map⟩

theorem maps_ruleFilter (equalities : List (Item × Item)) :
    (ruleFilter equalities : Operator Plan).Maps src fun r r' =>
      r = r' ∧ satisfiesAll equalities r' = true :=
  ⟨nofun, rfl, List.filter (satisfiesAll equalities), fun _ _ _ => emit_ruleFilter equalities,
    fun rows r => by simp [List.mem_filter]⟩

theorem maps_distinct : (distinct : Operator Plan).Maps src fun r r' => r = r' :=
  ⟨nofun, rfl, distinctOf, fun _ _ _ => emit_distinct, fun rows r => by simp⟩

/-- A condition without existence patterns needs no nested plans. -/
theorem maps_ofCondition {e : Expression} (h : e.existencePatterns = []) :
    (ofCondition e : Operator Plan).Maps src fun r r' => r = r' ∧ e.holds [] r' = true := by
  refine ⟨nofun, rfl, List.filter (e.holds []), fun limit id l => ?_,
    fun rows r => by simp [List.mem_filter]⟩
  have hnested : nestedSolutions [] 0 e.existencePatterns = .ok [] := by
    rw [h]
    rfl
  exact emit_filter (f := ⟨e, [], none⟩) hnested

end Operator

/-- What an operator on one operand has, if it makes rows of single rows. -/
theorem Operator.Maps.mem {src : Source} {limit : Nat} {G : Graph Plan}
    {F : Nat → OperatorId → List Solution} {op : Operator Plan}
    {φ : Solution → Solution → Prop} {id input : OperatorId} (h : op.Maps src φ)
    (hscene : Scene src limit G F) (hhas : G.Has id op [⟨input, 0, false⟩]) (n : Nat)
    (r : Solution) : r ∈ F (n + 1) id ↔ ∃ s ∈ F (n + 1) input, φ s r := by
  obtain ⟨-, -, f, hemit, hf⟩ := h
  exact hscene.mem_one hhas.1 hhas.2 (hemit limit id) hf n

/-! ## Sets that are settled at -/

section Sets

variable {src : Source} {limit : Nat} {G : Graph Plan} {F : Nat → OperatorId → List Solution}
  {late : Prop} {id input : OperatorId} {S T : SolutionSet}

theorem Settles.map {φ : Solution → Solution → Prop} (h : Settles late F input S)
    (hscene : Scene src limit G F)
    (hmem : ∀ n r, r ∈ F (n + 1) id ↔ ∃ s ∈ F (n + 1) input, φ s r)
    (hT : ∀ r, T r ↔ ∃ s, S s ∧ φ s r) : Settles late F id T := by
  refine hscene.settles (fun n r hr => ?_) fun r hr => ?_
  · obtain ⟨s, hs, hsr⟩ := (hmem n r).1 hr
    exact (hT r).2 ⟨s, h.1 _ s hs, hsr⟩
  · obtain ⟨s, hs, hsr⟩ := (hT r).1 hr
    exact (h.2 s hs).imp fun n hn => (hmem n r).2 ⟨s, hn, hsr⟩

/-- The root has the empty solution only. -/
theorem Scene.settles_root (hscene : Scene src limit G F) :
    Settles late F Graph.root fun r => r = ∅ :=
  hscene.settles (fun n _ hr => (hscene.mem_root n).1 hr) fun _ hr =>
    .always fun n => (hscene.mem_root n).2 hr

end Sets

namespace PathPlanner

variable {src : Source} {late late' : Prop} {d d₁ d' : Draft} {outs : List OperatorId}
  {sets : List SolutionSet} {op : Operator Plan} {S T : SolutionSet} {id input : OperatorId}

/-! ## Operators over others -/

/-- The inputs of an operator that reads others, each on its own operand. -/
def inputsFrom (producers : List OperatorId) : List Input :=
  producers.zipIdx.map fun p => ⟨p.1, p.2, false⟩

theorem combine_eq_ok {inputs : List OperatorId} (hd : d.Sound)
    (h : (combine op inputs).runOn d = (.ok id, d')) :
    id = d.size ∧ (d.withOperator op).FedBy d' d.size (inputsFrom inputs) := by
  rw [combine, Edit.runOn_bind_eq_ok] at h
  obtain ⟨id', d₁, hadd, h⟩ := h
  rw [Draw.add_runOn] at hadd
  obtain ⟨hid, rfl⟩ := Prod.mk.inj hadd
  obtain rfl := Except.ok.inj hid
  rw [Edit.runOn_bind_eq_ok] at h
  obtain ⟨⟨⟩, d₂, hconnect, h⟩ := h
  obtain ⟨hid, rfl⟩ := Prod.mk.inj h
  refine ⟨(Except.ok.inj hid).symm, ?_⟩
  refine Draft.FedBy.of_forM hd.withOperator (Nat.ne_of_gt hd.size_pos) (fun i hi => ?_) hconnect
  rw [Draft.inputs_withOperator, hd.inputs_eq_nil (Nat.le_refl _)] at hi
  exact absurd hi List.not_mem_nil

theorem above_eq_combine (input : OperatorId) (op : Operator Plan) :
    above input op = combine op [input] := by
  simp [above, combine]

theorem addSource_eq_above (op : Operator Plan) : Draw.addSource op = above Graph.root op := rfl

/-- The only one of some operators, or a union over them. -/
def unionOf : List OperatorId → Draw OperatorId
  | [single] => pure single
  | several => combine .union several

theorem mem_inputsFrom {producers : List OperatorId} {i : Input} (h : i ∈ inputsFrom producers) :
    i.feedback = false ∧ i.source ∈ producers := by
  obtain ⟨p, hp, rfl⟩ := List.mem_map.1 h
  exact ⟨rfl, (List.mem_zipIdx' hp).2 ▸ List.getElem_mem _⟩

/-- What an operator reads from producers on operands of its own. -/
theorem map_read_inputsFrom (F : Nat → OperatorId → List Solution) (n : Nat)
    (producers : List OperatorId) :
    (inputsFrom producers).map (Scene.read F n) = producers.map (F (n + 1)) := by
  rw [inputsFrom, List.map_map]
  conv_rhs => rw [← List.zipIdx_map_fst 0 producers, List.map_map]
  rfl

end PathPlanner

section Joins

open PathPlanner

variable {src : Source} {late : Prop} {limit : Nat} {G : Graph Plan}
  {F : Nat → OperatorId → List Solution} {outs : List OperatorId} {id left right : OperatorId}

/-- A join settles at the solutions that fit all relations. -/
theorem Scene.settles_join (hscene : Scene src limit G F) {legs : List Leg} (hne : legs ≠ [])
    (hop : G.operator? id = some .join) (hin : G.inputs id = inputsFrom outs)
    (h : List.Forall₂ (Settles late F) outs (legs.map Leg.ends)) :
    Settles late F id (Solution.Through legs (legs.flatMap Leg.items)) := by
  rw [List.forall₂_map_right_iff] at h
  have hinputs : G.inputs id ≠ [] := fun he => by
    have hnone : (inputsFrom outs).map (Scene.read F 0) = [] := by rw [← hin, he, List.map_nil]
    rw [map_read_inputsFrom, List.map_eq_nil_iff] at hnone
    subst hnone
    cases h
    exact hne rfl
  have hmem : ∀ n r, r ∈ F (n + 1) id ↔ r ∈ joinMany (outs.map (F (n + 1))) := by
    intro n r
    rw [hscene.mem_join hop hinputs, hin, map_read_inputsFrom]
  refine hscene.settles (fun n r hr => ?_) ?_
  · obtain ⟨hfits, hon⟩ := fits_of_mem_joinMany
      (List.forall₂_map_left_iff.2 (h.imp fun _ _ hs => hs.1 (n + 1))) ((hmem n r).1 hr)
    exact ⟨r, hfits, hon⟩
  · rintro _ ⟨full, hfits, rfl⟩
    -- each part of the solution is there in the end, and so are all of them together
    have hparts : List.Forall₂ (fun out l => Lasts late fun n =>
        full.on (Leg.items l) ∈ F (n + 1) out) outs legs := by
      have hboth := List.forall₂_and_left legs outs |>.2 ⟨hfits, h.flip⟩
      exact hboth.flip.imp fun _ _ hs => hs.2.2 _ (Solution.ends_on hs.1)
    refine (Lasts.forall₂ hparts).imp fun n hn => (hmem n _).2 (on_mem_joinMany full ?_)
    exact List.forall₂_map_left_iff.2 hn

/-- A difference settles if what it subtracts is not late. -/
theorem Scene.settles_minus (hscene : Scene src limit G F) {S T : SolutionSet}
    (hop : G.operator? id = some .minus) (hin : G.inputs id = inputsFrom [left, right])
    (hleft : Settles late F left S) (hright : Settles False F right T) :
    Settles late F id fun r =>
      S r ∧ ∀ s, T s → ¬ (r.compatible s = true ∧ r.overlaps s = true) := by
  have hmem : ∀ n r, r ∈ F (n + 1) id ↔ r ∈ F (n + 1) left ∧
      ∀ s, T s → ¬ (r.compatible s = true ∧ r.overlaps s = true) := by
    intro n r
    rw [hscene.mem_minus hop hin]
    simp only [hright.mem_iff]
  refine hscene.settles (fun n r hr => ?_) fun r hr => ?_
  · obtain ⟨hr, hrest⟩ := (hmem n r).1 hr
    exact ⟨hleft.1 _ r hr, hrest⟩
  · exact (hleft.2 r hr.1).imp fun n hn => (hmem n r).2 ⟨hn, hr.2⟩

end Joins

namespace Placed

open PathPlanner

variable {src : Source} {late late' : Prop} {d d₁ d' : Draft} {outs : List OperatorId}
  {sets : List SolutionSet} {op : Operator Plan} {S T : SolutionSet} {id input : OperatorId}

/-- An operator over all that has been placed. -/
theorem combine (h : Placed src late (fun _ => False) d d₁ outs sets)
    (hrun : (PathPlanner.combine op outs).runOn d₁ = (.ok id, d'))
    (hplain : op.IsPlain src)
    (hstep : ∀ limit G F, Scene src limit G F → G.operator? id = some op →
      G.inputs id = inputsFrom outs → List.Forall₂ (Settles late F) outs sets →
        Settles late' F id S) :
    Placed src late' (fun _ => False) d d' [id] [S] := by
  obtain ⟨rfl, hfed⟩ := combine_eq_ok h.ext.sound hrun
  refine h.addedAfter hfed (fun i hi => ?_) hplain hstep
  obtain ⟨hf, hi⟩ := mem_inputsFrom hi
  obtain ⟨hle, hlt⟩ := h.range i.source hi
  exact ⟨hf, Nat.ne_of_lt hlt, .inr hle⟩

theorem above {φ : Solution → Solution → Prop}
    (h : Placed src late (fun _ => False) d d₁ [input] [S])
    (hrun : (PathPlanner.above input op).runOn d₁ = (.ok id, d')) (hop : op.Maps src φ)
    (hT : ∀ r, T r ↔ ∃ s, S s ∧ φ s r) : Placed src late (fun _ => False) d d' [id] [T] := by
  rw [above_eq_combine] at hrun
  refine h.combine hrun hop.isPlain fun limit G F hscene hG hin hsets => ?_
  cases hsets with
  | cons hs _ => exact hs.map hscene (hop.mem hscene ⟨hG, hin⟩) hT

/-- An operator that the root feeds. -/
theorem source {φ : Solution → Solution → Prop} (hd : d.Sound)
    (hrun : (Draw.addSource op).runOn d = (.ok id, d')) (hop : op.Maps src φ)
    (hT : ∀ r, T r ↔ φ ∅ r) : Placed src late (fun _ => False) d d' [id] [T] := by
  rw [addSource_eq_above, above_eq_combine] at hrun
  obtain ⟨rfl, hfed⟩ := combine_eq_ok hd hrun
  have hnil : Placed src late (fun _ => False) d d [] [] := .nil hd
  refine hnil.addedAfter hfed (fun i hi => ?_) hop.isPlain
    fun limit G F hscene hG hin _ => ?_
  · obtain ⟨hf, hi⟩ := mem_inputsFrom hi
    rw [List.mem_singleton] at hi
    exact ⟨hf, hi ▸ Nat.ne_of_lt hd.size_pos, .inl hi⟩
  · refine hscene.settles_root.map hscene (hop.mem hscene ⟨hG, hin⟩) fun r => ?_
    rw [hT]
    exact ⟨fun h => ⟨∅, rfl, h⟩, by rintro ⟨s, rfl, h⟩; exact h⟩

theorem union (h : Placed src late (fun _ => False) d d₁ outs sets)
    (hrun : (PathPlanner.combine .union outs).runOn d₁ = (.ok id, d'))
    (hT : ∀ r, T r ↔ ∃ S ∈ sets, S r) : Placed src late (fun _ => False) d d' [id] [T] := by
  refine h.combine hrun .union
    fun limit G F hscene hG hin hsets => ?_
  have hmem : ∀ n r, r ∈ F (n + 1) id ↔ ∃ out ∈ outs, r ∈ F (n + 1) out := by
    intro n r
    rw [hscene.mem_union hG, hin]
    have hread : (∃ i ∈ inputsFrom outs, r ∈ Scene.read F n i) ↔
        ∃ rows ∈ (inputsFrom outs).map (Scene.read F n), r ∈ rows := by simp
    rw [hread, map_read_inputsFrom]
    simp
  refine hscene.settles (fun n r hr => ?_) fun r hr => ?_
  · obtain ⟨out, hout, hr⟩ := (hmem n r).1 hr
    obtain ⟨S, hS, hs⟩ := exists_of_forall₂ hsets hout
    exact (hT r).2 ⟨S, hS, hs.1 _ r hr⟩
  · obtain ⟨S, hS, hr⟩ := (hT r).1 hr
    obtain ⟨out, hout, hs⟩ := exists_of_forall₂ hsets.flip hS
    exact (hs.2 r hr).imp fun n hn => (hmem n r).2 ⟨out, hout, hn⟩

/-- A join of solutions for the ends of relations. -/
theorem join {legs : List Leg} (h : Placed src late (fun _ => False) d d₁ outs (legs.map Leg.ends))
    (hne : legs ≠ []) (hrun : (PathPlanner.combine .join outs).runOn d₁ = (.ok id, d')) :
    Placed src late (fun _ => False) d d' [id]
      [Solution.Through legs (legs.flatMap Leg.items)] :=
  h.combine hrun .join
    fun _ _ _ hscene hG hin hsets => hscene.settles_join hne hG hin hsets

/-- Drawings of one kind, one after the other. -/
theorem mapM {α : Type} {draw : α → Draw OperatorId} (set : α → SolutionSet) {n : Nat}
    (l : List α) (hdraw : ∀ a ∈ l, ∀ (d d' : Draft) (out : OperatorId), d.Sound → n ≤ d.nextVar →
      (draw a).runOn d = (.ok out, d') →
        Placed src late (fun _ => False) d d' [out] [set a]) (hd : d.Sound)
    (hn : n ≤ d.nextVar) (hrun : (l.mapM draw).runOn d = (.ok outs, d')) :
    Placed src late (fun _ => False) d d' outs (l.map set) := by
  induction l generalizing d outs with
  | nil =>
      obtain ⟨houts, rfl⟩ := Prod.mk.inj hrun
      obtain rfl := Except.ok.inj houts
      exact .nil hd
  | cons a rest ih =>
      rw [List.mapM_cons] at hrun
      obtain ⟨out, d₁, hout, hrun⟩ := Edit.runOn_bind_eq_ok.1 hrun
      obtain ⟨others, d₂, hothers, hrun⟩ := Edit.runOn_bind_eq_ok.1 hrun
      obtain ⟨houts, rfl⟩ := Prod.mk.inj hrun
      obtain rfl := Except.ok.inj houts
      have hfirst := hdraw a List.mem_cons_self d d₁ out hd hn hout
      have hrest := ih (fun b hb => hdraw b (List.mem_cons_of_mem _ hb)) hfirst.ext.sound
        (Nat.le_trans hn hfirst.ext.nextVar_le) hothers
      exact hfirst.append hrest fun id h => h.elim

theorem unionOf (h : Placed src late (fun _ => False) d d₁ outs sets)
    (hrun : (PathPlanner.unionOf outs).runOn d₁ = (.ok id, d'))
    (hT : ∀ r, T r ↔ ∃ S ∈ sets, S r) : Placed src late (fun _ => False) d d' [id] [T] := by
  cases outs with
  | nil => exact h.union hrun hT
  | cons single rest =>
      cases rest with
      | nil =>
          obtain ⟨hid, rfl⟩ := Prod.mk.inj hrun
          obtain rfl := Except.ok.inj hid
          refine h.imp (fun _ hout => hout) fun F hsets => ?_
          cases hsets with
          | cons hs hrest =>
              cases hrest
              rw [funext fun r => propext (hT r)]
              simpa using hs
      | cons second rest => exact h.union hrun hT

end Placed

end QuadAlgebra
