import QuadAlgebra.Proofs.Planning.Finish
import QuadAlgebra.Proofs.Variables.Operators

/-!
# Bounds on domains

Bounds admit the domains that lie between the certain and the possible variables. The bounds that
are computed for an operator admit what the operator makes of admitted domains: of a domain that one
of its operands may have (`Operator.bounds_admits_of_turns`), and of several ones for left joins and
joins. In a graph whose variable sets have been computed (`Graph.updateVariables_bounds`) the bounds
of an operator are made of those of its inputs, where inputs over feedback edges may be left out.
-/

namespace QuadAlgebra

/-! ## Bounds -/

namespace VarBounds

/-- A set of bound variables lies between what is certain and what is possible. -/
structure Admits (b : VarBounds) (D : VarSet) : Prop where
  certain : ∀ v ∈ b.certain, v ∈ D
  possible : ∀ v ∈ D, v ∈ b.possible

/-- The second bounds admit all that the first ones admit. -/
structure Weakens (a b : VarBounds) : Prop where
  certain : ∀ v ∈ b.certain, v ∈ a.certain
  possible : ∀ v ∈ a.possible, v ∈ b.possible

variable {a b : VarBounds} {D : VarSet}

/-- A set that tight bounds admit is admitted by wider ones. -/
theorem Admits.weaken (h : a.Admits D) (hab : a.Weakens b) : b.Admits D :=
  ⟨fun v hv => h.certain v (hab.certain v hv), fun v hv => hab.possible v (h.possible v hv)⟩

/-- Exact bounds admit the set they were made of. -/
theorem admits_exactly (vars : VarSet) : (exactly vars).Admits vars :=
  ⟨fun _ hv => hv, fun _ hv => hv⟩

/-- The bounds of no input admit the empty set. -/
theorem admits_none : none.Admits ∅ := admits_exactly ∅

/-- Bounds are no tighter than themselves. -/
theorem Weakens.refl : a.Weakens a := ⟨fun _ hv => hv, fun _ hv => hv⟩

/-- Widening bounds twice is widening them once. -/
theorem Weakens.trans {c : VarBounds} (h : a.Weakens b) (h' : b.Weakens c) : a.Weakens c :=
  ⟨fun v hv => h.certain v (h'.certain v hv), fun v hv => h'.possible v (h.possible v hv)⟩

/-- Joining alternatives widens the bounds of the first. -/
theorem weakens_either_left (a b : VarBounds) : a.Weakens (either a b) :=
  ⟨fun _ hv => (OrdSet.mem_inter.1 hv).1, fun _ hv => OrdSet.mem_union.2 (.inl hv)⟩

/-- Joining alternatives widens the bounds of the second. -/
theorem weakens_either_right (a b : VarBounds) : b.Weakens (either a b) :=
  ⟨fun _ hv => (OrdSet.mem_inter.1 hv).2, fun _ hv => OrdSet.mem_union.2 (.inr hv)⟩

/-- Folding alternatives widens the start and every alternative folded in. -/
theorem weakens_foldl_either (l : List VarBounds) (start : VarBounds) :
    start.Weakens (l.foldl either start) ∧ ∀ b ∈ l, b.Weakens (l.foldl either start) := by
  induction l generalizing start with
  | nil => exact ⟨.refl, fun b hb => absurd hb List.not_mem_nil⟩
  | cons c rest ih =>
      obtain ⟨hstart, hrest⟩ := ih (either start c)
      refine ⟨(weakens_either_left start c).trans hstart, fun b hb => ?_⟩
      rcases List.mem_cons.1 hb with rfl | hb
      · exact (weakens_either_right start b).trans hstart
      · exact hrest b hb

/-- The bounds of any alternative widen those of each of them. -/
theorem weakens_any {l : List VarBounds} (hb : b ∈ l) : b.Weakens (any l) := by
  cases l with
  | nil => cases hb
  | cons c rest =>
      rcases List.mem_cons.1 hb with rfl | hb
      · exact (weakens_foldl_either rest b).1
      · exact (weakens_foldl_either rest c).2 b hb

/-- The bounds of a join collect the bounds of all operands. -/
theorem mem_foldl_both {l : List VarBounds} {start : VarBounds} {v : Variable} :
    (v ∈ (l.foldl both start).certain ↔ v ∈ start.certain ∨ ∃ b ∈ l, v ∈ b.certain) ∧
      (v ∈ (l.foldl both start).possible ↔ v ∈ start.possible ∨ ∃ b ∈ l, v ∈ b.possible) := by
  induction l generalizing start with
  | nil => simp
  | cons c rest ih =>
      rw [List.foldl_cons, (@ih (both start c)).1, (@ih (both start c)).2]
      simp [both, or_assoc]

end VarBounds

/-! ## Bounds of operands -/

section Operands

variable {inputs : List (Input × VarBounds)} {p : Input × VarBounds} {k : Nat} {b : VarBounds}

/-- The inputs that count for the bounds of an operator. -/
def countedInputs (inputs : List (Input × VarBounds)) : List (Input × VarBounds) :=
  if (inputs.filter (!·.1.feedback)).isEmpty then inputs else inputs.filter (!·.1.feedback)

/-- A forward input always counts, feedback inputs only where no forward one stands. -/
theorem mem_countedInputs_of_forward (hp : p ∈ inputs) (hf : p.1.feedback = false) :
    p ∈ countedInputs inputs := by
  unfold countedInputs
  split
  · exact hp
  · exact List.mem_filter.2 ⟨hp, by simp [hf]⟩

/-- What counts among the inputs is an input. -/
theorem mem_of_mem_countedInputs (hp : p ∈ countedInputs inputs) : p ∈ inputs := by
  unfold countedInputs at hp
  split at hp
  · exact hp
  · exact List.mem_of_mem_filter hp

/-- The operands are those of the counted inputs, each once, in order. -/
theorem keys_operandBounds : (operandBounds inputs).map Prod.fst =
    stableSort compare (distinctOf ((countedInputs inputs).map (·.1.operand))) := by
  change (List.map _ (stableSort compare (distinctOf ((countedInputs inputs).map _)))).map _ = _
  rw [List.map_map]
  exact List.map_id _

/-- No operand has two bounds. -/
theorem nodup_keys_operandBounds : ((operandBounds inputs).map Prod.fst).Nodup := by
  rw [keys_operandBounds]
  exact (stableSort_perm _ _).nodup_iff.2 (nodup_distinctOf _)

/-- An operand has bounds as soon as one counted input feeds it. -/
theorem mem_keys_operandBounds :
    k ∈ (operandBounds inputs).map Prod.fst ↔ ∃ p ∈ countedInputs inputs, p.1.operand = k := by
  rw [keys_operandBounds, (stableSort_perm _ _).mem_iff, mem_distinctOf, List.mem_map]

/-- With distinct keys a lookup finds every pair of the list. -/
theorem lookup_of_mem_of_nodup {α : Type} {l : List (Nat × α)} (hnodup : (l.map Prod.fst).Nodup)
    {a : α} (h : (k, a) ∈ l) : l.lookup k = some a := by
  induction l with
  | nil => cases h
  | cons e rest ih =>
      obtain ⟨j, c⟩ := e
      rw [List.map_cons, List.nodup_cons] at hnodup
      rcases List.mem_cons.1 h with h | h
      · obtain ⟨rfl, rfl⟩ := Prod.mk.inj h
        rw [List.lookup_cons_self]
      · have hne : k ≠ j := fun he => hnodup.1 (he ▸ List.mem_map.2 ⟨_, h, rfl⟩)
        rw [List.lookup_cons, beq_eq_false_iff_ne.2 hne]
        exact ih hnodup.2 h

/-- The bounds of an operand widen those of each counted input feeding it. -/
theorem weakens_of_mem_operandBounds (h : (k, b) ∈ operandBounds inputs)
    (hp : p ∈ countedInputs inputs) (hk : p.1.operand = k) : p.2.Weakens b := by
  change (k, b) ∈ List.map _ (stableSort compare (distinctOf ((countedInputs inputs).map _))) at h
  obtain ⟨k', -, he⟩ := List.mem_map.1 h
  obtain ⟨rfl, rfl⟩ := Prod.mk.inj he
  exact VarBounds.weakens_any (List.mem_map_of_mem (List.mem_filter.2 ⟨hp, by simpa using hk⟩))

/-- The bounds of an operand are no tighter than those of any input that counts. -/
theorem exists_lookup_operandBounds (hp : p ∈ countedInputs inputs) :
    ∃ b, (operandBounds inputs).lookup p.1.operand = some b ∧ p.2.Weakens b := by
  obtain ⟨⟨k, b⟩, hmem, hk⟩ := List.mem_map.1 (mem_keys_operandBounds.2 ⟨p, hp, rfl⟩)
  exact ⟨b, hk ▸ lookup_of_mem_of_nodup nodup_keys_operandBounds hmem,
    weakens_of_mem_operandBounds hmem hp hk.symm⟩

end Operands

/-! ## Bounds of operators -/

/-- An expression that cannot fail over a set cannot fail over a larger one. -/
theorem Expression.isTotal_mono {e : Expression} {s t : VarSet} (h : ∀ v ∈ s, v ∈ t)
    (he : e.isTotal s = true) : e.isTotal t = true := by
  cases e with
  | «variable» v => exact OrdSet.contains_iff.2 (h v (OrdSet.contains_iff.1 he))
  | _ => exact he

namespace Operator

variable {γ : Type} {op : Operator γ} {operands : List (Nat × VarBounds)} {k : Nat} {b : VarBounds}
  {D E F : VarSet}

/-- The bounds of an operator without inputs admit what it starts from. -/
theorem bounds_admits_of_starts (h : op.Starts D) : (op.bounds operands).Admits D := by
  cases op with
  | root => exact (h : D = ∅) ▸ VarBounds.admits_none
  | matchTriple p => exact (h : D = p.vars) ▸ VarBounds.admits_exactly p.vars
  | matchAtom a => exact (h : D = a.vars) ▸ VarBounds.admits_exactly a.vars
  | group keys aggregates =>
      obtain ⟨rfl, hD⟩ : keys = [] ∧ ∀ v ∈ D, v ∈ aggregates.map Prod.fst := h
      refine ⟨fun v hv => ?_, fun v hv => ?_⟩
      · simp [bounds] at hv
      · exact OrdSet.mem_ofList.2 (List.mem_append_right _ (hD v hv))
  | _ => exact h.elim

/-- The bounds of all operands taken together admit what is admitted on one. -/
theorem admits_merged (hb : operands.lookup k = some b) (hE : b.Admits E) :
    (VarBounds.any (operands.map (·.2))).Admits E :=
  hE.weaken (VarBounds.weakens_any (List.mem_map_of_mem (f := Prod.snd) (lookup_mem hb)))

/-- The bounds looked up for an operand admit what that operand binds. -/
theorem admits_operand (hb : operands.lookup k = some b) (hE : b.Admits E) :
    ((operands.lookup k).getD .none).Admits E := by
  rw [hb]
  exact hE

/-- What is certain of an operator is bound in what it makes of a domain in which all that is
certain on the operand is bound. -/
theorem certain_of_turns (hb : operands.lookup k = some b) (hE : ∀ v ∈ b.certain, v ∈ E)
    (h : op.Turns k E D) : ∀ v ∈ (op.bounds operands).certain, v ∈ D := by
  have hmerged : ∀ v ∈ (VarBounds.any (operands.map (·.2))).certain, v ∈ E := fun v hv =>
    hE v ((VarBounds.weakens_any
      (List.mem_map_of_mem (f := Prod.snd) (lookup_mem hb))).certain v hv)
  have hzero : k = 0 → ∀ v ∈ ((operands.lookup 0).getD .none).certain, v ∈ E := by
    rintro rfl v hv
    rw [hb] at hv
    exact hE v hv
  cases op with
  | scan s =>
      obtain rfl : D = E ∪ s.vars := h
      exact fun v hv => OrdSet.mem_union.2 (.inr hv)
  | probe graph =>
      obtain rfl : D = E ∪ Item.vars graph.toList := h
      exact fun v hv => OrdSet.mem_union.2 (.inr hv)
  | projection vars =>
      obtain rfl : D = E ∩ vars := h
      intro v hv
      obtain ⟨hv, hvars⟩ := OrdSet.mem_inter.1 hv
      exact OrdSet.mem_inter.2 ⟨hmerged v hv, hvars⟩
  | bind target e =>
      intro v hv
      dsimp only [bounds] at hv
      rcases (h : D = E.insert target ∨ e.isTotal E = false ∧ D = E) with rfl | ⟨hpartial, rfl⟩
      · rw [OrdSet.mem_insert]
        split at hv
        · exact (OrdSet.mem_insert.1 hv).imp id (hmerged v)
        · exact .inr (hmerged v hv)
      · rw [if_neg fun htotal => ?_] at hv
        · exact hmerged v hv
        · rw [Expression.isTotal_mono hmerged htotal] at hpartial
          cases hpartial
  | replaceVar r =>
      obtain rfl : D = r.vars E := h
      exact r.vars_mono hmerged
  | group keys aggregates =>
      obtain ⟨hkeys, -⟩ : (∀ v ∈ keys, v ∈ E → v ∈ D) ∧
        ∀ v ∈ D, v ∈ keys ++ aggregates.map Prod.fst := h
      intro v hv
      obtain ⟨hv, hcertain⟩ := List.mem_filter.1 (OrdSet.mem_ofList.1 hv)
      exact hkeys v hv (hmerged v (OrdSet.contains_iff.1 hcertain))
  | optional | minus =>
      obtain ⟨hk, rfl⟩ : k = 0 ∧ D = E := h
      exact hzero hk
  | result _ | union | filter _ | ruleFilter _ | sort _ | limit _ | offset _ | distinct
  | indexDistinct | window _ =>
      obtain rfl : D = E := h
      exact hmerged
  | _ => exact h.elim

/-- The bounds of an operator admit what it makes of a domain that is admitted on one of its
operands. Scans and probes read the root only. -/
theorem bounds_admits_of_turns (hb : operands.lookup k = some b) (hE : b.Admits E)
    (h : op.Turns k E D) (hsource : op.kind = .scan ∨ op.kind = .probe → E = ∅) :
    (op.bounds operands).Admits D := by
  refine ⟨certain_of_turns hb hE.certain h, ?_⟩
  have hmerged := (admits_merged hb hE).possible
  cases op with
  | scan s =>
      obtain rfl : D = E ∪ s.vars := h
      rw [hsource (.inl rfl)]
      exact fun v hv => (OrdSet.mem_union.1 hv).resolve_left (OrdSet.not_mem_empty v)
  | probe graph =>
      obtain rfl : D = E ∪ Item.vars graph.toList := h
      rw [hsource (.inr rfl)]
      exact fun v hv => (OrdSet.mem_union.1 hv).resolve_left (OrdSet.not_mem_empty v)
  | projection vars =>
      obtain rfl : D = E ∩ vars := h
      intro v hv
      obtain ⟨hv, hvars⟩ := OrdSet.mem_inter.1 hv
      exact OrdSet.mem_inter.2 ⟨hmerged v hv, hvars⟩
  | bind target e =>
      intro v hv
      change v ∈ (VarBounds.any (operands.map (·.2))).possible.insert target
      rw [OrdSet.mem_insert]
      rcases (h : D = E.insert target ∨ e.isTotal E = false ∧ D = E) with rfl | ⟨-, rfl⟩
      · exact (OrdSet.mem_insert.1 hv).imp id (hmerged v)
      · exact .inr (hmerged v hv)
  | replaceVar r =>
      obtain rfl : D = r.vars E := h
      exact r.vars_mono hmerged
  | group keys aggregates =>
      obtain ⟨-, hD⟩ : (∀ v ∈ keys, v ∈ E → v ∈ D) ∧
        ∀ v ∈ D, v ∈ keys ++ aggregates.map Prod.fst := h
      exact fun v hv => OrdSet.mem_ofList.2 (hD v hv)
  | optional =>
      obtain ⟨rfl, rfl⟩ : k = 0 ∧ D = E := h
      exact fun v hv => OrdSet.mem_union.2 (.inl ((admits_operand hb hE).possible v hv))
  | minus =>
      obtain ⟨rfl, rfl⟩ : k = 0 ∧ D = E := h
      exact (admits_operand hb hE).possible
  | result _ | union | filter _ | ruleFilter _ | sort _ | limit _ | offset _ | distinct
  | indexDistinct | window _ =>
      obtain rfl : D = E := h
      exact hmerged
  | _ => exact h.elim

/-- An optional operand leaves the certain variables to the outer side and adds possible ones. -/
theorem bounds_admits_of_extends {b' : VarBounds} (hb : operands.lookup 0 = some b)
    (hE : b.Admits E) (hb' : operands.lookup 1 = some b') (hF : b'.Admits F) :
    ((Operator.optional : Operator γ).bounds operands).Admits (E ∪ F) := by
  have hzero := admits_operand hb hE
  have hone := admits_operand hb' hF
  refine ⟨fun v hv => OrdSet.mem_union.2 (.inl (hzero.certain v hv)), fun v hv => ?_⟩
  exact OrdSet.mem_union.2 ((OrdSet.mem_union.1 hv).imp (hzero.possible v) (hone.possible v))

/-- What a join holds certain is certain in one of its operands. -/
theorem certain_of_joins {part : Nat → VarSet}
    (hparts : ∀ o ∈ operands, ∀ v ∈ o.2.certain, v ∈ part o.1)
    (hD : ∀ v, v ∈ D ↔ ∃ o ∈ operands, v ∈ part o.1) :
    ∀ v ∈ ((Operator.join : Operator γ).bounds operands).certain, v ∈ D := by
  intro v hv
  rcases VarBounds.mem_foldl_both.1.1 hv with hv | ⟨b, hb, hv⟩
  · exact absurd hv (OrdSet.not_mem_empty v)
  · obtain ⟨o, ho, rfl⟩ := List.mem_map.1 hb
    exact (hD v).2 ⟨o, ho, hparts o ho v hv⟩

/-- The bounds of a join admit the union of what its operands bind. -/
theorem bounds_admits_of_joins {part : Nat → VarSet}
    (hparts : ∀ o ∈ operands, o.2.Admits (part o.1))
    (hD : ∀ v, v ∈ D ↔ ∃ o ∈ operands, v ∈ part o.1) :
    ((Operator.join : Operator γ).bounds operands).Admits D := by
  refine ⟨certain_of_joins (fun o ho => (hparts o ho).certain) hD, fun v hv => ?_⟩
  obtain ⟨o, ho, hv⟩ := (hD v).1 hv
  exact VarBounds.mem_foldl_both.2.2
    (.inr ⟨o.2, List.mem_map_of_mem ho, (hparts o ho).possible v hv⟩)

end Operator

/-! ## Bounds in graphs -/

namespace Graph

variable {γ α : Type} {g g' : Graph γ} {order : List OperatorId}

/-- The bounds of each operator are made of those of its inputs. Inputs over feedback edges may be
missing. -/
structure BoundedBy (g : Graph γ) (bounds : OperatorId → VarBounds) : Prop where
  made : ∀ id op, g.operator? id = some op → ∃ read : List (Input × VarBounds),
    bounds id = op.bounds (operandBounds read) ∧
      (∀ p ∈ read, p.1 ∈ g.inputs id ∧ p.2 = bounds p.1.source) ∧
        ∀ i ∈ g.inputs id, i.feedback = false → (i, bounds i.source) ∈ read

/-- The bounds of an input count for an operator that reads it forward. -/
theorem BoundedBy.exists_operands {bounds : OperatorId → VarBounds} (h : g.BoundedBy bounds)
    {id : OperatorId} {op : Operator γ} (hop : g.operator? id = some op) : ∃ operands,
      bounds id = op.bounds operands ∧ (operands.map Prod.fst).Nodup ∧
        (∀ i ∈ g.inputs id, i.feedback = false →
          ∃ b, operands.lookup i.operand = some b ∧ (bounds i.source).Weakens b) ∧
          ∀ o ∈ operands, ∃ i ∈ g.inputs id, i.operand = o.1 := by
  obtain ⟨read, hbounds, hread, hforward⟩ := h.made id op hop
  refine ⟨operandBounds read, hbounds, nodup_keys_operandBounds, fun i hi hf => ?_, fun o ho => ?_⟩
  · have hmem := hforward i hi hf
    exact exists_lookup_operandBounds (p := (i, bounds i.source))
      (mem_countedInputs_of_forward hmem hf)
  · obtain ⟨p, hp, hk⟩ := mem_keys_operandBounds.1 (List.mem_map_of_mem (f := Prod.fst) ho)
    exact ⟨p.1, (hread p (mem_of_mem_countedInputs hp)).1, hk⟩

/-- The values of some operators, latest first. -/
def gather (g : Graph γ) (compute : OperatorId → List (Input × α) → α)
    (order : List OperatorId) : List (OperatorId × α) :=
  order.foldl (fun values id =>
    (id, compute id
      ((g.inputs id).filterMap fun i => (values.lookup i.source).map fun v => (i, v))) :: values) []

section Gather

variable {compute : OperatorId → List (Input × α) → α}

/-- Gathering one more operator computes it from what its inputs were given. -/
theorem gather_append_singleton (done : List OperatorId) (id : OperatorId) :
    g.gather compute (done ++ [id]) = (id, compute id ((g.inputs id).filterMap fun i =>
      ((g.gather compute done).lookup i.source).map fun v => (i, v))) :: g.gather compute done := by
  rw [gather, List.foldl_append]
  rfl

/-- Gathering gives the operators in reverse order of their turns. -/
theorem keys_gather (order : List OperatorId) :
    (g.gather compute order).map Prod.fst = order.reverse := by
  induction order using List.reverseRecOn with
  | nil => rfl
  | append_singleton done id ih => simp [gather_append_singleton, ih]

/-- What an operator was given stays as further operators are gathered. -/
theorem lookup_gather_append {done rest : List OperatorId} (hnodup : (done ++ rest).Nodup)
    {id : OperatorId} (hid : id ∈ done) :
    (g.gather compute (done ++ rest)).lookup id = (g.gather compute done).lookup id := by
  induction rest using List.reverseRecOn with
  | nil => rw [List.append_nil]
  | append_singleton rest x ih =>
      rw [← List.append_assoc] at hnodup ⊢
      have hne : id ≠ x := by
        rintro rfl
        exact (List.nodup_append.1 hnodup).2.2 id (List.mem_append_left _ hid) id
          (List.mem_singleton_self id) rfl
      rw [gather_append_singleton, List.lookup_cons, beq_eq_false_iff_ne.2 hne]
      exact ih (List.nodup_append.1 hnodup).1

/-- Every operator of the order is given something. -/
theorem exists_lookup_gather {done : List OperatorId} {id : OperatorId} (hid : id ∈ done) :
    ∃ a, (g.gather compute done).lookup id = some a := by
  have hkey : id ∈ (g.gather compute done).map Prod.fst := by
    rw [keys_gather]
    exact List.mem_reverse.2 hid
  obtain ⟨⟨k, a⟩, hmem, rfl⟩ := List.mem_map.1 hkey
  cases hlookup : (g.gather compute done).lookup k with
  | none => exact absurd (List.lookup_eq_none_iff.1 hlookup (k, a) hmem) (by simp)
  | some b => exact ⟨b, rfl⟩

end Gather

/-- What the bounds of an operator are computed to, given those of its inputs. -/
def boundsFrom (g : Graph γ) (id : OperatorId) (inputs : List (Input × VarBounds)) : VarBounds :=
  match g.operator? id with
  | some op => op.bounds (operandBounds inputs)
  | none => .none

/-- Bounds that are computed in a topological order bound each operator by those of its inputs. -/
theorem boundedBy_of_gather (horder : g.IsTopological order) : g.BoundedBy fun id =>
    ((g.gather g.boundsFrom order).lookup id).getD .none := by
  refine ⟨fun id op hop => ?_⟩
  obtain ⟨before, after, rfl⟩ := List.append_of_mem
    ((horder.mem_iff id).2 (mem_ids_of_operator? hop))
  have hnodup := horder.nodup
  have hsame {x : OperatorId} (hx : x ∈ before) :
      (g.gather g.boundsFrom (before ++ id :: after)).lookup x =
        (g.gather g.boundsFrom before).lookup x :=
    lookup_gather_append hnodup hx
  refine ⟨(g.inputs id).filterMap fun i =>
    ((g.gather g.boundsFrom before).lookup i.source).map fun v => (i, v), ?_, fun p hp => ?_,
      fun i hi hf => ?_⟩
  · have hself : (g.gather g.boundsFrom (before ++ id :: after)).lookup id =
        (g.gather g.boundsFrom (before ++ [id])).lookup id := by
      rw [List.append_cons] at hnodup ⊢
      exact lookup_gather_append hnodup (by simp)
    rw [hself, gather_append_singleton, List.lookup_cons_self]
    simp [boundsFrom, hop]
  · obtain ⟨i, hi, hp⟩ := List.mem_filterMap.1 hp
    obtain ⟨v, hv, rfl⟩ := Option.map_eq_some_iff.1 hp
    refine ⟨hi, ?_⟩
    have hbefore : i.source ∈ before := by
      have hkey := List.mem_map_of_mem (f := Prod.fst) (lookup_mem hv)
      rwa [keys_gather, List.mem_reverse] at hkey
    simp only [hsame hbefore, hv, Option.getD_some]
  · have hbefore : i.source ∈ before := horder.producers_before before id after rfl i.source
      (source_mem_ids hi) (mem_forward_of_mem_inputs (mem_ids_of_operator? hop) hi hf)
    obtain ⟨v, hv⟩ : ∃ v, (g.gather g.boundsFrom before).lookup i.source = some v :=
      exists_lookup_gather hbefore
    refine List.mem_filterMap.2 ⟨i, hi, ?_⟩
    simp only [hsame hbefore, hv, Option.map_some, Option.getD_some]

/-- Storing values changes the sets of the operators that are listed only. -/
theorem node?_store {values : List (OperatorId × VarBounds)}
    (hnodup : (values.map Prod.fst).Nodup) {id : OperatorId} {n : Node γ}
    (hn : (values.foldl (fun h (id, b) => h.mapNode id fun n =>
      { n with certain := b.certain, possible := b.possible }) g).node? id = some n) :
    (id ∉ values.map Prod.fst → g.node? id = some n) ∧
      ∀ b, (id, b) ∈ values → n.certain = b.certain ∧ n.possible = b.possible := by
  induction values generalizing g with
  | nil => exact ⟨fun _ => hn, fun b hb => absurd hb List.not_mem_nil⟩
  | cons e rest ih =>
      obtain ⟨k, c⟩ := e
      rw [List.map_cons, List.nodup_cons] at hnodup
      obtain ⟨hother, hlisted⟩ := ih hnodup.2 hn
      refine ⟨fun hid => ?_, fun b hb => ?_⟩
      · rw [List.map_cons, List.mem_cons, not_or] at hid
        have := hother hid.2
        rwa [node?_mapNode, if_neg hid.1] at this
      · rcases List.mem_cons.1 hb with hb | hb
        · obtain ⟨rfl, rfl⟩ := Prod.mk.inj hb
          have hhere := hother hnodup.1
          rw [node?_mapNode, if_pos rfl] at hhere
          obtain ⟨m, -, rfl⟩ := Option.map_eq_some_iff.1 hhere
          exact ⟨rfl, rfl⟩
        · exact hlisted b hb

/-- The variable sets of a graph are the bounds of its operators once they have been computed. -/
theorem updateVariables_bounds (h : updateVariables.runOn g = (.ok (), g')) :
    ∃ bounds : OperatorId → VarBounds, g.BoundedBy bounds ∧
      ∀ id n, g'.node? id = some n →
        n.certain = (bounds id).certain ∧ n.possible = (bounds id).possible := by
  obtain ⟨⟨order, horder⟩, hsame⟩ := updateVariables_eq_ok h
  refine ⟨_, boundedBy_of_gather (topologicalOrder_spec horder), fun id n hn => ?_⟩
  have hbounds : g.bounds = .ok (g.gather g.boundsFrom order).reverse := by
    rw [Graph.bounds, propagate, horder]
    rfl
  have hvalues : g' = (g.gather g.boundsFrom order).reverse.foldl
      (fun h (id, b) => h.mapNode id fun n =>
        { n with certain := b.certain, possible := b.possible }) g := by
    rw [updateVariables] at h
    simp only [Edit.runOn_bind, Edit.runOn_get, hbounds, Edit.runOn_set] at h
    exact (Prod.mk.inj h).2.symm
  have hkeys : ((g.gather g.boundsFrom order).reverse.map Prod.fst) = order := by
    rw [List.map_reverse, keys_gather, List.reverse_reverse]
  have hnodup := (topologicalOrder_spec horder).nodup
  have hid : id ∈ order := by
    refine ((topologicalOrder_spec horder).mem_iff id).2 (mem_ids.2 ?_)
    rw [← hsame.contains, contains, hn]
    rfl
  obtain ⟨b, hb⟩ : ∃ b, (g.gather g.boundsFrom order).lookup id = some b := exists_lookup_gather hid
  rw [hvalues] at hn
  simp only [hb, Option.getD_some]
  exact (node?_store (hkeys.symm ▸ hnodup) hn).2 b (List.mem_reverse.2 (lookup_mem hb))

end Graph

end QuadAlgebra
