import QuadAlgebra.Proofs.Optimization.Moves

/-!
# Reductions of graphs

Rules that fit plans of queries and updates reduce a graph in one of few ways
(`Graph.Reduction`). Each is made at a site whose surroundings allow it: the site says which edges
there are, and that nothing else reads what is moved.
-/

namespace QuadAlgebra

/-! ## Surroundings -/

theorem Input.eq_iff {i j : Input} :
    i = j ↔ i.source = j.source ∧ i.operand = j.operand ∧ i.feedback = j.feedback := by
  cases i
  cases j
  exact Input.mk.injEq ..  ▸ Iff.rfl

namespace Graph

variable {γ : Type} {g : Graph γ} {id x : OperatorId} {i j : Input}

/-- An input feeds nothing else if it is the only edge from its producer. -/
theorem feedsOnly_iff : g.feedsOnly i x = true ↔
    i.feedback = false ∧ ∃ e, g.succeeding i.source = [e] ∧ e.target = x := by
  unfold feedsOnly singleConsumer?
  cases hsucceeding : g.succeeding i.source with
  | nil => simp
  | cons e rest =>
      cases rest with
      | nil => simp
      | cons _ _ => simp

/-- An input that feeds only one operator is the only edge from its producer. -/
theorem eq_of_feedsOnly (h : g.feedsOnly i x = true) (hi : g.Reads x i) {y : OperatorId}
    (hj : g.Reads y j) (hsource : j.source = i.source) : y = x ∧ j = i := by
  obtain ⟨-, e, hsucceeding, -⟩ := feedsOnly_iff.1 h
  have hi' : (⟨x, i.operand, i.feedback⟩ : Edge) = e := by
    have hmem : _ ∈ g.succeeding i.source := hi
    rwa [hsucceeding, List.mem_singleton] at hmem
  have hj' : (⟨y, j.operand, j.feedback⟩ : Edge) = e := by
    have hmem : _ ∈ g.succeeding j.source := hj
    rwa [hsource, hsucceeding, List.mem_singleton] at hmem
  obtain ⟨hy, hoperand, hfeedback⟩ := Edge.mk.inj (hj'.trans hi'.symm)
  exact ⟨hy, Input.eq_iff.2 ⟨hsource, hoperand, hfeedback⟩⟩

/-- A single input is the only one. -/
theorem singleInput_eq_some (h : g.singleInput? id = some i) : g.inputs id = [i] := by
  unfold singleInput? at h
  split at h
  · next hinputs =>
    cases h
    exact hinputs
  · cases h

/-- The sources of inputs, each of them once. -/
theorem mem_sourcesOf {inputs : List Input} :
    x ∈ sourcesOf inputs ↔ ∃ i ∈ inputs, i.source = x := by
  rw [sourcesOf, OrdSet.mem_toList, OrdSet.mem_ofList, List.mem_map]

/-- As many producers as inputs means that no two inputs have one in common. -/
theorem nodup_of_sourcesDiffer {inputs : List Input} (h : sourcesDiffer inputs = true) :
    (inputs.map Input.source).Nodup := by
  have hnodup : (sourcesOf inputs).Nodup := OrdSet.nodup_toList _
  have hsub : (sourcesOf inputs).Subperm (inputs.map Input.source) :=
    hnodup.subperm fun x hx => List.mem_map.2 (mem_sourcesOf.1 hx)
  have hlength : (inputs.map Input.source).length ≤ (sourcesOf inputs).length := by
    rw [List.length_map, beq_iff_eq.1 h]
  exact (hsub.perm_of_length_le hlength).nodup_iff.1 hnodup

/-- Inputs that each feed one operator only come from different producers. -/
theorem nodup_sources_of_feedsOnly (h : ∀ i ∈ g.inputs x, g.feedsOnly i x = true) :
    ((g.inputs x).map Input.source).Nodup := by
  have hperm := (stableSort_perm (fun a b : Input => compare a.operand b.operand)
    ((distinctOf (g.preceding x)).flatMap fun source => g.edgesBetween source x)).map Input.source
  refine hperm.nodup_iff.2 ?_
  rw [List.map_flatMap]
  refine List.nodup_flatMap.2 ⟨fun s hs => ?_, ?_⟩
  · by_cases hedges : g.edgesBetween s x = []
    · rw [hedges]
      exact List.nodup_nil
    · obtain ⟨i, hi⟩ := List.exists_mem_of_ne_nil _ hedges
      obtain ⟨rfl, hedge⟩ := mem_edgesBetween.1 hi
      have hinput : i ∈ g.inputs x := mem_inputs.2 ⟨mem_distinctOf.1 hs, hedge⟩
      obtain ⟨-, e, hsucceeding, -⟩ := feedsOnly_iff.1 (h i hinput)
      unfold edgesBetween
      rw [hsucceeding, List.filter_singleton]
      cases e.target == x <;> simp
  · refine (nodup_distinctOf _).imp fun {a b} hab => List.disjoint_left.2 fun s hs hs' => hab ?_
    obtain ⟨i, hi, rfl⟩ := List.mem_map.1 hs
    obtain ⟨j, hj, hij⟩ := List.mem_map.1 hs'
    rw [← (mem_edgesBetween.1 hi).1, ← (mem_edgesBetween.1 hj).1, hij]

end Graph

/-! ## Reductions -/

namespace Graph

variable {γ : Type} (provesEmpty : IndexScan → Bool) (g g' : Graph γ)

/-- The kinds of filters. -/
def filterKinds : List Kind := [.filter, .ruleFilter]

/-- The operator emits nothing, or nobody reads what it emits. -/
inductive Useless (id : OperatorId) : Operator γ → Prop where
  | emptyScan (s : IndexScan) (h : provesEmpty s = true) : Useless id (.scan s)
  | idleTemplate (template : List QuadPattern) (h : template = [] ∨ g.succeeding id = []) :
      Useless id (.construct template)
  | idleUnion (h : g.inputs id = [] ∨ g.succeeding id = []) : Useless id .union

/-- A union whose inputs can be read in its place. -/
structure SpliceSite (u : OperatorId) : Prop where
  union : g.operator? u = some .union
  fed : ∃ i, g.Reads u i
  read : ∃ x i, g.Reads x i ∧ i.source = u
  apart : ∀ i x, g.Reads u i → ∀ j, g.Reads x j → j.source = u → x ≠ u ∧ i.source ≠ x
  nodup : ((g.inputs u).map Input.source).Nodup

/-- A join of scans that nothing else reads, all from one source. -/
structure MergeSite (u : OperatorId) (inputs : List Input) (scans : List IndexScan) : Prop where
  join : g.operator? u = some .join
  groups : (g.operandGroups u).map Prod.snd = inputs.map fun i => [i]
  many : 2 ≤ inputs.length
  scanned : List.Forall₂ (fun i s => g.operator? i.source = some (.scan s)) inputs scans
  only : ∀ i ∈ inputs, g.feedsOnly i u = true
  roots : ∀ i ∈ inputs, ∀ j, g.Reads i.source j → j.source = root ∧ j.feedback = false
  same : PlanRule.sameSource scans = true

/-- The operator is a filter without nested plans. -/
def Filters (op : Operator γ) : Prop := op.kind ∈ filterKinds ∧ op.nested = []

/-- A filter that reads several inputs. -/
structure DistributeSite (u : OperatorId) (op : Operator γ) : Prop where
  operator : g.operator? u = some op
  filters : Filters op
  many : 2 ≤ (g.inputs u).length
  nodup : ((g.inputs u).map Input.source).Nodup
  forward : ∀ i, g.Reads u i → i.feedback = false ∧ i.operand = 0

/-- A filter that does the same work on some edges to the operator that it reads. -/
structure LowerSite (u below : OperatorId) (op : Operator γ) (l : List Input) : Prop where
  operator : g.operator? u = some op
  filters : Filters op
  input : ∃ i, g.inputs u = [i] ∧ i.source = below ∧ g.feedsOnly i u = true
  targets : l = (g.inputs below).filter fun i =>
    (PlanRule.pushTargets g below op.reads).contains i.source
  fed : l ≠ []

/-- A renaming that can be done in the scans that it reads. -/
structure RenameSite (u : OperatorId) (r : Renaming) (r' : VarMap) : Prop where
  rename : g.operator? u = some (.replaceVar r)
  inverse : PlanRule.inverse r = some r'
  fed : g.inputs u ≠ []
  scans : ∀ i, g.Reads u i → ∃ s, g.operator? i.source = some (.scan s) ∧
    PlanRule.bindsTarget r s = false
  only : ∀ i, g.Reads u i → g.feedsOnly i u = true

/-- The kinds of the heads and matchers of rule programs. -/
def ruleKinds : List Kind := [.generate, .constructAtom, .matchTriple, .matchAtom]

/-- What a rule makes of a graph without heads and matchers. -/
inductive Reduction : Prop where
  /-- A useless operator is removed, with all that depends on it. -/
  | pruned (u : OperatorId) (op : Operator γ) (gone : List OperatorId)
      (operator : g.operator? u = some op) (useless : g.Useless provesEmpty u op) (mem : u ∈ gone)
      (exhausts : Exhausts g.operator? g.Reads [] [u] gone)
      (wired : g'.Wired g.slots.length (remaining g.operator? gone) (remainingReads g.Reads gone))
  /-- A union makes place for its inputs. -/
  | spliced (u : OperatorId) (site : g.SpliceSite u)
      (wired : g'.Wired g.slots.length (fun x => if x = u then none else g.operator? x)
        (splicedReads g.Reads u))
  /-- One scan takes the place of a join of scans. -/
  | merged (u : OperatorId) (inputs : List Input) (scans : List IndexScan) (scan : IndexScan)
      (site : g.MergeSite u inputs scans) (merge : PlanRule.mergeScans scans = some scan)
      (wired : g'.Wired (g.slots.length + 1)
        (fun x => if x = u ∨ x ∈ inputs.map Input.source then none
          else if x = g.slots.length then some (.scan scan) else g.operator? x)
        (mergedReads g.Reads g.slots.length u (inputs.map Input.source)))
  /-- A filter asks for equal terms only. -/
  | specialized (u : OperatorId) (f : Filter γ) (equalities : List (Item × Item))
      (operator : g.operator? u = some (.filter f)) (plain : f.nested = [])
      (specialize : f.condition.equalities? = some equalities)
      (wired : g'.Wired g.slots.length
        (fun x => if x = u then some (.ruleFilter equalities) else g.operator? x) g.Reads)
  /-- Duplicates are removed with the help of an index. -/
  | indexed (u : OperatorId) (operator : g.operator? u = some .distinct)
      (wired : g'.Wired g.slots.length
        (fun x => if x = u then some .indexDistinct else g.operator? x) g.Reads)
  /-- A filter is split over its inputs. -/
  | distributed (u : OperatorId) (op : Operator γ) (site : g.DistributeSite u op)
      (wired : g'.Wired (g.slots.length + (g.inputs u).length)
        (fun x => if x = u then none
          else withCopies g.operator? g.slots.length (g.inputs u).length op x)
        (distributedReads g.Reads g.slots.length u ((g.inputs u).map Input.source)))
  /-- A filter moves below the operator that it reads. -/
  | lowered (u below : OperatorId) (op : Operator γ) (l : List Input)
      (site : g.LowerSite u below op l)
      (wired : g'.Wired (g.slots.length + l.length)
        (fun x => if x = u then none else withCopies g.operator? g.slots.length l.length op x)
        (loweredReads g.Reads g.slots.length u below l))
  /-- Scans take the place of a renaming. -/
  | renamed (u : OperatorId) (r : Renaming) (r' : VarMap) (site : g.RenameSite u r r')
      (wired : g'.Wired g.slots.length (fun x => if x = u then none
          else if x ∈ (g.inputs u).map Input.source then
            (g.operator? x).map (Operator.renamedScan r') else g.operator? x)
        (splicedReads g.Reads u))

end Graph

/-! ## Graphs on which rules work -/

namespace Graph

variable {γ : Type} {g : Graph γ} {provesEmpty : IndexScan → Bool} {id u below x : OperatorId}
  {op : Operator γ} {i : Input}

/-- A rank that ascends along forward edges, from the root on. -/
structure Ranks (reads : OperatorId → Input → Prop) (rank : OperatorId → Nat) : Prop where
  root : rank Graph.root = 0
  ascends : ∀ x i, reads x i → i.feedback = false → rank i.source < rank x

/-- Both sides of the edges agree, the root is in its place, and forward edges do not run in
circles. -/
structure Orderly (g : Graph γ) : Prop where
  linked : g.Linked
  root : g.operator? root = some .root
  ascends : Ascends g.Reads

theorem Orderly.wired (h : g.Orderly) : g.Wired g.slots.length g.operator? g.Reads :=
  .of_linked h.linked

/-- No operator reads itself forward in an orderly graph. -/
theorem Orderly.source_ne (h : g.Orderly) (hi : g.Reads x i) (hf : i.feedback = false) :
    i.source ≠ x := by
  obtain ⟨rank, hrank⟩ := h.ascends
  rintro rfl
  exact absurd (hrank _ i hi hf) (Nat.lt_irrefl _)

/-- Only the root is a root. -/
theorem ne_root_of_kind (hroot : g.operator? root = some .root) (hop : g.operator? id = some op)
    (hkind : op.kind ≠ .root) : id ≠ Graph.root := by
  rintro rfl
  rw [hroot] at hop
  exact hkind (Option.some.inj hop ▸ rfl)

/-- An operator of another kind is not the root. -/
theorem Orderly.ne_root (h : g.Orderly) (hop : g.operator? id = some op) (hkind : op.kind ≠ .root) :
    id ≠ Graph.root := ne_root_of_kind h.root hop hkind

/-- Both sides of the edges agree, the root is in its place, and forward edges lead away from it, to
operators of ever higher ranks. -/
structure Sane (g : Graph γ) : Prop where
  linked : g.Linked
  root : g.operator? root = some .root
  ranks : ∃ rank, Ranks g.Reads rank

/-- A sane graph is orderly. -/
theorem Sane.orderly (h : g.Sane) : g.Orderly := by
  obtain ⟨rank, hrank⟩ := h.ranks
  exact ⟨h.linked, h.root, rank, hrank.ascends⟩

theorem Sane.wired (h : g.Sane) : g.Wired g.slots.length g.operator? g.Reads := h.orderly.wired

theorem Sane.ascends (h : g.Sane) : Ascends g.Reads := h.orderly.ascends

theorem Sane.source_ne (h : g.Sane) (hi : g.Reads x i) (hf : i.feedback = false) :
    i.source ≠ x := h.orderly.source_ne hi hf

theorem Sane.ne_root (h : g.Sane) (hop : g.operator? id = some op) (hkind : op.kind ≠ .root) :
    id ≠ Graph.root := h.orderly.ne_root hop hkind

theorem Filters.kind_ne (h : Filters op) {kind : Kind} (hkind : kind ∉ filterKinds) :
    op.kind ≠ kind := fun he => hkind (he ▸ h.1)

/-- Two kinds of operators filter. -/
theorem Filters.eq_filter_or (h : Filters op) :
    (∃ f, op = .filter f) ∨ ∃ equalities, op = .ruleFilter equalities := by
  have hkind := h.1
  cases op with
  | filter f => exact .inl ⟨f, rfl⟩
  | ruleFilter equalities => exact .inr ⟨equalities, rfl⟩
  | command c => cases c <;> simp [Operator.kind, GraphCommand.kind, filterKinds] at hkind
  | _ => simp [Operator.kind, filterKinds] at hkind

/-- What is useless may be removed. -/
theorem Useless.removable (h : g.Useless provesEmpty id op) : op.Removable := by
  cases h <;> exact ⟨Kind.noConfusion, Kind.noConfusion⟩

/-- Where a filter is distributed it does not read itself. -/
theorem DistributeSite.source_ne (h : g.Orderly) (hsite : g.DistributeSite u op)
    (hi : g.Reads u i) :
    i.source ≠ u := h.source_ne hi (hsite.forward i hi).1

/-- Whatever the filter reads, it reads something else, too. -/
theorem DistributeSite.exists_ne (h : g.Linked) (hsite : g.DistributeSite u op) (i : Input) :
    ∃ j, g.Reads u j ∧ j ≠ i := by
  by_contra hnone
  push Not at hnone
  have hmany := hsite.many
  have hnodup := List.Nodup.of_map _ hsite.nodup
  have hall : ∀ j ∈ g.inputs u, j = i := fun j hj => hnone j (h.mem_inputs.1 hj)
  rw [List.eq_replicate_of_mem hall] at hnodup
  have := List.nodup_replicate.1 hnodup
  omega

/-- What a filter is pushed over: edges whose producers feed nothing else. -/
theorem exists_of_mem_pushTargets {vars : VarSet} {s : OperatorId}
    (hs : s ∈ PlanRule.pushTargets g below vars) :
    ∃ j ∈ g.inputs below, j.source = s ∧ g.feedsOnly j below = true := by
  have hcovered {inputs : List Input} (hsub : ∀ j ∈ inputs, j ∈ g.inputs below)
      (hcovers : PlanRule.covers g below vars inputs = true) (hmem : s ∈ inputs.map Input.source) :
      ∃ j ∈ g.inputs below, j.source = s ∧ g.feedsOnly j below = true := by
    obtain ⟨j, hj, hjs⟩ := List.mem_map.1 hmem
    exact ⟨j, hsub j hj, hjs, (Bool.and_eq_true_iff.1 (List.all_eq_true.1 hcovers j hj)).1⟩
  unfold PlanRule.pushTargets at hs
  dsimp only at hs
  split at hs
  · cases hs
  · split at hs
    · obtain ⟨group, hgroup, hmem⟩ := List.mem_flatMap.1 hs
      obtain ⟨hgroup, hall⟩ := List.mem_filter.1 hgroup
      obtain ⟨⟨k, group'⟩, hgroup', rfl⟩ := List.mem_map.1 hgroup
      refine hcovered (fun j hj => ?_) hall hmem
      obtain ⟨k', -, hgroup'⟩ := List.mem_map.1 hgroup'
      obtain ⟨-, rfl⟩ := Prod.mk.inj hgroup'
      exact (List.mem_filter.1 hj).1
    · split at hs
      · next hall =>
        obtain ⟨j, hj, hjs⟩ := mem_sourcesOf.1 hs
        exact ⟨j, hj, hjs, List.all_eq_true.1 hall j hj⟩
      · cases hs
    · split at hs
      · next hall => exact hcovered (fun j hj => (List.mem_filter.1 hj).1) hall hs
      · cases hs
    · cases hs

/-- A filter is pushed over joins, unions and optional patterns only. -/
theorem exists_operator_of_mem_pushTargets {vars : VarSet} {s : OperatorId}
    (hs : s ∈ PlanRule.pushTargets g below vars) :
    ∃ op ∈ [Operator.join, .union, .optional], g.operator? below = some op := by
  unfold PlanRule.pushTargets at hs
  dsimp only at hs
  split at hs
  · cases hs
  · split at hs
    · next hop => exact ⟨_, by simp, hop⟩
    · next hop => exact ⟨_, by simp, hop⟩
    · next hop => exact ⟨_, by simp, hop⟩
    · cases hs

/-- The inputs of an operator, grouped by their operands. -/
theorem mem_operandGroups {k : Nat} {group : List Input} : (k, group) ∈ g.operandGroups u ↔
    (∃ i ∈ g.inputs u, i.operand = k) ∧ group = (g.inputs u).filter (·.operand == k) := by
  simp only [operandGroups, List.mem_map, mem_distinctOf, Prod.mk.injEq]
  constructor
  · rintro ⟨k', ⟨i, hi, rfl⟩, rfl, rfl⟩
    exact ⟨⟨i, hi, rfl⟩, rfl⟩
  · rintro ⟨⟨i, hi, rfl⟩, rfl⟩
    exact ⟨i.operand, ⟨i, hi, rfl⟩, rfl, rfl⟩

namespace MergeSite

variable {inputs : List Input} {scans : List IndexScan}

/-- The join reads one scan on each operand. -/
theorem reads_iff (h : g.Linked) (hsite : g.MergeSite u inputs scans) :
    g.Reads u i ↔ i ∈ inputs := by
  refine h.mem_inputs.symm.trans ⟨?_, ?_⟩
  · intro hi
    have hgroup : (g.inputs u).filter (·.operand == i.operand) ∈ inputs.map fun j => [j] :=
      hsite.groups ▸ List.mem_map.2 ⟨(i.operand, _), mem_operandGroups.2 ⟨⟨i, hi, rfl⟩, rfl⟩, rfl⟩
    obtain ⟨j, hj, hfilter⟩ := List.mem_map.1 hgroup
    have hmem : i ∈ [j] := hfilter ▸ List.mem_filter.2 ⟨hi, by simp⟩
    exact List.mem_singleton.1 hmem ▸ hj
  · intro hi
    have hgroup : [i] ∈ (g.operandGroups u).map Prod.snd :=
      hsite.groups ▸ List.mem_map.2 ⟨i, hi, rfl⟩
    obtain ⟨⟨k, group⟩, hmem, rfl⟩ := List.mem_map.1 hgroup
    have hfilter : [i] = _ := (mem_operandGroups.1 hmem).2
    exact (List.mem_filter.1 (hfilter ▸ List.mem_singleton_self i)).1

/-- The operand that the inputs of a group are on. -/
def operandOf (group : List Input) : Nat := (group.map Input.operand).headD 0

/-- Each scan is read over a single edge. -/
theorem nodup (h : g.Linked) (hsite : g.MergeSite u inputs scans) :
    (inputs.map Input.source).Nodup := by
  have hinj (i : Input) (hi : i ∈ inputs) (j : Input) (hj : j ∈ inputs)
      (hsource : i.source = j.source) : i = j :=
    (eq_of_feedsOnly (hsite.only j hj) ((hsite.reads_iff h).2 hj) ((hsite.reads_iff h).2 hi)
      hsource).2
  have hoperands : inputs.map Input.operand = (g.operandGroups u).map Prod.fst := by
    have hgroup : ∀ p ∈ g.operandGroups u, operandOf p.2 = p.1 := by
      rintro ⟨k, group⟩ hp
      obtain ⟨⟨i, hi, rfl⟩, hgroup⟩ := mem_operandGroups.1 hp
      have hmem : i ∈ group := hgroup ▸ List.mem_filter.2 ⟨hi, by simp⟩
      obtain ⟨j, rest, rfl⟩ := List.exists_cons_of_ne_nil (List.ne_nil_of_mem hmem)
      have hj : j ∈ (g.inputs u).filter (·.operand == i.operand) := hgroup ▸ List.mem_cons_self
      exact beq_iff_eq.1 (List.mem_filter.1 hj).2
    calc inputs.map Input.operand = (inputs.map fun i => [i]).map operandOf := by
          rw [List.map_map]
          rfl
      _ = (g.operandGroups u).map fun p => operandOf p.2 := by
          rw [← hsite.groups, List.map_map]
          rfl
      _ = (g.operandGroups u).map Prod.fst := List.map_congr_left hgroup
  have hkeys : ((g.operandGroups u).map Prod.fst).Nodup := by
    have hfst : (g.operandGroups u).map Prod.fst = distinctOf ((g.inputs u).map Input.operand) := by
      simp only [operandGroups, List.map_map]
      exact List.map_id _
    rw [hfst]
    exact nodup_distinctOf _
  exact (List.Nodup.of_map Input.operand (hoperands ▸ hkeys)).map_on hinj

/-- The inputs of a join whose scans are merged are scans. -/
theorem exists_scan (hsite : g.MergeSite u inputs scans) (hi : i ∈ inputs) :
    ∃ s, g.operator? i.source = some (.scan s) := by
  obtain ⟨s, -, hs⟩ := exists_of_forall₂ hsite.scanned hi
  exact ⟨s, hs⟩

end MergeSite

namespace LowerSite

variable {l : List Input}

/-- The copies of a lowered filter stand on edges of which nothing else reads the producer. -/
theorem reads (h : g.Linked) (hsite : g.LowerSite u below op l) {j : Input} (hj : j ∈ l) :
    g.Reads below j ∧ g.feedsOnly j below = true := by
  rw [hsite.targets] at hj
  obtain ⟨hj, hmem⟩ := List.mem_filter.1 hj
  have hread := h.mem_inputs.1 hj
  obtain ⟨j', hj', hsource, hfeeds⟩ := exists_of_mem_pushTargets (List.contains_iff_mem.1 hmem)
  obtain ⟨-, rfl⟩ := eq_of_feedsOnly hfeeds (h.mem_inputs.1 hj') hread hsource.symm
  exact ⟨hread, hfeeds⟩

/-- A filter is lowered below a join, a union or an optional pattern. -/
theorem exists_below (hsite : g.LowerSite u below op l) :
    ∃ op ∈ [Operator.join, .union, .optional], g.operator? below = some op := by
  obtain ⟨j, hj⟩ := List.exists_mem_of_ne_nil _ hsite.fed
  rw [hsite.targets] at hj
  exact exists_operator_of_mem_pushTargets (List.contains_iff_mem.1 (List.mem_filter.1 hj).2)

/-- The filter reads the operator below it over a forward edge, and nothing else does. -/
theorem input_eq (h : g.Linked) (hsite : g.LowerSite u below op l) :
    ∃ i, (∀ j, g.Reads u j ↔ j = i) ∧
    i.source = below ∧ i.feedback = false ∧
      ∀ x j, g.Reads x j → j.source = below → x = u ∧ j = i := by
  obtain ⟨i, hinputs, hsource, hfeeds⟩ := hsite.input
  have hread (j : Input) : g.Reads u j ↔ j = i := by
    refine h.mem_inputs.symm.trans ?_
    rw [hinputs, List.mem_singleton]
  refine ⟨i, hread, hsource, (feedsOnly_iff.1 hfeeds).1, fun x j hj hs => ?_⟩
  exact eq_of_feedsOnly hfeeds ((hread i).2 rfl) hj (hs.trans hsource.symm)

end LowerSite

/-! ## A scan in the place of a join -/

/-- A graph in which a scan has taken the place of a join of scans. -/
structure Merging (g g' : Graph γ) (join : OperatorId) (inputs : List Input)
    (scans : List IndexScan) (scan : IndexScan) : Prop where
  linked : g.Linked
  root : g.operator? root = some .root
  site : g.MergeSite join inputs scans
  merge : PlanRule.mergeScans scans = some scan
  wired : g'.Wired (g.slots.length + 1)
    (fun x => if x = join ∨ x ∈ inputs.map Input.source then none
      else if x = g.slots.length then some (.scan scan) else g.operator? x)
    (mergedReads g.Reads g.slots.length join (inputs.map Input.source))

namespace Merging

variable {g' : Graph γ} {join : OperatorId} {inputs : List Input} {scans : List IndexScan}
  {scan : IndexScan}

/-- The merged scan is none of the operators that were there. -/
theorem ne_new (h : g.Merging g' join inputs scans scan) (hop : g.operator? x = some op) :
    x ≠ g.slots.length := by
  rintro rfl
  rw [(Wired.of_linked h.linked).eq_none_of_le le_rfl] at hop
  cases hop

/-- Only a join and scans are gone. -/
theorem kind_of_gone (h : g.Merging g' join inputs scans scan)
    (hx : x = join ∨ x ∈ inputs.map Input.source) :
    ∃ op, g.operator? x = some op ∧ op.kind ≠ .root := by
  rcases hx with rfl | hx
  · exact ⟨_, h.site.join, Kind.noConfusion⟩
  · obtain ⟨i, hi, rfl⟩ := List.mem_map.1 hx
    obtain ⟨s, hs⟩ := h.site.exists_scan hi
    exact ⟨_, hs, Kind.noConfusion⟩

/-- The merged scan has a number of its own. -/
theorem operator_new (h : g.Merging g' join inputs scans scan) :
    g'.operator? g.slots.length = some (.scan scan) := by
  rw [h.wired.operator?, if_neg, if_pos rfl]
  intro hx
  obtain ⟨op, hop, -⟩ := h.kind_of_gone hx
  exact h.ne_new hop rfl

/-- The root is still the root once scans are merged. -/
theorem operator_root (h : g.Merging g' join inputs scans scan) :
    g'.operator? Graph.root = some .root := by
  rw [h.wired.operator?, if_neg, if_neg (h.ne_new h.root), h.root]
  intro hx
  obtain ⟨op, hop, hkind⟩ := h.kind_of_gone hx
  exact ne_root_of_kind h.root hop hkind rfl

/-- All others have been there before. -/
theorem operator_old (h : g.Merging g' join inputs scans scan) (hx : x ≠ g.slots.length)
    (hop : g'.operator? x = some op) : g.operator? x = some op := by
  rw [h.wired.operator?, if_neg hx] at hop
  split at hop
  · cases hop
  · exact hop

/-- Neither end of a former edge is the merged scan. -/
theorem ne_new_of_reads (h : g.Merging g' join inputs scans scan) (hi : g.Reads x i) :
    x ≠ g.slots.length ∧ i.source ≠ g.slots.length := by
  have hwired := Wired.of_linked h.linked
  obtain ⟨hx, hs⟩ := hwired.ends_of_reads hi
  exact ⟨fun he => hx (hwired.eq_none_of_le he.ge), fun he => hs (hwired.eq_none_of_le he.ge)⟩

/-- The merged scan feeds those that the join fed. -/
theorem reads_new (h : g.Merging g' join inputs scans scan) {k : Nat} {f : Bool} :
    g'.Reads x ⟨g.slots.length, k, f⟩ ↔ g.Reads x ⟨join, k, f⟩ := by
  rw [h.wired.reads]
  constructor
  · rintro (⟨hi, -⟩ | ⟨-, hi⟩ | ⟨-, hi⟩)
    · exact absurd rfl (h.ne_new_of_reads hi).2
    · exact absurd (Input.mk.inj hi).1 (h.ne_new h.root).symm
    · exact hi
  · exact fun hi => .inr (.inr ⟨rfl, hi⟩)

/-- The merged scan plays the part of the join. -/
def part (g : Graph γ) (join x : OperatorId) : OperatorId := if x = g.slots.length then join else x

theorem part_of_ne (hx : x ≠ g.slots.length) : part g join x = x := if_neg hx

theorem part_new : part g join g.slots.length = join := if_pos rfl

/-- Apart from the merged scan, operators read what they have read, or the merged scan in the place
of the join. -/
theorem reads_cases (h : g.Merging g' join inputs scans scan) (hi : g'.Reads x i) :
    (x = g.slots.length ∧ i = ⟨Graph.root, 0, false⟩) ∨
      x ≠ g.slots.length ∧ g.Reads x ⟨part g join i.source, i.operand, i.feedback⟩ := by
  rcases (h.wired.reads x i).1 hi with ⟨hi, -⟩ | hnew | ⟨hs, hi⟩
  · obtain ⟨hx, hs⟩ := h.ne_new_of_reads hi
    rw [part_of_ne hs]
    exact .inr ⟨hx, hi⟩
  · exact .inl hnew
  · rw [hs, part_new]
    exact .inr ⟨(h.ne_new_of_reads hi).1, hi⟩

end Merging

end Graph

end QuadAlgebra
