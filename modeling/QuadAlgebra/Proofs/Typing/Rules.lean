import QuadAlgebra.Proofs.Typing.Reshaping

/-!
# Rules keep graphs typed

Each rule of the catalogue, applied where it matches, keeps a typed graph typed
(`PlanRule.catalogue_keepsTypes`). New edges go past operators that pass solutions on, or lead to
and from copies. So does any number of passes over the rules (`Graph.ends_applyRules`).
-/

namespace QuadAlgebra

open Reshape

variable {γ : Type} (good : γ → Prop)

/-- Applied to a match in a typed graph, the rule keeps the types. -/
def PlanRule.KeepsTypes (rule : PlanRule γ) : Prop :=
  ∀ (w : Workspace γ) (id : OperatorId) (m : Match), w.graph.Typed good →
    w.graph.kind? id = some rule.start → rule.match? w.graph id = some m →
      (rule.replace m).Ends w fun _ w' => w.KeepsKinds good w'

/-! ## Matches -/

namespace Match

variable (m : Match) (role role' : Role) (id : OperatorId) (ids : List OperatorId)

@[simp] theorem root_only : (only id).root = id := rfl

@[simp] theorem root_bind : (m.bind role id).root = m.root := rfl

@[simp] theorem root_bindAll : (m.bindAll role ids).root = m.root := rfl

@[simp] theorem all_only : (only id).all role = [] := rfl

/-- A match lists what is bound to a role in the order in which it was bound. -/
@[simp] theorem all_bind : (m.bind role id).all role' =
    m.all role' ++ if role = role' then [id] else [] := by
  unfold all bind
  rw [List.filter_append, List.map_append]
  by_cases h : role = role' <;> simp [h]

@[simp] theorem all_bindAll : (m.bindAll role ids).all role' =
    m.all role' ++ if role = role' then ids else [] := by
  unfold all bindAll
  rw [List.filter_append, List.map_append]
  by_cases h : role = role' <;> simp [h, List.filter_map, Function.comp_def]

end Match

namespace PlanRule

variable {w : Workspace γ} {g : Graph γ} {id : OperatorId} {m : Match} {op : Operator γ}

/-- An operator of some kind is an operator. -/
theorem exists_operator {kind : Kind} (h : g.kind? id = some kind) :
    ∃ op, g.operator? id = some op ∧ op.kind = kind :=
  Option.map_eq_some_iff.1 h

/-- The kinds of operators on solutions at which rules start or past which they lead edges. -/
theorem onSolutions_of_kind (h : op.kind ∈ [Kind.scan, .join, .optional, .union, .filter,
    .ruleFilter, .replaceVar, .distinct]) : op.OnSolutions := by
  cases op with
  | command c => cases c <;> simp [Operator.kind, GraphCommand.kind] at h
  | _ => first | exact ⟨rfl, rfl⟩ | simp [Operator.kind] at h

/-! ## Removals -/

/-- Whatever a cascade removes, those that are left keep their kinds. -/
theorem keeps_cascade {α : Type} {a : α} :
    (do let _ ← cascade id; return a : Reshape γ α).Ends w fun _ w' => w.KeepsKinds good w' :=
  (ends_cascade good).bind fun _ _ h => Edit.ends_pure.2 h

/-- Empty scans only take operators away with them. -/
theorem removeEmptyScan_keepsTypes (provesEmpty : IndexScan → Bool) :
    (removeEmptyScan provesEmpty).KeepsTypes good :=
  fun _ _ _ _ _ _ => keeps_cascade good

theorem removeIdleTemplate_keepsTypes : (removeIdleTemplate (γ := γ)).KeepsTypes good :=
  fun _ _ _ _ _ _ => keeps_cascade good

/-- To cut an idle head off takes edges away, and perhaps operators. -/
theorem removeIdleHead_keepsTypes (name : String) (kind : Kind) (wanted : RuleOutput → Bool) :
    (removeIdleHead (γ := γ) name kind wanted).KeepsTypes good := by
  intro w id m _ _ _
  refine (Edit.ends_forM (Workspace.KeepsKinds good) fun result _ _ _ =>
    ends_disconnect good).bind fun _ w₁ h₁ => Edit.ends_bind.2 (ends_look.2 ?_)
  split
  · exact (keeps_cascade good).mono fun _ _ h₂ => h₁.trans h₂
  · exact Edit.ends_pure.2 h₁

/-- A union is spliced out where the rule has matched. -/
theorem root_of_spliceUnion (h : (spliceUnion (γ := γ)).match? g id = some m) : m.root = id := by
  simp only [spliceUnion] at h
  split at h
  · cases h; rfl
  · split at h
    · cases h
    · cases h; rfl

/-- The consumers of a union read rows of the same kind from its inputs. -/
theorem spliceUnion_keepsTypes : (spliceUnion (γ := γ)).KeepsTypes good := by
  intro w id m htyped hkind hm
  obtain ⟨op, hop, hunion⟩ : ∃ op, w.graph.operator? id = some op ∧ op.kind = .union :=
    exists_operator hkind
  obtain ⟨haccepts, hemits⟩ : op.OnSolutions := onSolutions_of_kind (by rw [hunion]; decide)
  unfold spliceUnion
  dsimp only
  split
  · exact keeps_cascade good
  · refine Edit.ends_bind.2 (ends_look.2 (Edit.ends_bind.2 (ends_look.2 ?_)))
    rw [root_of_spliceUnion hm]
    refine (Edit.ends_forM (Workspace.KeepsKinds good) fun i hi w₁ h₁ =>
      Edit.ends_forM (Workspace.KeepsKinds good) fun e he w₂ h₂ => ?_).bind fun _ w₃ h₃ =>
        (ends_remove good).mono fun _ _ h₄ => h₃.trans h₄
    have h₁₂ := h₁.trans h₂
    exact ends_connect good (h₁₂.emits (htyped.emits_of_mem_inputs hop haccepts hi))
      (h₁₂.takes (htyped.takes_of_mem_succeeding (.of_operator? hop hemits) he))

/-! ## Copies -/

/-- A copy reads what the operator reads and is read like it. -/
theorem ends_moveConsumer {shared target : OperatorId} {inputs : List Input} {k : RowKind}
    (htyped : w.graph.Typed good) (hcovered : op.Covered good) (hk : op.emits? = some k)
    (hshared : w.graph.Emits shared k)
    (hinputs : ∀ i ∈ inputs, ∃ j, w.graph.Emits i.source j ∧ op.accepts j = true) :
    (moveConsumer shared op inputs target).Ends w fun _ w' => w.KeepsKinds good w' := by
  unfold moveConsumer
  refine Edit.ends_bind.2 (ends_look.2 ?_)
  refine (ends_add good op hcovered).bind fun copy w₁ ⟨h₁, hcopy⟩ => ?_
  refine (Edit.ends_forM (Workspace.KeepsKinds good) fun i hi w₂ h₂ => ?_).bind fun _ w₃ h₃ => ?_
  · obtain ⟨j, hj, haccepts⟩ := hinputs i hi
    exact ends_connect good (h₂.emits (h₁.emits hj)) ((hcopy.keeps h₂).takes haccepts)
  · refine (ends_disconnect good).bind fun _ w₄ h₄ => ?_
    have h₁₄ := (h₁.trans h₃).trans h₄
    refine (ends_feedAll good ((hcopy.keeps (h₃.trans h₄)).emits hk) fun e he => ?_).mono
      fun _ _ h₅ => h₁₄.trans h₅
    exact h₁₄.takes (htyped.takes_of_mem_succeeding hshared (List.mem_filter.1 he).1)

/-- A copy of an operator emits rows of the same kind, and its consumers are those of the
operator. -/
theorem split_keepsTypes (name : String) (kind : Kind) (hemits : ∀ op : Operator γ, op.kind = kind →
    ∃ k, op.emits? = some k) : (split (γ := γ) name kind).KeepsTypes good := by
  intro w id m htyped hkind hm
  obtain ⟨op, hop, hopkind⟩ := exists_operator hkind
  obtain ⟨k, hk⟩ := hemits op hopkind
  have hroot : m.root = id := by
    simp only [split] at hm
    split at hm
    · cases hm
    · split at hm <;> cases hm
      rfl
  unfold split
  dsimp only
  rw [hroot]
  refine Edit.ends_bind.2 (ends_operator.2 fun op' hop' => ?_)
  obtain rfl : op = op' := Option.some.inj (hop.symm.trans hop')
  refine Edit.ends_bind.2 (ends_look.2 ?_)
  refine Edit.ends_forM (Workspace.KeepsKinds good) fun target _ w₁ h₁ => ?_
  refine ends_moveConsumer good (h₁.typed htyped) (htyped.covered id op hop) hk
    (h₁.emits (.of_operator? hop hk)) fun i hi => ?_
  obtain ⟨j, hj, haccepts⟩ := htyped.accepts_of_mem_inputs hop hi
  exact ⟨j, h₁.emits hj, haccepts⟩

/-! ## Scans -/

/-- A rule that expects a scan fails where there is none. -/
theorem ends_expectScan {rule : String} {post : IndexScan → Workspace γ → Prop} :
    (expectScan rule id).Ends w post ↔
      ∀ s, w.graph.operator? id = some (.scan s) → post s w := by
  unfold expectScan
  rw [Edit.ends_bind, ends_operator]
  constructor
  · exact fun h s hs => Edit.ends_pure.1 (h (.scan s) hs)
  · intro h op hop
    cases op with
    | scan s => exact Edit.ends_pure.2 (h s hop)
    | _ => exact Edit.ends_fault

/-- A scan emits solutions, like the join that it replaces. -/
theorem mergeMemoryScans_keepsTypes : (mergeMemoryScans (γ := γ)).KeepsTypes good := by
  intro w id m htyped hkind hm
  obtain ⟨op, hop, hjoin⟩ : ∃ op, w.graph.operator? id = some op ∧ op.kind = .join :=
    exists_operator hkind
  obtain ⟨-, hemits⟩ : op.OnSolutions := onSolutions_of_kind (by rw [hjoin]; decide)
  have hroot : m.root = id := by
    simp only [mergeMemoryScans, Option.bind_eq_bind] at hm
    split at hm
    · cases hm
    · obtain ⟨scans, -, hm⟩ := Option.bind_eq_some_iff.1 hm
      split at hm <;> cases hm
      rfl
  unfold mergeMemoryScans
  dsimp only
  rw [hroot]
  have hscans : ((m.all .scan).mapM (expectScan "MergeMemoryIndexes")).Ends w fun _ w' =>
      w.KeepsKinds good w' :=
    (Edit.ends_mapM (Workspace.KeepsKinds good) (fun _ _ => True) (fun _ _ _ _ _ => trivial)
      fun _ _ _ _ => ends_expectScan.2 fun _ _ => ⟨Graph.KeepsKinds.refl, trivial⟩).mono
        fun _ _ h => h.1
  refine hscans.bind fun scans w₁ h₁ => ?_
  split
  · exact Edit.ends_fault
  · next merged _ =>
    refine (ends_add good (.scan merged) trivial).bind fun scan w₂ ⟨h₂, hscan⟩ => ?_
    have h₁₂ := h₁.trans h₂
    refine (ends_connect good (h₁₂.emits htyped.emits_root) (hscan.takes rfl)).bind
      fun _ w₃ h₃ => ?_
    have h₁₃ := h₁₂.trans h₃
    refine (ends_redirectOutputs good (h₁₃.typed htyped)
      (h₁₃.emits (.of_operator? hop hemits)) ((hscan.keeps h₃).emits rfl)).bind
        fun _ w₄ h₄ => ?_
    refine (ends_remove good).bind fun _ w₅ h₅ => ?_
    refine (Edit.ends_forM (Workspace.KeepsKinds good) fun _ _ _ _ => ends_remove good).mono
      fun _ _ h₆ => ?_
    exact ((h₁₃.trans h₄).trans h₅).trans h₆

/-- A renamed scan feeds those that have read the renaming. -/
theorem ends_renameScan {renameId : OperatorId} {inverse : VarMap} {outputs : List Edge}
    (htyped : w.graph.Typed good) (hout : ∀ e ∈ outputs, w.graph.Takes e.target .solution) :
    (renameScan renameId inverse outputs id).Ends w fun _ w' => w.KeepsKinds good w' := by
  unfold renameScan
  refine Edit.ends_bind.2 (ends_expectScan.2 fun scan hscan => ?_)
  have hroot := htyped.ne_root hscan Kind.noConfusion
  refine (ends_replaceOperator good (.scan (scan.renamed inverse)) hscan hroot trivial rfl
    rfl).bind fun _ w₁ h₁ => ?_
  refine (ends_disconnect good).bind fun _ w₂ h₂ => ?_
  have h₁₂ := h₁.trans h₂
  exact (ends_feedAll good (h₁₂.emits (.of_operator? hscan rfl)) fun e he =>
    h₁₂.takes (hout e he)).mono fun _ _ h₃ => h₁₂.trans h₃

/-- Scans below a renaming emit solutions, like the renaming. -/
theorem renameUnderScans_keepsTypes : (renameUnderScans (γ := γ)).KeepsTypes good := by
  intro w id m htyped _ _
  unfold renameUnderScans
  dsimp only
  refine Edit.ends_bind.2 (ends_operator.2 fun op hop => ?_)
  split
  · next r =>
    split
    · exact Edit.ends_fault
    · refine Edit.ends_bind.2 (ends_look.2 ?_)
      refine (Edit.ends_forM (Workspace.KeepsKinds good) fun scan _ w₁ h₁ =>
        ends_renameScan good (h₁.typed htyped) fun e he => ?_).bind fun _ w₂ h₂ =>
          (ends_remove good).mono fun _ _ h₃ => h₂.trans h₃
      exact h₁.takes (htyped.takes_of_mem_succeeding (.of_operator? hop rfl) he)
  · exact Edit.ends_fault

/-- Duplicates are removed from the same rows by an operator of another kind. -/
theorem distinctOverScan_keepsTypes : (distinctOverScan (γ := γ)).KeepsTypes good := by
  intro w id m htyped hkind hm
  obtain ⟨op, hop, hdistinct⟩ : ∃ op, w.graph.operator? id = some op ∧ op.kind = .distinct :=
    exists_operator hkind
  obtain ⟨haccepts, hemits⟩ : op.OnSolutions := onSolutions_of_kind (by rw [hdistinct]; decide)
  have hroot : m.root = id := by
    simp only [distinctOverScan, Option.bind_eq_bind] at hm
    obtain ⟨i, -, hm⟩ := Option.bind_eq_some_iff.1 hm
    obtain ⟨⟨found, skipped⟩, -, hm⟩ := Option.bind_eq_some_iff.1 hm
    obtain ⟨op, -, hm⟩ := Option.bind_eq_some_iff.1 hm
    obtain ⟨scan, -, hm⟩ := Option.bind_eq_some_iff.1 hm
    split at hm <;> cases hm
    rfl
  unfold distinctOverScan
  dsimp only
  rw [hroot]
  exact ends_replaceOperator good .indexDistinct hop
    (htyped.ne_root hop (by rw [hdistinct]; decide)) trivial hemits.symm haccepts.symm

/-! ## Filters -/

/-- A rule filter accepts and emits what a filter does. -/
theorem specializeFilter_keepsTypes : (specializeFilter (γ := γ)).KeepsTypes good := by
  intro w id m htyped _ _
  unfold specializeFilter
  dsimp only
  refine Edit.ends_bind.2 (ends_operator.2 fun op hop => ?_)
  cases op with
  | filter f =>
      dsimp only
      split
      · next equalities _ =>
        exact ends_replaceOperator good (.ruleFilter equalities) hop
          (htyped.ne_root hop Kind.noConfusion) trivial rfl rfl
      · exact Edit.ends_fault
  | _ => exact Edit.ends_fault

/-- What is pushed down through an operator is pushed through one on solutions. -/
theorem onSolutions_of_pushTargets {below : OperatorId} (vars : VarSet)
    (h : pushTargets g below vars ≠ []) : ∃ op, g.operator? below = some op ∧ op.OnSolutions := by
  unfold pushTargets at h
  dsimp only at h
  split at h
  · exact absurd rfl h
  · split at h
    · next hop => exact ⟨_, hop, rfl, rfl⟩
    · next hop => exact ⟨_, hop, rfl, rfl⟩
    · next hop => exact ⟨_, hop, rfl, rfl⟩
    · exact absurd rfl h

/-- A filter is moved either below the one operator that it reads or into its inputs. -/
theorem matchPush_eq_some {kind : Kind} (h : matchPush kind g id = some m) :
    m.root = id ∧ ((∀ x ∈ m.all .member, ∃ i ∈ g.inputs id, i.source = x) ∧
      ∀ below, m.first? .below = some below → (∃ i ∈ g.inputs id, i.source = below) ∧
        ∃ op, g.operator? below = some op ∧ op.OnSolutions) := by
  simp only [matchPush, Option.bind_eq_bind] at h
  obtain ⟨op, -, h⟩ := Option.bind_eq_some_iff.1 h
  split at h
  · cases h
  · split at h
    · simp only [matchMembers] at h
      split at h
      · cases h
        refine ⟨rfl, fun x hx => ?_, fun below hbelow => ?_⟩
        · simpa [eq_comm] using hx
        · simp [Match.first?] at hbelow
      · cases h
    · obtain ⟨i, hi, h⟩ := Option.bind_eq_some_iff.1 h
      split at h
      · cases h
      · next hsome =>
        cases h
        refine ⟨rfl, fun x hx => ?_, fun below hbelow => ?_⟩
        · simp at hx
        · obtain rfl : i.source = below := by simpa [Match.first?] using hbelow
          refine ⟨⟨i, ?_, rfl⟩, onSolutions_of_pushTargets op.reads fun hnil => ?_⟩
          · unfold Graph.singleInput? at hi
            split at hi
            · next hinputs =>
              cases hi
              rw [hinputs]
              exact List.mem_singleton_self i
            · cases hi
          · simp [hnil] at hsome

/-- Copies of a filter read what it has read, and feed whom it has fed. -/
theorem ends_distribute {members : List OperatorId} (htyped : w.graph.Typed good)
    (hop : w.graph.operator? id = some op) (hon : op.OnSolutions)
    (hmembers : ∀ x ∈ members, w.graph.Emits x .solution) :
    (distribute id members).Ends w fun _ w' => w.KeepsKinds good w' := by
  unfold distribute
  refine Edit.ends_bind.2 (ends_operator.2 fun op' hop' => ?_)
  obtain rfl : op = op' := Option.some.inj (hop.symm.trans hop')
  refine Edit.ends_bind.2 (ends_look.2 ((ends_remove good).bind fun _ w₁ h₁ => ?_))
  refine (Edit.ends_forM (Workspace.KeepsKinds good) fun member hmember w₂ h₂ => ?_).mono
    fun _ _ h₃ => h₁.trans h₃
  have h₁₂ := h₁.trans h₂
  refine (ends_above good (htyped.covered id op hop) (h₁₂.emits (hmembers member hmember))
    (by rw [hon.1]; rfl)).bind fun copy w₃ ⟨h₃, hcopy⟩ => ?_
  refine (ends_feedAll good (hcopy.emits hon.2) fun e he => ?_).mono fun _ _ h₄ => h₃.trans h₄
  exact (h₁₂.trans h₃).takes (htyped.takes_of_mem_succeeding (.of_operator? hop hon.2) he)

/-- Copies of a filter stand between operators on solutions, and the operator below emits solutions,
too. -/
theorem ends_lower {below : OperatorId} {targets : List OperatorId} {other : Operator γ}
    (htyped : w.graph.Typed good) (hop : w.graph.operator? id = some op) (hon : op.OnSolutions)
    (hbelow : w.graph.operator? below = some other) (hother : other.OnSolutions) :
    (lower id below targets).Ends w fun _ w' => w.KeepsKinds good w' := by
  unfold lower
  refine Edit.ends_bind.2 (ends_operator.2 fun op' hop' => ?_)
  obtain rfl : op = op' := Option.some.inj (hop.symm.trans hop')
  refine Edit.ends_bind.2 (ends_look.2 ?_)
  refine (Edit.ends_forM (Workspace.KeepsKinds good) fun i hi w₁ h₁ => ?_).bind fun _ w₂ h₂ => ?_
  · refine (ends_insertBetween good (htyped.covered id op hop) hon
      (h₁.emits (htyped.emits_of_mem_inputs hbelow hother.1 (List.mem_filter.1 hi).1))
      (h₁.takes (.of_operator? hbelow (by rw [hother.1]; rfl)))).bind fun _ _ h => ?_
    exact Edit.ends_pure.2 h
  · refine Edit.ends_bind.2 (ends_look.2 ((ends_remove good).bind fun _ w₃ h₃ => ?_))
    have h₂₃ := h₂.trans h₃
    refine (ends_feedAll good (h₂₃.emits (.of_operator? hbelow hother.2)) fun e he => ?_).mono
      fun _ _ h₄ => h₂₃.trans h₄
    exact h₃.takes ((h₂.typed htyped).takes_of_mem_succeeding
      (h₂.emits (.of_operator? hop hon.2)) he)

/-- A filter is pushed in one of two ways, both of which keep the kinds of rows. -/
theorem push_keepsTypes (name : String) {kind : Kind}
    (hkinds : ∀ op : Operator γ, op.kind = kind → op.OnSolutions) :
    (push (γ := γ) name kind).KeepsTypes good := by
  intro w id m htyped hkind hm
  obtain ⟨op, hop, hopkind⟩ := exists_operator hkind
  have hon := hkinds op hopkind
  obtain ⟨hroot, hmembers, hbelow⟩ := matchPush_eq_some hm
  unfold push
  dsimp only
  rw [hroot]
  split
  · refine ends_distribute good htyped hop hon fun x hx => ?_
    obtain ⟨i, hi, rfl⟩ := hmembers x hx
    exact htyped.emits_of_mem_inputs hop hon.1 hi
  · split
    · next below hfirst =>
      obtain ⟨-, other, hother, hsolutions⟩ := hbelow below hfirst
      exact ends_lower good htyped hop hon hother hsolutions
    · exact Edit.ends_fault

/-! ## Specialization -/

/-- The operators of a specialization read and emit solutions, as do the head's inputs and the
matcher. -/
theorem ends_bypass {head matcher : OperatorId} {ops : List (Operator γ)}
    (htyped : w.graph.Typed good)
    (hinputs : ∀ i ∈ w.graph.inputs head, w.graph.Emits i.source .solution)
    (hmatcher : w.graph.Emits matcher .solution)
    (hops : ∀ op ∈ ops, op.OnSolutions ∧ op.Covered good) :
    (bypass head matcher ops).Ends w fun _ w' => w.KeepsKinds good w' := by
  unfold bypass
  refine Edit.ends_bind.2 (ends_look.2 (Edit.ends_bind.2 (ends_look.2 ?_)))
  split
  · exact Edit.ends_pure.2 .refl
  · next op rest =>
    obtain ⟨hon, hcovered⟩ := hops op List.mem_cons_self
    refine (ends_add good op hcovered).bind fun first w₁ ⟨h₁, hfirst⟩ => ?_
    refine (Edit.ends_forM (Workspace.KeepsKinds good) fun i hi w₂ h₂ =>
      ends_connect good (h₂.emits (h₁.emits (hinputs i hi)))
        ((hfirst.keeps h₂).takes (by rw [hon.1]; rfl))).bind fun _ w₃ h₃ => ?_
    refine (Edit.ends_foldlM (Workspace.KeepsKinds good)
      (fun last w' => w'.graph.Emits last .solution) ((hfirst.keeps h₃).emits hon.2)
      fun last next hnext w₄ h₄ hlast => ?_).bind fun last w₅ ⟨h₅, hlast⟩ => ?_
    · obtain ⟨hon, hcovered⟩ := hops next (List.mem_cons_of_mem _ hnext)
      exact (ends_above good hcovered hlast (by rw [hon.1]; rfl)).mono fun _ _ ⟨h, hnew⟩ =>
        ⟨h, hnew.emits hon.2⟩
    · have h₁₅ := (h₁.trans h₃).trans h₅
      refine Edit.ends_bind.2 (ends_look.2 ?_)
      refine (Edit.ends_forM (Workspace.KeepsKinds good) fun e he w₆ h₆ => ?_).mono
        fun _ _ h₇ => h₁₅.trans h₇
      exact ends_connect good (h₆.emits hlast) (h₆.takes
        ((h₁₅.typed htyped).takes_of_mem_succeeding (h₁₅.emits hmatcher) he))

/-- To cut a head off takes edges and operators away only. -/
theorem ends_cutHead {head matcher : OperatorId} :
    (cutHead head matcher : Reshape γ Unit).Ends w fun _ w' => w.KeepsKinds good w' := by
  unfold cutHead
  refine (ends_disconnect good).bind fun _ w₁ h₁ => (ends_cascade good).bind fun _ w₂ h₂ => ?_
  have h₁₂ := h₁.trans h₂
  refine Edit.ends_bind.2 (ends_look.2 ?_)
  split
  · exact (keeps_cascade good).mono fun _ _ h₃ => h₁₂.trans h₃
  · exact Edit.ends_pure.2 h₁₂

/-- The operators of a specialization do no more than look at solutions. -/
theorem kind_of_mem_operators {s : Specialization} {vars : VarSet} {op : Operator γ}
    (hop : op ∈ s.operators vars) :
    op.kind ∈ [.ruleFilter, .projection, .bind, .replaceVar, .indexDistinct] := by
  simp only [Specialization.operators, List.mem_append, List.mem_singleton, List.mem_map] at hop
  rcases hop with (((rfl | hop) | hop) | rfl) | ⟨constant, -, rfl⟩
  · simp [Operator.kind]
  · split at hop
    · cases hop
    · obtain rfl := List.mem_singleton.1 hop
      simp [Operator.kind]
  · split at hop
    · obtain rfl := List.mem_singleton.1 hop
      simp [Operator.kind]
    · cases hop
  · simp [Operator.kind]
  · simp [Operator.kind]

/-- All operators of a specialization work on solutions, and nothing is nested in them. -/
theorem specialization_operators (s : Specialization) (vars : VarSet) :
    ∀ op ∈ (s.operators vars : List (Operator γ)), op.OnSolutions ∧ op.Covered good := by
  intro op hop
  have hkind := kind_of_mem_operators hop
  cases op with
  | command c => cases c <;> simp [Operator.kind, GraphCommand.kind] at hkind
  | ruleFilter | projection | bind | replaceVar | indexDistinct => exact ⟨⟨rfl, rfl⟩, trivial⟩
  | _ => simp [Operator.kind] at hkind

/-- What a head reads are solutions, and so is what a matcher emits, so the head's inputs may be led
to the matcher's consumers. -/
theorem specialize_keepsTypes {name complaint : String} {matcher head : Kind}
    {fit : Operator γ → Operator γ → Option (VarSet × Option Specialization)}
    (hfit : ∀ a b r, fit a b = some r →
      a.accepts = (· == .solution) ∧ b.emits? = some .solution) :
    (specialize name matcher head complaint fit).KeepsTypes good := by
  intro w id m htyped _ _
  unfold specialize
  dsimp only
  split
  · exact keeps_cascade good
  · refine Edit.ends_bind.2 (ends_operator.2 fun a ha => ?_)
    refine Edit.ends_bind.2 (ends_operator.2 fun b hb => ?_)
    split
    · exact Edit.ends_fault
    · next headVars s hfitted =>
      obtain ⟨haccepts, hemits⟩ := hfit a b _ hfitted
      split
      · refine (ends_bypass good htyped
          (fun i hi => htyped.emits_of_mem_inputs ha haccepts hi) (.of_operator? hb hemits)
          (specialization_operators good _ _)).bind fun _ w₁ h₁ => ?_
        exact (ends_cutHead good).mono fun _ _ h₂ => h₁.trans h₂
      · exact ends_cutHead good

theorem specializeTripleHead_keepsTypes : (specializeTripleHead (γ := γ)).KeepsTypes good :=
  specialize_keepsTypes good fun a b r h => by
    split at h
    · exact ⟨rfl, rfl⟩
    · cases h

theorem specializeAtomHead_keepsTypes : (specializeAtomHead (γ := γ)).KeepsTypes good :=
  specialize_keepsTypes good fun a b r h => by
    split at h
    · exact ⟨rfl, rfl⟩
    · cases h

/-! ## The catalogue -/

/-- Every rule of the catalogue keeps the kinds of rows. -/
theorem catalogue_keepsTypes (provesEmpty : IndexScan → Bool) :
    ∀ rule ∈ (catalogue provesEmpty : List (PlanRule γ)), rule.KeepsTypes good := by
  have hemits (kind : Kind) (hkind : kind ∈ [Kind.generate, .matchAtom, .constructAtom])
      (op : Operator γ) (hop : op.kind = kind) : ∃ k, op.emits? = some k := by
    cases op with
    | result _ => subst hop; simp [Operator.kind] at hkind
    | _ => exact ⟨_, rfl⟩
  have hfilter (kind : Kind) (hkind : kind ∈ [Kind.filter, .ruleFilter]) (op : Operator γ)
      (hop : op.kind = kind) : op.OnSolutions := by
    refine onSolutions_of_kind ?_
    rcases List.mem_pair.1 hkind with rfl | rfl <;> simp [hop]
  simp only [catalogue, List.forall_mem_cons]
  exact ⟨removeEmptyScan_keepsTypes good _, removeIdleTemplate_keepsTypes good,
    removeIdleHead_keepsTypes good _ _ _, removeIdleHead_keepsTypes good _ _ _,
    split_keepsTypes good _ _ (hemits _ (by decide)),
    split_keepsTypes good _ _ (hemits _ (by decide)),
    split_keepsTypes good _ _ (hemits _ (by decide)), specializeTripleHead_keepsTypes good,
    specializeAtomHead_keepsTypes good, spliceUnion_keepsTypes good,
    mergeMemoryScans_keepsTypes good, specializeFilter_keepsTypes good,
    push_keepsTypes good _ (hfilter _ (by decide)), push_keepsTypes good _ (hfilter _ (by decide)),
    renameUnderScans_keepsTypes good, distinctOverScan_keepsTypes good,
    fun _ h => absurd h List.not_mem_nil⟩

end PlanRule

/-! ## Passes -/

variable {good} {w : Workspace γ} {rules : List (PlanRule γ)}

/-- A rule that is tried at an operator keeps the kinds of rows, whether it matches or not. -/
theorem Reshape.ends_tryAt {rule : PlanRule γ} (hrule : rule.KeepsTypes good)
    (htyped : w.graph.Typed good) (id : OperatorId) :
    (tryAt rule id).Ends w fun _ w' => w.KeepsKinds good w' := by
  unfold tryAt
  refine Edit.ends_bind.2 (Edit.ends_get.2 ?_)
  dsimp only
  split
  · exact Edit.ends_pure.2 .refl
  · next hkind =>
    split
    · exact Edit.ends_pure.2 .refl
    · next m hm =>
      refine (hrule w id m htyped (by simpa using hkind) hm).bind fun _ w₁ h₁ => ?_
      refine (ends_refresh good).bind fun _ w₂ h₂ => ?_
      exact Edit.ends_pure.2 (h₁.trans h₂)

/-- A rule is tried at one operator after the other. -/
theorem Reshape.ends_tryRule {rule : PlanRule γ} (hrule : rule.KeepsTypes good)
    (htyped : w.graph.Typed good) : (tryRule rule).Ends w fun _ w' => w.KeepsKinds good w' := by
  unfold tryRule
  refine Edit.ends_bind.2 (Edit.ends_get.2 ?_)
  refine (Edit.ends_mapM (Workspace.KeepsKinds good) (fun _ _ => True) (fun _ _ _ _ _ => trivial)
    fun id _ w₁ h₁ => (ends_tryAt hrule (h₁.typed htyped) id).mono fun _ _ h => ⟨h, trivial⟩).bind
      fun _ _ h => ?_
  exact Edit.ends_pure.2 h.1

/-- A pass tries one rule after the other. -/
theorem Reshape.ends_pass (hrules : ∀ rule ∈ rules, rule.KeepsTypes good)
    (htyped : w.graph.Typed good) : (pass rules).Ends w fun _ w' => w.KeepsKinds good w' := by
  unfold pass
  refine (Edit.ends_mapM (Workspace.KeepsKinds good) (fun _ _ => True) (fun _ _ _ _ _ => trivial)
    fun rule hrule w₁ h₁ =>
      (ends_tryRule (hrules rule hrule) (h₁.typed htyped)).mono fun _ _ h => ⟨h, trivial⟩).bind
        fun _ _ h => ?_
  exact Edit.ends_pure.2 h.1

/-- However many passes there are, the kinds of rows are kept. -/
theorem Reshape.ends_passes (hrules : ∀ rule ∈ rules, rule.KeepsTypes good)
    (htyped : w.graph.Typed good) (limit left : Nat) (counts : RuleCounts) :
    (passes rules limit left counts).Ends w fun _ w' => w.KeepsKinds good w' := by
  induction left generalizing w counts with
  | zero => exact Edit.ends_fault
  | succ left ih =>
      unfold passes
      refine (ends_pass hrules htyped).bind fun applied w₁ h₁ => ?_
      dsimp only
      split
      · exact Edit.ends_pure.2 h₁
      · exact (ih (h₁.typed htyped) _).mono fun _ _ h₂ => h₁.trans h₂

/-- Rules are applied to a graph in a workspace that is made for the occasion. -/
theorem Graph.runOn_applyRules {γ : Type} (rules : List (PlanRule γ)) (limit : Nat) (g : Graph γ) :
    (applyRules rules limit).runOn g = (((Reshape.toFixpoint rules limit).runOn (.ofGraph g)).1,
      ((Reshape.toFixpoint rules limit).runOn (.ofGraph g)).2.graph) := rfl

/-- What rules leave of a graph is what they leave of it as a workspace. -/
theorem Graph.ends_applyRules_of {rules : List (PlanRule γ)} {limit : Nat} {g : Graph γ}
    {post : RuleCounts → Graph γ → Prop}
    (h : (toFixpoint rules limit).Ends (.ofGraph g) fun counts w' => post counts w'.graph) :
    (applyRules rules limit).Ends g post := by
  intro counts g' hrun
  rw [runOn_applyRules] at hrun
  obtain ⟨hok, rfl⟩ := Prod.mk.inj hrun
  exact h counts _ (Prod.ext hok rfl)

/-- However often rules are applied, a typed graph stays typed. -/
theorem Graph.ends_applyRules {g : Graph γ} (hrules : ∀ rule ∈ rules, rule.KeepsTypes good)
    (htyped : g.Typed good) (limit : Nat) :
    (applyRules rules limit).Ends g fun _ g' => g.KeepsKinds good g' := by
  refine ends_applyRules_of ?_
  unfold toFixpoint
  split
  · exact Edit.ends_pure.2 KeepsKinds.refl
  · refine (ends_refresh good).bind fun _ w₁ (h₁ : g.KeepsKinds good w₁.graph) => ?_
    exact (ends_passes hrules (h₁.typed htyped) limit limit .zero).mono fun _ _ h₂ => h₁.trans h₂

end QuadAlgebra
