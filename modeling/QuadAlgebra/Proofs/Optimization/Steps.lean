import QuadAlgebra.Proofs.Optimization.Edges
import QuadAlgebra.Proofs.Typing.Rules

/-!
# What every step keeps

A rule changes a workspace by a few kinds of single steps. What each of them keeps is kept by every
rule of the catalogue, wherever it is applied (`PlanRule.catalogue_keeps`), and by any number of
passes (`Reshape.passes_keeps`, `Graph.applyRules_keeps`). The operators that rules put into a graph
are made out of those that they find in it, so a step that adds an operator need keep the property
only if the operator has what is handed down in this way (`Operator.HandedDown`).

Three such properties are that the index of a workspace is the one that is made from its graph
(`Workspace.keptBySteps_indexed`), that both sides of all edges record them equally often
(`Workspace.keptBySteps_balanced`), and that all operators have what is handed down
(`Workspace.keptBySteps_only`).
-/

namespace QuadAlgebra

/-! ## Edits that keep a property -/

namespace Edit

variable {σ τ α β : Type} {P : σ → Prop} {edit : Edit σ α}

/-- What holds before the edit holds after it, unless it fails. -/
def Keeps (P : σ → Prop) (edit : Edit σ α) : Prop := ∀ s, P s → edit.Ends s fun _ s' => P s'

theorem keeps_pure {a : α} : (pure a : Edit σ α).Keeps P := fun _ h => ends_pure.2 h

theorem keeps_fault {cause : Fault} : (fault cause : Edit σ α).Keeps P := fun _ _ => ends_fault

/-- The state is looked at without changing it. -/
theorem keeps_get : (get : Edit σ σ).Keeps P := fun _ h => ends_get.2 h

/-- Edits that keep the property keep it one after the other. -/
theorem Keeps.bind {f : α → Edit σ β} (h : edit.Keeps P) (hf : ∀ a, (f a).Keeps P) :
    (edit >>= f).Keeps P :=
  fun s hs => (h s hs).bind fun a s' hs' => hf a s' hs'

/-- What holds before the edit holds after it, and what it returns has a property of its own. -/
def Yields (P : σ → Prop) (edit : Edit σ α) (out : α → Prop) : Prop :=
  ∀ s, P s → edit.Ends s fun a s' => P s' ∧ out a

section Yields

variable {out : α → Prop} {l : List β}

/-- Without a demand on what is returned nothing else is said than that the property is kept. -/
theorem Keeps.yields (h : edit.Keeps P) : edit.Yields P fun _ => True :=
  fun s hs => (h s hs).mono fun _ _ h' => ⟨h', trivial⟩

theorem yields_pure {a : α} (h : out a) : (pure a : Edit σ α).Yields P out :=
  fun _ hs => ends_pure.2 ⟨hs, h⟩

theorem yields_fault {cause : Fault} : (fault cause : Edit σ α).Yields P out :=
  fun _ _ => ends_fault

/-- The second edit may rely on what the first one has returned. -/
theorem Yields.bind {f : α → Edit σ β} (h : edit.Yields P out) (hf : ∀ a, out a → (f a).Keeps P) :
    (edit >>= f).Keeps P :=
  fun s hs => (h s hs).bind fun a s' hs' => hf a hs'.2 s' hs'.1

/-- Edits in a row return what the last of them returns. -/
theorem Yields.andThen {f : α → Edit σ β} {out' : β → Prop} (h : edit.Yields P out)
    (hf : ∀ a, out a → (f a).Yields P out') : (edit >>= f).Yields P out' :=
  fun s hs => (h s hs).bind fun a s' hs' => hf a hs'.2 s' hs'.1

/-- Edits for each element of a list, whose results all have the property. -/
theorem yields_mapM {f : β → Edit σ α} (h : ∀ b ∈ l, (f b).Yields P out) :
    (l.mapM f).Yields P fun as => ∀ a ∈ as, out a := by
  induction l with
  | nil =>
      rw [List.mapM_nil]
      exact yields_pure fun _ ha => absurd ha List.not_mem_nil
  | cons b rest ih =>
      rw [List.mapM_cons]
      refine (h b List.mem_cons_self).andThen fun a ha => ?_
      refine (ih fun c hc => h c (List.mem_cons_of_mem _ hc)).andThen fun as has => ?_
      exact yields_pure (List.forall_mem_cons.2 ⟨ha, has⟩)

end Yields

/-- Whichever branch is taken, it keeps the property. -/
theorem keeps_ite {c : Prop} [Decidable c] {first second : Edit σ α} (h : first.Keeps P)
    (h' : second.Keeps P) : (if c then first else second).Keeps P := by
  split
  · exact h
  · exact h'

/-- A check that is made unless what it ensures holds anyway. -/
theorem keeps_checked {c ensured : Prop} [Decidable c] {check : Edit σ PUnit}
    {next : PUnit → Edit σ α} (hcheck : check.Yields P fun _ => ensured) (hskip : ¬ c → ensured)
    (hnext : ensured → (next ⟨⟩).Keeps P) : (if c then check >>= next else next ⟨⟩).Keeps P := by
  split
  · exact hcheck.bind fun _ => hnext
  · next h => exact hnext (hskip h)

/-- A check that may be left out before something else is done. -/
theorem keeps_optionally {c : Prop} [Decidable c] {check : Edit σ PUnit} {next : PUnit → Edit σ α}
    (hcheck : check.Keeps P) (hnext : (next ⟨⟩).Keeps P) :
    (if c then check >>= next else next ⟨⟩).Keeps P :=
  keeps_checked hcheck.yields (fun _ => trivial) fun _ => hnext

section Loops

variable {l : List β}

/-- Edits for each element of a list keep the property if each of them does. -/
theorem keeps_forM {f : β → Edit σ PUnit} (h : ∀ b ∈ l, (f b).Keeps P) : (l.forM f).Keeps P := by
  induction l with
  | nil => exact keeps_pure
  | cons b rest ih =>
      rw [List.forM_eq_forM, List.forM_cons]
      exact (h b List.mem_cons_self).bind fun _ =>
        ih fun c hc => h c (List.mem_cons_of_mem _ hc)

theorem keeps_mapM {f : β → Edit σ α} (h : ∀ b ∈ l, (f b).Keeps P) : (l.mapM f).Keeps P := by
  induction l with
  | nil =>
      rw [List.mapM_nil]
      exact keeps_pure
  | cons b rest ih =>
      rw [List.mapM_cons]
      refine (h b List.mem_cons_self).bind fun _ => ?_
      exact (ih fun c hc => h c (List.mem_cons_of_mem _ hc)).bind fun _ => keeps_pure

/-- Edits in a row keep the property, whatever they hand on to each other. -/
theorem keeps_foldlM {f : α → β → Edit σ α} {a : α} (h : ∀ a, ∀ b ∈ l, (f a b).Keeps P) :
    (l.foldlM f a).Keeps P := by
  induction l generalizing a with
  | nil => exact keeps_pure
  | cons b rest ih =>
      rw [List.foldlM_cons]
      exact (h a b List.mem_cons_self).bind fun _ =>
        ih fun a c hc => h a c (List.mem_cons_of_mem _ hc)

end Loops

end Edit

/-! ## Steps of rules -/

/-- What the operators that rules find hand down to those that rules make of them: copies, scans of
the patterns of several scans, scans with other variables, and operators that do no more than look
at solutions. -/
structure Operator.HandedDown {γ : Type} (sound : Operator γ → Prop) : Prop where
  merged : ∀ {scans : List IndexScan} {scan : IndexScan}, (∀ s ∈ scans, sound (.scan s)) →
    PlanRule.mergeScans scans = some scan → sound (.scan scan)
  renamed : ∀ {scan : IndexScan} (r : VarMap), sound (.scan scan) → sound (.scan (scan.renamed r))
  looking : ∀ op : Operator γ,
    op.kind ∈ [.ruleFilter, .projection, .bind, .replaceVar, .indexDistinct] → sound op

/-- Nothing has to be handed down where nothing is demanded. -/
theorem Operator.handedDown_true {γ : Type} : HandedDown fun _ : Operator γ => True :=
  ⟨fun _ _ => trivial, fun _ _ => trivial, fun _ _ => trivial⟩

namespace Reshape

open Edit

variable {γ : Type} {sound : Operator γ → Prop} {P : Workspace γ → Prop}

/-- Each single step keeps the property. All operators that are found are sound, and so are all that
are added. -/
structure KeptBySteps (sound : Operator γ → Prop) (P : Workspace γ → Prop) : Prop where
  handedDown : Operator.HandedDown sound
  operator : ∀ id, (operator id).Yields P sound
  add : ∀ op, sound op → (add op).Keeps P
  connect : ∀ s t operand feedback, (connect s t operand feedback).Keeps P
  disconnect : ∀ s t, (disconnect s t).Keeps P
  remove : ∀ id, (remove id).Keeps P
  replaceOperator : ∀ id op, sound op → (replaceOperator id op).Keeps P
  refresh : (refresh : Reshape γ Unit).Keeps P

/-- To look something up in the graph changes nothing. -/
theorem keeps_look {α : Type} {f : Graph γ → α} : (look f).Keeps P := fun _ h => ends_look.2 h

theorem keeps_operator {id : OperatorId} : (operator id).Keeps P :=
  fun _ h => ends_operator.2 fun _ _ => h

/-- A rule that finds something unexpected changes nothing more. -/
theorem keeps_badMatch {α : Type} {rule message : String} :
    (badMatch rule message : Reshape γ α).Keeps P := keeps_fault

namespace KeptBySteps

variable (h : KeptBySteps sound P)

include h

/-- A new operator is put above another one. -/
theorem above (input : OperatorId) {op : Operator γ} (hop : sound op) : (above input op).Keeps P :=
  (h.add op hop).bind fun _ => (h.connect _ _ _ _).bind fun _ => keeps_pure

/-- New edges from one operator keep the property. -/
theorem feedAll (source : OperatorId) (edges : List Edge) : (feedAll source edges).Keeps P :=
  keeps_forM fun _ _ => h.connect _ _ _ _

/-- Edges are moved from one operator to another one. -/
theorem redirectOutputs (source replacement : OperatorId) :
    (redirectOutputs source replacement).Keeps P :=
  keeps_look.bind fun _ => keeps_forM fun _ _ =>
    (h.disconnect _ _).bind fun _ => h.connect _ _ _ _

/-- An operator is put on an edge. -/
theorem insertBetween (i : Input) (consumer : OperatorId) {op : Operator γ} (hop : sound op) :
    (insertBetween i consumer op).Keeps P :=
  (h.add op hop).bind fun _ => (h.disconnect _ _).bind fun _ => (h.connect _ _ _ _).bind fun _ =>
    (h.connect _ _ _ _).bind fun _ => keeps_pure

/-- A cascade only removes operators, in as many rounds as it is allowed. -/
theorem cascadeFrom (bound : Nat) (pending : List OperatorId) :
    (cascadeFrom bound pending).Keeps P := by
  induction bound generalizing pending with
  | zero => exact keeps_pure
  | succ bound ih =>
      unfold Reshape.cascadeFrom
      refine keeps_get.bind fun _ => ?_
      dsimp only
      split
      · exact keeps_pure
      · exact (h.remove _).bind fun _ => keeps_get.bind fun _ => (ih _).bind fun _ => keeps_pure

theorem cascade (id : OperatorId) : (cascade id).Keeps P :=
  keeps_get.bind fun _ => h.cascadeFrom _ _

end KeptBySteps

end Reshape

/-! ## Rules -/

namespace PlanRule

open Edit Reshape

variable {γ : Type} {sound : Operator γ → Prop} {P : Workspace γ → Prop}

/-- A scan is expected where a rule has matched one. -/
theorem keeps_expectScan {rule : String} {id : OperatorId} : (expectScan rule id).Keeps P := by
  refine keeps_operator.bind fun _ => ?_
  split
  · exact keeps_pure
  · exact keeps_badMatch

section Replacements

variable (h : KeptBySteps sound P)

include h

/-- A scan that is found has what is handed down. -/
theorem yields_expectScan (rule : String) (id : OperatorId) :
    (expectScan rule id).Yields P fun s => sound (.scan s) := by
  refine (h.operator id).andThen fun op hop => ?_
  cases op with
  | scan s => exact yields_pure hop
  | _ => exact yields_fault

theorem keeps_removal (m : Match) : (do let _ ← cascade m.root : Reshape γ Unit).Keeps P :=
  (h.cascade _).bind fun _ => keeps_pure

/-- Idle heads are removed with all that depends on them. -/
theorem removeIdleHead_keeps (name : String) (kind : Kind) (wanted : RuleOutput → Bool)
    (m : Match) : ((removeIdleHead name kind wanted).replace m).Keeps P := by
  refine (keeps_forM fun _ _ => h.disconnect _ _).bind fun _ => keeps_look.bind fun _ => ?_
  exact keeps_ite (keeps_removal h m) keeps_pure

/-- A split makes copies of an operator that is there, one for each consumer but the first. -/
theorem split_keeps (name : String) (kind : Kind) (m : Match) :
    ((split name kind).replace m).Keeps P := by
  refine (h.operator _).bind fun op hop => keeps_look.bind fun _ => keeps_forM fun _ _ => ?_
  refine keeps_look.bind fun _ => (h.add op hop).bind fun _ => ?_
  refine (keeps_forM fun _ _ => h.connect _ _ _ _).bind fun _ => ?_
  exact (h.disconnect _ _).bind fun _ => h.feedAll _ _

/-- A head and a matcher are disconnected, and the matcher is dropped if it has lost its last
head. -/
theorem cutHead_keeps (head matcher : OperatorId) : (cutHead head matcher).Keeps P := by
  refine (h.disconnect _ _).bind fun _ => (h.cascade _).bind fun _ => keeps_look.bind fun _ => ?_
  exact keeps_ite ((h.cascade _).bind fun _ => keeps_pure) keeps_pure

/-- The operators of a specialization are put between what the head reads and the consumers of the
matcher. -/
theorem bypass_keeps (head matcher : OperatorId) {ops : List (Operator γ)}
    (hops : ∀ op ∈ ops, sound op) : (bypass head matcher ops).Keeps P := by
  refine keeps_look.bind fun _ => keeps_look.bind fun _ => ?_
  split
  · exact keeps_pure
  · obtain ⟨hop, hrest⟩ := List.forall_mem_cons.1 hops
    refine (h.add _ hop).bind fun _ => (keeps_forM fun _ _ => h.connect _ _ _ _).bind fun _ => ?_
    refine (keeps_foldlM fun _ op hop => h.above _ (hrest op hop)).bind fun _ => ?_
    exact keeps_look.bind fun _ => keeps_forM fun _ _ => h.connect _ _ _ _

/-- A matcher without heads goes. Otherwise a head is cut off, once what it reads has been led past
it if the two fit. -/
theorem specialize_keeps (name : String) (matcher head : Kind) (complaint : String)
    (fit : Operator γ → Operator γ → Option (VarSet × Option Specialization)) (m : Match) :
    ((specialize name matcher head complaint fit).replace m).Keeps P := by
  dsimp only [specialize]
  split
  · exact keeps_removal h m
  · refine keeps_operator.bind fun _ => keeps_operator.bind fun _ => ?_
    split
    · exact keeps_badMatch
    · split
      · refine (bypass_keeps h _ _ fun op hop => ?_).bind fun _ => cutHead_keeps h _ _
        exact h.handedDown.looking op (kind_of_mem_operators hop)
      · exact cutHead_keeps h _ _

/-- A union that is spliced out only hands on its edges. -/
theorem spliceUnion_keeps (m : Match) : (spliceUnion.replace m).Keeps P := by
  refine keeps_ite (keeps_removal h m) ?_
  refine keeps_look.bind fun _ => keeps_look.bind fun _ => ?_
  refine (keeps_forM fun _ _ => keeps_forM fun _ _ => h.connect _ _ _ _).bind fun _ => ?_
  exact (h.remove _)

/-- The scan that takes the place of a join of scans is made of their patterns. -/
theorem mergeMemoryScans_keeps (m : Match) : (mergeMemoryScans.replace m).Keeps P := by
  refine (yields_mapM fun _ _ => yields_expectScan h _ _).bind fun scans hscans => ?_
  split
  · exact keeps_badMatch
  · next merged hmerged =>
    refine (h.add _ (h.handedDown.merged hscans hmerged)).bind fun _ => ?_
    refine (h.connect _ _ _ _).bind fun _ => (h.redirectOutputs _ _).bind fun _ => ?_
    exact (h.remove _).bind fun _ => keeps_forM fun _ _ => h.remove _

/-- A filter that compares items only becomes a rule filter with their equalities. -/
theorem specializeFilter_keeps (m : Match) : (specializeFilter.replace m).Keeps P := by
  refine keeps_operator.bind fun _ => ?_
  dsimp only
  split
  · exact h.replaceOperator _ _ (h.handedDown.looking _ (by simp [Operator.kind]))
  · exact keeps_badMatch

/-- The copies of a filter that is distributed are the filter itself. -/
theorem distribute_keeps (id : OperatorId) (members : List OperatorId) :
    (distribute id members).Keeps P := by
  refine (h.operator _).bind fun op hop => keeps_look.bind fun _ => (h.remove _).bind fun _ => ?_
  exact keeps_forM fun _ _ => (h.above _ hop).bind fun _ => h.feedAll _ _

/-- The copies of a filter that is put below an operator are the filter itself. -/
theorem lower_keeps (id below : OperatorId) (targets : List OperatorId) :
    (lower id below targets).Keeps P := by
  refine (h.operator _).bind fun op hop => keeps_look.bind fun _ => ?_
  refine (keeps_forM fun _ _ => (h.insertBetween _ _ hop).bind fun _ => keeps_pure).bind
    fun _ => ?_
  exact keeps_look.bind fun _ => (h.remove _).bind fun _ => h.feedAll _ _

/-- A filter is pushed in one of two ways, and both make copies of it only. -/
theorem push_keeps (name : String) (kind : Kind) (m : Match) :
    ((push name kind).replace m).Keeps P := by
  refine keeps_ite (distribute_keeps h _ _) ?_
  split
  · exact lower_keeps h _ _ _
  · exact keeps_badMatch

/-- Scans below a renaming are renamed copies of themselves. -/
theorem renameUnderScans_keeps (m : Match) : (renameUnderScans.replace m).Keeps P := by
  refine keeps_operator.bind fun _ => ?_
  split
  · split
    · exact keeps_badMatch
    · refine keeps_look.bind fun _ => (keeps_forM fun _ _ => ?_).bind fun _ => (h.remove _)
      refine (yields_expectScan h _ _).bind fun scan hscan => ?_
      refine (h.replaceOperator _ _ (h.handedDown.renamed _ hscan)).bind fun _ => ?_
      exact (h.disconnect _ _).bind fun _ => h.feedAll _ _
  · exact keeps_badMatch

/-- A distinct above a scan is replaced by one that uses the index. -/
theorem distinctOverScan_keeps (m : Match) : (distinctOverScan.replace m).Keeps P :=
  h.replaceOperator _ _ (h.handedDown.looking _ (by simp [Operator.kind]))

/-- Whatever every step keeps is kept by every rule, even where the rule does not match. -/
theorem catalogue_keeps (provesEmpty : IndexScan → Bool) :
    ∀ rule ∈ catalogue provesEmpty, ∀ m, (rule.replace m).Keeps P := by
  simp only [catalogue, List.forall_mem_cons]
  exact ⟨keeps_removal h, keeps_removal h, removeIdleHead_keeps h _ _ _,
    removeIdleHead_keeps h _ _ _, split_keeps h _ _, split_keeps h _ _, split_keeps h _ _,
    specialize_keeps h _ _ _ _ _, specialize_keeps h _ _ _ _ _, spliceUnion_keeps h,
    mergeMemoryScans_keeps h, specializeFilter_keeps h, push_keeps h _ _, push_keeps h _ _,
    renameUnderScans_keeps h, distinctOverScan_keeps h,
    fun _ hrule => absurd hrule List.not_mem_nil⟩

end Replacements

end PlanRule

/-! ## Passes -/

namespace Reshape

open Edit

variable {γ : Type} {P : Workspace γ → Prop} {rules : List (PlanRule γ)}

/-- A rule that keeps the property where it matches keeps it wherever it is tried. -/
theorem tryAt_keeps {rule : PlanRule γ} {id : OperatorId}
    (hrule : ∀ m, (rule.replace m).Keeps P) (hrefresh : (refresh : Reshape γ Unit).Keeps P) :
    (tryAt rule id).Keeps P := by
  refine keeps_get.bind fun _ => keeps_ite keeps_pure ?_
  split
  · exact keeps_pure
  · exact (hrule _).bind fun _ => hrefresh.bind fun _ => keeps_pure

/-- A pass tries each rule at each place, so it keeps what every attempt keeps. -/
theorem pass_keeps (h : ∀ rule ∈ rules, ∀ id, (tryAt rule id).Keeps P) : (pass rules).Keeps P := by
  refine (keeps_mapM fun rule hrule => ?_).bind fun _ => keeps_pure
  exact keeps_get.bind fun _ => (keeps_mapM fun id _ => h rule hrule id).bind fun _ => keeps_pure

/-- Passes are repeated, which keeps what one pass keeps. -/
theorem passes_keeps (h : ∀ rule ∈ rules, ∀ id, (tryAt rule id).Keeps P) (limit left : Nat)
    (counts : RuleCounts) : (passes rules limit left counts).Keeps P := by
  induction left generalizing counts with
  | zero => exact keeps_fault
  | succ left ih =>
      unfold passes
      exact (pass_keeps h).bind fun _ => keeps_ite keeps_pure (ih _)

end Reshape

/-- What every step keeps holds of the graph after any number of passes if it holds before. -/
theorem Graph.applyRules_keeps {γ : Type} {sound : Operator γ → Prop} {P : Workspace γ → Prop}
    {Q : Graph γ → Prop} (h : Reshape.KeptBySteps sound P) (hP : ∀ g, Q g → P (.ofGraph g))
    (hQ : ∀ w, P w → Q w.graph) {rules : List (PlanRule γ)} {provesEmpty : IndexScan → Bool}
    (hrules : ∀ rule ∈ rules, rule ∈ PlanRule.catalogue provesEmpty) (limit : Nat) :
    (applyRules rules limit).Keeps Q := by
  have hfixpoint : (Reshape.toFixpoint rules limit).Keeps P := by
    refine Edit.keeps_ite Edit.keeps_pure (h.refresh.bind fun _ => ?_)
    exact Reshape.passes_keeps (fun rule hrule id => Reshape.tryAt_keeps
      (PlanRule.catalogue_keeps h provesEmpty rule (hrules rule hrule)) h.refresh) _ _ _
  exact fun g hg => ends_applyRules_of ((hfixpoint _ (hP g hg)).mono fun _ w' hw => hQ w' hw)

/-! ## Indexes that agree with their graphs -/

namespace Graph

variable {γ : Type} {g : Graph γ} {id s t : OperatorId}

/-- An edit that leaves all operators in their slots. -/
theorem connect_keeps_operators {ops : OperatorId → Option (Operator γ)} (operand : Nat)
    (feedback : Bool) :
    (connect s t operand feedback).Keeps fun g : Graph γ => ∀ x, g.operator? x = ops x :=
  fun _ hops => ends_connect_of (fun _ _ _ => hops)
    fun _ _ _ x => (operator?_withEdge x).trans (hops x)

/-- To take away edges leaves the operators alone. -/
theorem disconnect_keeps_operators {ops : OperatorId → Option (Operator γ)} :
    (disconnect s t).Keeps fun g : Graph γ => ∀ x, g.operator? x = ops x :=
  fun _ hops => ends_disconnect_cut fun x => (operator?_cut x).trans (hops x)

/-- A removal returns the operator that it takes out of its slot. -/
theorem ends_remove_operators : (remove id).Ends g fun op g' =>
    g.operator? id = some op ∧ ∀ x, g'.operator? x = if x = id then none else g.operator? x := by
  unfold remove
  refine Edit.ends_ite (fun _ => Edit.ends_bind.2 Edit.ends_fault) fun _ => ?_
  refine Edit.ends_bind.2 (ends_require.2 fun n hn => ?_)
  have hop : g.operator? id = some n.operator := by rw [operator?, hn]; rfl
  refine (Edit.keeps_forM (fun _ _ => disconnect_keeps_operators) g fun _ => rfl).bind
    fun _ g₁ h₁ => ?_
  refine (Edit.keeps_forM (fun _ _ => disconnect_keeps_operators) g₁ h₁).bind fun _ g₂ h₂ => ?_
  refine Edit.ends_bind.2 (Edit.ends_modify.2 (Edit.ends_pure.2 ⟨hop, fun x => ?_⟩))
  rw [operator?, node?_emptied]
  split
  · rfl
  · exact h₂ x

end Graph

namespace Workspace

variable {γ : Type} {w : Workspace γ}

/-- The index of the workspace is the one that is made from its graph. -/
def Indexed (w : Workspace γ) : Prop := w.index = KindIndex.ofGraph w.graph

/-- An index has an entry for the kind of each operator. -/
theorem mem_ofGraph {g : Graph γ} {e : KindEntry} :
    e ∈ (KindIndex.ofGraph g).entries ↔ g.kind? e.id = some e.kind := by
  obtain ⟨kind, id⟩ := e
  simp only [KindIndex.ofGraph, OrdSet.mem_ofList, List.mem_filterMap, Option.map_eq_some_iff,
    KindEntry.mk.injEq]
  constructor
  · rintro ⟨x, -, k, hk, rfl, rfl⟩
    exact hk
  · intro hk
    obtain ⟨op, hop, -⟩ := PlanRule.exists_operator hk
    exact ⟨id, Graph.mem_ids_of_operator? hop, kind, hk, rfl, rfl⟩

/-- The index agrees with the graph if it has the right entries. -/
theorem indexed_iff : w.Indexed ↔ ∀ e, e ∈ w.index.entries ↔ w.graph.kind? e.id = some e.kind := by
  constructor
  · rintro h e
    rw [h, mem_ofGraph]
  · intro h
    have hentries : w.index.entries = (KindIndex.ofGraph w.graph).entries :=
      OrdSet.eq_of_mem_iff fun e => (h e).trans mem_ofGraph.symm
    exact congrArg KindIndex.mk hentries

theorem indexed_ofGraph (g : Graph γ) : (ofGraph g).Indexed := rfl

/-- An agreeing index is a matter of the operators of a graph only. -/
theorem Indexed.of_operators {g : Graph γ} (h : w.Indexed)
    (hops : ∀ x, g.operator? x = w.graph.operator? x) : (⟨g, w.index⟩ : Workspace γ).Indexed := by
  refine indexed_iff.2 fun e => (indexed_iff.1 h e).trans ?_
  rw [Graph.kind?, Graph.kind?, hops]

/-- A new operator comes with an entry. -/
theorem Indexed.added (h : w.Indexed) (op : Operator γ) :
    (⟨w.graph.withOperator op, ⟨w.index.entries.insert ⟨op.kind, w.graph.slots.length⟩⟩⟩ :
      Workspace γ).Indexed := by
  refine indexed_iff.2 fun e => ?_
  obtain ⟨kind, x⟩ := e
  have hkind : (w.graph.withOperator op).kind? x =
      if x = w.graph.slots.length then some op.kind else w.graph.kind? x := by
    rw [Graph.kind?, Graph.operator?_withOperator]
    split <;> rfl
  change _ ∈ w.index.entries.insert _ ↔ (w.graph.withOperator op).kind? x = some kind
  rw [OrdSet.mem_insert, indexed_iff.1 h ⟨kind, x⟩, hkind]
  by_cases hx : x = w.graph.slots.length
  · have hnone : w.graph.kind? x = none := by
      rw [Graph.kind?, Graph.operator?, Graph.node?_eq_none (Nat.le_of_eq hx.symm)]
      rfl
    simp [hx ▸ hnone, hx, eq_comm]
  · simp [hx]

/-- The entry of an operator goes with it. -/
theorem Indexed.removed {g : Graph γ} {id : OperatorId} {op : Operator γ} (h : w.Indexed)
    (hop : w.graph.operator? id = some op)
    (hops : ∀ x, g.operator? x = if x = id then none else w.graph.operator? x) :
    (⟨g, ⟨w.index.entries.erase ⟨op.kind, id⟩⟩⟩ : Workspace γ).Indexed := by
  refine indexed_iff.2 fun e => ?_
  obtain ⟨kind, x⟩ := e
  change _ ∈ w.index.entries.erase _ ↔ g.kind? x = some kind
  rw [OrdSet.mem_erase, indexed_iff.1 h ⟨kind, x⟩, Graph.kind?, Graph.kind?, hops]
  by_cases hx : x = id
  · simp [hx, hop, eq_comm]
  · simp [hx]

/-- An operator that is replaced has its entry replaced. -/
theorem Indexed.replaced {g : Graph γ} {id : OperatorId} {old op : Operator γ} (h : w.Indexed)
    (hold : w.graph.operator? id = some old)
    (hops : ∀ x, g.operator? x = if x = id then some op else w.graph.operator? x) :
    (⟨g, ⟨(w.index.entries.erase ⟨old.kind, id⟩).insert ⟨op.kind, id⟩⟩⟩ :
      Workspace γ).Indexed := by
  refine indexed_iff.2 fun e => ?_
  obtain ⟨kind, x⟩ := e
  change _ ∈ (w.index.entries.erase _).insert _ ↔ g.kind? x = some kind
  rw [OrdSet.mem_insert, OrdSet.mem_erase, indexed_iff.1 h ⟨kind, x⟩, Graph.kind?, Graph.kind?,
    hops]
  by_cases hx : x = id
  · simp [hx, hold, eq_comm]
  · simp [hx]

open Reshape in
/-- Every step on the workspace keeps the index in agreement with the graph. -/
theorem keptBySteps_indexed : KeptBySteps (fun _ => True) (Indexed (γ := γ)) where
  handedDown := Operator.handedDown_true
  operator _ := Edit.Keeps.yields keeps_operator
  add op _ w h := by
    unfold add onGraph onIndex Graph.add
    simp only [Edit.ends_bind, Edit.ends_within, Edit.ends_get, Edit.ends_set, Edit.ends_modify,
      Edit.ends_pure]
    exact h.added op
  connect s t operand feedback w h := by
    unfold connect onGraph
    refine Edit.ends_within.2 ?_
    exact (Graph.connect_keeps_operators operand feedback w.graph fun _ => rfl).mono
      fun _ _ hops => h.of_operators hops
  disconnect s t w h := by
    unfold disconnect onGraph
    refine Edit.ends_within.2 ?_
    exact (Graph.disconnect_keeps_operators w.graph fun _ => rfl).mono
      fun _ _ hops => h.of_operators hops
  remove id w h := by
    unfold remove onIndex onGraph
    exact Edit.ends_bind.2 (Edit.ends_within.2 (Graph.ends_remove_operators.mono
      fun _ _ ⟨hop, hops⟩ => Edit.ends_modify.2 (h.removed hop hops)))
  replaceOperator id op _ w h := by
    unfold replaceOperator onIndex onGraph
    refine Edit.ends_bind.2 (ends_operator.2 fun old hold => ?_)
    exact Edit.ends_bind.2 (Edit.ends_within.2 (Graph.ends_setOperator_of fun hid =>
      Edit.ends_modify.2 (h.replaced hold (Graph.operator?_mapNode_operator hid))))
  refresh w h := by
    unfold refresh onGraph
    refine Edit.ends_within.2 fun _ g hrun => ?_
    exact h.of_operators (Graph.updateVariables_eq_ok hrun).2.operator?

end Workspace

/-! ## Operators that are all sound -/

namespace Graph

variable {γ : Type} {sound : Operator γ → Prop} {g g' : Graph γ} {op : Operator γ}

/-- All operators of the graph are sound. -/
def Only (sound : Operator γ → Prop) (g : Graph γ) : Prop :=
  ∀ id op, g.operator? id = some op → sound op

/-- A graph with the same operators has nothing but sound ones, too. -/
theorem Only.congr (h : g.Only sound) (hops : ∀ id, g'.operator? id = g.operator? id) :
    g'.Only sound :=
  fun id op hop => h id op (hops id ▸ hop)

/-- A sound operator may be added. -/
theorem Only.withOperator (h : g.Only sound) (hop : sound op) : (g.withOperator op).Only sound := by
  intro id op' h'
  rw [operator?_withOperator] at h'
  split at h'
  · exact Option.some.inj h' ▸ hop
  · exact h id op' h'

/-- A sound operator may take the place of another one. -/
theorem setOperator_keeps_only {id : OperatorId} (hop : sound op) :
    (setOperator id op).Keeps (Only sound) := by
  refine fun g h => ends_setOperator_of fun hid x op' h' => ?_
  rw [operator?_mapNode_operator hid] at h'
  split at h'
  · exact Option.some.inj h' ▸ hop
  · exact h x op' h'

/-- The edits of graphs that steps on workspaces are made of keep a property, which implies that all
operators are sound. -/
structure KeptByEdits (sound : Operator γ → Prop) (Q : Graph γ → Prop) : Prop where
  handedDown : Operator.HandedDown sound
  only : ∀ g, Q g → g.Only sound
  withOperator : ∀ op, sound op → ∀ g, Q g → Q (g.withOperator op)
  connect : ∀ s t operand feedback, (connect s t operand feedback).Keeps Q
  disconnect : ∀ s t, (disconnect s t).Keeps Q
  remove : ∀ id, (remove id).Keeps Q
  setOperator : ∀ id op, sound op → (setOperator id op).Keeps Q
  updateVariables : (updateVariables : Edit (Graph γ) Unit).Keeps Q

/-- What the edits of graphs keep, the steps on workspaces keep, too. -/
theorem KeptByEdits.toSteps {Q : Graph γ → Prop} (h : KeptByEdits sound Q) :
    Reshape.KeptBySteps sound fun w : Workspace γ => Q w.graph where
  handedDown := h.handedDown
  operator _ w hw := Reshape.ends_operator.2 fun op hop => ⟨hw, h.only w.graph hw _ op hop⟩
  add op hop w hw := by
    unfold Reshape.add Reshape.onGraph Reshape.onIndex Graph.add
    simp only [Edit.ends_bind, Edit.ends_within, Edit.ends_get, Edit.ends_set, Edit.ends_modify,
      Edit.ends_pure]
    exact h.withOperator op hop w.graph hw
  connect s t operand feedback w hw := by
    unfold Reshape.connect Reshape.onGraph
    exact Edit.ends_within.2 (h.connect s t operand feedback w.graph hw)
  disconnect s t w hw := by
    unfold Reshape.disconnect Reshape.onGraph
    exact Edit.ends_within.2 (h.disconnect s t w.graph hw)
  remove id w hw := by
    unfold Reshape.remove Reshape.onGraph Reshape.onIndex
    refine Edit.ends_bind.2 (Edit.ends_within.2 ?_)
    exact (h.remove id w.graph hw).mono fun _ _ h' => Edit.ends_modify.2 h'
  replaceOperator id op hop w hw := by
    unfold Reshape.replaceOperator Reshape.onGraph Reshape.onIndex
    refine Edit.ends_bind.2 (Reshape.ends_operator.2 fun _ _ => ?_)
    refine Edit.ends_bind.2 (Edit.ends_within.2 ?_)
    exact (h.setOperator id op hop w.graph hw).mono fun _ _ h' => Edit.ends_modify.2 h'
  refresh w hw := by
    unfold Reshape.refresh Reshape.onGraph
    exact Edit.ends_within.2 (h.updateVariables w.graph hw)

/-- Properties that edits keep may be kept together. -/
theorem KeptByEdits.and {Q Q' : Graph γ → Prop} (h : KeptByEdits sound Q)
    (h' : KeptByEdits sound Q') : KeptByEdits sound fun g => Q g ∧ Q' g where
  handedDown := h.handedDown
  only g hg := h.only g hg.1
  withOperator op hop g hg := ⟨h.withOperator op hop g hg.1, h'.withOperator op hop g hg.2⟩
  connect s t operand feedback g hg :=
    (h.connect s t operand feedback g hg.1).and (h'.connect s t operand feedback g hg.2)
  disconnect s t g hg := (h.disconnect s t g hg.1).and (h'.disconnect s t g hg.2)
  remove id g hg := (h.remove id g hg.1).and (h'.remove id g hg.2)
  setOperator id op hop g hg :=
    (h.setOperator id op hop g hg.1).and (h'.setOperator id op hop g hg.2)
  updateVariables g hg := (h.updateVariables g hg.1).and (h'.updateVariables g hg.2)

/-- Operators of one kind stay among themselves if what they have is handed down. -/
theorem keptByEdits_only (handedDown : Operator.HandedDown sound) :
    KeptByEdits sound (Only (γ := γ) sound) where
  handedDown := handedDown
  only _ h := h
  withOperator _ hop _ h := h.withOperator hop
  connect _ _ operand feedback g h :=
    (connect_keeps_operators operand feedback g fun _ => rfl).mono fun _ _ hops => h.congr hops
  disconnect _ _ g h :=
    (disconnect_keeps_operators g fun _ => rfl).mono fun _ _ hops => h.congr hops
  remove id g h := ends_remove_operators.mono fun _ g' ⟨_, hops⟩ x op hop => by
    rw [hops] at hop
    split at hop
    · cases hop
    · exact h x op hop
  setOperator _ _ hop := setOperator_keeps_only hop
  updateVariables _ h _ _ hrun := h.congr (updateVariables_eq_ok hrun).2.operator?

end Graph

/-- All operators of the graph of a workspace stay sound. -/
theorem Workspace.keptBySteps_only {γ : Type} {sound : Operator γ → Prop}
    (handedDown : Operator.HandedDown sound) :
    Reshape.KeptBySteps sound fun w : Workspace γ => w.graph.Only sound :=
  (Graph.keptByEdits_only handedDown).toSteps

/-! ## Edges that are recorded alike on both sides -/

namespace Graph

variable {γ : Type} {g : Graph γ} {id s t : OperatorId}

/-- Both sides record the same number of edges from one operator to another. -/
def Balanced (g : Graph γ) : Prop :=
  ∀ s t, (g.edgesBetween s t).length = (g.preceding t).count s

/-- The edges from one operator to another one, as the consumer sees them. -/
theorem mem_edgesBetween {i : Input} :
    i ∈ g.edgesBetween s t ↔ i.source = s ∧ ⟨t, i.operand, i.feedback⟩ ∈ g.succeeding s := by
  obtain ⟨source, operand, feedback⟩ := i
  simp only [edgesBetween, List.mem_map, List.mem_filter, beq_iff_eq, Input.mk.injEq]
  constructor
  · rintro ⟨⟨target, k, f⟩, ⟨he, rfl⟩, rfl, rfl, rfl⟩
    exact ⟨rfl, he⟩
  · rintro ⟨rfl, he⟩
    exact ⟨_, ⟨he, rfl⟩, rfl, rfl, rfl⟩

theorem edgesBetween_ne_nil :
    g.edgesBetween s t ≠ [] ↔ ∃ e ∈ g.succeeding s, e.target = t := by
  rw [ne_eq, List.eq_nil_iff_forall_not_mem, not_forall_not]
  constructor
  · rintro ⟨i, hi⟩
    exact ⟨_, (mem_edgesBetween.1 hi).2, rfl⟩
  · rintro ⟨e, he, rfl⟩
    exact ⟨⟨s, e.operand, e.feedback⟩, mem_edgesBetween.2 ⟨rfl, he⟩⟩

/-- If both sides record each edge equally often, they record the same edges. -/
theorem Balanced.linked (h : g.Balanced) : g.Linked := fun s t => by
  rw [← List.count_pos_iff, ← h, List.length_pos_iff, edgesBetween_ne_nil]

/-- The check on edges passes just if both sides record each edge equally often. -/
theorem verifyEdges_eq_ok : g.verifyEdges = .ok () ↔ g.Balanced := by
  have hnil : g.verifyEdges = .ok () ↔ ∀ id ∈ g.ids, g.oneSided id = [] := by
    rw [verifyEdges, ← List.flatMap_eq_nil_iff]
    split <;> simp [*]
  have hsides (id : OperatorId) : g.oneSided id = [] ↔
      (∀ e ∈ g.succeeding id, g.contains e.target = true ∧ g.agreeing id e.target = true) ∧
        ∀ s ∈ g.preceding id, g.edgesBetween s id ≠ [] := by
    simp [oneSided, List.filter_eq_nil_iff]
  rw [hnil]
  constructor
  · intro h s t
    by_cases hedge : ∃ e ∈ g.succeeding s, e.target = t
    · obtain ⟨e, he, rfl⟩ := hedge
      exact beq_iff_eq.1
        (((hsides s).1 (h s (mem_ids.2 (contains_of_mem_succeeding he)))).1 e he).2
    · have hnone : g.edgesBetween s t = [] := not_not.1 (mt edgesBetween_ne_nil.1 hedge)
      rw [hnone, List.length_nil, eq_comm, List.count_eq_zero]
      intro hs
      have ht : g.contains t = true := by
        unfold preceding at hs
        unfold contains
        cases hn : g.node? t with
        | none => simp [hn] at hs
        | some n => rfl
      exact ((hsides t).1 (h t (mem_ids.2 ht))).2 s hs hnone
  · intro h id _
    refine (hsides id).2 ⟨fun e he => ⟨h.linked.contains_target he, beq_iff_eq.2 (h _ _)⟩,
      fun s hs => edgesBetween_ne_nil.2 ((h.linked s id).1 hs)⟩

/-- Only the edges matter for the balance. -/
theorem balanced_congr {g' : Graph γ} (hsucceeding : ∀ x, g'.succeeding x = g.succeeding x)
    (hpreceding : ∀ x, g'.preceding x = g.preceding x) (h : g.Balanced) : g'.Balanced :=
  fun s t => by
    rw [edgesBetween, hsucceeding, hpreceding]
    exact h s t

/-- A new edge is one edge more between its ends. -/
theorem length_edgesBetween_withEdge {e : Edge} (hs : g.contains s = true) (x y : OperatorId) :
    ((g.withEdge s e).edgesBetween x y).length =
      (g.edgesBetween x y).length + if x = s ∧ y = e.target then 1 else 0 := by
  simp only [edgesBetween, List.length_map]
  rw [succeeding_withEdge hs]
  by_cases hx : x = s
  · rw [if_pos hx, List.filter_append, List.length_append, List.filter_singleton]
    by_cases hy : y = e.target
    · simp [hx, hy]
    · simp [hy, beq_eq_false_iff_ne.2 (Ne.symm hy)]
  · simp [hx]

/-- A new edge is recorded once more at its target. -/
theorem count_preceding_withEdge {e : Edge} (ht : g.contains e.target = true) (x y : OperatorId) :
    ((g.withEdge s e).preceding y).count x =
      (g.preceding y).count x + if x = s ∧ y = e.target then 1 else 0 := by
  rw [preceding_withEdge ht]
  by_cases hy : y = e.target
  · rw [if_pos hy, List.count_append, List.count_singleton]
    by_cases hx : x = s
    · simp [hx, hy]
    · simp [hx, Ne.symm hx]
  · simp [hy]

/-- An edge is recorded on both sides or not at all. -/
theorem connect_keeps_balanced (operand : Nat) (feedback : Bool) :
    (connect s t operand feedback).Keeps (Balanced (γ := γ)) := by
  refine fun g h => ends_connect_of (fun _ _ _ => h) fun hs ht _ x y => ?_
  rw [length_edgesBetween_withEdge hs, count_preceding_withEdge ht, h x y]

/-- To take away all edges between two operators leaves both sides balanced. -/
theorem balanced_cut (h : g.Balanced) : (g.cut s t).Balanced := by
  intro x y
  have hlength : ((g.cut s t).edgesBetween x y).length =
      if x = s ∧ y = t then 0 else (g.edgesBetween x y).length := by
    simp only [edgesBetween, succeeding_cut, List.length_map]
    by_cases hx : x = s
    · rw [if_pos hx, List.filter_filter]
      by_cases hy : y = t
      · simp [hx, hy]
      · rw [if_neg fun hboth => hy hboth.2]
        refine congrArg List.length (List.filter_congr fun e _ => ?_)
        by_cases he : e.target = y <;> simp [he, hy]
    · simp [hx]
  have hcount : ((g.cut s t).preceding y).count x =
      if x = s ∧ y = t then 0 else (g.preceding y).count x := by
    rw [preceding_cut]
    by_cases hy : y = t
    · rw [if_pos hy]
      by_cases hx : x = s
      · rw [if_pos ⟨hx, hy⟩, List.count_eq_zero]
        exact fun hmem => bne_iff_ne.1 (List.mem_filter.1 hmem).2 hx
      · rw [if_neg fun hboth => hx hboth.1, List.count_filter (by simp [hx])]
    · simp [hy]
  rw [hlength, hcount, h]

theorem disconnect_keeps_balanced : (disconnect s t).Keeps (Balanced (γ := γ)) :=
  fun _ h => ends_disconnect_cut (balanced_cut h)

/-- Before an operator is removed, all its edges are. -/
theorem remove_keeps_balanced : (remove id).Keeps (Balanced (γ := γ)) := by
  intro g h
  unfold remove
  refine Edit.ends_ite (fun _ => Edit.ends_bind.2 Edit.ends_fault) fun _ => ?_
  refine Edit.ends_bind.2 (ends_require.2 fun n hn => ?_)
  refine ((wired_detach (.of_linked h.linked) hn).and
    (Edit.keeps_forM (fun _ _ => disconnect_keeps_balanced) g h)).bind fun _ g₁ ⟨hwired, h₁⟩ => ?_
  refine (hwired.and (Edit.keeps_forM (fun _ _ => disconnect_keeps_balanced) g₁ h₁)).bind
    fun _ g₂ ⟨hwired, h₂⟩ => ?_
  refine Edit.ends_bind.2 (Edit.ends_modify.2 (Edit.ends_pure.2 ?_))
  refine balanced_congr (fun x => ?_) (fun x => ?_) h₂
  · exact succeeding_emptied hwired (fun _ _ hi => hi.2) x
  · exact preceding_emptied hwired (fun _ _ hi => hi.2) x

/-- Every edit keeps edges recorded equally often on both sides. -/
theorem keptByEdits_balanced : KeptByEdits (fun _ => True) (Balanced (γ := γ)) where
  handedDown := Operator.handedDown_true
  only _ _ _ _ _ := trivial
  withOperator _ _ _ h := balanced_congr succeeding_withOperator preceding_withOperator h
  connect _ _ := connect_keeps_balanced
  disconnect _ _ := disconnect_keeps_balanced
  remove _ := remove_keeps_balanced
  setOperator _ _ _ _ h := ends_setOperator_of fun _ =>
    balanced_congr succeeding_mapNode_operator preceding_mapNode_operator h
  updateVariables _ h _ _ hrun := by
    obtain ⟨-, hsame⟩ := updateVariables_eq_ok hrun
    exact balanced_congr hsame.succeeding hsame.preceding h

end Graph

/-- Every step on a workspace keeps its edges recorded equally often on both sides. -/
theorem Workspace.keptBySteps_balanced {γ : Type} :
    Reshape.KeptBySteps (fun _ => True) fun w : Workspace γ => w.graph.Balanced :=
  Graph.keptByEdits_balanced.toSteps

end QuadAlgebra
