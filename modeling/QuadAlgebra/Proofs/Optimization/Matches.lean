import QuadAlgebra.Proofs.Optimization.Reductions

/-!
# What rules do

A match says enough about the surroundings of an operator for its rule to succeed. Rules that do not
start at heads and matchers reduce it (`PlanRule.catalogue_reduces`).
-/

namespace QuadAlgebra

namespace PlanRule

open Edit Reshape

variable {γ : Type} {w : Workspace γ} {g : Graph γ} {id below : OperatorId} {m : Match}
  {op : Operator γ} {provesEmpty : IndexScan → Bool}

theorem scan?_eq_some {s : IndexScan} : op.scan? = some s ↔ op = .scan s := by
  cases op <;> simp [Operator.scan?]

theorem runs_removal (h : w.graph.Orderly) (hop : w.graph.operator? id = some op)
    (huseless : w.graph.Useless provesEmpty id op) :
    (do let _ ← cascade id : Reshape γ Unit).Runs w fun _ w' =>
      w.graph.Reduction provesEmpty w'.graph := by
  refine (runs_cascade h.wired h.root).bind fun _ w' h' => runs_pure.2 ?_
  obtain ⟨gone, hwired, hexhausts⟩ := h'
  have hmem := hexhausts.done id (List.mem_singleton_self id) op hop huseless.removable
  exact .pruned id op gone hop huseless hmem hexhausts hwired

/-- Where the rule matches in an orderly graph it succeeds, and reduces it. -/
def Reduces (provesEmpty : IndexScan → Bool) (rule : PlanRule γ) : Prop :=
  ∀ (w : Workspace γ) (id : OperatorId) (m : Match), w.graph.Orderly →
    w.graph.kind? id = some rule.start → rule.match? w.graph id = some m →
      (rule.replace m).Runs w fun _ w' => w.graph.Reduction provesEmpty w'.graph

theorem removeEmptyScan_reduces : (removeEmptyScan (γ := γ) provesEmpty).Reduces provesEmpty := by
  intro w id m h _ hm
  simp only [removeEmptyScan, Option.bind_eq_bind, Option.bind_eq_some_iff] at hm
  obtain ⟨op, hop, scan, hscan, hm⟩ := hm
  obtain rfl := scan?_eq_some.1 hscan
  split at hm
  · next hempty =>
    cases hm
    exact runs_removal h hop (.emptyScan scan hempty)
  · cases hm

theorem removeIdleTemplate_reduces : (removeIdleTemplate (γ := γ)).Reduces provesEmpty := by
  intro w id m h _ hm
  simp only [removeIdleTemplate] at hm
  split at hm
  · next template hop =>
    split at hm
    · next hidle =>
      cases hm
      refine runs_removal h hop (.idleTemplate template ?_)
      simpa using hidle
    · cases hm
  · cases hm

/-- A match at a union with inputs and consumers finds a union that they can do without. -/
theorem exists_spliceSite (h : g.Linked) (hkind : g.kind? id = some .union)
    (hm : spliceUnion.match? g id = some m) (hfed : g.inputs id ≠ [])
    (hread : g.succeeding id ≠ []) :
    g.SpliceSite id ∧ m = (Match.only id).bindAll .input (Graph.sourcesOf (g.inputs id)) := by
  obtain ⟨op, hop, hunion⟩ := exists_operator hkind
  obtain rfl := Operator.eq_union_of_kind hunion
  simp only [spliceUnion] at hm
  rw [if_neg (by simp [hfed, hread])] at hm
  split at hm
  · cases hm
  · next hapart =>
    cases hm
    simp only [Bool.or_eq_true, Bool.not_eq_true', List.any_eq_true, beq_iff_eq, not_or,
      not_exists, not_and, Bool.not_eq_false, List.contains_iff_mem] at hapart
    obtain ⟨i₀, hi₀⟩ := List.exists_mem_of_ne_nil _ hfed
    obtain ⟨e₀, he₀⟩ := List.exists_mem_of_ne_nil _ hread
    refine ⟨
      { union := hop
        fed := ⟨i₀, h.mem_inputs.1 hi₀⟩
        read := ⟨e₀.target, ⟨id, e₀.operand, e₀.feedback⟩, he₀, rfl⟩
        apart := fun i x hi j hj hsource => by
          have hx := hapart.2 ⟨x, j.operand, j.feedback⟩ (hsource ▸ hj)
          exact ⟨hx.2, fun he => hx.1 (Graph.mem_sourcesOf.2 ⟨i, h.mem_inputs.2 hi, he⟩)⟩
        nodup := Graph.nodup_of_sourcesDiffer hapart.1 }, rfl⟩

/-- The union makes place for its inputs. -/
theorem spliceUnion_runs (h : w.graph.Linked)
    (hroot : w.graph.operator? Graph.root = some .root) (hsite : w.graph.SpliceSite id) :
    (spliceUnion.replace
      ((Match.only id).bindAll .input (Graph.sourcesOf (w.graph.inputs id)))).Runs w fun _ w' =>
        w'.graph.Wired w.graph.slots.length (fun x => if x = id then none else w.graph.operator? x)
          (splicedReads w.graph.Reads id) := by
  have hop := hsite.union
  obtain ⟨i₀, hi₀⟩ := hsite.fed
  have hsources : Graph.sourcesOf (w.graph.inputs id) ≠ [] :=
    List.ne_nil_of_mem (Graph.mem_sourcesOf.2 ⟨i₀, h.mem_inputs.2 hi₀, rfl⟩)
  simp only [spliceUnion, Match.all_bindAll, Match.all_only, List.nil_append, if_true,
    Match.root_bindAll, Match.root_only]
  rw [if_neg (by simpa using hsources)]
  refine runs_bind.2 (runs_look (runs_bind.2 (runs_look ?_)))
  refine runs_splice (.of_linked h) (Graph.ne_root_of_kind hroot hop Kind.noConfusion)
    (by simp [hop]) (fun i => h.mem_inputs) (fun e => Iff.rfl) fun i hi hsource => ?_
  exact (hsite.apart i id hi i hi hsource).1 rfl

theorem spliceUnion_reduces : (spliceUnion (γ := γ)).Reduces provesEmpty := by
  intro w id m h hkind hm
  by_cases hbusy : w.graph.inputs id ≠ [] ∧ w.graph.succeeding id ≠ []
  · obtain ⟨hsite, rfl⟩ := exists_spliceSite h.linked hkind hm hbusy.1 hbusy.2
    exact (spliceUnion_runs h.linked h.root hsite).mono fun _ w' h' => .spliced id hsite h'
  · obtain ⟨op, hop, hunion⟩ := exists_operator hkind
    obtain rfl := Operator.eq_union_of_kind hunion
    have hidle : w.graph.inputs id = [] ∨ w.graph.succeeding id = [] := by tauto
    simp only [spliceUnion] at hm ⊢
    rw [if_pos (by simpa using hidle)] at hm
    cases hm
    exact runs_removal h hop (.idleUnion hidle)

theorem specializeFilter_reduces : (specializeFilter (γ := γ)).Reduces provesEmpty := by
  intro w id m h _ hm
  simp only [specializeFilter] at hm
  split at hm
  · next f hop =>
    split at hm
    · next hplain =>
      cases hm
      obtain ⟨hnested, hsome⟩ := Bool.and_eq_true_iff.1 hplain
      obtain ⟨equalities, hequalities⟩ := Option.isSome_iff_exists.1 hsome
      refine runs_bind.2 (runs_operator hop ?_)
      simp only [hequalities]
      exact (runs_replaceOperator h.wired (.ruleFilter equalities) (by simp [hop])).mono
        fun _ w' h' => .specialized id f equalities hop (List.isEmpty_iff.1 hnested) hequalities h'
    · cases hm
  · cases hm

theorem distinctOverScan_reduces : (distinctOverScan (γ := γ)).Reduces provesEmpty := by
  intro w id m h hkind hm
  obtain ⟨op, hop, hdistinct⟩ := exists_operator hkind
  obtain rfl : op = .distinct := by
    cases op with
    | command c => cases c <;> cases hdistinct
    | distinct => rfl
    | _ => cases hdistinct
  have hroot : m.root = id := by
    simp only [distinctOverScan, Option.bind_eq_bind] at hm
    obtain ⟨i, -, hm⟩ := Option.bind_eq_some_iff.1 hm
    obtain ⟨⟨found, skipped⟩, -, hm⟩ := Option.bind_eq_some_iff.1 hm
    obtain ⟨op, -, hm⟩ := Option.bind_eq_some_iff.1 hm
    obtain ⟨scan, -, hm⟩ := Option.bind_eq_some_iff.1 hm
    split at hm <;> cases hm
    rfl
  simp only [distinctOverScan, hroot]
  exact (runs_replaceOperator h.wired .indexDistinct (by simp [hop])).mono
    fun _ w' h' => .indexed id hop h'

/-- Copies of the filter take its place. -/
theorem distribute_runs (h : w.graph.Orderly) (hsite : w.graph.DistributeSite id op) :
    (distribute id ((w.graph.inputs id).map Input.source)).Runs w fun _ w' =>
      w'.graph.Wired (w.graph.slots.length + (w.graph.inputs id).length)
        (fun x => if x = id then none
          else withCopies w.graph.operator? w.graph.slots.length (w.graph.inputs id).length op x)
        (distributedReads w.graph.Reads w.graph.slots.length id
          ((w.graph.inputs id).map Input.source)) := by
  have hself (i : Input) (hi : w.graph.Reads id i) : i.source ≠ id := hsite.source_ne h hi
  have hroot := h.ne_root hsite.operator (hsite.filters.kind_ne (by decide))
  refine (runs_distribute h.wired hroot hsite.operator (fun s hs => ?_) hself).mono
    fun _ w' h' => by rwa [List.length_map] at h'
  obtain ⟨i, hi, rfl⟩ := List.mem_map.1 hs
  have hread := h.linked.mem_inputs.1 hi
  exact ⟨(h.wired.ends_of_reads hread).2, hself i hread⟩

/-- Copies of the filter are put below the operator that it reads. -/
theorem lower_runs {l : List Input} (h : w.graph.Orderly)
    (hsite : w.graph.LowerSite id below op l) :
    (lower id below (pushTargets w.graph below op.reads)).Runs w fun _ w' =>
      w'.graph.Wired (w.graph.slots.length + l.length)
        (fun x => if x = id then none
          else withCopies w.graph.operator? w.graph.slots.length l.length op x)
        (loweredReads w.graph.Reads w.graph.slots.length id below l) := by
  obtain ⟨i, hread, rfl, hforward, honly⟩ := hsite.input_eq h.linked
  have hi : w.graph.Reads id i := (hread i).2 rfl
  have hne : i.source ≠ id := h.source_ne hi hforward
  have hroot := h.ne_root hsite.operator (hsite.filters.kind_ne (by decide))
  refine runs_lower h.wired hroot hsite.operator (h.wired.ends_of_reads hi).2 hne hsite.targets
    (fun j hj hsource => ?_) fun j hj => ?_
  · -- the two operators would feed each other forward
    obtain ⟨hj, hfeeds⟩ := hsite.reads h.linked hj
    obtain ⟨rank, hrank⟩ := h.ascends
    have hup := hrank id i hi hforward
    have hdown := hrank i.source j hj (Graph.feedsOnly_iff.1 hfeeds).1
    rw [hsource] at hdown
    exact absurd (Nat.lt_trans hup hdown) (Nat.lt_irrefl _)
  · rw [(hread j).1 hj]
    exact hne

/-- A match finds a filter with several inputs, or one that can do its work further below. -/
theorem exists_pushSite (h : g.Linked) {name : String} {kind : Kind}
    (hkind : kind ∈ Graph.filterKinds) (hm : (push name kind).match? g id = some m) :
    (∃ op, g.DistributeSite id op ∧
        m = (Match.only id).bindAll .member ((g.inputs id).map Input.source)) ∨
      ∃ below op l, g.LowerSite id below op l ∧
        m = ((Match.only id).bind .below below).bindAll .target (pushTargets g below op.reads) := by
  simp only [push, matchPush, Option.bind_eq_bind, Option.bind_eq_some_iff] at hm
  obtain ⟨op, hop, hm⟩ := hm
  split at hm
  · cases hm
  · next hplain =>
    simp only [Bool.or_eq_true, bne_iff_ne, ne_eq, Bool.not_eq_true', not_or, not_not,
      Bool.not_eq_false, List.isEmpty_iff] at hplain
    have hfilters : Graph.Filters op := ⟨hplain.1 ▸ hkind, hplain.2⟩
    split at hm
    · next hmany =>
      simp only [matchMembers] at hm
      split at hm
      · next hmembers =>
        cases hm
        obtain ⟨hdiffer, hall⟩ := Bool.and_eq_true_iff.1 hmembers
        exact .inl ⟨op,
          { operator := hop
            filters := hfilters
            many := hmany
            nodup := Graph.nodup_of_sourcesDiffer hdiffer
            forward := fun i hi => by
              simpa using List.all_eq_true.1 hall i (h.mem_inputs.2 hi) }, rfl⟩
      · cases hm
    · obtain ⟨i, hi, hm⟩ := Option.bind_eq_some_iff.1 hm
      split at hm
      · cases hm
      · next htargets =>
        cases hm
        simp only [Bool.or_eq_true, Bool.not_eq_true', not_or, Bool.not_eq_false,
          List.isEmpty_iff] at htargets
        obtain ⟨s, hs⟩ := List.exists_mem_of_ne_nil _ htargets.2
        obtain ⟨j, hj, hsource, -⟩ := Graph.exists_of_mem_pushTargets hs
        exact .inr ⟨i.source, op, _,
          { operator := hop
            filters := hfilters
            input := ⟨i, Graph.singleInput_eq_some hi, rfl, htargets.1⟩
            targets := rfl
            fed := List.ne_nil_of_mem
              (List.mem_filter.2 ⟨hj, List.contains_iff_mem.2 (hsource ▸ hs)⟩) }, rfl⟩

/-- What a match at a filter with several inputs makes of it. -/
theorem replace_push_members (name : String) (kind : Kind) (hsite : g.DistributeSite id op) :
    (push (γ := γ) name kind).replace
        ((Match.only id).bindAll .member ((g.inputs id).map Input.source)) =
      distribute id ((g.inputs id).map Input.source) := by
  have hne : (g.inputs id).map Input.source ≠ [] := by
    rintro hnil
    have hmany := hsite.many
    rw [List.map_eq_nil_iff] at hnil
    rw [hnil] at hmany
    exact absurd hmany (by simp)
  simp only [push, Match.all_bindAll, Match.all_only, List.nil_append, if_true, Match.root_bindAll,
    Match.root_only]
  exact if_pos (by simpa using hne)

/-- What a match at a filter above another operator makes of it. -/
theorem replace_push_targets (name : String) (kind : Kind) (id below : OperatorId)
    (targets : List OperatorId) : (push (γ := γ) name kind).replace
        (((Match.only id).bind .below below).bindAll .target targets) = lower id below targets := by
  simp only [push, Match.all_bindAll, Match.all_bind, Match.all_only, Match.first?,
    Match.root_bindAll, Match.root_bind, Match.root_only]
  rfl

theorem push_reduces (name : String) {kind : Kind} (hkind : kind ∈ Graph.filterKinds) :
    (push (γ := γ) name kind).Reduces provesEmpty := by
  intro w id m h _ hm
  rcases exists_pushSite h.linked hkind hm with ⟨op, hsite, rfl⟩ | ⟨below, op, l, hsite, rfl⟩
  · rw [replace_push_members name kind hsite]
    exact (distribute_runs h hsite).mono fun _ w' h' => .distributed id op hsite h'
  · rw [replace_push_targets]
    exact (lower_runs h hsite).mono fun _ w' h' => .lowered id below op l hsite h'

theorem mergeable_eq_some {group : Nat × List Input} {p : OperatorId × IndexScan}
    (h : mergeable g id group = some p) : ∃ i, group.2 = [i] ∧ i.source = p.1 ∧
      g.operator? i.source = some (.scan p.2) ∧ g.feedsOnly i id = true ∧
        ∀ j ∈ g.inputs i.source, j.source = Graph.root ∧ j.feedback = false := by
  unfold mergeable at h
  split at h
  · next i hgroup =>
    obtain ⟨op, hop, h⟩ := Option.bind_eq_some_iff.1 h
    obtain ⟨scan, hscan, h⟩ := Option.bind_eq_some_iff.1 h
    dsimp only at h
    split at h
    · next hall =>
      cases h
      obtain rfl := scan?_eq_some.1 hscan
      simp only [Bool.and_eq_true, List.all_eq_true, beq_iff_eq, Bool.not_eq_true'] at hall
      exact ⟨i, hgroup, rfl, hop, hall.1.1, hall.2⟩
    · cases h
  · cases h

/-- The inputs whose producers are merged, in the order of the groups. -/
theorem exists_of_mapM_mergeable {groups : List (Nat × List Input)}
    {scans : List (OperatorId × IndexScan)} (h : groups.mapM (mergeable g id) = some scans) :
    ∃ inputs : List Input, groups.map Prod.snd = inputs.map (fun i => [i]) ∧
      inputs.map Input.source = scans.map Prod.fst ∧
        List.Forall₂ (fun i s => g.operator? i.source = some (.scan s)) inputs
          (scans.map Prod.snd) ∧
            ∀ i ∈ inputs, g.feedsOnly i id = true ∧
              ∀ j ∈ g.inputs i.source, j.source = Graph.root ∧ j.feedback = false := by
  induction groups generalizing scans with
  | nil =>
      cases h
      exact ⟨[], rfl, rfl, .nil, by simp⟩
  | cons group groups ih =>
      simp only [List.mapM_cons, Option.bind_eq_bind, Option.bind_eq_some_iff] at h
      obtain ⟨p, hp, scans, hscans, h⟩ := h
      cases h
      obtain ⟨i, hgroup, hsource, hop, honly, hroots⟩ := mergeable_eq_some hp
      obtain ⟨inputs, hsnd, hfst, hall, hinputs⟩ := ih hscans
      refine ⟨i :: inputs, ?_, ?_, .cons hop hall, ?_⟩
      · rw [List.map_cons, List.map_cons, hgroup, hsnd]
      · rw [List.map_cons, List.map_cons, hsource, hfst]
      · simpa using ⟨⟨honly, hroots⟩, hinputs⟩

/-- A match finds a join of scans that nothing else reads. -/
theorem exists_mergeSite (h : g.Linked) (hkind : g.kind? id = some .join)
    (hm : mergeMemoryScans.match? g id = some m) : ∃ inputs scans, g.MergeSite id inputs scans ∧
      m = (Match.only id).bindAll .scan (inputs.map Input.source) := by
  obtain ⟨op, hop, hjoin⟩ := exists_operator hkind
  obtain rfl := Operator.eq_join_of_kind hjoin
  simp only [mergeMemoryScans, Option.bind_eq_bind] at hm
  split at hm
  · cases hm
  · next hmany =>
    obtain ⟨scans, hscans, hm⟩ := Option.bind_eq_some_iff.1 hm
    split at hm
    · next hsame =>
      cases hm
      obtain ⟨inputs, hgroups, hsources, hscanned, hall⟩ := exists_of_mapM_mergeable hscans
      have hlength : inputs.length = (g.operandGroups id).length := by
        simpa using (congrArg List.length hgroups).symm
      refine ⟨inputs, scans.map Prod.snd,
        { join := hop
          groups := hgroups
          many := by
            rw [hlength]
            simp only [Bool.or_eq_true, decide_eq_true_eq, not_or] at hmany
            omega
          scanned := hscanned
          only := fun i hi => (hall i hi).1
          roots := fun i hi j hj => (hall i hi).2 j (h.mem_inputs.2 hj)
          same := hsame }, by rw [hsources]⟩
    · cases hm

/-- The scans of a join are merged into one. -/
theorem mergeMemoryScans_runs (h : w.graph.Linked)
    (hroot : w.graph.operator? Graph.root = some .root) {inputs : List Input}
    {scans : List IndexScan}
    (hsite : w.graph.MergeSite id inputs scans) : ∃ scan, mergeScans scans = some scan ∧
      (mergeMemoryScans.replace ((Match.only id).bindAll .scan (inputs.map Input.source))).Runs w
        fun _ w' => w'.graph.Wired (w.graph.slots.length + 1)
          (fun x => if x = id ∨ x ∈ inputs.map Input.source then none
            else if x = w.graph.slots.length then some (.scan scan) else w.graph.operator? x)
          (mergedReads w.graph.Reads w.graph.slots.length id (inputs.map Input.source)) := by
  have hop := hsite.join
  have hscan (s : OperatorId) (hs : s ∈ inputs.map Input.source) :
      ∃ scan, w.graph.operator? s = some (.scan scan) := by
    obtain ⟨i, hi, rfl⟩ := List.mem_map.1 hs
    exact hsite.exists_scan hi
  obtain ⟨scan, hmerge⟩ : ∃ scan, mergeScans scans = some scan := by
    cases scans with
    | nil =>
        have hzero := hsite.scanned.length_eq
        exact absurd hsite.many (by simp [hzero])
    | cons s rest => exact ⟨_, rfl⟩
  refine ⟨scan, hmerge, ?_⟩
  simp only [mergeMemoryScans, Match.all_bindAll, Match.all_only, List.nil_append, if_true,
    Match.root_bindAll, Match.root_only]
  have hfound : List.Forall₂ (fun s scan => w.graph.operator? s = some (.scan scan))
      (inputs.map Input.source) scans := by
    rw [List.forall₂_map_left_iff]
    exact hsite.scanned
  refine (runs_mapM_expectScan hfound).bind fun r w' hr => ?_
  obtain ⟨rfl, rfl⟩ := hr
  rw [hmerge]
  have hne (s : OperatorId) (hs : s ∈ inputs.map Input.source) : s ≠ id := by
    obtain ⟨scan', hscan'⟩ := hscan s hs
    rintro rfl
    simp [hop] at hscan'
  refine runs_mergeScans (.of_linked h) hroot (by simp [hop])
    (Graph.ne_root_of_kind hroot hop Kind.noConfusion) (fun i hi => ?_) (hsite.nodup h)
    (fun s hs => ?_) (fun x i hi hmem => ?_) fun s hs j hj => ?_
  · exact hne _ (List.mem_map.2 ⟨i, (hsite.reads_iff h).1 hi, rfl⟩)
  · obtain ⟨scan', hscan'⟩ := hscan s hs
    exact ⟨by simp [hscan'], hne s hs, Graph.ne_root_of_kind hroot hscan' Kind.noConfusion⟩
  · obtain ⟨j, hj, hsource⟩ := List.mem_map.1 hmem
    exact (Graph.eq_of_feedsOnly (hsite.only j hj) ((hsite.reads_iff h).2 hj) hi
      hsource.symm).1
  · obtain ⟨i, hi, rfl⟩ := List.mem_map.1 hs
    exact (hsite.roots i hi j hj).1

theorem mergeMemoryScans_reduces : (mergeMemoryScans (γ := γ)).Reduces provesEmpty := by
  intro w id m h hkind hm
  obtain ⟨inputs, scans, hsite, rfl⟩ := exists_mergeSite h.linked hkind hm
  obtain ⟨scan, hmerge, hruns⟩ := mergeMemoryScans_runs h.linked h.root hsite
  exact hruns.mono fun _ w' h' => .merged id inputs scans scan hsite hmerge h'

/-- A match finds a renaming of scans that nothing else reads. -/
theorem exists_renameSite (h : g.Linked) (hm : renameUnderScans.match? g id = some m) :
    ∃ r r', g.RenameSite id r r' ∧
      m = (Match.only id).bindAll .scan ((g.inputs id).map Input.source) := by
  simp only [renameUnderScans] at hm
  split at hm
  · next r hop =>
    split at hm
    · next hrenamable =>
      cases hm
      simp only [Bool.and_eq_true, List.all_eq_true, Bool.not_eq_true', List.isEmpty_eq_false_iff]
        at hrenamable
      obtain ⟨⟨⟨hinverse, hfed⟩, -⟩, hall⟩ := hrenamable
      obtain ⟨r', hr'⟩ := Option.isSome_iff_exists.1 hinverse
      have hinput (i : Input) (hi : g.Reads id i) :
          (∃ s, g.operator? i.source = some (.scan s) ∧ bindsTarget r s = false) ∧
            g.feedsOnly i id = true := by
        have hi' := hall i (h.mem_inputs.2 hi)
        split at hi'
        · next scan hscan =>
          obtain ⟨op, hop, hscan⟩ := Option.bind_eq_some_iff.1 hscan
          obtain rfl := scan?_eq_some.1 hscan
          simp only [Bool.and_eq_true, Bool.not_eq_true'] at hi'
          exact ⟨⟨scan, hop, hi'.2⟩, hi'.1⟩
        · cases hi'
      exact ⟨r, r',
        { rename := hop
          inverse := hr'
          fed := hfed
          scans := fun i hi => (hinput i hi).1
          only := fun i hi => (hinput i hi).2 }, rfl⟩
    · cases hm
  · cases hm

/-- The variables of the scans are renamed. -/
theorem renameUnderScans_runs (h : w.graph.Linked)
    (hroot : w.graph.operator? Graph.root = some .root) {r : Renaming} {r' : VarMap}
    (hsite : w.graph.RenameSite id r r') :
    (renameUnderScans.replace
      ((Match.only id).bindAll .scan ((w.graph.inputs id).map Input.source))).Runs w fun _ w' =>
        w'.graph.Wired w.graph.slots.length (fun x => if x = id then none
          else if x ∈ (w.graph.inputs id).map Input.source then
            (w.graph.operator? x).map (Operator.renamedScan r') else w.graph.operator? x)
          (splicedReads w.graph.Reads id) := by
  have hread {i : Input} : i ∈ w.graph.inputs id ↔ w.graph.Reads id i := h.mem_inputs
  have hop := hsite.rename
  have hforward (i : Input) (hi : w.graph.Reads id i) : i.feedback = false :=
    (Graph.feedsOnly_iff.1 (hsite.only i hi)).1
  simp only [renameUnderScans, Match.all_bindAll, Match.all_only, List.nil_append, if_true,
    Match.root_bindAll, Match.root_only]
  refine runs_bind.2 (runs_operator hop ?_)
  simp only [hsite.inverse]
  refine runs_bind.2 (runs_look ?_)
  have hne (i : Input) (hi : w.graph.Reads id i) : i.source ≠ id := by
    obtain ⟨scan, hscan, -⟩ := hsite.scans i hi
    intro hsource
    simp [hsource, hop] at hscan
  refine runs_renameScans (.of_linked h) (by simp [hop])
    (Graph.ne_root_of_kind hroot hop Kind.noConfusion) hne
    (Graph.nodup_sources_of_feedsOnly fun i hi => hsite.only i (hread.1 hi))
    (fun s hs => ?_) (fun e => Iff.rfl) (fun i hi => ?_) fun s hs => ?_
  · obtain ⟨i, hi, rfl⟩ := List.mem_map.1 hs
    obtain ⟨scan, hscan, -⟩ := hsite.scans i (hread.1 hi)
    exact ⟨scan, hscan⟩
  · exact ⟨List.mem_map.2 ⟨i, hread.2 hi, rfl⟩, hforward i hi⟩
  · obtain ⟨i, hi, rfl⟩ := List.mem_map.1 hs
    exact ⟨i, hread.1 hi, rfl⟩

theorem renameUnderScans_reduces : (renameUnderScans (γ := γ)).Reduces provesEmpty := by
  intro w id m h _ hm
  obtain ⟨r, r', hsite, rfl⟩ := exists_renameSite h.linked hm
  exact (renameUnderScans_runs h.linked h.root hsite).mono fun _ w' h' => .renamed id r r' hsite h'

/-- The rules that do not start at heads and matchers reduce graphs. -/
theorem catalogue_reduces (provesEmpty : IndexScan → Bool) :
    ∀ rule ∈ catalogue (γ := γ) provesEmpty, rule.start ∉ Graph.ruleKinds →
      rule.Reduces provesEmpty := by
  have head (kind : Kind) (hkind : kind ∈ Graph.ruleKinds) {rule : PlanRule γ}
      (hstart : rule.start = kind) : rule.start ∉ Graph.ruleKinds → rule.Reduces provesEmpty :=
    fun h => absurd (hstart ▸ hkind) h
  simp only [catalogue, List.forall_mem_cons]
  exact ⟨fun _ => removeEmptyScan_reduces, fun _ => removeIdleTemplate_reduces,
    head .constructAtom (by decide) rfl, head .generate (by decide) rfl,
    head .generate (by decide) rfl, head .matchAtom (by decide) rfl,
    head .constructAtom (by decide) rfl, head .matchTriple (by decide) rfl,
    head .matchAtom (by decide) rfl, fun _ => spliceUnion_reduces,
    fun _ => mergeMemoryScans_reduces, fun _ => specializeFilter_reduces,
    fun _ => push_reduces _ (by decide), fun _ => push_reduces _ (by decide),
    fun _ => renameUnderScans_reduces, fun _ => distinctOverScan_reduces,
    fun _ hrule => absurd hrule List.not_mem_nil⟩

end PlanRule

end QuadAlgebra
