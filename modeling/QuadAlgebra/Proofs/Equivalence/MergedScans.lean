import QuadAlgebra.Proofs.Optimization.Frames
import QuadAlgebra.Proofs.Semantics.Production
import QuadAlgebra.Proofs.Semantics.Scans

/-!
# Merged scans

A scan of several lists of patterns has what the join of the scans of each of them has, row by row
(`Source.scan_append`). Where the scans range over graphs their solutions come in blocks, one for
each graph, and the join goes block by block (`joinSolutions_blocks`). So the rule that puts one
scan in the place of a join of scans changes no rows at all (`PlanRule.mergeMemoryScans_same_rows`).
-/

namespace QuadAlgebra

variable {src : Source}

theorem matchPatterns_eq_joinSolutions (patterns : List TriplePattern) (triples : List Triple)
    (start : Solution) : matchPatterns patterns triples start =
      joinSolutions [start] (joinMany (patterns.map fun p => p.solutions triples)) := by
  rw [matchPatterns_eq_joins, foldl_joinSolutions]

/-! ## Joins of blocks -/

theorem Solution.union?_self (s : Solution) : s.union? s = some s := by
  have hcompatible : s.compatible s = true := compatible_iff.2 fun v a b ha hb => by
    rw [ha] at hb
    exact Option.some.inj hb
  rw [union?, if_pos hcompatible]
  refine congrArg some (eq_of_get? fun v => ?_)
  rw [get?_merge]
  cases s.get? v <;> rfl

/-- A single solution can be joined on either side, with the same list of solutions. -/
theorem joinSolutions_singleton (l : List Solution) (s : Solution) :
    joinSolutions l [s] = joinSolutions [s] l := by
  simp only [joinSolutions_eq, List.flatMap_singleton, Solution.union?_comm s]
  rw [List.filterMap_eq_flatMap_toList]
  refine List.flatMap_congr fun t _ => ?_
  cases h : t.union? s <;> simp [h]

/-- Lists that extend one solution are joined by extending it with their join. -/
theorem joinSolutions_common (s : Solution) (l r : List Solution) :
    joinSolutions (joinSolutions [s] l) (joinSolutions [s] r) =
      joinSolutions [s] (joinSolutions l r) := by
  have hself : joinSolutions [s] [s] = [s] := by simp [joinSolutions_eq, Solution.union?_self]
  calc joinSolutions (joinSolutions [s] l) (joinSolutions [s] r)
      = joinSolutions [s] (joinSolutions (joinSolutions l [s]) r) := by
        rw [joinSolutions_assoc, joinSolutions_assoc]
    _ = joinSolutions (joinSolutions [s] [s]) (joinSolutions l r) := by
        rw [joinSolutions_singleton, ← joinSolutions_assoc, ← joinSolutions_assoc,
          ← joinSolutions_assoc]
    _ = joinSolutions [s] (joinSolutions l r) := by rw [hself]

theorem flatMap_eq_of_ne {α β : Type} {l : List α} {f : α → List β} {a : α} (hnodup : l.Nodup)
    (ha : a ∈ l) (h : ∀ b ∈ l, b ≠ a → f b = []) : l.flatMap f = f a := by
  obtain ⟨before, after, rfl⟩ := List.append_of_mem ha
  have hnone {k : List α} (hk : ∀ b ∈ k, b ∈ before ++ a :: after ∧ b ≠ a) : k.flatMap f = [] :=
    List.flatMap_eq_nil_iff.2 fun b hb => h b (hk b hb).1 (hk b hb).2
  have hout := List.nodup_middle.1 hnodup
  rw [List.nodup_cons, List.mem_append, not_or] at hout
  rw [List.flatMap_append, List.flatMap_cons, hnone, hnone]
  · simp
  · exact fun b hb => ⟨by simp [hb], fun hba => hout.1.2 (hba ▸ hb)⟩
  · exact fun b hb => ⟨by simp [hb], fun hba => hout.1.1 (hba ▸ hb)⟩

/-- Lists in blocks are joined block by block if different blocks exclude each other. -/
theorem joinSolutions_blocks {α : Type} {blocks : List α} {l r : α → List Solution}
    (hnodup : blocks.Nodup)
    (hapart : ∀ a ∈ blocks, ∀ b ∈ blocks, a ≠ b → ∀ s ∈ l a, ∀ t ∈ r b, s.union? t = none) :
    joinSolutions (blocks.flatMap l) (blocks.flatMap r) =
      blocks.flatMap fun a => joinSolutions (l a) (r a) := by
  simp only [joinSolutions_eq, List.flatMap_assoc, List.filterMap_flatMap]
  refine List.flatMap_congr fun a ha => List.flatMap_congr fun s hs => ?_
  exact flatMap_eq_of_ne hnodup ha fun b hb hne =>
    List.filterMap_eq_nil_iff.2 fun t ht => hapart a ha b hb hne.symm s hs t ht

/-! ## Scans of more patterns -/

theorem get?_of_mem_extension {v : Variable} {g : Term} {l : List Solution} {s : Solution}
    (h : s ∈ joinSolutions [OrdMap.singleton v g] l) : s.get? v = some g := by
  obtain ⟨t, ht, u, -, -, rfl⟩ := mem_joinSolutions.1 h
  rw [List.mem_singleton.1 ht, Solution.get?_merge]
  simp

/-- A scan of more patterns joins what a scan of the first ones and one of the others have. -/
theorem Source.scan_append (patterns others : List TriplePattern) (graph : Option Item)
    (source : ScanSource) : src.scan ⟨patterns ++ others, graph, source⟩ =
      joinSolutions (src.scan ⟨patterns, graph, source⟩) (src.scan ⟨others, graph, source⟩) := by
  have hmatch (triples : List Triple) (start : Solution) :
      matchPatterns (patterns ++ others) triples start =
        joinSolutions (matchPatterns patterns triples start)
          (matchPatterns others triples start) := by
    simp only [matchPatterns_eq_joinSolutions, joinSolutions_common, List.map_append,
      joinMany_append]
  match graph with
  | none => exact hmatch _ _
  | some (.term g) =>
      simp only [scan]
      split
      · exact hmatch _ _
      · rfl
  | some (.var v) =>
      simp only [scan, hmatch]
      -- solutions of different graphs differ on the graph variable
      refine (joinSolutions_blocks (OrdSet.nodup_toList _) fun g _ g' _ hne s hs t ht => ?_).symm
      rw [matchPatterns_eq_joinSolutions] at hs ht
      refine if_neg fun hcompatible => hne ?_
      exact Solution.compatible_iff.1 hcompatible v g g' (get?_of_mem_extension hs)
        (get?_of_mem_extension ht)

/-- The scan that is made of several ones has what their join has. -/
theorem Source.scan_mergeScans {scans : List IndexScan} {scan : IndexScan}
    (hmerge : PlanRule.mergeScans scans = some scan) (hsame : PlanRule.sameSource scans = true) :
    src.scan scan = joinAll (scans.map src.scan) := by
  cases scans with
  | nil => cases hmerge
  | cons s rest =>
      obtain rfl := Option.some.inj hmerge
      obtain ⟨patterns, graph, source⟩ := s
      simp only [PlanRule.sameSource, List.all_eq_true, Bool.and_eq_true, beq_iff_eq] at hsame
      rw [List.map_cons, joinAll]
      clear hmerge
      -- what is merged already grows scan by scan
      induction rest generalizing patterns with
      | nil => simp
      | cons t rest ih =>
          obtain ⟨rfl, rfl⟩ : t.source = source ∧ t.graph = graph := hsame t List.mem_cons_self
          rw [List.map_cons, List.foldl_cons, ← scan_append, ← ih (patterns ++ t.patterns)]
          · simp
          · exact fun u hu => hsame u (List.mem_cons_of_mem t hu)

/-! ## Joins of scans in plans -/

namespace Graph

variable {G : Graph Plan} {join : OperatorId} {inputs : List Input}
  {scans : List IndexScan}

/-- The solutions of the scan at an input. -/
def scanned (G : Graph Plan) (src : Source) (i : Input) : List Solution :=
  ((G.operator? i.source).bind Operator.scan?).elim [] src.scan

theorem scanned_of_scan {src : Source} {i : Input} {s : IndexScan}
    (hop : G.operator? i.source = some (.scan s)) : G.scanned src i = src.scan s := by
  simp [scanned, hop, Operator.scan?]

/-- A join of scans that are fed by one edge from the root each has the join of their solutions. -/
theorem MergeSite.produces (src : Source) (limit : Nat) (h : G.Linked)
    (hroot : G.operator? root = some .root) (hsite : G.MergeSite join inputs scans)
    (hfed : ∀ i ∈ inputs, (G.inputs i.source).length = 1) :
    G.Produces src limit join ((joinAll (scans.map src.scan)).map .solution) := by
  have hinput (i : Input) (hi : i ∈ G.inputs join) : i ∈ inputs :=
    (hsite.reads_iff h).1 (h.mem_inputs.1 hi)
  have hlists : (G.operandGroups join).map (fun group => group.2.flatMap (G.scanned src)) =
      scans.map src.scan := by
    have heach : List.Forall₂ (fun i s => G.scanned src i = src.scan s) inputs scans :=
      hsite.scanned.imp fun _ _ => scanned_of_scan
    calc (G.operandGroups join).map (fun group => group.2.flatMap (G.scanned src))
        = ((G.operandGroups join).map Prod.snd).map (List.flatMap (G.scanned src)) := by
          rw [List.map_map]
          rfl
      _ = inputs.map (G.scanned src) := by
          rw [hsite.groups, List.map_map]
          exact List.map_congr_left fun i _ => List.flatMap_singleton (G.scanned src) i
      _ = scans.map src.scan := by
          rw [← List.forall₂_eq_eq_eq, List.forall₂_map_left_iff, List.forall₂_map_right_iff]
          exact heach
  refine .emits (fun i => (G.scanned src i).map .solution) hsite.join
    (fun i hi => (feedsOnly_iff.1 (hsite.only i (hinput i hi))).1) (fun i hi => ?_) ?_
  · obtain ⟨s, hop⟩ := hsite.exists_scan (hinput i hi)
    have hproduces := produces_scan src limit hroot hop fun j hj =>
      hsite.roots i (hinput i hi) j (h.mem_inputs.1 hj)
    rw [hfed i (hinput i hi), List.replicate_one, List.flatten_singleton] at hproduces
    rwa [scanned_of_scan hop]
  · rw [deliver_solutions, ← hlists]
    refine (Operator.emit_join).trans ?_
    rw [List.map_map]
    rfl

namespace Merging

variable {γ : Type} {g g' : Graph γ} {scan : IndexScan} {x : OperatorId}

/-- The merged scan reads the root, on one edge. -/
theorem inputs_new (h : g.Merging g' join inputs scans scan) (hsymmetric : g'.Symmetric) :
    g'.inputs g.slots.length = [⟨Graph.root, 0, false⟩] := by
  refine List.perm_singleton.1 ((List.perm_ext_iff_of_nodup
    (hsymmetric.inputs_spec _).1 (List.nodup_singleton _)).2 fun i => ?_)
  rw [h.wired.mem_inputs, List.mem_singleton]
  constructor
  · rintro (⟨hi, -⟩ | ⟨-, hi⟩ | ⟨-, hi⟩)
    · exact absurd rfl (h.ne_new_of_reads hi).1
    · exact hi
    · exact absurd rfl (h.ne_new_of_reads hi).1
  · exact fun hi => .inr (.inl ⟨rfl, hi⟩)

/-- Roots read nothing if they did not before. -/
theorem unread (h : g.Merging g' join inputs scans scan)
    (hunread : ∀ r, g.operator? r = some .root → ∀ i, ¬ g.Reads r i)
    (hx : g'.operator? x = some .root) (i : Input) : ¬ g'.Reads x i := by
  have hne : x ≠ g.slots.length := by
    rintro rfl
    rw [h.operator_new] at hx
    cases hx
  have hunread := hunread x (h.operator_old hne hx)
  intro hi
  rcases (h.wired.reads x i).1 hi with ⟨hi, -⟩ | ⟨hx, -⟩ | ⟨-, hi⟩
  · exact hunread _ hi
  · exact hne hx
  · exact hunread _ hi

/-- The merged scan has the join of the solutions of all scans. -/
theorem produces {G G' : Graph Plan} (src : Source) (limit : Nat)
    (h : G.Merging G' join inputs scans scan) (hsymmetric : G'.Symmetric) :
    G'.Produces src limit G.slots.length
      ((joinAll (scans.map src.scan)).map .solution) := by
  have hinputs := h.inputs_new hsymmetric
  have hscan := produces_scan src limit h.operator_root h.operator_new fun i hi => by
    rw [hinputs, List.mem_singleton] at hi
    exact hi ▸ ⟨rfl, rfl⟩
  rwa [hinputs, List.length_singleton, List.replicate_one, List.flatten_singleton,
    Source.scan_mergeScans h.merge h.site.same] at hscan

end Merging

end Graph

namespace PlanRule

/-- Where scans are merged that are fed by one edge from the root each, the merged scan takes the
place of the join and produces the rows of the join. If roots read nothing it has them in the end of
every evaluation. -/
theorem mergeMemoryScans_same_rows {w : Workspace Plan} (h : w.graph.Symmetric)
    (hroot : w.graph.operator? Graph.root = some .root) {join : OperatorId} {m : Match}
    (hkind : w.graph.kind? join = some .join) (hm : mergeMemoryScans.match? w.graph join = some m)
    (hfed : ∀ s ∈ m.all .scan, (w.graph.inputs s).length = 1) :
    (mergeMemoryScans.replace m).Runs w fun _ w' => ∃ merged scan,
      w'.graph.operator? merged = some (.scan scan) ∧
      (∀ x k f, w'.graph.Reads x ⟨merged, k, f⟩ ↔ w.graph.Reads x ⟨join, k, f⟩) ∧
      (∀ src limit, ∃ rows, w.graph.Produces src limit join rows ∧
        w'.graph.Produces src limit merged rows) ∧
      ((∀ r, w.graph.operator? r = some .root → ∀ i, ¬ w.graph.Reads r i) → ∀ src limit a n a' n',
        (Plan.opened ⟨w.graph⟩ src limit).finalRows src limit = .ok (a, n) →
        (Plan.opened ⟨w'.graph⟩ src limit).finalRows src limit = .ok (a', n') →
        a'.rows merged = a.rows join) := by
  obtain ⟨inputs, scans, hsite, rfl⟩ := exists_mergeSite h.linked hkind hm
  simp only [Match.all_bindAll, Match.all_only, List.nil_append, if_true] at hfed
  replace hfed (i : Input) (hi : i ∈ inputs) : (w.graph.inputs i.source).length = 1 :=
    hfed _ (List.mem_map_of_mem hi)
  obtain ⟨scan, hmerge, ⟨⟩, w', hrun, hwired⟩ := mergeMemoryScans_runs h.linked hroot hsite
  have hsymmetric : w'.graph.Symmetric :=
    mergeMemoryScans_keeps Workspace.keptBySteps_symmetric _ w h _ _ hrun
  have hmerging : w.graph.Merging w'.graph join inputs scans scan :=
    ⟨h.linked, hroot, hsite, hmerge, hwired⟩
  have hbefore (src : Source) (limit : Nat) := hsite.produces src limit h.linked hroot hfed
  have hafter (src : Source) (limit : Nat) := hmerging.produces src limit hsymmetric
  refine ⟨⟨⟩, w', hrun, w.graph.slots.length, scan, hmerging.operator_new,
    fun x k f => hmerging.reads_new, fun src limit => ⟨_, hbefore src limit, hafter src limit⟩,
    fun hunread src limit a n a' n' ha ha' => ?_⟩
  rw [(hbefore src limit).rows_eq h.linked
    (fun r hr => Graph.not_onLoop_of_reads (hunread r hr)) ha]
  exact (hafter src limit).rows_eq hsymmetric.linked
    (fun r hr => Graph.not_onLoop_of_reads (hmerging.unread hunread hr)) ha'

/-- All triples, with their subjects and objects under the given names. -/
def tripleScan (s o : Variable) : IndexScan :=
  ⟨[⟨.var s, .var ⟨"p"⟩, .var o⟩], none, ⟨"main", true⟩⟩

/-- Pairs of triples that lead to and fro. -/
def roundTrip : Graph Plan :=
  Graph.edited [.add (.scan (tripleScan ⟨"s"⟩ ⟨"o"⟩)), .add (.scan (tripleScan ⟨"o"⟩ ⟨"s"⟩)),
    .add .join, .add (.result (.select [])), .connect 0 1 0 false, .connect 0 2 0 false,
    .connect 1 3 0 false, .connect 2 3 1 false, .connect 3 4 0 false]

theorem mergeMemoryScans_same_rows_roundTrip :
    (mergeMemoryScans.replace ((Match.only 3).bindAll .scan [1, 2])).Runs (.ofGraph roundTrip)
      fun _ w' => ∃ merged scan, w'.graph.operator? merged = some (.scan scan) ∧
        ∀ src limit, ∃ rows, roundTrip.Produces src limit 3 rows ∧
          w'.graph.Produces src limit merged rows :=
  (mergeMemoryScans_same_rows (Graph.symmetric_edited _) rfl rfl rfl (by decide)).mono
    fun _ _ ⟨merged, scan, hop, _, hrows, _⟩ => ⟨merged, scan, hop, hrows⟩

end PlanRule

end QuadAlgebra
