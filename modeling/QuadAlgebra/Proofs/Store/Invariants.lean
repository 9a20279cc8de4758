import QuadAlgebra.Proofs.Store.Changes
import QuadAlgebra.Store.Operation

/-!
# What operations keep and report

A store knows the graphs of all of its quads (`Store.Named`), whatever operations have made of the
empty one, those that failed halfway included (`Store.named_performedAll`). Single operations report
what they do: the number of quads grows or shrinks exactly if a quad was absent or present
(`Store.size_insert_ne_iff`, `Store.size_remove_ne_iff`), and actions on quads count as the
operations do that they stand for (`Store.changeCount_eq`). The main statement is
`Store.performed_spec`.
-/

namespace QuadAlgebra

namespace OrdSet

variable {α : Type} [Ord α] [DecidableEq α] [Std.LawfulEqOrd α]

/-- A set loses as many elements as are not in the smaller one. -/
theorem size_sub_size {s t : OrdSet α} (h : ∀ a, a ∈ t → a ∈ s) :
    s.size - t.size = (s.without t).size := by
  have hsub : t.toFinset ⊆ s.toFinset := fun a ha => mem_toFinset.2 (h a (mem_toFinset.1 ha))
  rw [size_eq_card, size_eq_card, size_eq_card, ← Finset.card_sdiff_of_subset hsub]
  congr 1
  ext a
  simp

/-- An insertion enlarges a set by one, unless the member is there. -/
theorem size_insert [Std.TransOrd α] (s : OrdSet α) (a : α) :
    (s.insert a).size = s.size + if a ∈ s then 0 else 1 := by
  have hinsert : (s.insert a).toFinset = Insert.insert a s.toFinset := by
    ext x
    simp [mem_insert]
  rw [size_eq_card, size_eq_card, hinsert]
  split
  · next ha => rw [Finset.insert_eq_of_mem (mem_toFinset.2 ha), Nat.add_zero]
  · next ha => rw [Finset.card_insert_of_notMem fun h => ha (mem_toFinset.1 h)]

/-- A removal shrinks a set by one, if the member is there. -/
theorem size_erase (s : OrdSet α) (a : α) :
    (s.erase a).size = s.size - if a ∈ s then 1 else 0 := by
  have herase : (s.erase a).toFinset = s.toFinset.erase a := by
    ext x
    rw [mem_toFinset, mem_erase, Finset.mem_erase, mem_toFinset, and_comm]
  rw [size_eq_card, size_eq_card, herase]
  split
  · next ha => rw [Finset.card_erase_of_mem (mem_toFinset.2 ha)]
  · next ha => rw [Finset.erase_eq_of_notMem fun h => ha (mem_toFinset.1 h), Nat.sub_zero]

end OrdSet

namespace Store

variable {s : Store} {q : Quad} {g : Term} {t : GraphTarget}

/-! ## Reports on single quads -/

/-- Removing a quad leaves all others. -/
theorem mem_quads_remove {r : Quad} : r ∈ (s.remove q).quads ↔ r ∈ s.quads ∧ r ≠ q :=
  OrdSet.mem_erase

/-- The size tells that an inserted quad is new. -/
theorem size_insert_ne_iff : (s.size != (s.insert q).size) = true ↔ ¬ q ∈ s.quads := by
  have hsize : (s.insert q).size = s.size + if q ∈ s.quads then 0 else 1 := s.quads.size_insert q
  rw [hsize, bne_iff_ne]
  split <;> simp [*]

/-- The size tells that a removed quad was there. -/
theorem size_remove_ne_iff : (s.size != (s.remove q).size) = true ↔ q ∈ s.quads := by
  have hsize : (s.remove q).size = s.size - if q ∈ s.quads then 1 else 0 := s.quads.size_erase q
  rw [hsize, bne_iff_ne]
  split
  · next hq =>
    have hpos : 0 < s.size := List.length_pos_of_mem hq
    simp only [hq, iff_true]
    omega
  · next hq => simp [hq]

/-! ## Reports on whole graphs -/

/-- Clearing leaves the quads whose graph the target does not cover. -/
theorem mem_quads_clear : q ∈ (s.clear t).quads ↔ q ∈ s.quads ∧ t.covers q.graph = false := by
  rw [clear, OrdSet.mem_filter, Bool.not_eq_true']

/-- Dropping graphs takes the quads that clearing them takes. -/
theorem quads_dropGraphs (s : Store) (t : GraphTarget) :
    (s.dropGraphs t).quads = (s.clear t).quads := by
  cases t <;> rfl

/-- A dropped graph is forgotten if it has a name. -/
theorem mem_graphs_dropGraphs :
    g ∈ (s.dropGraphs t).graphs ↔ g ∈ s.graphs ∧ t.covers (some g) = false := by
  cases t with
  | default => exact ⟨fun h => ⟨h, rfl⟩, And.left⟩
  | named h =>
      refine OrdSet.mem_erase.trans (and_congr_right fun _ => ?_)
      rw [GraphTarget.covers, beq_eq_false_iff_ne, ne_comm]
  | allNamed => simp [dropGraphs, GraphTarget.covers]
  | all => simp [dropGraphs, GraphTarget.covers]

/-- The number of quads by which a store shrinks is the number of quads that it loses. -/
theorem size_sub_size_clear :
    s.size - (s.clear t).size = (s.quads.without (s.clear t).quads).size :=
  OrdSet.size_sub_size fun _ hq => (mem_quads_clear.1 hq).1

/-! ## Names of graphs -/

/-- The graphs of all quads are known. -/
def Named (s : Store) : Prop := ∀ q, q ∈ s.quads → ∀ g, q.graph = some g → g ∈ s.graphs

/-- The empty store knows the graphs of all its quads. -/
theorem named_empty : empty.Named := fun q hq => absurd hq (OrdSet.not_mem_empty q)

/-- An insertion makes the graph of its quad known. -/
theorem Named.insert (h : s.Named) (q : Quad) : (s.insert q).Named := by
  intro r hr g hg
  rw [mem_graphs_insert]
  rcases mem_quads_insert.1 hr with rfl | hr
  · exact .inl hg
  · exact .inr (h r hr g hg)

/-- The same for several insertions. -/
theorem Named.insertAll (h : s.Named) (quads : List Quad) : (quads.foldl Store.insert s).Named := by
  induction quads generalizing s with
  | nil => exact h
  | cons q rest ih => exact ih (h.insert q)

/-- A removal forgets no graph. -/
theorem Named.remove (h : s.Named) (q : Quad) : (s.remove q).Named :=
  fun r hr g hg => h r (mem_quads_remove.1 hr).1 g hg

/-- The same for several removals. -/
theorem Named.removeAll (h : s.Named) (quads : List Quad) : (quads.foldl Store.remove s).Named := by
  induction quads generalizing s with
  | nil => exact h
  | cons q rest ih => exact ih (h.remove q)

/-- Creating a graph forgets none. -/
theorem Named.createGraph (h : s.Named) (g : Term) : (s.createGraph g).Named :=
  fun q hq g' hg => OrdSet.mem_insert.2 (.inr (h q hq g' hg))

/-- Clearing forgets no graph. -/
theorem Named.clear (h : s.Named) (t : GraphTarget) : (s.clear t).Named :=
  fun q hq g hg => h q (mem_quads_clear.1 hq).1 g hg

/-- Only names of graphs are forgotten whose quads are removed. -/
theorem Named.dropGraphs (h : s.Named) (t : GraphTarget) : (s.dropGraphs t).Named := by
  intro q hq g hg
  rw [quads_dropGraphs, mem_quads_clear] at hq
  exact mem_graphs_dropGraphs.2 ⟨h q hq.1 g hg, hg ▸ hq.2⟩

/-- A command keeps the names, also if it fails. -/
theorem Named.runCommand (h : s.Named) (c : GraphCommand) : ((runCommand c).runOn s).2.Named := by
  rcases hrun : (Store.runCommand c).runOn s with ⟨_ | n, s'⟩
  · exact runCommand_error hrun ▸ h
  · cases c with
    | clear target silent =>
        obtain ⟨-, rfl⟩ := Prod.mk.inj hrun
        exact h.clear target
    | load source destination silent =>
        cases silent with
        | true => exact (Prod.mk.inj hrun).2 ▸ h
        | false => cases (Prod.mk.inj hrun).1
    | create g silent =>
        rw [Store.runCommand] at hrun
        simp only [Edit.runOn_bind, Edit.runOn_get, Edit.runOn_set] at hrun
        split at hrun
        · cases (Prod.mk.inj hrun).1
        · obtain ⟨-, rfl⟩ := Prod.mk.inj hrun
          exact h.createGraph g
    | drop target silent =>
        have hdropped : s' = s.dropGraphs target := by
          rw [Store.runCommand] at hrun
          simp only [Edit.runOn_bind, Edit.runOn_get] at hrun
          split at hrun
          · split at hrun
            · cases (Prod.mk.inj hrun).1
            · exact (Prod.mk.inj hrun).2.symm
          · exact (Prod.mk.inj hrun).2.symm
        exact hdropped ▸ h.dropGraphs target

/-- An action keeps the graphs known, also one that fails. -/
theorem Named.runAction (h : s.Named) (a : Action) : ((runAction a).runOn s).2.Named := by
  cases a with
  | insert q => exact h.insert q
  | delete q => exact h
  | command c => exact h.runCommand c

/-- Actions keep the names. If one of them fails, those before it have been carried out. -/
theorem Named.apply (h : s.Named) (actions : List Action) :
    ((Store.apply actions).runOn s).2.Named := by
  have hactions (s : Store) (h : s.Named) (n : Nat) : ((actions.foldlM (fun changed a => do
      return changed + (← Store.runAction a)) n : Edit Store Nat).runOn s).2.Named := by
    induction actions generalizing s n with
    | nil => exact h
    | cons a rest ih =>
        have ha := h.runAction a
        rw [List.foldlM_cons, Edit.runOn_bind, Edit.runOn_bind]
        rcases hrun : (Store.runAction a).runOn s with ⟨_ | k, s'⟩
        · rwa [hrun] at ha
        · rw [hrun] at ha
          exact ih s' ha (n + k)
  exact hactions _ (h.removeAll (deletions actions)) _

/-- A store operation keeps the graphs known, whatever it reports. -/
theorem Named.performed (h : s.Named) (op : StoreOperation) : (s.performed op).Named := by
  cases op with
  | insert q => exact h.insert q
  | insertTriple t => exact h.insert ⟨none, t⟩
  | extend quads => exact h.insertAll quads
  | remove q => exact h.remove q
  | createGraph g => exact h.createGraph g
  | clear t => exact h.clear t
  | dropGraphs t => exact h.dropGraphs t
  | apply actions =>
      have happly := h.apply actions
      rw [Store.performed, StoreOperation.perform, Edit.runOn_bind]
      rcases hrun : (Store.apply actions).runOn s with ⟨_ | n, s'⟩ <;> rwa [hrun] at happly
  | load text =>
      rw [Store.performed, StoreOperation.perform, ofJsonText]
      cases (Json.read? text).bind (Json.list? Quad.ofJson?) with
      | none => exact h
      | some quads => exact named_empty.insertAll quads

/-- Every store reached from the empty one knows the graphs of its quads. -/
theorem named_performedAll (ops : List StoreOperation) : (performedAll ops).Named := by
  suffices ∀ s : Store, s.Named → (ops.foldl Store.performed s).Named from this empty named_empty
  induction ops with
  | nil => exact fun _ h => h
  | cons op rest ih => exact fun s h => ih _ (h.performed op)

/-! ## Actions on quads -/

/-- How many of some operations, one after the other, report that they change something. -/
def reportedChanges : Store → List StoreOperation → Nat
  | _, [] => 0
  | s, op :: rest =>
    (if (op.perform.runOn s).1 = .ok (.changed true) then 1 else 0) +
      reportedChanges (s.performed op) rest

/-- The changes reported by two runs in a row add up. -/
theorem reportedChanges_append (s : Store) (ops ops' : List StoreOperation) :
    s.reportedChanges (ops ++ ops') =
      s.reportedChanges ops + (ops.foldl performed s).reportedChanges ops' := by
  induction ops generalizing s with
  | nil => simp [reportedChanges]
  | cons op rest ih =>
      rw [List.cons_append, reportedChanges, ih, reportedChanges, Nat.add_assoc]
      rfl

/-- An insertion reports a change exactly for a new quad. -/
theorem insert_reports_iff :
    ((StoreOperation.insert q).perform.runOn s).1 = .ok (.changed true) ↔ ¬ q ∈ s.quads := by
  rw [← size_insert_ne_iff]
  change (.ok (.changed _) : Except Error StoreReport) = _ ↔ _
  simp

/-- A removal reports a change exactly for a stored quad. -/
theorem remove_reports_iff :
    ((StoreOperation.remove q).perform.runOn s).1 = .ok (.changed true) ↔ q ∈ s.quads := by
  rw [← size_remove_ne_iff]
  change (.ok (.changed _) : Except Error StoreReport) = _ ↔ _
  simp

/-- As many removals report a change as quads are lost. -/
theorem reportedChanges_remove (s : Store) (quads : List Quad) :
    s.reportedChanges (quads.map .remove) = (s.quads ∩ .ofList quads).size := by
  suffices ∀ s : Store, s.reportedChanges (quads.map .remove) +
      (quads.foldl remove s).size = s.size by
    have hsplit := OrdSet.size_inter_add_size_without s.quads (.ofList quads)
    have hpruned : (quads.foldl remove s).quads = s.quads.without (.ofList quads) := by
      rw [foldl_remove]
      exact OrdSet.eq_of_mem_iff fun q => by simp [changed]
    have hsize := this s
    rw [size, hpruned, size] at hsize
    omega
  induction quads with
  | nil => exact fun s => Nat.zero_add _
  | cons q rest ih =>
      intro s
      have hrest := ih (s.remove q)
      have herased : (s.remove q).size = s.size - if q ∈ s.quads then 1 else 0 :=
        s.quads.size_erase q
      rw [List.map_cons, reportedChanges, List.foldl_cons]
      change _ + (s.remove q).reportedChanges _ + _ = _
      simp only [remove_reports_iff]
      split at herased
      · next hq =>
        have hpos : 0 < s.size := List.length_pos_of_mem hq
        rw [if_pos hq]
        omega
      · next hq =>
        rw [if_neg hq]
        omega

/-- As many insertions report a change as quads are new. -/
theorem reportedChanges_insert (s : Store) (quads : List Quad) :
    s.reportedChanges (quads.map .insert) = ((OrdSet.ofList quads).without s.quads).size := by
  induction quads generalizing s with
  | nil => rfl
  | cons q rest ih =>
      rw [List.map_cons, reportedChanges, OrdSet.size_without_ofList_cons]
      refine congrArg₂ (· + ·) ?_ (ih (s.insert q))
      simp only [insert_reports_iff, ite_not, OrdSet.contains_iff]

/-- Inserting quads one by one adds them all and their graphs. -/
theorem foldl_insert (quads : List Quad) (s : Store) :
    quads.foldl insert s = s.changed ∅ (.ofList quads) := by
  induction quads generalizing s with
  | nil =>
      refine ext (fun q => ?_) fun g => ?_
      · simp [changed]
      · simp [mem_graphs_changed]
  | cons q rest ih =>
      rw [List.foldl_cons, ih]
      refine ext (fun r => ?_) fun g => ?_
      · simp only [changed, OrdSet.mem_union, OrdSet.mem_without, mem_quads_insert,
          OrdSet.not_mem_empty, not_false_eq_true, and_true, OrdSet.mem_ofList, List.mem_cons]
        tauto
      · simp only [mem_graphs_changed, mem_graphs_insert, OrdSet.mem_ofList, List.mem_cons,
          exists_eq_or_imp]
        tauto

/-- The operations that actions on quads stand for: all deletions before any insertion. -/
def operationsOf (actions : List Action) : List StoreOperation :=
  (deletions actions).map .remove ++ (insertions actions).map .insert

/-- The operations of some actions remove the deletions and then add the insertions. -/
theorem foldl_performed_operationsOf (s : Store) (actions : List Action) :
    (operationsOf actions).foldl performed s =
      s.changed (.ofList (deletions actions)) (.ofList (insertions actions)) := by
  rw [operationsOf, List.foldl_append, List.foldl_map, List.foldl_map]
  change (insertions actions).foldl insert ((deletions actions).foldl remove s) = _
  rw [foldl_remove, foldl_insert]
  refine ext (fun q => ?_) fun g => ?_
  · simp [changed]
  · simp [mem_graphs_changed]

/-- The change count of some actions is what their operations report. -/
theorem changeCount_eq (s : Store) (actions : List Action) :
    s.changeCount (.ofList (deletions actions)) (.ofList (insertions actions)) =
      s.reportedChanges (operationsOf actions) := by
  have hpruned : ((deletions actions).foldl remove s).quads =
      s.quads.without (.ofList (deletions actions)) := by
    rw [foldl_remove]
    exact OrdSet.eq_of_mem_iff fun q => by simp [changed]
  have hremoved : ((deletions actions).map StoreOperation.remove).foldl performed s =
      (deletions actions).foldl remove s := List.foldl_map
  rw [operationsOf, reportedChanges_append, reportedChanges_remove, reportedChanges_insert,
    hremoved, hpruned, changeCount]

/-- Actions on quads do and report what their operations do and report. -/
theorem apply_eq_operations {actions : List Action} (h : OnQuads actions) (s : Store) :
    (StoreOperation.apply actions).perform.runOn s =
      (.ok (.count (s.reportedChanges (operationsOf actions))),
        (operationsOf actions).foldl performed s) := by
  rw [StoreOperation.perform, Edit.runOn_bind, apply_eq_changed h, changeCount_eq,
    foldl_performed_operationsOf]
  rfl

/-! ## All stores that operations make -/

/-- Whatever operations have made of the empty store, and whichever of them have failed: the graphs
of all quads are known. Insertions and removals report whether the quad was absent or present.
Clearing and dropping graphs report how many quads are lost, and what belongs to other graphs stays;
clearing forgets no graph. Actions on quads are carried out deletions first and report how many
deletions removed and how many insertions added a quad. -/
theorem performed_spec (ops : List StoreOperation) :
    (∀ q, q ∈ (performedAll ops).quads → ∀ g, q.graph = some g → g ∈ (performedAll ops).graphs) ∧
    (∀ q, ∃ report, (StoreOperation.insert q).perform.runOn (performedAll ops) =
        (.ok (.changed report), (performedAll ops).insert q) ∧
      (report = true ↔ ¬ q ∈ (performedAll ops).quads) ∧
      ∀ r, r ∈ ((performedAll ops).insert q).quads ↔ r = q ∨ r ∈ (performedAll ops).quads) ∧
    (∀ t, ∃ report, (StoreOperation.insertTriple t).perform.runOn (performedAll ops) =
        (.ok (.changed report), (performedAll ops).insert ⟨none, t⟩) ∧
      (report = true ↔ ¬ ⟨none, t⟩ ∈ (performedAll ops).quads)) ∧
    (∀ q, ∃ report, (StoreOperation.remove q).perform.runOn (performedAll ops) =
        (.ok (.changed report), (performedAll ops).remove q) ∧
      (report = true ↔ q ∈ (performedAll ops).quads) ∧
      ∀ r, r ∈ ((performedAll ops).remove q).quads ↔ r ∈ (performedAll ops).quads ∧ r ≠ q) ∧
    (∀ t s', s' = (performedAll ops).performed (.clear t) →
      (StoreOperation.clear t).perform.runOn (performedAll ops) =
        (.ok (.count ((performedAll ops).quads.without s'.quads).size), s') ∧
      (∀ q, q ∈ s'.quads ↔ q ∈ (performedAll ops).quads ∧ t.covers q.graph = false) ∧
      s'.graphs = (performedAll ops).graphs) ∧
    (∀ t s', s' = (performedAll ops).performed (.dropGraphs t) →
      (StoreOperation.dropGraphs t).perform.runOn (performedAll ops) =
        (.ok (.count ((performedAll ops).quads.without s'.quads).size), s') ∧
      (∀ q, q ∈ s'.quads ↔ q ∈ (performedAll ops).quads ∧ t.covers q.graph = false) ∧
      ∀ g, g ∈ s'.graphs ↔ g ∈ (performedAll ops).graphs ∧ t.covers (some g) = false) ∧
    ∀ actions, OnQuads actions →
      (StoreOperation.apply actions).perform.runOn (performedAll ops) =
        (.ok (.count ((performedAll ops).reportedChanges (operationsOf actions))),
          (operationsOf actions).foldl performed (performedAll ops)) := by
  refine ⟨named_performedAll ops, fun q => ⟨_, rfl, size_insert_ne_iff, fun r => mem_quads_insert⟩,
    fun t => ⟨_, rfl, size_insert_ne_iff⟩,
    fun q => ⟨_, rfl, size_remove_ne_iff, fun r => mem_quads_remove⟩, ?_, ?_,
    fun actions h => apply_eq_operations h _⟩
  · rintro t s' rfl
    refine ⟨?_, fun q => mem_quads_clear, rfl⟩
    exact congrArg (fun n => (Except.ok (StoreReport.count n), _)) size_sub_size_clear
  · rintro t s' rfl
    refine ⟨?_, fun q => ?_, fun g => mem_graphs_dropGraphs⟩
    · refine congrArg (fun n => (Except.ok (StoreReport.count n), _)) ?_
      change _ - (OrdSet.size (dropGraphs _ t).quads) =
        (OrdSet.without _ (dropGraphs _ t).quads).size
      rw [quads_dropGraphs]
      exact size_sub_size_clear
    · change q ∈ (dropGraphs _ t).quads ↔ _
      rw [quads_dropGraphs]
      exact mem_quads_clear

end Store

end QuadAlgebra
