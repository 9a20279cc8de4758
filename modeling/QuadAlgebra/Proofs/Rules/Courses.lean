import QuadAlgebra.Proofs.Equivalence.StandIns
import QuadAlgebra.Proofs.Optimization.Edges
import QuadAlgebra.Proofs.Planning.PathSteps
import QuadAlgebra.Proofs.Rules.Meaning

/-!
# What the operators of rules have in each round

In each round operators emit rows from the rows of their producers, which heads of rules have as
quads and all other operators as solutions (`Course`). As a set, what an operator of a rule body has
depends on the sets that its producers have (`Course.makes`), and what a matcher has on the triples
that heads had in the round before (`Course.matchTriple`).
-/

namespace QuadAlgebra

/-! ## Rows as sets -/

/-- The rows are the solutions of a set. -/
def SolutionRows (rows : List Row) (A : Set Solution) : Prop :=
  ∀ row, row ∈ rows ↔ ∃ s ∈ A, Row.solution s = row

/-- The list has the elements of a set. -/
abbrev ListsSet (l : List Solution) (A : Set Solution) : Prop := ∀ s, s ∈ l ↔ s ∈ A

theorem ListsSet.rows {l : List Solution} {A : Set Solution} (h : ListsSet l A) :
    SolutionRows (l.map .solution) A := fun row => by
  rw [List.mem_map]
  exact exists_congr fun s => and_congr_left fun _ => h s

namespace SolutionRows

variable {rows rows' : List Row} {A : Set Solution}

theorem congr (h : SolutionRows rows A) (hrows : ∀ row, row ∈ rows' ↔ row ∈ rows) :
    SolutionRows rows' A := fun row => (hrows row).trans (h row)

theorem exists_list (h : SolutionRows rows A) :
    ∃ l : List Solution, rows = l.map .solution ∧ ListsSet l A := by
  have hall : rows ∈ Set.range (List.map Row.solution) := by
    rw [Set.range_list_map]
    exact fun row hrow => ((h row).1 hrow).imp fun _ hs => hs.2
  obtain ⟨l, rfl⟩ := hall
  refine ⟨l, rfl, fun s => ?_⟩
  rw [← List.mem_map_of_injective Row.solution_injective, h]
  simp [Row.solution_injective.eq_iff]

end SolutionRows

/-! ## Operators on sets -/

/-- From the sets on its operands, one after the other, an operator makes a set. -/
def Operator.Makes (src : Source) (op : Operator Plan) (sets : List (Set Solution))
    (A : Set Solution) : Prop :=
  ∀ (limit : Nat) (id : OperatorId) (l : List (Nat × List Solution)),
    List.Forall₂ (fun o B => ListsSet o.2 B) l sets →
      ∃ emitted : List Solution, (op.opened src limit).emit src id (solutionOperands l) =
        .ok (emitted.map .solution) ∧ ListsSet emitted A

theorem listsSet_flatMap {l : List (Nat × List Solution)} {sets : List (Set Solution)}
    (h : List.Forall₂ (fun o B => ListsSet o.2 B) l sets) :
    ListsSet (l.flatMap Prod.snd) {s | ∃ A ∈ sets, s ∈ A} := by
  intro s
  induction h with
  | nil => simp
  | cons hfirst _ ih =>
      rw [List.flatMap_cons, List.mem_append, hfirst, ih]
      simp

theorem listsSet_joinSolutions {l r : List Solution} {A B : Set Solution} (hl : ListsSet l A)
    (hr : ListsSet r B) : ListsSet (joinSolutions l r) (joinSets A B) := fun s => by
  rw [mem_joinSolutions]
  simp only [hl, hr, joinSets, Set.mem_ofPred_eq]

theorem listsSet_foldl {l : List (Nat × List Solution)} {sets : List (Set Solution)}
    (h : List.Forall₂ (fun o B => ListsSet o.2 B) l sets) {start : List Solution} {A : Set Solution}
    (hstart : ListsSet start A) : ListsSet ((l.map Prod.snd).foldl joinSolutions start)
      (sets.foldl joinSets A) := by
  induction h generalizing start A with
  | nil => exact hstart
  | cons hfirst _ ih => exact ih (listsSet_joinSolutions hstart hfirst)

namespace Operator

variable {src : Source} {sets : List (Set Solution)} {A : Set Solution}

theorem makes_union : Operator.union.Makes src sets {s | ∃ A ∈ sets, s ∈ A} :=
  fun _ _ _ h => ⟨_, emit_union, listsSet_flatMap h⟩

theorem makes_join (hne : sets ≠ []) : Operator.join.Makes src sets (sets.foldl joinSets {∅}) := by
  intro limit id l h
  refine ⟨_, emit_join, ?_⟩
  have hl : l.map Prod.snd ≠ [] := fun he => by
    rw [List.map_eq_nil_iff.1 he] at h
    cases h
    exact hne rfl
  rw [joinAll_eq_joinMany hl]
  exact listsSet_foldl h fun s => by simp

/-- An operator that treats solutions one by one. -/
theorem makes_of_maps {op : Operator Plan} {φ : Solution → Solution → Prop} (h : op.Maps src φ) :
    op.Makes src [A] {s | ∃ a ∈ A, φ a s} := by
  obtain ⟨-, -, f, hemit, hf⟩ := h
  intro limit id l hl
  refine ⟨_, hemit limit id l, fun s => (hf _ s).trans (exists_congr fun a => ?_)⟩
  rw [listsSet_flatMap hl]
  simp

theorem maps_filter {f : Filter Plan} (hnested : f.nested = [])
    (hpatterns : f.condition.existencePatterns = []) :
    (filter f).Maps src fun r r' => r = r' ∧ f.condition.holds [] r' = true := by
  refine ⟨nofun, hnested, List.filter (f.condition.holds []), fun limit id l => ?_,
    fun rows r => by simp [List.mem_filter]⟩
  obtain ⟨condition, nested, slot⟩ := f
  obtain rfl : nested = [] := hnested
  have hfound : nestedSolutions [] 0 condition.existencePatterns = .ok [] := by
    rw [hpatterns]
    rfl
  exact emit_filter (f := ⟨condition, [], slot⟩) hfound

end Operator

/-! ## Producers -/

namespace Graph

variable {γ : Type} {G : Graph γ} {x : OperatorId} {producers : List OperatorId}

/-- An operator reads these producers and no others, each one on an operand of its own and in the
same round. -/
def ReadsEach (G : Graph γ) (x : OperatorId) (producers : List OperatorId) : Prop :=
  ∀ i, G.Reads x i ↔ i.feedback = false ∧ producers[i.operand]? = some i.source

theorem ReadsEach.operandGroups_eq (h : G.ReadsEach x producers) (hlinked : G.Linked) :
    G.operandGroups x =
      (List.range producers.length).map fun k => (k, (G.inputs x).filter (·.operand == k)) := by
  have hsorted : ((G.inputs x).map Input.operand).Pairwise (· ≤ ·) :=
    List.pairwise_map.2 (pairwise_stableSort Input.operand _)
  have hkeys : distinctOf ((G.inputs x).map Input.operand) = List.range producers.length := by
    refine List.Perm.eq_of_pairwise (fun a b _ _ => Nat.le_antisymm)
      (hsorted.sublist (distinctOf_sublist _)) List.pairwise_le_range ?_
    refine (List.perm_ext_iff_of_nodup (nodup_distinctOf _) List.nodup_range).2 fun k => ?_
    rw [mem_distinctOf, List.mem_map, List.mem_range]
    constructor
    · rintro ⟨i, hi, rfl⟩
      exact (List.getElem?_eq_some_iff.1 ((h i).1 (hlinked.mem_inputs.1 hi)).2).1
    · intro hk
      refine ⟨⟨producers[k], k, false⟩, hlinked.mem_inputs.2 ((h _).2 ⟨rfl, ?_⟩), rfl⟩
      exact List.getElem?_eq_getElem hk
  rw [operandGroups, hkeys]

/-- What arrives at such an operator if its producers have the solutions of some sets. -/
theorem ReadsEach.deliver (h : G.ReadsEach x producers) (hlinked : G.Linked)
    (read : Input → List Row) {sets : List (Set Solution)}
    (hread : List.Forall₂ (fun y A => ∀ k, SolutionRows (read ⟨y, k, false⟩) A) producers sets) :
    ∃ l : List (Nat × List Solution), G.deliver read x = solutionOperands l ∧
      List.Forall₂ (fun o A => ListsSet o.2 A) l sets := by
  have hrows (k : Nat) (hk : k < producers.length) (hk' : k < sets.length) :
      SolutionRows (((G.inputs x).filter (·.operand == k)).flatMap read) sets[k] := by
    have hset := hread.get hk hk' k
    refine hset.congr fun row => ?_
    rw [List.mem_flatMap]
    constructor
    · rintro ⟨⟨source, operand, feedback⟩, hi, hrow⟩
      obtain ⟨hmem, hoperand⟩ := List.mem_filter.1 hi
      obtain rfl : operand = k := beq_iff_eq.1 hoperand
      obtain ⟨rfl, hsource⟩ := (h _).1 (hlinked.mem_inputs.1 hmem)
      obtain rfl := Option.some.inj ((List.getElem?_eq_getElem hk).symm.trans hsource)
      exact hrow
    · refine fun hrow => ⟨⟨producers[k], k, false⟩, List.mem_filter.2 ⟨?_, by simp⟩, hrow⟩
      exact hlinked.mem_inputs.2 ((h _).2 ⟨rfl, List.getElem?_eq_getElem hk⟩)
  rw [Graph.deliver, h.operandGroups_eq hlinked, List.map_map]
  have hlength := hread.length_eq
  clear h hread
  rw [hlength] at hrows ⊢
  -- the lists of solutions on the operands, in their order
  have hall : ∀ k (hk : k < sets.length), ∃ l : List Solution,
      ((G.inputs x).filter (·.operand == k)).flatMap read = l.map .solution ∧
        ListsSet l sets[k] := fun k hk => (hrows k hk hk).exists_list
  choose! lists hlists using hall
  refine ⟨(List.range sets.length).map fun k => (k, lists k), ?_, ?_⟩
  · rw [solutionOperands, List.map_map]
    refine List.map_congr_left fun k hk => ?_
    exact congrArg (Prod.mk k) (hlists k (List.mem_range.1 hk)).1
  · refine List.forall₂_iff_get.2 ⟨by simp, fun k hk hk' => ?_⟩
    simpa using (hlists k hk').2

end Graph

/-! ## Courses -/

/-- Rows of the operators of a graph after each round: after a round each one has what it emits from
the rows of its producers, as a set. -/
structure Course (src : Source) (limit : Nat) (G : Graph Plan) (R : Nat → OperatorId → List Row) :
    Prop where
  linked : G.Linked
  start : ∀ x, R 0 x = []
  step : ∀ n x op, G.operator? x = some op → ∃ emitted, (op.opened src limit).emit src x
    (G.deliver (fun i => R (if i.feedback then n else n + 1) i.source) x) = .ok emitted ∧
      ∀ row, row ∈ R (n + 1) x ↔ row ∈ emitted

namespace Course

variable {src : Source} {limit n : Nat} {G : Graph Plan} {R : Nat → OperatorId → List Row}
  {x y : OperatorId} {op : Operator Plan} {A : Set Solution}

theorem root (h : Course src limit G R) (hop : G.operator? x = some .root) :
    SolutionRows (R (n + 1) x) {∅} := by
  obtain ⟨emitted, hemitted, hrows⟩ := h.step n x _ hop
  obtain rfl := Except.ok.inj hemitted
  exact fun row => (hrows row).trans (by simp [eq_comm])

/-- An operator has what it makes of what its producers have. -/
theorem makes (h : Course src limit G R) (hop : G.operator? x = some op)
    {producers : List OperatorId} {sets : List (Set Solution)} (hreads : G.ReadsEach x producers)
    (hproducers : List.Forall₂ (fun y A => SolutionRows (R (n + 1) y) A) producers sets)
    (hmakes : op.Makes src sets A) : SolutionRows (R (n + 1) x) A := by
  obtain ⟨emitted, hemitted, hrows⟩ := h.step n x op hop
  obtain ⟨l, hl, hlists⟩ := hreads.deliver h.linked
    (fun i => R (if i.feedback then n else n + 1) i.source)
    (hproducers.imp fun _ _ hset _ => hset)
  obtain ⟨found, hfound, hset⟩ := hmakes limit x l hlists
  rw [hl, hfound] at hemitted
  obtain rfl := Except.ok.inj hemitted
  exact hset.rows.congr hrows

/-- What arrives at an operator, whatever the operand. -/
theorem mem_rows_deliver (hlinked : G.Linked) {read : Input → List Row} {row : Row} :
    row ∈ (G.deliver read x).rows ↔ ∃ i, G.Reads x i ∧ row ∈ read i := by
  rw [(Graph.rows_deliver_perm read).mem_iff, List.mem_flatMap]
  simp only [hlinked.mem_inputs, Graph.Reads]

theorem result (h : Course src limit G R) {form : ResultForm}
    (hop : G.operator? x = some (.result form)) {row : Row} : row ∈ R (n + 1) x ↔
      ∃ i, G.Reads x i ∧ row ∈ R (if i.feedback then n else n + 1) i.source := by
  obtain ⟨emitted, hemitted, hrows⟩ := h.step n x _ hop
  obtain rfl := Except.ok.inj hemitted
  exact (hrows row).trans (mem_rows_deliver h.linked)

/-- A head has what it derives from what the producer of its body has. -/
theorem generate (h : Course src limit G R) {p : TriplePattern}
    (hop : G.operator? x = some (.generate p)) (hreads : G.ReadsEach x [y])
    (hy : SolutionRows (R (n + 1) y) A) {row : Row} : row ∈ R (n + 1) x ↔
      ∃ t, (∃ s ∈ A, p.Derives s t) ∧ Row.quad ⟨none, t⟩ = row := by
  obtain ⟨emitted, hemitted, hrows⟩ := h.step n x _ hop
  obtain ⟨l, hl, hlists⟩ := hreads.deliver h.linked
    (fun i => R (if i.feedback then n else n + 1) i.source)
    (.cons (fun _ => hy) .nil)
  have hemit : (Operator.generate p).emit src x (solutionOperands l) =
      .ok (((l.flatMap Prod.snd).filterMap p.derive?).map fun t => .quad ⟨none, t⟩) := by
    show (expectSolutions x (solutionOperands l).rows).map _ = _
    rw [solutionOperands.rows_eq, expectSolutions_map]
    rfl
  rw [hl] at hemitted
  obtain rfl := Except.ok.inj (hemit.symm.trans hemitted)
  rw [hrows, List.mem_map]
  refine exists_congr fun t => and_congr_left fun _ => ?_
  simp only [List.mem_filterMap, listsSet_flatMap hlists _, TriplePattern.derive?_eq_some_iff]
  simp

/-- A matcher makes solutions of quads. -/
theorem emit_matchTriple {p : TriplePattern} {operands : Operands} {triples : List Triple}
    (h : operands.rows = triples.map fun t => .quad ⟨none, t⟩) :
    (Operator.matchTriple p).emit src x operands =
      .ok ((triples.filterMap fun t => p.match? t ∅).map .solution) := by
  have hquads : expectRows x .derivedTriples Row.quad? operands.rows =
      .ok (triples.map fun t => ⟨none, t⟩) := by
    rw [h]
    unfold expectRows
    clear h
    induction triples with
    | nil => rfl
    | cons t rest ih =>
        rw [List.map_cons, List.mapM_cons, ih]
        rfl
  show (do
    let quads ← expectRows x .derivedTriples Row.quad? operands.rows
    return (quads.filterMap fun q : Quad => p.match? q.triple ∅).map Row.solution) = _
  rw [hquads]
  show Except.ok (((triples.map fun t => (⟨none, t⟩ : Quad)).filterMap _).map _) = _
  rw [List.filterMap_map]
  rfl

/-- A matcher that reads triples as quads has the solutions of its pattern over them. -/
theorem matchTriple (h : Course src limit G R) {p : TriplePattern}
    (hop : G.operator? x = some (.matchTriple p)) {T : Set Triple}
    (hread : ∀ row, (∃ i, G.Reads x i ∧ row ∈ R (if i.feedback then n else n + 1) i.source) ↔
      ∃ t ∈ T, Row.quad ⟨none, t⟩ = row) : SolutionRows (R (n + 1) x) (p.answers T) := by
  obtain ⟨emitted, hemitted, hrows⟩ := h.step n x _ hop
  generalize hoperands : G.deliver _ x = operands at hemitted
  have harrive (row : Row) : row ∈ operands.rows ↔ ∃ t ∈ T, Row.quad ⟨none, t⟩ = row := by
    rw [← hread, ← hoperands]
    exact mem_rows_deliver h.linked
  have hall : operands.rows ∈ Set.range (List.map fun t : Triple => Row.quad ⟨none, t⟩) := by
    rw [Set.range_list_map]
    exact fun row hrow => ((harrive row).1 hrow).imp fun _ ht => ht.2
  obtain ⟨triples, htriples⟩ := hall
  have hmem (t : Triple) : t ∈ triples ↔ t ∈ T := by
    have ht := harrive (.quad ⟨none, t⟩)
    rw [← htriples] at ht
    simpa using ht
  obtain rfl := Except.ok.inj ((emit_matchTriple htriples.symm).symm.trans hemitted)
  have hset : ListsSet (triples.filterMap fun t => p.match? t ∅) (p.answers T) := fun s => by
    rw [List.mem_filterMap]
    exact exists_congr fun t => and_congr_left fun _ => hmem t
  exact hset.rows.congr hrows

end Course

end QuadAlgebra
