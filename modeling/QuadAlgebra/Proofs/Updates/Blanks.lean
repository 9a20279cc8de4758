import QuadAlgebra.Proofs.Planning.Pairs
import QuadAlgebra.Proofs.Updates.Operations
import QuadAlgebra.Syntax.Build

/-!
# Blank nodes of templates

A blank node in the template of an insertion stands for a new node in every solution of the
pattern. The node is named after the label in the template and the number of the solution, with an
underscore in between. The digits of a number contain no underscore, so the last one separates the
two, whatever the label contains, and the name tells them both (`madeLabel_inj`): nodes for
different labels or for different solutions are different (`UpdateOperation.made_blanks`).

The name does not depend on what is stored. A made node is new to a store in which no blank node is
named in this way, but carrying out an insertion once is enough to have one: the next time, the
nodes are the same (`execute_again`).
-/

namespace QuadAlgebra

/-! ## Names of made nodes -/

/-- The label of the node that is made for a label in the solution of some number. -/
def madeLabel (label : String) (number : Nat) : String := label ++ "_" ++ number.repr

theorem underscore_not_mem_repr (n : Nat) : '_' ∉ n.repr.toList := by
  rw [Nat.toList_repr]
  intro h
  have hdigit := Nat.isDigit_of_mem_toDigits (by decide) (by decide) h
  cases hdigit

/-- Two lists that have been extended by a separator and a list without it are told apart by what
they are extended to. -/
theorem append_separator_inj {α : Type} {sep : α} {l l' d d' : List α} (hd : sep ∉ d)
    (hd' : sep ∉ d') : l ++ sep :: d = l' ++ sep :: d' ↔ l = l' ∧ d = d' := by
  constructor
  · intro h
    induction l generalizing l' with
    | nil =>
        cases l' with
        | nil => exact ⟨rfl, (List.cons.inj h).2⟩
        | cons x rest =>
            obtain ⟨rfl, rfl⟩ := List.cons.inj h
            exact absurd (List.mem_append_right rest List.mem_cons_self) hd
    | cons x rest ih =>
        cases l' with
        | nil =>
            obtain ⟨rfl, rfl⟩ := List.cons.inj h
            exact absurd (List.mem_append_right rest List.mem_cons_self) hd'
        | cons x' rest' =>
            obtain ⟨rfl, htail⟩ := List.cons.inj h
            obtain ⟨rfl, hdd⟩ := ih htail
            exact ⟨rfl, hdd⟩
  · rintro ⟨rfl, rfl⟩
    rfl

/-- The name of a made node tells the label and the number. -/
theorem madeLabel_inj {label label' : String} {n n' : Nat} :
    madeLabel label n = madeLabel label' n' ↔ label = label' ∧ n = n' := by
  have hlist (label : String) (n : Nat) :
      (madeLabel label n).toList = label.toList ++ '_' :: n.repr.toList := by
    simp [madeLabel]
  rw [← String.toList_inj, hlist, hlist,
    append_separator_inj (underscore_not_mem_repr n) (underscore_not_mem_repr n'),
    String.toList_inj,
    String.toList_inj, repr_injective.eq_iff]

/-! ## What templates make -/

/-- A quad that a template makes of a solution, with a node for a label of the template. -/
structure QuadPattern.Makes (p : QuadPattern) (row : Solution) (number : Nat) (label : String)
    (q : Quad) (node : Term) : Prop where
  instance? : p.instance? row number = some q
  place : (p.triple.subject = .term (.blank label) ∧ q.triple.subject = node) ∨
    (p.triple.object = .term (.blank label) ∧ q.triple.object = node)

/-- The parts of a quad are what a template makes of its own. -/
theorem QuadPattern.instance?_parts {p : QuadPattern} {row : Solution} {number : Nat} {q : Quad}
    (h : p.instance? row number = some q) :
    p.triple.subject.instance? row number = some q.triple.subject ∧
      p.triple.object.instance? row number = some q.triple.object := by
  unfold QuadPattern.instance? validTriple? at h
  simp only [bind, Option.bind_eq_some_iff] at h
  obtain ⟨t, ⟨s, hs, u, hu, o, ho, ht⟩, hq⟩ := h
  split at ht
  · obtain rfl := Option.some.inj ht
    have htriple : q.triple = ⟨s, u, o⟩ := by
      split at hq
      · obtain rfl := Option.some.inj hq
        rfl
      · obtain ⟨g, -, hg⟩ := Option.bind_eq_some_iff.1 hq
        split at hg
        · obtain rfl := Option.some.inj hg
          rfl
        · cases hg
    rw [htriple]
    exact ⟨hs, ho⟩
  · cases ht

theorem QuadPattern.Makes.node_eq {p : QuadPattern} {row : Solution} {number : Nat} {label : String}
    {q : Quad} {node : Term} (h : p.Makes row number label q node) :
    node = .blank (madeLabel label number) := by
  obtain ⟨hsubject, hobject⟩ := instance?_parts h.instance?
  rcases h.place with ⟨hplace, rfl⟩ | ⟨hplace, rfl⟩
  · rw [hplace] at hsubject
    exact (Option.some.inj hsubject).symm
  · rw [hplace] at hobject
    exact (Option.some.inj hobject).symm

/-- A quad that the templates of a modification make of one of some solutions, with a node for a
label. -/
def Modification.Makes (m : Modification) (rows : List Solution) (label : String) (number : Nat)
    (q : Quad) (node : Term) : Prop :=
  ∃ row, rows[number]? = some row ∧ ∃ p ∈ m.inserted, p.Makes row number label q node

theorem mem_constructQuads {template : List QuadPattern} {rows : List Solution} {q : Quad} :
    q ∈ constructQuads template rows ↔
      ∃ number row, rows[number]? = some row ∧ ∃ p ∈ template, p.instance? row number = some q := by
  simp only [constructQuads, List.mem_flatMap, List.mem_filterMap, Prod.exists,
    List.mem_zipIdx_iff_getElem?]
  exact exists_comm

/-- A term stands somewhere in a stored quad. -/
def Store.Mentions (s : Store) (t : Term) : Prop :=
  ∃ q ∈ s.quads, q.graph = some t ∨ q.triple.subject = t ∨ q.triple.predicate = t ∨
    q.triple.object = t

/-! ## An insertion with a node -/

/-- `INSERT { _:b <p> ?o } WHERE { ?s <q> ?o }`. -/
def insertNode : Modification :=
  ⟨none, [], [⟨none, ⟨.term (.blank "b"), .term (.iri "p"), .var ⟨"o"⟩⟩⟩], none,
    .ofTriples [⟨.var ⟨"s"⟩, .term (.iri "q"), .var ⟨"o"⟩⟩]⟩

def oneTriple : Store := Store.empty.insert ⟨none, ⟨.iri "a", .iri "q", .iri "c"⟩⟩

/-- What `insertNode` inserts for the first solution. -/
def nodeTriple : Quad := ⟨none, ⟨.blank (madeLabel "b" 0), .iri "p", .iri "c"⟩⟩

/-- The plan inserts the same quad into a store with the triple, whether or not it has been carried
out before. -/
theorem evaluate_insertNode :
    ∃ prepared d, ((UpdateOperation.modify insertNode).prepare (.ofStore .empty)).runOn .empty =
        (.ok prepared, d) ∧
      ∀ s ∈ [oneTriple, oneTriple.insert nodeTriple], ∃ e : Evaluation,
        prepared.plan.evaluate ⟨s, prepared.dataset⟩ defaultIterations = .ok e ∧
        e.actions = [.insert nodeTriple] := by
  generalize hrun : ((UpdateOperation.modify insertNode).prepare (.ofStore .empty)).runOn .empty =
    outcome
  have hfacts : outcome.1.map (fun prepared : Prepared =>
      [oneTriple, oneTriple.insert nodeTriple].map fun s =>
        (prepared.plan.evaluate ⟨s, prepared.dataset⟩ defaultIterations).map Evaluation.actions) =
      .ok ([oneTriple, oneTriple.insert nodeTriple].map fun _ => .ok [.insert nodeTriple]) := by
    rw [← hrun]
    decide +kernel
  obtain ⟨result, d⟩ := outcome
  cases result with
  | error e => cases hfacts
  | ok prepared =>
      refine ⟨prepared, d, rfl, fun s hs => ?_⟩
      have heval := List.map_inj_left.1 (Except.ok.inj hfacts) s hs
      cases he : prepared.plan.evaluate ⟨s, prepared.dataset⟩ defaultIterations with
      | error error => simp [he, Except.map] at heval
      | ok e =>
          rw [he] at heval
          exact ⟨e, rfl, Except.ok.inj heval⟩

/-! ## Made nodes are told apart -/

/-- What an operation inserts, as it is planned, is what its templates make of the solutions of its
pattern. Two nodes that are made for labels of the templates are the same exactly if they are made
for the same label and for the same solution. They are new to every store in which no blank node is
named by a label, an underscore and a number. -/
theorem UpdateOperation.made_blanks {op : UpdateOperation} {m : Modification} {p : Planner}
    {d d' : Draft} {limit : Nat} {s : Store} {e : Evaluation} {prepared : Prepared}
    (hm : op.modification? = some m) (hprepare : (op.prepare p).runOn d = (.ok prepared, d'))
    (heval : prepared.plan.evaluate ⟨s, prepared.dataset⟩ limit = .ok e) :
    ∃ rows, m.solutions p limit d s = .ok rows ∧
      (∀ q, .insert q ∈ e.actions ↔ ∃ number row, rows[number]? = some row ∧
        ∃ t ∈ m.inserted, t.instance? row number = some q) ∧
      (∀ label number q node, m.Makes rows label number q node → .insert q ∈ e.actions) ∧
      (∀ label number q node label' number' q' node', m.Makes rows label number q node →
        m.Makes rows label' number' q' node' →
        (node = node' ↔ label = label' ∧ number = number')) ∧
      ((∀ label number, ¬ s.Mentions (.blank (madeLabel label number))) →
        ∀ label number q node, m.Makes rows label number q node → ¬ s.Mentions node) := by
  obtain ⟨rows, hrows, -, hinserted, -⟩ := evaluate_prepare hm hprepare heval
  have hmem (q : Quad) : .insert q ∈ e.actions ↔ q ∈ constructQuads m.inserted rows := by
    rw [← hinserted, Store.insertions, List.mem_filterMap]
    constructor
    · exact fun h => ⟨_, h, rfl⟩
    · rintro ⟨a, ha, hq⟩
      cases a with
      | insert q' =>
          obtain rfl := Option.some.inj hq
          exact ha
      | _ => cases hq
  refine ⟨rows, hrows, fun q => (hmem q).trans mem_constructQuads, ?_, ?_, ?_⟩
  · rintro label number q node ⟨row, hrow, t, ht, hmakes⟩
    exact (hmem q).2 (mem_constructQuads.2 ⟨number, row, hrow, t, ht, hmakes.instance?⟩)
  · rintro label number q node label' number' q' node' ⟨_, _, _, _, h⟩ ⟨_, _, _, _, h'⟩
    rw [h.node_eq, h'.node_eq, Term.blank.injEq, madeLabel_inj]
  · rintro hclean label number q node ⟨_, _, _, _, h⟩
    rw [h.node_eq]
    exact hclean label number

theorem made_blanks_insertNode :
    ∃ rows, insertNode.solutions (.ofStore .empty) defaultIterations .empty oneTriple = .ok rows ∧
      insertNode.Makes rows "b" 0 nodeTriple (.blank (madeLabel "b" 0)) ∧
      ¬ oneTriple.Mentions (.blank (madeLabel "b" 0)) := by
  obtain ⟨prepared, d, hprepare, hall⟩ := evaluate_insertNode
  obtain ⟨e, heval, hactions⟩ := hall oneTriple List.mem_cons_self
  have hm : (UpdateOperation.modify insertNode).modification? = some insertNode := rfl
  obtain ⟨rows, hrows, hinserts, -, -, hfresh⟩ :=
    UpdateOperation.made_blanks hm hprepare heval
  have hmakes : insertNode.Makes rows "b" 0 nodeTriple (.blank (madeLabel "b" 0)) := by
    obtain ⟨number, row, hrow, t, ht, hinstance⟩ := (hinserts nodeTriple).1 (by simp [hactions])
    obtain rfl := List.mem_singleton.1 ht
    have hnode := (QuadPattern.instance?_parts hinstance).1
    obtain ⟨-, rfl⟩ := madeLabel_inj.1 (Term.blank.inj (Option.some.inj hnode))
    exact ⟨row, hrow, _, ht, hinstance, .inl ⟨rfl, rfl⟩⟩
  refine ⟨rows, hrows, hmakes, hfresh (fun label number => ?_) _ _ _ _ hmakes⟩
  rintro ⟨q, hq, hmentions⟩
  rw [oneTriple, Store.mem_quads_insert] at hq
  rcases hq with rfl | hq
  · simp at hmentions
  · exact OrdSet.not_mem_empty q hq

/-- Carried out for the second time, the insertion makes the same node, which is stored by then, and
so adds nothing. -/
theorem execute_again :
    ((UpdateOperation.modify insertNode).execute (.ofStore .empty) defaultIterations .empty).runOn
        oneTriple = (.ok 1, oneTriple.insert nodeTriple) ∧
      ((UpdateOperation.modify insertNode).execute (.ofStore .empty) defaultIterations .empty).runOn
        (oneTriple.insert nodeTriple) = (.ok 0, oneTriple.insert nodeTriple) ∧
      ∃ prepared d e, ((UpdateOperation.modify insertNode).prepare (.ofStore .empty)).runOn .empty =
          (.ok prepared, d) ∧
        prepared.plan.evaluate ⟨oneTriple.insert nodeTriple, prepared.dataset⟩ defaultIterations =
          .ok e ∧
        .insert nodeTriple ∈ e.actions ∧
        (oneTriple.insert nodeTriple).Mentions nodeTriple.triple.subject := by
  refine ⟨by decide +kernel, by decide +kernel, ?_⟩
  obtain ⟨prepared, d, hprepare, hall⟩ := evaluate_insertNode
  obtain ⟨e, heval, hactions⟩ := hall (oneTriple.insert nodeTriple) (by simp)
  exact ⟨prepared, d, e, hprepare, heval, by simp [hactions], nodeTriple,
    Store.mem_quads_insert.2 (.inl rfl), .inr (.inl rfl)⟩

end QuadAlgebra
